import BsonView.Datum
import BsonView.Display
import BsonView.Editing
import BsonView.Equality
import BsonView.OuterLength
import BsonView.Opening
import BsonView.Target
import BsonView.View
import BsonView.Proofs.Grammar.Forms
import BsonView.Proofs.Grammar.Tree
import BsonView.Proofs.Reading.Bodies
import BsonView.Proofs.RoundTrip
import BsonView.Proofs.Validation.Acceptance
import BsonView.Proofs.Validation.Faults
import BsonView.Proofs.Validation.Recursion
import BsonView.Proofs.Validation.Walk
import BsonView.Proofs.Views.Content
import BsonView.Proofs.Views.Encoding
import BsonView.Proofs.Views.Measuring
import BsonView.Proofs.Writing.Actions
import BsonView.Proofs.Writing.Emission
import BsonView.Proofs.Writing.Exactness
import BsonView.Proofs.Validation.Locality
import BsonView.Proofs.Opening.Paths
import BsonView.Proofs.Reading.Measures
import BsonView.Proofs.Opening.Validity
import BsonView.Proofs.Views.Canonical
import BsonView.Proofs.Opening.Verbatim
import BsonView.Proofs.Opening.Everything
import BsonView.Proofs.Reading.Scalars
import BsonView.Proofs.Views.Observers
import BsonView.Proofs.Views.Demands
import BsonView.Proofs.Equality.Likeness
import BsonView.Proofs.Equality.Texts
import BsonView.Proofs.Writing.Rewriting
import BsonView.Proofs.Opening.Steps
import BsonView.Proofs.Reading.Causes
import BsonView.Proofs.Reading.Tiles
import BsonView.Proofs.Sessions.Anchors
import BsonView.Proofs.Sessions.Coherence
import BsonView.Proofs.Sessions.Operations
import BsonView.Proofs.Sessions.Runs
import BsonView.Proofs.Sessions.Safety
import BsonView.Proofs.Views.Accessing
import BsonView.Proofs.Writing.Causes
import BsonView.Proofs.Writing.Consistency
import BsonView.Proofs.Depths.Limits
import BsonView.Proofs.Depths.Nesting
import BsonView.Proofs.Editing.Positions
import BsonView.Proofs.Editing.Association
import BsonView.Proofs.Arrays.IndexKeys
import BsonView.Proofs.Arrays.StoredKeys
import BsonView.Proofs.Writing.Windows
import BsonView.Proofs.Writing.Shortage
import BsonView.Proofs.Writing.Substitution
import BsonView.Proofs.Writing.OuterLengths
import BsonView.Proofs.Editing.Normalizing
import BsonView.Proofs.Reading.Inverses
import BsonView.Proofs.Views.Constructors
import BsonView.Proofs.Validation.Moving
import BsonView.Proofs.Writing.SelfSizing
import BsonView.Proofs.Views.Making
import BsonView.Proofs.Views.Regexes
import BsonView.Proofs.Writing.Blocks
import BsonView.Proofs.Writing.Targets
import BsonView.Proofs.Reading.Accesses
import BsonView.Proofs.Views.Keys
import BsonView.Proofs.Validation.Invariants
import BsonView.Proofs.Arrays.Renderings
