import BsonView.Error

/-
  Going through a list until something fails.

  Main declarations:
    * `visitAll`
    * `visitAll_attach`
    * `cases_of_visitAll`
    * `visitAll_keeps`
    * `visitAll_again`
    * `visitAll_counts`
-/

------------------------------------------------------------
-- Traversal
------------------------------------------------------------

namespace BsonView

/-
  Act on each member in turn and add up the counts. The
  first failure ends the traversal: what was acted on stays
  so, and the members after it are kept as they are.
-/
def visitAll
    {α β : Type}
    (act : α → Except Error Nat × β)
    (keep : α → β) :
    List α → Except Error Nat × List β
| [] => (.ok 0, [])
| a :: rest =>
    match act a with
    | (.error error, b) =>
        (.error error, b :: rest.map keep)
    | (.ok n, b) =>
        let (count, done) := visitAll act keep rest
        (count.map (n + ·), b :: done)

/- Members that are made of others are acted on as those. -/
theorem visitAll_map
    {α β γ : Type}
    (act : β → Except Error Nat × γ)
    (keep : β → γ)
    (make : α → β)
    (members : List α) :
    visitAll (act ∘ make) (keep ∘ make) members =
      visitAll act keep (members.map make) := by
  induction members with
  | nil => rfl
  | cons first rest ih =>
      rw [List.map_cons, visitAll, visitAll, ih,
        List.map_map]
      rfl

/- Members that are known to be such are acted on as such. -/
theorem visitAll_attach
    {α : Type}
    (act : α → Except Error Nat × α)
    (members : List α) :
    visitAll (fun a => act a.val) Subtype.val
        members.attach =
      visitAll act id members := by
  have hMap :=
    visitAll_map act id (Subtype.val (p := (· ∈ members)))
      members.attach
  rw [List.attach_map_subtype_val] at hMap
  exact hMap

/-
  Either the action succeeds on all members, and each is what
  it makes of it, or so are those before the first that it
  fails on, and those after that one are as they were.
-/
theorem cases_of_visitAll
    {α : Type}
    (act : α → Except Error Nat × α)
    (members : List α) :
    (∃ count,
        (∀ a ∈ members, ∃ n, (act a).1 = .ok n) ∧
          visitAll act id members =
            (.ok count, members.map fun a => (act a).2)) ∨
      ∃ before a rest error,
        members = before ++ a :: rest ∧
          (∀ b ∈ before, ∃ n, (act b).1 = .ok n) ∧
          (act a).1 = .error error ∧
          visitAll act id members =
            (.error error,
              before.map (fun b => (act b).2) ++
                (act a).2 :: rest) := by
  induction members with
  | nil => exact .inl ⟨0, by simp, rfl⟩
  | cons first rest ih =>
      rw [visitAll]
      rcases hAnswer : act first with ⟨error | n, changed⟩
      · refine .inr ⟨[], first, rest, error, ?_⟩
        simp [hAnswer]
      have hFirst : (act first).1 = .ok n := by
        rw [hAnswer]
      rcases ih with
        ⟨count, hAll, hVisit⟩ |
        ⟨before, a, after, error, rfl, hBefore, hFail,
          hVisit⟩
      · refine .inl ⟨n + count, ?_, ?_⟩
        · exact
            List.forall_mem_cons.mpr ⟨⟨n, hFirst⟩, hAll⟩
        · simp [hVisit, hAnswer, Except.map]
      · refine
          .inr ⟨first :: before, a, after, error, rfl, ?_,
            hFail, ?_⟩
        · exact
            List.forall_mem_cons.mpr ⟨⟨n, hFirst⟩, hBefore⟩
        · simp [hVisit, hAnswer, Except.map]

/- What the action keeps of each member is kept of all. -/
theorem visitAll_keeps
    {α : Type}
    {Kept : α → Prop}
    {act : α → Except Error Nat × α}
    (hAct : ∀ {a : α}, Kept a → Kept (act a).2)
    {members : List α}
    (hMembers : ∀ a ∈ members, Kept a) :
    ∀ a ∈ (visitAll act id members).2, Kept a := by
  induction members with
  | nil => exact hMembers
  | cons first rest ih =>
      rcases List.forall_mem_cons.mp hMembers with
        ⟨hFirst, hRest⟩
      have hActed := hAct hFirst
      rw [visitAll]
      cases hAnswer : act first with
      | mk outcome changed =>
          rw [hAnswer] at hActed
          cases outcome with
          | error error =>
              refine List.forall_mem_cons.mpr ⟨hActed, ?_⟩
              rw [List.map_id]
              exact hRest
          | ok n =>
              exact
                List.forall_mem_cons.mpr
                  ⟨hActed, ih hRest⟩

/-
  What acts once on each member acts once on all: another
  traversal after one that did not fail changes nothing.
-/
theorem visitAll_again
    {α : Type}
    {act : α → Except Error Nat × α}
    (hAct :
      ∀ a n, (act a).1 = .ok n →
        act (act a).2 = (.ok 0, (act a).2))
    {members : List α}
    {count : Nat}
    (hVisit : (visitAll act id members).1 = .ok count) :
    visitAll act id (visitAll act id members).2 =
      (.ok 0, (visitAll act id members).2) := by
  induction members generalizing count with
  | nil => rfl
  | cons first rest ih =>
      have hFirst := hAct first
      rw [visitAll] at hVisit ⊢
      rcases hAnswer : act first with ⟨error | n, b⟩
      · rw [hAnswer] at hVisit
        cases hVisit
      · rw [hAnswer] at hFirst hVisit
        rcases hRest : visitAll act id rest with
          ⟨error | more, done⟩
        · rw [hRest] at hVisit
          cases hVisit
        · rw [hRest] at ih
          dsimp only at hFirst ih ⊢
          rw [visitAll, hFirst n rfl, ih rfl]
          rfl

/-
  Where the action answers one for the members it has changed
  in some way and none for the others, all that are changed
  so are counted.
-/
theorem visitAll_counts
    {α : Type}
    {act : α → Except Error Nat × α}
    {changed : α × α → Bool}
    (hAct :
      ∀ a n, (act a).1 = .ok n →
        n = if changed (a, (act a).2) then 1 else 0)
    {members : List α}
    {count : Nat}
    (hVisit : (visitAll act id members).1 = .ok count) :
    count =
      (members.zip (visitAll act id members).2).countP
        changed := by
  induction members generalizing count with
  | nil =>
      cases hVisit
      rfl
  | cons first rest ih =>
      have hFirst := hAct first
      rw [visitAll] at hVisit ⊢
      rcases hAnswer : act first with ⟨error | n, b⟩
      · rw [hAnswer] at hVisit
        cases hVisit
      · rw [hAnswer] at hFirst hVisit
        rcases hRest : visitAll act id rest with
          ⟨error | more, done⟩
        · rw [hRest] at hVisit
          cases hVisit
        · rw [hRest] at hVisit ih
          cases hVisit
          dsimp only
          rw [List.zip_cons_cons, List.countP_cons,
            ← ih rfl, ← hFirst n rfl]
          exact Nat.add_comm n more

end BsonView
