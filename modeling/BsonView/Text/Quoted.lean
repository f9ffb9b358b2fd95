import BsonView.Text.Hex
import BsonView.Text.Hidden

/-
  Quoted texts.

  A quoted text stands in double quotes. The quote, the
  backslash and four controls have short escapes; any other
  hidden character is given by its code point in braces.

  Main declarations:
    * `Quoted.escape`
    * `Quoted.quote`
-/

------------------------------------------------------------
-- Escapes
------------------------------------------------------------

namespace BsonView

namespace Quoted

/- A character as it stands inside the quotes. -/
def escape (c : Char) : String :=
  match c with
  | '\x00' => "\\0"
  | '\t' => "\\t"
  | '\n' => "\\n"
  | '\r' => "\\r"
  | '"' => "\\\""
  | '\\' => "\\\\"
  | c =>
      if Hidden.contains c then
        "\\u\x7b" ++ Hex.digits c.toNat ++ "\x7d"
      else
        c.toString

/- A text in double quotes. -/
def quote (text : String) : String :=
  "\"" ++ String.join (text.toList.map escape) ++ "\""

end Quoted

end BsonView
