import ExactScript.Text.Hidden

/-!
# Quoted text

The form in which a string stands inside a printed collection or listing: between double quotes, with a
backslash before what would otherwise be misread. A character that does not show is written by its code
point, `\u{…}` in lower case hexadecimal.
-/

namespace ExactScript.Text

/-- One character of quoted text. -/
def escaped (c : Char) : List Char :=
  match c with
  | '"' => ['\\', '"']
  | '\\' => ['\\', '\\']
  | '\n' => ['\\', 'n']
  | '\r' => ['\\', 'r']
  | '\t' => ['\\', 't']
  | '\x00' => ['\\', '0']
  | c => if isHidden c then ['\\', 'u', '{'] ++ Nat.toDigits 16 c.toNat ++ ['}'] else [c]

/-- The quoted form of a string. -/
def quoted (s : String) : String :=
  String.ofList ('"' :: s.toList.flatMap escaped ++ ['"'])

end ExactScript.Text
