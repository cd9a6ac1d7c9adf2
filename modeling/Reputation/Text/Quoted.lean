import Reputation.Text.Hidden

/-!
# Quoted text

A text between quotes, in one line: quotes, backslashes and the common controls are escaped by a
letter, hidden characters by their number.
-/

namespace Reputation.Text

/-- The number of a character in hexadecimal, in braces. -/
def numbered (c : Char) : String :=
  "\\u\x7b" ++ String.ofList (Nat.toDigits 16 c.toNat) ++ "\x7d"

/-- How a character is shown between quotes. -/
def quotedChar (c : Char) : String :=
  match c with
  | '"' => "\\\""
  | '\\' => "\\\\"
  | '\n' => "\\n"
  | '\r' => "\\r"
  | '\t' => "\\t"
  | '\x00' => "\\0"
  | c => if isHidden c then numbered c else c.toString

/-- **The text in quotes.** -/
def quoted (s : String) : String := "\"" ++ String.join (s.toList.map quotedChar) ++ "\""

end Reputation.Text
