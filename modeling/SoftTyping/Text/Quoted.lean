import SoftTyping.Text.Printable

/-!
# Quoted text

A text between double quotes, as a description of a value shows it: the quote, the backslash and the usual controls are
written with a backslash, any other character that does not show is written by its number, and the rest stands as it is.
-/

namespace SoftTyping.Text

/-- A character as it is written between quotes. -/
def quotedChar (c : Char) : String :=
  match c with
  | '"' => "\\\""
  | '\\' => "\\\\"
  | '\n' => "\\n"
  | '\r' => "\\r"
  | '\t' => "\\t"
  | '\x00' => "\\0"
  | _ => if isPrintable c then c.toString else "\\u\x7b" ++ String.ofList (Nat.toDigits 16 c.toNat) ++ "\x7d"

/-- A text between quotes. -/
def quoted (s : String) : String :=
  "\"" ++ String.join (s.toList.map quotedChar) ++ "\""

end SoftTyping.Text
