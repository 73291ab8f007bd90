import SpillSort.Text.Hex
import SpillSort.Text.Unprintable

/-!
# Quoted text

Names inside displays stand between double quotes. Quotes, backslashes and the usual controls have
short escapes; any other character without a shape of its own is written by its number.
-/

namespace SpillSort.Text

/-- One character inside quotes. -/
def escape (c : Char) : String :=
  match c with
  | '"' => "\\\""
  | '\\' => "\\\\"
  | '\n' => "\\n"
  | '\r' => "\\r"
  | '\t' => "\\t"
  | '\x00' => "\\0"
  | c => if isUnprintable c then "\\u\x7b" ++ hex c.toNat ++ "\x7d" else String.singleton c

/-- A text between double quotes. -/
def quoted (s : String) : String := "\"" ++ String.join (s.toList.map escape) ++ "\""

end SpillSort.Text
