import SpillSort.Toml.Reader

/-!
# Quoted texts

Texts stand between double quotes, with escapes, or between single quotes, as they are. Three quotes
instead of one make a text that may have several lines.
-/

namespace SpillSort.Toml

open Reader

/-- The value of a hexadecimal digit. -/
def hexDigit : Reader Nat := do
  let c ← one fun c => c.isDigit || ('a' ≤ c && c ≤ 'f') || ('A' ≤ c && c ≤ 'F')
  pure (if c.isDigit then c.toNat - 48 else c.toLower.toNat - 87)

/-- The number with the given digits, the first one counting most. -/
def ofDigits (base : Nat) (digits : List Nat) : Nat := digits.foldl (fun n d => n * base + d) 0

/-- The character with a number of `width` hexadecimal digits. -/
def codePoint (width : Nat) : Reader Char := do
  let n := ofDigits 16 (← times width hexDigit)
  if n.isValidChar then pure (Char.ofNat n) else failure

/-- A character that is written with a backslash. -/
def escaped : Reader Char := do
  literal "\\"
  match ← one fun _ => true with
  | 'b' => pure '\x08'
  | 't' => pure '\t'
  | 'n' => pure '\n'
  | 'f' => pure '\x0c'
  | 'r' => pure '\r'
  | '"' => pure '"'
  | '\\' => pure '\\'
  | 'u' => codePoint 4
  | 'U' => codePoint 8
  | _ => failure

/-- A text between double quotes. -/
def doubleQuoted : Reader String := do
  literal "\""
  let cs ← many (one (fun c => isPlain c && c ≠ '"' && c ≠ '\\') <|> escaped)
  literal "\""
  pure (String.ofList cs)

/-- A text between single quotes. -/
def singleQuoted : Reader String := do
  literal "'"
  let cs ← run fun c => isPlain c && c ≠ '\''
  literal "'"
  pure (String.ofList cs)

/-- A text of several lines between threefold quotes, made of pieces. An end of line behind the
opening quotes does not count, and one or two quotes right before the closing ones do. -/
def multiline (quote : Char) (piece : Reader (List Char)) : Reader String := do
  let quotes (n : Nat) : String := String.ofList (List.replicate n quote)
  literal (quotes 3)
  discard (optional newline)
  let pieces ← many (without (quotes 3) *> piece)
  let close (n : Nat) : Reader (List Char) := do
    literal (quotes (n + 3))
    pure (List.replicate n quote)
  let last ← close 2 <|> close 1 <|> close 0
  pure (String.ofList (pieces.flatten ++ last))

/-- The end of a line as a character. -/
def lineBreak : Reader (List Char) := newline *> pure ['\n']

/-- A backslash at the end of a line, with all blanks and ends of lines that follow. -/
def continuation : Reader (List Char) := do
  literal "\\"
  blanks
  newline
  discard (many (discard (one fun c => c = ' ' || c = '\t') <|> newline))
  pure []

/-- A text in any of the four forms. -/
def quoted : Reader String :=
  multiline '"' (List.singleton <$> one (fun c => isPlain c && c ≠ '\\') <|> continuation <|>
      List.singleton <$> escaped <|> lineBreak) <|>
    doubleQuoted <|>
    multiline '\'' (List.singleton <$> one isPlain <|> lineBreak) <|>
    singleQuoted

end SpillSort.Toml
