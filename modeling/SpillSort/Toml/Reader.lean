/-!
# Readers

A reader takes a value off the front of a text, or does not apply.

* `Reader.many` repeats a reader for as long as it applies; every repetition has to take something.
* `Reader.separated` reads a list with something between its members.
* `Reader.written` answers the text that a reader took instead of its value.
-/

namespace SpillSort.Toml

/-- Takes a value off the front of a text, or does not apply. -/
abbrev Reader := StateT (List Char) Option

namespace Reader

variable {α : Type}

/-- The next character, if it fits. -/
def one (fits : Char → Bool) : Reader Char := fun cs =>
  match cs with
  | c :: rest => if fits c then some (c, rest) else none
  | [] => none

/-- All fitting characters at the front. -/
def run (fits : Char → Bool) : Reader (List Char) := fun cs => some (cs.span fits)

/-- A given text. -/
def literal (s : String) : Reader Unit := fun cs =>
  if s.toList.isPrefixOf cs then some ((), cs.drop s.length) else none

/-- Takes nothing, and applies where a given text does not come next. -/
def without (s : String) : Reader Unit := fun cs =>
  if s.toList.isPrefixOf cs then none else some ((), cs)

/-- The end of the text. -/
def atEnd : Reader Unit := fun cs => if cs.isEmpty then some ((), cs) else none

/-- Repeats a reader as long as it applies, but at most `count` times, after those in `found`. -/
def manyFrom (r : Reader α) : (count : Nat) → (found : List α) → Reader (List α)
  | 0, found => pure found.reverse
  | count + 1, found => fun cs =>
    match r cs with
    | some (a, rest) => manyFrom r count (a :: found) rest
    | none => some (found.reverse, cs)

/-- Repeats a reader, which has to take something each time, as long as it applies. -/
def many (r : Reader α) : Reader (List α) := fun cs => manyFrom r cs.length [] cs

/-- A reader so many times. -/
def times (count : Nat) (r : Reader α) : Reader (List α) := (List.replicate count r).mapM id

/-- At least one value, with `between` between any two. -/
def separated (r : Reader α) (between : Reader Unit) : Reader (List α) := do
  let a ← r
  let rest ← many (between *> r)
  pure (a :: rest)

/-- A list that may be empty. -/
def orEmpty (r : Reader (List α)) : Reader (List α) := r <|> pure []

/-- The text a reader takes. -/
def written (r : Reader α) : Reader String := fun cs =>
  (r cs).map fun (_, rest) => (String.ofList (cs.take (cs.length - rest.length)), rest)

end Reader

/-! ## Blanks, comments and ends of lines -/

open Reader

/-- Blanks within a line. -/
def blanks : Reader Unit := discard (run fun c => c = ' ' || c = '\t')

/-- Whether a character may stand in a text as it is: all but the controls, of which the tab may. -/
def isPlain (c : Char) : Bool := c = '\t' || (' ' ≤ c && c ≠ '\x7f')

/-- The end of a line. -/
def newline : Reader Unit := literal "\n" <|> literal "\r\n"

/-- A comment, up to the end of its line. -/
def comment : Reader Unit := do
  literal "#"
  discard (run isPlain)

/-- What may follow on a line after everything else. -/
def restOfLine : Reader Unit := do
  blanks
  discard (optional comment)
  newline <|> atEnd

/-- Blanks, comments and ends of lines, as many as there are. -/
def gap : Reader Unit :=
  discard (many (discard (one fun c => c = ' ' || c = '\t') <|> newline <|> comment *> newline))

end SpillSort.Toml
