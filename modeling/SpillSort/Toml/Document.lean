import SpillSort.Toml.Value

/-!
# Documents

A document is a sequence of lines: headers, which choose the table for the lines that follow, and
assignments. `Document.parse?` is the table a text describes, if it is well formed.
-/

namespace SpillSort.Toml

open Reader

/-- A line that says something. -/
inductive Line where
  /-- A header in single brackets. -/
  | header (path : List String)
  /-- A header in twofold brackets. -/
  | element (path : List String)
  | assignment (path : List String) (v : Value)

namespace Line

/-- A header or an assignment. -/
def read : Reader Line :=
  (do
    literal "[["
    let path ← key
    literal "]]"
    restOfLine
    pure (.element path)) <|>
  (do
    without "[["
    literal "["
    let path ← key
    literal "]"
    restOfLine
    pure (.header path)) <|>
  (do
    let path ← key
    literal "="
    blanks
    let v ← value
    restOfLine
    pure (.assignment path v))

/-- A line that says nothing. -/
def empty : Reader Unit := newline <|> comment *> (newline <|> atEnd)

end Line

/-- A document as far as it is read: its table, and the path of the last header. -/
structure Document where
  table : Table := []
  path : List String := []

namespace Document

/-- Opens a table below `parent`. It has to be new, or only implied so far. -/
def openTable (k : String) (parent : Table) : Option Table :=
  match parent.lookup k with
  | none => some (parent.put k (.table .header []))
  | some (.table .implied below) => some (parent.put k (.table .header below))
  | some _ => none

/-- Opens one more table of a list of tables. -/
def openElement (k : String) (parent : Table) : Option Table :=
  match parent.lookup k with
  | none => some (parent.put k (.tables [[]]))
  | some (.tables items) => some (parent.put k (.tables ([] :: items)))
  | some _ => none

/-- Reads a line. -/
def add (d : Document) : Line → Option Document
  | .header path => do
    let k ← path.getLast?
    pure { table := ← d.table.onHeader (openTable k) path.dropLast, path }
  | .element path => do
    let k ← path.getLast?
    pure { table := ← d.table.onHeader (openElement k) path.dropLast, path }
  | .assignment path v => do
    pure { d with table := ← d.table.onHeader (Table.assign path v) d.path }

/-- The lines of a text. -/
def lines : Reader (List Line) := do
  blanks
  let found ← many ((some <$> Line.read <|> Line.empty *> pure none) <* blanks)
  atEnd
  pure (found.filterMap id)

/-- The table that a text describes. A byte order mark in front does not count. -/
def parse? (s : String) : Option Table := do
  let cs := s.toList
  let (ls, _) ← lines (if cs.head? = some '\ufeff' then cs.tail else cs)
  let d ← ls.foldlM add ({} : Document)
  pure d.table

end Document

end SpillSort.Toml
