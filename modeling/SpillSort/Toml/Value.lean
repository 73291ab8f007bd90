import SpillSort.Toml.Number

/-!
# Values and tables

* `value` reads a value; lists and tables in braces nest less deep than `depthLimit`.
* `Table.onDotted` and `Table.onHeader` follow keys down to a table and make what is missing. Which
  tables may be entered depends on how they came about.
-/

namespace SpillSort.Toml

open Reader

/-- How a table came about. -/
inductive Origin where
  /-- In braces. -/
  | braces
  /-- Under a header of its own. -/
  | header
  /-- As part of the path of a header. -/
  | implied
  /-- As part of a key with dots. -/
  | dotted
  deriving DecidableEq, Repr

/-- A value. -/
inductive Value where
  | text (s : String)
  | integer (i : Int)
  | truth (b : Bool)
  /-- A number with a fraction or an exponent, as it is written. -/
  | number (written : String)
  /-- A date or a time, as it is written. -/
  | moment (written : String)
  | list (items : List Value)
  | table (origin : Origin) (entries : List (String × Value))
  /-- Tables under headers in twofold brackets, the last one first. -/
  | tables (items : List (List (String × Value)))

/-- The entries of a table. -/
abbrev Table := List (String × Value)

namespace Table

/-- Puts an entry in the place of one with the same key, or behind all others. -/
def put (k : String) (v : Value) : Table → Table
  | [] => [(k, v)]
  | e :: rest => if e.1 = k then (k, v) :: rest else e :: put k v rest

/-- Adds an entry, whose key has to be new. -/
def add (k : String) (v : Value) (t : Table) : Option Table :=
  if (t.lookup k).isSome then none else some (t.put k v)

/-- Changes the table that the parts of a key before the last dot lead to. Tables under headers of
their own and in braces are not entered; the last one has to come from such keys only. -/
def onDotted (f : Table → Option Table) : List String → Table → Option Table
  | [], t => f t
  | k :: path, t => do
    match t.lookup k with
    | none => pure (t.put k (.table .dotted (← onDotted f path [])))
    | some (.table .dotted below) => pure (t.put k (.table .dotted (← onDotted f path below)))
    | some (.table .implied below) =>
      if path.isEmpty then none
      else pure (t.put k (.table .implied (← onDotted f path below)))
    | some (.tables (last :: earlier)) =>
      if path.isEmpty then none
      else pure (t.put k (.tables ((← onDotted f path last) :: earlier)))
    | some _ => none

/-- Changes the table that the keys of a header lead to. Of a list of tables, the last one is meant;
values are not entered. -/
def onHeader (f : Table → Option Table) : List String → Table → Option Table
  | [], t => f t
  | k :: path, t => do
    match t.lookup k with
    | none => pure (t.put k (.table .implied (← onHeader f path [])))
    | some (.table .braces _) => none
    | some (.table origin below) => pure (t.put k (.table origin (← onHeader f path below)))
    | some (.tables (last :: earlier)) =>
      pure (t.put k (.tables ((← onHeader f path last) :: earlier)))
    | some _ => none

/-- Adds the value of a key with dots. -/
def assign (path : List String) (v : Value) (t : Table) : Option Table :=
  match path.getLast? with
  | none => none
  | some k => t.onDotted (add k v) path.dropLast

end Table

/-- Lists, tables in braces and keys have less than so many levels. -/
def depthLimit : Nat := 80

/-- One part of a key: a quoted text, or letters, digits, underscores and hyphens. -/
def keyPart : Reader String := doubleQuoted <|> singleQuoted <|> do
  let cs ← run fun c => c.isAlphanum || c = '_' || c = '-'
  guard !cs.isEmpty
  pure (String.ofList cs)

/-- A key: parts with dots between them. -/
def key : Reader (List String) := do
  let path ← separated (blanks *> keyPart <* blanks) (literal ".")
  guard (path.length < depthLimit)
  pure path

/-- A value without parts. -/
def scalar : Reader Value :=
  .text <$> quoted <|>
  .moment <$> written moment <|>
  .number <$> written number <|>
  .integer <$> integer <|>
  literal "true" *> pure (.truth true) <|>
  literal "false" *> pure (.truth false)

/-- A list of values in brackets. It may go over several lines, and a comma may stand at its end. -/
def list (item : Reader Value) : Reader Value := do
  literal "["
  let items ← orEmpty (separated (gap *> item <* gap) (literal ","))
  if !items.isEmpty then discard (optional (literal ","))
  gap
  literal "]"
  pure (.list items)

/-- A table in braces, on one line. -/
def braces (item : Reader Value) : Reader Value := do
  literal "\x7b"
  let entry : Reader (List String × Value) := do
    let path ← key
    literal "="
    blanks
    let v ← item
    blanks
    pure (path, v)
  let entries ← orEmpty (separated entry (literal ","))
  blanks
  literal "\x7d"
  let table ← StateT.lift (entries.foldlM (fun t (path, v) => Table.assign path v t) [])
  pure (.table .braces table)

/-- A value with at most `depth` levels of lists and braces. -/
def valueWithin : (depth : Nat) → Reader Value
  | 0 => scalar
  | depth + 1 => scalar <|> list (valueWithin depth) <|> braces (valueWithin depth)

/-- A value. -/
def value : Reader Value := valueWithin (depthLimit - 1)

end SpillSort.Toml
