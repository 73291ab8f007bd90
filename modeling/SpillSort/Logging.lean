import SpillSort.Journal
import SpillSort.Text.Blank
import SpillSort.Text.Hex

/-!
# Log filters and log lines

A filter is a list of rules. A rule allows messages up to a level, of all sources or of those whose
names begin in a certain way.

* `LogFilter.admits` looks at the rule with the longest beginning that fits, and refuses where none
  fits.
* `LogFilter.ofText` reads a filter and says which parts of the text it cannot use.
* `logLine` is the one form of a line.
-/

namespace SpillSort

/-- How far down a level stands. -/
def Level.rank : Level → Nat
  | error => 1
  | warn => 2
  | info => 3
  | debug => 4
  | trace => 5

/-- One rule of a log filter. -/
structure LogRule where
  /-- How the names of the sources begin; none for all sources. -/
  source : Option String := none
  /-- The rank of the last level that is allowed; zero allows nothing. -/
  rank : Nat
  deriving DecidableEq, Repr

/-- Why a text is no rule. -/
inductive RuleFault where
  | form
  | level
  deriving DecidableEq, Repr

/-- The text of a fault. -/
def RuleFault.message : RuleFault → String
  | form => "invalid filter directive"
  | level =>
    "error parsing level filter: expected one of \"off\", \"error\", \"warn\", \"info\", " ++
      "\"debug\", \"trace\", or a number 0-5"

namespace LogRule

/-- The names of the levels by rank. -/
def levelNames : List String := ["off", "error", "warn", "info", "debug", "trace"]

/-- The rank of a level that is given by name, in capitals or not, or by number. Nothing stands for
the level of errors. -/
def rankOf? (s : String) : Option Nat :=
  let digits := if s.startsWith "+" then s.toList.tail else s.toList
  if s.isEmpty then some 1
  else if !digits.isEmpty && digits.all Char.isDigit then
    let n := digits.foldl (fun n c => n * 10 + (c.toNat - 48)) 0
    if n < levelNames.length then some n else none
  else levelNames.idxOf? (Text.lowerAscii s)

/-- Reads a rule: a level, the beginning of names, or both with an equals sign between them. Without
a level, all are allowed. -/
def ofText (s : String) : Except RuleFault LogRule :=
  match (Text.trim s).toList with
  | [] => .error .form
  | c :: _ =>
    if c.toNat < 128 && !c.isAlphanum && c ≠ '-' && c ≠ ':' && c ≠ '_' then .error .form
    else
      match s.splitOn "=" with
      | source :: level :: more =>
        let level := "=".intercalate (level :: more)
        match if level.isEmpty then some Level.trace.rank else rankOf? level with
        | some rank => .ok { source := some source, rank }
        | none => .error .level
      | _ =>
        match rankOf? s with
        | some rank => .ok { rank }
        | none => .ok { source := some s, rank := Level.trace.rank }

/-- Whether a rule is about a source. -/
def fits (source : String) (r : LogRule) : Bool :=
  match r.source with
  | some s => source.startsWith s
  | none => true

/-- How much of a name a rule fixes: rules without a beginning come last. -/
def weight (r : LogRule) : Nat := (r.source.map fun s => s.length + 1).getD 0

end LogRule

/-- Rules for what is logged. -/
abbrev LogFilter := List LogRule

namespace LogFilter

/-- Whether a message of a source is logged. Of two rules of one weight the later one counts. -/
def admits (f : LogFilter) (source : String) (level : Level) : Bool :=
  let best := (f.filter (LogRule.fits source)).foldl (fun best r =>
    match best with
    | some b => if b.weight ≤ r.weight then some r else some b
    | none => some r) (none : Option LogRule)
  match best with
  | some r => level.rank ≤ r.rank
  | none => false

/-- Reads rules with commas between them. Faulty ones are left out and complained about; without any
rule, only errors are logged. -/
def ofText (s : String) : LogFilter × List String :=
  let parts := (s.splitOn ",").filter (!·.isEmpty)
  let (rules, complaints) := parts.foldr (fun p (rules, complaints) =>
    match LogRule.ofText p with
    | .ok r => (r :: rules, complaints)
    | .error e => (rules, s!"ignoring `{p}`: {e.message}" :: complaints)) ([], [])
  (if rules.isEmpty then [{ rank := Level.error.rank }] else rules, complaints)

end LogFilter

/-- A message without characters that a terminal would obey; ends of lines and tabs stay. -/
def harmless (message : String) : String :=
  String.join (message.toList.map fun c =>
    if c ∈ ['\x07', '\x08', '\x0c', '\x1b', '\x7f'] then "\\x" ++ Text.hexPadded 2 c.toNat
    else if 0x80 ≤ c.toNat && c.toNat ≤ 0x9f then "\\u\x7b" ++ Text.hex c.toNat ++ "\x7d"
    else String.singleton c)

/-- A line of the log. The stamp says when and where the message came up. -/
def logLine (level : Level) (stamp message : String) : String :=
  s!"{level.letter}{stamp}] {harmless message}\n"

end SpillSort
