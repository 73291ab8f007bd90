import SpillSort.Sort.Key

/-!
# The frontier of a merge

The next rows of the sources of a merge, in a heap by keys and, among equal keys, by the number of
the source.

* `Frontier.push` adds a row, `Frontier.pop?` takes the least one out.
* `Frontier.toList` is the view: all rows in the heap.
-/

namespace SpillSort

/-- The keys of the next row of a source. -/
structure Candidate where
  key : List Value
  source : Nat
  deriving Inhabited

/-- Whether a candidate goes before another: by key, then by source. -/
def Candidate.le (order : RowOrder) (a b : Candidate) : Bool :=
  ((order.compare a.key b.key).then (compare a.source b.source)).isLE

/-- A heap: no candidate in a tree goes before its root. -/
inductive Frontier where
  | empty
  | node (top : Candidate) (below : List Frontier)
  deriving Inhabited

namespace Frontier

/-- Joins two heaps under the lesser of their roots; of equal roots the first one stays on top. -/
def meld (order : RowOrder) : Frontier → Frontier → Frontier
  | empty, b => b
  | a, empty => a
  | node a as, node b bs =>
    if a.le order b then node a (node b bs :: as) else node b (node a as :: bs)

/-- Joins many heaps: neighbours in pairs, then the pairs from the right. -/
def meldAll (order : RowOrder) : List Frontier → Frontier
  | [] => empty
  | [a] => a
  | a :: b :: rest => (a.meld order b).meld order (meldAll order rest)

/-- Adds a candidate. -/
def push (order : RowOrder) (c : Candidate) (f : Frontier) : Frontier := (node c []).meld order f

/-- The least candidate, and the heap without it. -/
def pop? (order : RowOrder) : Frontier → Option (Candidate × Frontier)
  | empty => none
  | node c below => some (c, meldAll order below)

/-- Whether no candidate is left. -/
def isEmpty : Frontier → Bool
  | empty => true
  | node .. => false

mutual

/-- All candidates. -/
def toList : Frontier → List Candidate
  | empty => []
  | node c below => c :: toLists below

/-- All candidates of many heaps. -/
def toLists : List Frontier → List Candidate
  | [] => []
  | f :: fs => f.toList ++ toLists fs

end

end Frontier

end SpillSort
