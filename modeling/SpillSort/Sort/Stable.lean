/-!
# Stable sorting by merging

Two sorted lists are merged from the front, many by merging neighbours until one is left. Of equal
elements the one from the list further left comes first; so a list that is cut into single elements
is sorted stably.

* `mergeTwo`, `mergeAll` and `stableSort` are the three; all of them are structurally recursive.
* `mergeTwo_eq` names the merge of the library that `mergeTwo` agrees with.
-/

namespace SpillSort

/-- Merges at most `count` elements of two lists behind those in `merged`, which are kept last
first; the rest of both lists follows as it is. -/
def mergeInto {α : Type} (le : α → α → Bool) :
    (count : Nat) → (merged xs ys : List α) → List α
  | count + 1, merged, x :: xs, y :: ys =>
    if le x y then mergeInto le count (x :: merged) xs (y :: ys)
    else mergeInto le count (y :: merged) (x :: xs) ys
  | _, merged, xs, ys => merged.reverseAux (xs ++ ys)

/-- Merges two lists; of equal elements those of the first list come first. -/
def mergeTwo {α : Type} (le : α → α → Bool) (xs ys : List α) : List α :=
  mergeInto le (xs.length + ys.length) [] xs ys

theorem mergeInto_eq {α : Type} (le : α → α → Bool) {count : Nat} {merged xs ys : List α}
    (h : xs.length + ys.length ≤ count) :
    mergeInto le count merged xs ys = merged.reverse ++ xs.merge ys le := by
  induction count generalizing merged xs ys with
  | zero =>
    obtain rfl : xs = [] := List.eq_nil_of_length_eq_zero (by omega)
    obtain rfl : ys = [] := List.eq_nil_of_length_eq_zero (by omega)
    simp [mergeInto]
  | succ count ih =>
    match xs, ys with
    | [], ys => simp [mergeInto, List.reverseAux_eq]
    | x :: xs, [] => simp [mergeInto, List.reverseAux_eq]
    | x :: xs, y :: ys =>
      simp only [List.length_cons] at h
      rw [mergeInto, List.cons_merge_cons]
      split
      · rw [ih (by simp only [List.length_cons]; omega)]
        simp
      · rw [ih (by simp only [List.length_cons]; omega)]
        simp

theorem mergeTwo_eq {α : Type} (le : α → α → Bool) (xs ys : List α) :
    mergeTwo le xs ys = xs.merge ys le := by
  simp [mergeTwo, mergeInto_eq]

/-- Merges the first list with the second, the third with the fourth, and so on. -/
def mergeAdjacent {α : Type} (le : α → α → Bool) : List (List α) → List (List α)
  | a :: b :: rest => mergeTwo le a b :: mergeAdjacent le rest
  | rest => rest

theorem length_mergeAdjacent {α : Type} (le : α → α → Bool) :
    ∀ ls : List (List α), (mergeAdjacent le ls).length = (ls.length + 1) / 2
  | [] => by simp [mergeAdjacent]
  | [_] => by simp [mergeAdjacent]
  | _ :: _ :: rest => by
    rw [mergeAdjacent, List.length_cons, length_mergeAdjacent le rest]
    simp only [List.length_cons]
    omega

/-- Merges neighbours in at most `rounds` rounds, until one list is left. -/
def mergeRounds {α : Type} (le : α → α → Bool) : (rounds : Nat) → List (List α) → List α
  | _, [] => []
  | _, [a] => a
  | 0, ls => ls.flatten
  | rounds + 1, ls => mergeRounds le rounds (mergeAdjacent le ls)

/-- Merges lists pairwise until one is left. -/
def mergeAll {α : Type} (le : α → α → Bool) (ls : List (List α)) : List α :=
  mergeRounds le ls.length ls

/-- Sorts a list; equal elements keep their order. -/
def stableSort {α : Type} (le : α → α → Bool) (xs : List α) : List α :=
  mergeAll le (xs.map fun x => [x])

end SpillSort
