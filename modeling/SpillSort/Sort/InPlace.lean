/-!
# The moves of an in-place sort

Sorting in place is quick but not stable: elements that compare equal may come out in another order
than they went in. What decides their order are the moves made before all elements of a part are in
order, and from then on equal elements keep their places. This module makes these moves, on numbers
that are told apart by `lt`; a stable sort of what comes out is the in-place sort.

* Up to 20 elements are inserted one by one, which moves nothing past an equal one. The same holds
  of elements that are in order or in strictly descending order already.
* Up to 32 elements are presorted by two networks of exchanges, one for each half.
* More are divided around a pivot, and if that goes wrong too often, the rest is sorted as a heap.
* `arrange_perm` says that no element is lost or doubled.
-/

namespace SpillSort.InPlace

/-! ## Exchanges -/

/-- Exchanges the elements at two places if the later one is less. -/
def exchange (lt : Nat → Nat → Bool) (v : Array Nat) (i j : Nat) : Array Nat :=
  if lt (v.getD j 0) (v.getD i 0) then v.swapIfInBounds i j else v

/-- Exchanges that sort 9 elements. -/
def nine : List (Nat × Nat) :=
  [(0, 3), (1, 7), (2, 5), (4, 8), (0, 7), (2, 4), (3, 8), (5, 6), (0, 2), (1, 3), (4, 5), (7, 8),
    (1, 4), (3, 6), (5, 7), (0, 1), (2, 4), (3, 5), (6, 8), (2, 3), (4, 5), (6, 7), (1, 2), (3, 4),
    (5, 6)]

/-- Exchanges that sort 13 elements. -/
def thirteen : List (Nat × Nat) :=
  [(0, 12), (1, 10), (2, 9), (3, 7), (5, 11), (6, 8), (1, 6), (2, 3), (4, 11), (7, 9), (8, 10),
    (0, 4), (1, 2), (3, 6), (7, 8), (9, 10), (11, 12), (4, 6), (5, 9), (8, 11), (10, 12), (0, 5),
    (3, 8), (4, 7), (6, 11), (9, 10), (0, 1), (2, 5), (6, 9), (7, 8), (10, 11), (1, 3), (2, 4),
    (5, 6), (9, 10), (1, 2), (3, 4), (5, 7), (6, 8), (2, 3), (4, 5), (6, 7), (8, 9), (3, 4), (5, 6)]

/-- Presorts the first elements of the `length` ones from `start` on. -/
def presort (lt : Nat → Nat → Bool) (start length : Nat) (v : Array Nat) : Array Nat :=
  let network := if 13 ≤ length then thirteen else if 9 ≤ length then nine else []
  network.foldl (fun v (i, j) => exchange lt v (start + i) (start + j)) v

/-- Presorts few elements, from 18 on each half by itself. -/
def presortFew (lt : Nat → Nat → Bool) (v : Array Nat) : Array Nat :=
  if v.size < 18 then presort lt 0 v.size v
  else presort lt (v.size / 2) (v.size - v.size / 2) (presort lt 0 (v.size / 2) v)

/-! ## Pivots -/

/-- The place of the median of three. -/
def median (lt : Nat → Nat → Bool) (v : Array Nat) (a b c : Nat) : Nat :=
  let less (i j : Nat) : Bool := lt (v.getD i 0) (v.getD j 0)
  if less a b = less a c then (if less b c = less a b then b else c) else a

/-- The place of a median of medians from three parts of `n` elements, at most `depth` times. -/
def medianOf (lt : Nat → Nat → Bool) (v : Array Nat) : (depth n a b c : Nat) → Nat
  | 0, _, a, b, c => median lt v a b c
  | depth + 1, n, a, b, c =>
    if 64 ≤ n * 8 then
      let m := n / 8
      let inner (i : Nat) : Nat := medianOf lt v depth m i (i + m * 4) (i + m * 7)
      median lt v (inner a) (inner b) (inner c)
    else median lt v a b c

/-- The place of the element to divide around. -/
def pivotPlace (lt : Nat → Nat → Bool) (v : Array Nat) : Nat :=
  let n := v.size / 8
  medianOf lt v n n 0 (n * 4) (n * 7)

/-! ## Dividing -/

/-- Moves the element at `place` to the front side if it goes left; `count` did so before it. The
element before `place` is the one held back. -/
def divideStep (left : Nat → Bool) : Array Nat × Nat → Nat → Array Nat × Nat
  | (v, count), place =>
    let goes := left (v.getD place 0)
    ((v.swapIfInBounds (place - 1) place).swapIfInBounds (place - 1) (count + 1),
      if goes then count + 1 else count)

/-- Divides elements around the one at `pivot`: those that go left stand in front of it, and it
stands at the place that is given back. -/
def divide (left : Nat → Bool) (v : Array Nat) (pivot : Nat) : Array Nat × Nat :=
  let v := v.swapIfInBounds 0 pivot
  let (v, count) := (List.range (v.size - 2)).foldl (fun s i => divideStep left s (i + 2)) (v, 0)
  let goes := left (v.getD (v.size - 1) 0)
  let v := v.swapIfInBounds (v.size - 1) (count + 1)
  let count := if goes then count + 1 else count
  (v.swapIfInBounds 0 count, count)

/-! ## Heaps -/

/-- Lets the element at `node` sink below greater ones, in a heap of the first `length` elements and
over at most `depth` levels. -/
def sink (lt : Nat → Nat → Bool) (length : Nat) : (depth node : Nat) → Array Nat → Array Nat
  | 0, _, v => v
  | depth + 1, node, v =>
    let first := 2 * node + 1
    if length ≤ first then v
    else
      let child :=
        if first + 1 < length ∧ lt (v.getD first 0) (v.getD (first + 1) 0) then first + 1 else first
      if lt (v.getD node 0) (v.getD child 0) then
        sink lt length depth child (v.swapIfInBounds node child)
      else v

/-- Sorts elements as a heap. -/
def heapSort (lt : Nat → Nat → Bool) (v : Array Nat) : Array Nat :=
  let n := v.size
  (List.range (n + n / 2)).reverse.foldl (fun v i =>
    if n ≤ i then sink lt n n (i - n) v
    else sink lt i n 0 (v.swapIfInBounds 0 i)) v

/-! ## Arranging -/

/-- Arranges elements by dividing them, at most `limit` times in a row. The elements are not less
than `ancestor?`, around which they were divided off. -/
def quick (lt : Nat → Nat → Bool) :
    (limit : Nat) → (ancestor? : Option Nat) → List Nat → List Nat
  | limit, ancestor?, l =>
    if l.length ≤ 32 then (presortFew lt l.toArray).toList
    else
      match limit with
      | 0 => (heapSort lt l.toArray).toList
      | limit + 1 =>
        let place := pivotPlace lt l.toArray
        let pivot := l.toArray.getD place 0
        if ancestor?.any fun a => !lt a pivot then
          let (v, count) := divide (fun x => !lt pivot x) l.toArray place
          v.toList.take (count + 1) ++ quick lt limit none (v.toList.drop (count + 1))
        else
          let (v, count) := divide (fun x => lt x pivot) l.toArray place
          match v.toList.drop count with
          | [] => v.toList
          | p :: right =>
            quick lt limit ancestor? (v.toList.take count) ++ p :: quick lt limit (some p) right

/-- Whether every element relates to the next one. -/
def chained (r : Nat → Nat → Bool) (l : List Nat) : Bool :=
  (l.zip l.tail).all fun (a, b) => r a b

/-- Most elements that are just inserted one by one. -/
def mostInserted : Nat := 20

/-- The elements as they lie before equal ones keep their places. -/
def arrange (lt : Nat → Nat → Bool) (l : List Nat) : List Nat :=
  if l.length ≤ mostInserted ∨ chained (fun a b => !lt b a) l ∨ chained (fun a b => lt b a) l then l
  else quick lt (2 * (l.length ||| 1).log2) none l

/-! ## Nothing is lost -/

section Perm

variable (lt : Nat → Nat → Bool)

theorem swapIfInBounds_perm (v : Array Nat) (i j : Nat) : (v.swapIfInBounds i j).Perm v := by
  rw [Array.swapIfInBounds_def]
  split
  · split
    · exact Array.swap_perm ..
    · exact .refl v
  · exact .refl v

theorem exchange_perm (v : Array Nat) (i j : Nat) : (exchange lt v i j).Perm v := by
  unfold exchange
  split
  · exact swapIfInBounds_perm ..
  · exact .refl v

/-- Steps that only move elements keep them all, one after the other. -/
theorem foldl_perm {β : Type} {f : Array Nat → β → Array Nat} (hf : ∀ v b, (f v b).Perm v)
    (bs : List β) (v : Array Nat) : (bs.foldl f v).Perm v := by
  induction bs generalizing v with
  | nil => exact .refl v
  | cons b bs ih => exact (ih (f v b)).trans (hf v b)

theorem presort_perm (start length : Nat) (v : Array Nat) :
    (presort lt start length v).Perm v := by
  unfold presort
  exact foldl_perm (fun v (b : Nat × Nat) => exchange_perm lt v (start + b.1) (start + b.2)) _ v

theorem presortFew_perm (v : Array Nat) : (presortFew lt v).Perm v := by
  unfold presortFew
  split
  · exact presort_perm ..
  · exact (presort_perm ..).trans (presort_perm ..)

theorem divideStep_perm (left : Nat → Bool) (s : Array Nat × Nat) (place : Nat) :
    (divideStep left s place).1.Perm s.1 :=
  (swapIfInBounds_perm ..).trans (swapIfInBounds_perm ..)

theorem foldl_divideStep_perm (left : Nat → Bool) (places : List Nat) (s : Array Nat × Nat) :
    (places.foldl (fun s i => divideStep left s (i + 2)) s).1.Perm s.1 := by
  induction places generalizing s with
  | nil => exact .refl s.1
  | cons i places ih => exact (ih _).trans (divideStep_perm ..)

theorem divide_perm (left : Nat → Bool) (v : Array Nat) (pivot : Nat) :
    (divide left v pivot).1.Perm v :=
  (swapIfInBounds_perm ..).trans <| (swapIfInBounds_perm ..).trans <|
    (foldl_divideStep_perm ..).trans (swapIfInBounds_perm ..)

theorem sink_perm (length : Nat) : ∀ (depth node : Nat) (v : Array Nat),
    (sink lt length depth node v).Perm v
  | 0, _, v => .refl v
  | depth + 1, node, v => by
    unfold sink
    extract_lets first child
    split
    · exact .refl v
    · split
      · exact (sink_perm length depth child _).trans (swapIfInBounds_perm ..)
      · exact .refl v

theorem heapSort_perm (v : Array Nat) : (heapSort lt v).Perm v := by
  refine foldl_perm (fun v i => ?_) _ v
  split
  · exact sink_perm ..
  · exact (sink_perm ..).trans (swapIfInBounds_perm ..)

theorem quick_perm : ∀ (limit : Nat) (ancestor? : Option Nat) (l : List Nat),
    (quick lt limit ancestor? l).Perm l
  | 0, _, l => by
    unfold quick
    split
    · exact (presortFew_perm lt l.toArray).toList
    · exact (heapSort_perm lt l.toArray).toList
  | limit + 1, ancestor?, l => by
    unfold quick
    split
    · exact (presortFew_perm lt l.toArray).toList
    · simp only []
      split
      · refine .trans (.append_left _ (quick_perm limit none _)) ?_
        rw [List.take_append_drop]
        exact (divide_perm _ l.toArray _).toList
      · split
        · exact (divide_perm _ l.toArray _).toList
        · rename_i p right h
          refine .trans (.append (quick_perm limit ancestor? _)
            (.cons p (quick_perm limit (some p) right))) ?_
          rw [← h, List.take_append_drop]
          exact (divide_perm _ l.toArray _).toList

theorem arrange_perm (l : List Nat) : (arrange lt l).Perm l := by
  unfold arrange
  split
  · exact .refl l
  · exact quick_perm ..

/-- Few elements stay as they are. -/
theorem arrange_of_length_le {l : List Nat} (h : l.length ≤ mostInserted) : arrange lt l = l :=
  if_pos (.inl h)

end Perm

end SpillSort.InPlace
