import Mathlib.Data.List.Nodup
import SpillSort.Data.HyperBatch
import SpillSort.Proofs.KeyOrder
import SpillSort.Sort.GlobalMerge

/-!
# What merging selections makes

Buffers are followed as lists: what lies in front of a segment, the segment, and what lies behind it.
As long as all keys are there, no step of the merge is out of range, and pass by pass the segments
are those that merging lists makes.

* `GlobalMerge.mergePair_eq`, `mergePass_eq` and `mergePasses_eq` go from one segment to all.
* `mergeRuns_eq_mergeSort` is about the whole, `mergeRuns_stable` says what comes of it.
-/

namespace SpillSort

variable {order : RowOrder} {keys : Array EncodedKeys}

theorem RowOrder.lt_eq_not_le (o : RowOrder) (a b : List Value) : o.lt b a = !o.le a b := by
  rw [RowOrder.lt, RowOrder.le, o.compare_swap a b]
  cases o.compare a b <;> rfl

namespace GlobalMerge

/-- Whether an entry may stand before another: the keys they name decide. -/
def entryLe (order : RowOrder) (keys : Array EncodedKeys) (a b : UInt32) : Bool :=
  order.le ((key? keys a).getD []) ((key? keys b).getD [])

theorem entryLe_preordering (order : RowOrder) (keys : Array EncodedKeys) :
    Preordering (entryLe order keys) :=
  order.preordering.comap fun e => (key? keys e).getD []

/-- The entry names a row whose keys are there. -/
def Keyed (keys : Array EncodedKeys) (e : UInt32) : Prop := (key? keys e).isSome

/-! ## Buffers -/

section Buffers

variable (pre post : List UInt32) {mid es : List UInt32} {e x : UInt32}

theorem setIfInBounds_append :
    (pre ++ x :: mid).toArray.setIfInBounds pre.length e = (pre ++ e :: mid).toArray := by
  simp

theorem slice?_append (es : List UInt32) :
    slice? (pre ++ es ++ post).toArray pre.length (pre.length + es.length) = some es := by
  unfold slice?
  rw [if_pos (by simp)]
  simp

theorem write?_append (mid : List UInt32) {hi : Nat} (hhi : pre.length < hi)
    (hpost : hi ≤ pre.length + mid.length + 1) :
    write? (pre ++ x :: mid).toArray hi pre.length e = some (pre ++ e :: mid).toArray := by
  unfold write?
  rw [if_pos ⟨hhi, by simpa [Nat.add_assoc] using hpost⟩, setIfInBounds_append]

theorem writeFrom_append (hmid : mid.length = es.length) :
    writeFrom pre.length es (pre ++ mid ++ post).toArray = (pre ++ es ++ post).toArray := by
  induction es generalizing pre mid with
  | nil =>
    rw [List.eq_nil_of_length_eq_zero hmid]
    rfl
  | cons e es ih =>
    obtain ⟨x, mid, rfl⟩ := List.exists_cons_of_length_eq_add_one hmid
    have hlen : mid.length = es.length := by simpa using hmid
    have hnext := ih (pre ++ [e]) hlen
    simp only [List.append_assoc, List.cons_append, List.nil_append, List.length_append,
      List.length_singleton] at hnext ⊢
    rw [writeFrom, setIfInBounds_append, hnext]

theorem copy?_append (hmid : mid.length = es.length) :
    copy? (pre ++ mid ++ post).toArray pre.length (pre.length + es.length) es =
      some (pre ++ es ++ post).toArray := by
  unfold copy?
  rw [if_pos (by simp [hmid]), writeFrom_append pre post hmid]

end Buffers

/-! ## Segments -/

/-- Where lists end that lie one after the other from a position on. -/
def boundsFrom (position : Nat) : List (List UInt32) → List Nat
  | [] => []
  | es :: rest => (position + es.length) :: boundsFrom (position + es.length) rest

@[simp] theorem length_boundsFrom (position : Nat) (ls : List (List UInt32)) :
    (boundsFrom position ls).length = ls.length := by
  induction ls generalizing position with
  | nil => rfl
  | cons es rest ih => rw [boundsFrom, List.length_cons, ih, List.length_cons]

theorem exists_append_of_le_length {n : Nat} {es : List UInt32} (h : n ≤ es.length) :
    ∃ front back, es = front ++ back ∧ front.length = n :=
  ⟨es.take n, es.drop n, (List.take_append_drop ..).symm, by simp [h]⟩

theorem layOut_eq (pre post : List UInt32) {mid : List UInt32} {ls : List (List UInt32)}
    (hmid : mid.length = ls.flatten.length) :
    layOut ls pre.length (pre ++ mid ++ post).toArray =
      some (boundsFrom pre.length ls, (pre ++ ls.flatten ++ post).toArray) := by
  induction ls generalizing pre mid with
  | nil =>
    rw [List.eq_nil_of_length_eq_zero hmid]
    rfl
  | cons es rest ih =>
    rw [List.flatten_cons, List.length_append] at hmid
    obtain ⟨front, back, rfl, hfront⟩ :=
      exists_append_of_le_length (hmid ▸ Nat.le_add_right es.length _)
    have hback : back.length = rest.flatten.length := by
      rw [List.length_append] at hmid
      omega
    have hcopy := copy?_append pre (back ++ post) hfront
    have hrest := ih (pre ++ es) hback
    simp only [List.append_assoc, List.length_append] at hcopy hrest ⊢
    simp only [layOut, hcopy, hrest, Option.bind_eq_bind, Option.bind_some, List.flatten_cons,
      List.append_assoc, boundsFrom]
    rfl

/-- If one of the segments is used up, the rest of the other one is copied. -/
theorem mergePair_rest {count : Nat} (pre post : List UInt32) {mid left right : List UInt32}
    (hmid : mid.length = left.length + right.length) (hnil : left = [] ∨ right = []) :
    mergePair order keys (pre.length + mid.length) count left right pre.length
        (pre ++ mid ++ post).toArray =
      some (pre ++ left.merge right (entryLe order keys) ++ post).toArray := by
  have hcopies : ∀ {hi position : Nat} {out : Array UInt32},
      mergePair order keys hi count left right position out =
        (copy? out position (position + left.length) left).bind fun out =>
          copy? out (position + left.length) hi right := by
    rcases hnil with rfl | rfl
    · cases count <;> intros <;> rfl
    · cases count <;> cases left <;> intros <;> rfl
  have hmerge : left.merge right (entryLe order keys) = left ++ right := by
    rcases hnil with rfl | rfl <;> simp
  obtain ⟨front, back, rfl, hfront⟩ := exists_append_of_le_length (n := left.length)
    (hmid ▸ Nat.le_add_right _ _)
  have hback : back.length = right.length := by
    rw [List.length_append] at hmid
    omega
  have hfirst := copy?_append pre (back ++ post) hfront
  have hsecond := copy?_append (pre ++ left) post hback
  simp only [List.append_assoc, List.length_append] at hfirst hsecond ⊢
  rw [hcopies, hfirst, Option.bind_some, hfront, hback, ← Nat.add_assoc, hsecond, hmerge,
    List.append_assoc]

/-- Two segments are merged in place of as many entries. -/
theorem mergePair_eq (order : RowOrder) {count : Nat} (pre post : List UInt32)
    {mid left right : List UInt32}
    (hcount : left.length + right.length ≤ count) (hmid : mid.length = left.length + right.length)
    (hleft : ∀ e ∈ left, Keyed keys e) (hright : ∀ e ∈ right, Keyed keys e) :
    mergePair order keys (pre.length + mid.length) count left right pre.length
        (pre ++ mid ++ post).toArray =
      some (pre ++ left.merge right (entryLe order keys) ++ post).toArray := by
  induction count generalizing pre mid left right with
  | zero => exact mergePair_rest pre post hmid (.inl (List.eq_nil_of_length_eq_zero (by omega)))
  | succ count ih =>
    match left, right with
    | [], right => exact mergePair_rest pre post hmid (.inl rfl)
    | left, [] => exact mergePair_rest pre post hmid (.inr rfl)
    | a :: left, b :: right =>
      obtain ⟨x, mid, rfl⟩ := List.exists_cons_of_length_eq_add_one hmid
      obtain ⟨ka, hka⟩ := Option.isSome_iff_exists.mp (hleft a List.mem_cons_self)
      obtain ⟨kb, hkb⟩ := Option.isSome_iff_exists.mp (hright b List.mem_cons_self)
      simp only [List.length_cons] at hcount hmid
      have hwrite : ∀ e, write? (pre ++ x :: mid ++ post).toArray (pre.length + (x :: mid).length)
          pre.length e = some (pre ++ [e] ++ mid ++ post).toArray := fun e => by
        simpa using write?_append pre (x := x) (e := e) (mid ++ post) (by simp) (by simp; omega)
      have hrest : ∀ (e : UInt32) {l r : List UInt32}, l.length + r.length = mid.length →
          (∀ e ∈ l, Keyed keys e) → (∀ e ∈ r, Keyed keys e) →
          mergePair order keys (pre.length + (x :: mid).length) count l r (pre.length + 1)
              (pre ++ [e] ++ mid ++ post).toArray =
            some (pre ++ e :: l.merge r (entryLe order keys) ++ post).toArray := fun e l r h hl hr => by
        simpa [Nat.add_assoc, Nat.add_comm 1] using ih (pre ++ [e]) (by omega) h.symm hl hr
      have hle : entryLe order keys a b = order.le ka kb := by rw [entryLe, hka, hkb]; rfl
      rw [mergePair, hka, hkb, List.cons_merge_cons, hle]
      simp only [Option.bind_eq_bind, Option.bind_some, order.lt_eq_not_le ka kb, hwrite]
      cases order.le ka kb with
      | false =>
        exact hrest b (by simp; omega) hleft fun e he => hright e (List.mem_cons_of_mem b he)
      | true =>
        exact hrest a (by simp; omega) (fun e he => hleft e (List.mem_cons_of_mem a he)) hright

/-- The part of a pass that merges two segments: they are read from where they lie in one buffer, and
written to the same place in the other. -/
theorem mergePair_slices (order : RowOrder) (before behind pre post : List UInt32)
    {mid left right : List UInt32}
    (hpre : before.length = pre.length) (hmid : mid.length = left.length + right.length)
    (hleft : ∀ e ∈ left, Keyed keys e) (hright : ∀ e ∈ right, Keyed keys e) :
    let src := (before ++ (left ++ right) ++ behind).toArray
    slice? src pre.length (pre.length + left.length) = some left ∧
      slice? src (pre.length + left.length) (pre.length + left.length + right.length) =
        some right ∧
      mergePair order keys (pre.length + left.length + right.length) (left.length + right.length)
          left right pre.length (pre ++ mid ++ post).toArray =
        some (pre ++ mergeTwo (entryLe order keys) left right ++ post).toArray := by
  have hfirst := slice?_append before (right ++ behind) left
  have hsecond := slice?_append (before ++ left) behind right
  have hpair := mergePair_eq order pre post (Nat.le_refl _) hmid hleft hright
  rw [hmid, ← Nat.add_assoc, ← mergeTwo_eq] at hpair
  refine ⟨?_, ?_, hpair⟩
  · simpa [hpre] using hfirst
  · simpa [hpre] using hsecond

/-- A pass merges each segment with its neighbour. -/
theorem mergePass_eq (order : RowOrder) : ∀ (before behind pre post : List UInt32) {mid : List UInt32}
    {ls : List (List UInt32)}, before.length = pre.length → mid.length = ls.flatten.length →
    (∀ l ∈ ls, ∀ e ∈ l, Keyed keys e) →
    mergePass order keys (before ++ ls.flatten ++ behind).toArray
        (pre.length :: boundsFrom pre.length ls) (pre ++ mid ++ post).toArray =
      some (boundsFrom pre.length (mergeAdjacent (entryLe order keys) ls),
        (pre ++ (mergeAdjacent (entryLe order keys) ls).flatten ++ post).toArray)
  | _, _, pre, post, mid, [], _, hmid, _ => by
    rw [List.eq_nil_of_length_eq_zero hmid]
    rfl
  | before, behind, pre, post, mid, [l], hpre, hmid, hkeyed => by
    have hnone : ∀ e ∈ ([] : List UInt32), Keyed keys e := nofun
    obtain ⟨hleft, hright, hpair⟩ := mergePair_slices order before behind pre post hpre
      (by simpa using hmid) (hkeyed l List.mem_cons_self) hnone
    have hmerge : mergeTwo (entryLe order keys) l [] = l := by
      rw [mergeTwo_eq]
      exact List.merge_right l
    rw [List.append_nil] at hleft hright
    rw [hmerge] at hpair
    simp only [List.flatten_singleton, boundsFrom, mergePass, hleft, Option.bind_eq_bind,
      Option.bind_some, mergeAdjacent]
    simp only [List.length_nil, Nat.add_zero] at hright hpair
    rw [hright, Option.bind_some, List.length_nil, Nat.add_zero, hpair]
    rfl
  | before, behind, pre, post, mid, a :: b :: rest, hpre, hmid, hkeyed => by
    simp only [List.flatten_cons, List.length_append] at hmid
    obtain ⟨front, back, rfl, hfront⟩ := exists_append_of_le_length (n := a.length + b.length)
      (by omega : a.length + b.length ≤ mid.length)
    obtain ⟨hleft, hright, hpair⟩ := mergePair_slices order before
      (rest.flatten ++ behind) pre (back ++ post) hpre hfront (hkeyed a List.mem_cons_self)
      (hkeyed b (List.mem_cons_of_mem a List.mem_cons_self))
    have hlen : (mergeTwo (entryLe order keys) a b).length = a.length + b.length := by
      rw [mergeTwo_eq]
      exact List.length_merge _ a b
    have hback : back.length = rest.flatten.length := by
      rw [List.length_append] at hmid
      omega
    have hrest := mergePass_eq order (before ++ (a ++ b)) behind
      (pre ++ mergeTwo (entryLe order keys) a b) post (by simp [hpre, hlen]) hback
      fun l hl => hkeyed l (List.mem_cons_of_mem a (List.mem_cons_of_mem b hl))
    simp only [List.length_append, hlen, ← Nat.add_assoc] at hrest
    simp only [List.append_assoc] at hleft hright hpair hrest
    simp only [boundsFrom, mergePass, mergeAdjacent, List.flatten_cons, List.append_assoc, hleft,
      hright, hpair, hrest, hlen, ← Nat.add_assoc, Option.bind_eq_bind, Option.bind_some]
    rfl

theorem mergeAdjacent_perm (le : UInt32 → UInt32 → Bool) : ∀ ls : List (List UInt32),
    (mergeAdjacent le ls).flatten.Perm ls.flatten
  | [] => .refl _
  | [_] => .refl _
  | a :: b :: rest => by
    rw [mergeAdjacent, mergeTwo_eq, List.flatten_cons, List.flatten_cons, List.flatten_cons,
      ← List.append_assoc]
    exact (List.merge_perm_append le).append (mergeAdjacent_perm le rest)

/-- Passes go on until one segment is left; there are never more of them than segments. -/
theorem mergePasses_eq {passes : Nat} {ls : List (List UInt32)} {dst : Array UInt32}
    (hpasses : ls.length ≤ passes + 1) (hdst : dst.size = ls.flatten.length)
    (hkeyed : ∀ e ∈ ls.flatten, Keyed keys e) :
    mergePasses order keys passes (0 :: boundsFrom 0 ls) ls.flatten.toArray dst =
      some (mergeRounds (entryLe order keys) passes ls).toArray := by
  induction passes generalizing ls dst with
  | zero =>
    rcases ls with _ | ⟨l, _ | ⟨b, rest⟩⟩
    · rfl
    · simp [mergePasses, boundsFrom, mergeRounds]
    · simp at hpasses
  | succ passes ih =>
    rcases ls with _ | ⟨a, _ | ⟨b, rest⟩⟩
    · rfl
    · simp [mergePasses, boundsFrom, mergeRounds]
    · have hpass := mergePass_eq order [] [] [] [] rfl hdst fun l hl e he =>
        hkeyed e (List.mem_flatten_of_mem hl he)
      have hperm := mergeAdjacent_perm (entryLe order keys) (a :: b :: rest)
      have hshort : (mergeAdjacent (entryLe order keys) (a :: b :: rest)).length ≤ passes + 1 := by
        rw [length_mergeAdjacent]
        simp only [List.length_cons] at hpasses ⊢
        omega
      have hsize : (a :: b :: rest).flatten.toArray.size =
          (mergeAdjacent (entryLe order keys) (a :: b :: rest)).flatten.length := by
        rw [List.size_toArray, hperm.length_eq]
      have hrest := ih hshort hsize fun e he => hkeyed e (hperm.mem_iff.mp he)
      simp only [List.nil_append, List.append_nil, List.length_nil, Array.toArray_toList] at hpass
      rw [mergePasses, if_neg (by simp [boundsFrom]), hpass]
      exact hrest

end GlobalMerge

/-! ## Runs -/

open GlobalMerge

variable {runs : List SortedRun} {r : SortedRun} {i p : Nat} {e : UInt32} {src dst : Array UInt32}

/-- The keys of runs, by ordinal. -/
def keysOf (runs : List SortedRun) : Array EncodedKeys := (runs.map SortedRun.keys).toArray

/-- The batches of runs, by ordinal. -/
def batchesOf (runs : List SortedRun) : Array Batch := (runs.map fun r => r.chunk.batch).toArray

/-- The entries of each run. -/
def segmentsOf (runs : List SortedRun) : List (List UInt32) :=
  runs.zipIdx.map fun (r, i) => r.entries i

/-- All entries of all runs. -/
def entriesOf (runs : List SortedRun) : List UInt32 := (segmentsOf runs).flatten

/-- The run can be addressed, and reads rows that are there in the order of their keys. -/
structure SortedRun.InKeyOrder (order : RowOrder) (r : SortedRun) : Prop where
  small : r.length ≤ maxSelectionRows
  inRange : ∀ p < r.length, r.rowAt p < r.length
  keyed : ∀ p < r.length, r.rowAt p < r.keys.rows.size
  inOrder : InOrder order.le ((List.range r.length).map r.keyAt)

/-- The entry of a row that a run reads. -/
theorem SortedRun.InKeyOrder.entry (h : r.InKeyOrder order) (hfew : runs.length ≤ maxSelectionBatches)
    (hi : runs[i]? = some r) (hp : p < r.length) :
    let e := GlobalSelection.pack i (r.rowAt p)
    GlobalSelection.batchOf e = i ∧ GlobalSelection.rowOf e = r.rowAt p ∧
      key? (keysOf runs) e = some (r.keyAt p) ∧
      Batch.holds (batchesOf runs) (GlobalSelection.batchOf e, GlobalSelection.rowOf e) := by
  have hlt := (List.getElem?_eq_some_iff.mp hi).1
  have hb : i < maxSelectionBatches := by omega
  have hin := h.inRange p hp
  have hrow : r.rowAt p < maxSelectionRows := Nat.lt_of_lt_of_le hin h.small
  have hkeyed := h.keyed p hp
  have hkeys : (keysOf runs)[i]? = some r.keys := by simp [keysOf, hi]
  have hbatch : (batchesOf runs)[i]? = some r.chunk.batch := by simp [batchesOf, hi]
  intro e
  refine ⟨GlobalSelection.batchOf_pack hb _, GlobalSelection.rowOf_pack hb hrow, ?_, ?_⟩
  · rw [key?, GlobalSelection.batchOf_pack hb, GlobalSelection.rowOf_pack hb hrow, hkeys,
      Option.bind_some, keyAt, EncodedKeys.row, Array.getD_eq_getD_getElem?,
      Array.getElem?_eq_getElem hkeyed]
    rfl
  · rw [GlobalSelection.batchOf_pack hb, GlobalSelection.rowOf_pack hb hrow, Batch.holds, hbatch]
    exact decide_eq_true hin

theorem mem_entriesOf (he : e ∈ entriesOf runs) :
    ∃ i r p, runs[i]? = some r ∧ p < r.length ∧ e = GlobalSelection.pack i (r.rowAt p) := by
  obtain ⟨l, hl, he⟩ := List.mem_flatten.mp he
  obtain ⟨⟨r, i⟩, hri, rfl⟩ := List.mem_map.mp hl
  obtain ⟨row, hrow, rfl⟩ := List.mem_map.mp he
  obtain ⟨p, hp, rfl⟩ := List.mem_map.mp hrow
  exact ⟨i, r, p, by simpa using List.mk_mem_zipIdx_iff_getElem?.mp hri, List.mem_range.mp hp, rfl⟩

theorem pack_mem_entriesOf (hi : runs[i]? = some r) (hp : p < r.length) :
    GlobalSelection.pack i (r.rowAt p) ∈ entriesOf runs := by
  refine List.mem_flatten.mpr ⟨r.entries i, List.mem_map.mpr ⟨(r, i), ?_, rfl⟩, ?_⟩
  · exact List.mk_mem_zipIdx_iff_getElem?.mpr (by simpa using hi)
  · exact List.mem_map_of_mem (List.mem_map_of_mem (List.mem_range.mpr hp))

theorem length_entriesOf (runs : List SortedRun) :
    (entriesOf runs).length = total (runs.map SortedRun.length) := by
  have hlen : ∀ n, ((runs.zipIdx n).map fun (r, i) => r.entries i).flatten.length =
      total (runs.map SortedRun.length) := by
    induction runs with
    | nil => exact fun _ => rfl
    | cons r runs ih =>
      intro n
      rw [List.zipIdx_cons, List.map_cons, List.flatten_cons, List.length_append, ih]
      simp [SortedRun.entries, SortedRun.rows]
  exact hlen 0

/-- If all runs are in key order, merging them ends, stays in range, and merges all entries stably. -/
theorem mergeRuns_eq_mergeSort (h : ∀ r ∈ runs, r.InKeyOrder order)
    (hfew : runs.length ≤ maxSelectionBatches) (hsrc : src.size = total (runs.map SortedRun.length))
    (hdst : dst.size = total (runs.map SortedRun.length)) :
    mergeRuns order runs src dst =
      some ((entriesOf runs).mergeSort (entryLe order (keysOf runs))).toArray := by
  have hentry : ∀ {i r p}, runs[i]? = some r → p < r.length →
      key? (keysOf runs) (GlobalSelection.pack i (r.rowAt p)) = some (r.keyAt p) :=
    fun hi hp => ((h _ (List.mem_of_getElem? hi)).entry hfew hi hp).2.2.1
  have hkeyed : ∀ e ∈ entriesOf runs, Keyed (keysOf runs) e := by
    intro e he
    obtain ⟨i, r, p, hi, hp, rfl⟩ := mem_entriesOf he
    rw [Keyed, hentry hi hp]
    rfl
  have hsorted : ∀ l ∈ segmentsOf runs,
      InOrder (entryLe order (keysOf runs)) l := by
    intro l hl
    obtain ⟨⟨r, i⟩, hri, rfl⟩ := List.mem_map.mp hl
    have hi : runs[i]? = some r := by simpa using List.mk_mem_zipIdx_iff_getElem?.mp hri
    have hs := (h r (List.mem_of_getElem? hi)).inOrder
    rw [InOrder, List.pairwise_map] at hs
    show InOrder _ (r.entries i)
    rw [SortedRun.entries, SortedRun.rows, List.map_map, InOrder, List.pairwise_map]
    refine hs.imp_of_mem fun {p q} hp hq hle => ?_
    rw [entryLe, Function.comp_apply, Function.comp_apply, hentry hi (List.mem_range.mp hp),
      hentry hi (List.mem_range.mp hq)]
    exact hle
  rw [← length_entriesOf] at hsrc hdst
  have hlay : layOut (segmentsOf runs) 0 src =
      some (boundsFrom 0 (segmentsOf runs), (entriesOf runs).toArray) := by
    simpa [entriesOf] using layOut_eq [] [] hsrc
  have hmerge : mergePasses order (keysOf runs) runs.length
      (0 :: boundsFrom 0 (segmentsOf runs)) (entriesOf runs).toArray dst =
        some (mergeRounds (entryLe order (keysOf runs)) runs.length (segmentsOf runs)).toArray :=
    mergePasses_eq (by simp [segmentsOf]) hdst hkeyed
  have hall := (entryLe_preordering order (keysOf runs)).mergeAll_eq hsorted
  rw [mergeAll, show (segmentsOf runs).length = runs.length by simp [segmentsOf]] at hall
  rw [hall] at hmerge
  rw [mergeRuns]
  show (layOut (segmentsOf runs) 0 src).bind _ = _
  rw [hlay]
  exact hmerge

/-! ## The order of the merge -/

/-- A run that is sorted: it reads every row of its batch once, in the order of the keys, which all
rows have. -/
structure SortedRun.Sorted (order : RowOrder) (r : SortedRun) : Prop where
  once : r.rows.Perm (List.range r.length)
  keyed : r.length ≤ r.keys.rows.size
  inOrder : InOrder order.le ((List.range r.length).map r.keyAt)

theorem SortedRun.Sorted.inKeyOrder (h : r.Sorted order) (hsmall : r.length ≤ maxSelectionRows) :
    r.InKeyOrder order := by
  have hin : ∀ p < r.length, r.rowAt p < r.length := fun p hp =>
    List.mem_range.mp (h.once.mem_iff.mp (List.mem_map_of_mem (List.mem_range.mpr hp)))
  exact ⟨hsmall, hin, fun p hp => Nat.lt_of_lt_of_le (hin p hp) h.keyed, h.inOrder⟩

theorem SortedRun.Sorted.rowAt_inj (h : r.Sorted order) {q : Nat} (hp : p < r.length)
    (hq : q < r.length) (heq : r.rowAt p = r.rowAt q) : p = q := by
  have hnodup : r.rows.Nodup := h.once.nodup_iff.mpr List.nodup_range
  rw [rows] at hnodup
  exact List.inj_on_of_nodup_map hnodup (List.mem_range.mpr hp) (List.mem_range.mpr hq) heq

/-- The first entry is for a position of a run that comes before the one of the second entry. -/
def Earlier (runs : List SortedRun) (a b : UInt32) : Prop :=
  ∃ i r p j s q, runs[i]? = some r ∧ p < r.length ∧ a = GlobalSelection.pack i (r.rowAt p) ∧
    runs[j]? = some s ∧ q < s.length ∧ b = GlobalSelection.pack j (s.rowAt q) ∧
    (i < j ∨ i = j ∧ p < q)

theorem pairwise_entriesOf (runs : List SortedRun) : (entriesOf runs).Pairwise (Earlier runs) := by
  refine List.pairwise_flatten.mpr ⟨fun l hl => ?_, ?_⟩
  · obtain ⟨⟨r, i⟩, hri, rfl⟩ := List.mem_map.mp hl
    have hi : runs[i]? = some r := by simpa using List.mk_mem_zipIdx_iff_getElem?.mp hri
    show (r.entries i).Pairwise _
    rw [SortedRun.entries, SortedRun.rows, List.map_map, List.pairwise_map]
    refine List.pairwise_lt_range.imp_of_mem fun {p q} hp hq hlt => ?_
    exact ⟨i, r, p, i, r, q, hi, List.mem_range.mp hp, rfl, hi, List.mem_range.mp hq, rfl,
      .inr ⟨rfl, hlt⟩⟩
  · rw [segmentsOf, List.pairwise_map]
    refine List.pairwise_iff_getElem.mpr fun m n hm hn hlt a ha b hb => ?_
    simp only [List.length_zipIdx] at hm hn
    simp only [List.getElem_zipIdx, Nat.zero_add, SortedRun.entries, SortedRun.rows, List.map_map,
      List.mem_map, List.mem_range] at ha hb
    obtain ⟨p, hp, rfl⟩ := ha
    obtain ⟨q, hq, rfl⟩ := hb
    exact ⟨m, runs[m], p, n, runs[n], q, List.getElem?_eq_getElem hm, hp, rfl,
      List.getElem?_eq_getElem hn, hq, rfl, .inl hlt⟩

/-- The row that an entry names stands before the row that another one names: its key is less, or
the keys are equal, and it comes from an earlier run or from an earlier position of the same run. -/
def Precedes (order : RowOrder) (runs : List SortedRun) (a b : UInt32) : Prop :=
  ∃ r p s q, runs[GlobalSelection.batchOf a]? = some r ∧ p < r.length ∧
    r.rowAt p = GlobalSelection.rowOf a ∧ runs[GlobalSelection.batchOf b]? = some s ∧
    q < s.length ∧ s.rowAt q = GlobalSelection.rowOf b ∧ order.le (r.keyAt p) (s.keyAt q) ∧
    (order.le (s.keyAt q) (r.keyAt p) → GlobalSelection.batchOf a < GlobalSelection.batchOf b ∨
      GlobalSelection.batchOf a = GlobalSelection.batchOf b ∧ p < q)

theorem HyperBatch.gather_ne_outOfRange (schema : Schema) {batches : Array Batch}
    {part : Array UInt32} (h : ∀ e ∈ part,
      Batch.holds batches (GlobalSelection.batchOf e, GlobalSelection.rowOf e)) :
    HyperBatch.gather ⟨schema, batches⟩ part ≠ .error .outOfRange := by
  unfold gather Batch.gather
  split
  · exact nofun
  split
  · exact nofun
  rw [if_neg]
  · exact nofun
  · simp only [Array.any_eq_true, not_exists, Bool.not_eq_true', Bool.not_eq_false]
    intro n hn
    rw [Array.getElem_map]
    exact h _ (Array.getElem_mem _)

section Sorted

variable (hruns : ∀ r ∈ runs, r.Sorted order ∧ r.length ≤ maxSelectionRows)
  (hfew : runs.length ≤ maxSelectionBatches)
include hruns hfew

theorem entry_of_sorted (hi : runs[i]? = some r) (hp : p < r.length) :
    let e := GlobalSelection.pack i (r.rowAt p)
    GlobalSelection.batchOf e = i ∧ GlobalSelection.rowOf e = r.rowAt p ∧
      key? (keysOf runs) e = some (r.keyAt p) ∧
      Batch.holds (batchesOf runs) (GlobalSelection.batchOf e, GlobalSelection.rowOf e) :=
  have hr := hruns r (List.mem_of_getElem? hi)
  (hr.1.inKeyOrder hr.2).entry hfew hi hp

/-- An entry stands for one position of one run. -/
theorem position_inj {j q : Nat} {s : SortedRun} (hi : runs[i]? = some r) (hp : p < r.length)
    (hj : runs[j]? = some s) (hq : q < s.length)
    (heq : GlobalSelection.pack i (r.rowAt p) = GlobalSelection.pack j (s.rowAt q)) :
    i = j ∧ r = s ∧ p = q := by
  obtain ⟨hbp, hrp, -⟩ := entry_of_sorted hruns hfew hi hp
  obtain ⟨hbq, hrq, -⟩ := entry_of_sorted hruns hfew hj hq
  rw [heq] at hbp hrp
  obtain rfl := hbp.symm.trans hbq
  obtain rfl := Option.some.inj (hi.symm.trans hj)
  exact ⟨rfl, rfl, (hruns r (List.mem_of_getElem? hi)).1.rowAt_inj hp hq (hrp.symm.trans hrq)⟩

theorem nodup_entriesOf :
    ((entriesOf runs).map fun e => (GlobalSelection.batchOf e, GlobalSelection.rowOf e)).Nodup := by
  rw [List.Nodup, List.pairwise_map]
  refine (pairwise_entriesOf runs).imp fun {a b} hab heq => ?_
  obtain ⟨i, r, p, j, s, q, hi, hp, rfl, hj, hq, rfl, hlt⟩ := hab
  obtain ⟨hbp, hrp, -⟩ := entry_of_sorted hruns hfew hi hp
  obtain ⟨hbq, hrq, -⟩ := entry_of_sorted hruns hfew hj hq
  rw [hbp, hrp, hbq, hrq, Prod.mk.injEq] at heq
  obtain ⟨rfl, hrow⟩ := heq
  obtain rfl := Option.some.inj (hi.symm.trans hj)
  have hpq := (hruns r (List.mem_of_getElem? hi)).1.rowAt_inj hp hq hrow
  omega

/-- The entries are those of all rows of all runs. -/
theorem mem_entriesOf_iff (i row : Nat) :
    (∃ e ∈ entriesOf runs, e = GlobalSelection.pack i row ∧ GlobalSelection.batchOf e = i ∧
      GlobalSelection.rowOf e = row) ↔ ∃ r, runs[i]? = some r ∧ row < r.length := by
  constructor
  · rintro ⟨e, he, -, hb, hr⟩
    obtain ⟨j, r, p, hj, hp, rfl⟩ := mem_entriesOf he
    obtain ⟨hbe, hre, -⟩ := entry_of_sorted hruns hfew hj hp
    have hsorted := hruns r (List.mem_of_getElem? hj)
    have hin := (hsorted.1.inKeyOrder hsorted.2).inRange p hp
    exact ⟨r, by rw [← hb, hbe, hj], by rwa [← hr, hre]⟩
  · rintro ⟨r, hi, hrow⟩
    have hmem : row ∈ r.rows := (hruns r (List.mem_of_getElem? hi)).1.once.mem_iff.mpr
      (List.mem_range.mpr hrow)
    obtain ⟨p, hp, rfl⟩ := List.mem_map.mp hmem
    have hp := List.mem_range.mp hp
    obtain ⟨hbe, hre, -⟩ := entry_of_sorted hruns hfew hi hp
    exact ⟨_, pack_mem_entriesOf hi hp, rfl, hbe, hre⟩

theorem precedes_mergeSort :
    ((entriesOf runs).mergeSort (entryLe order (keysOf runs))).Pairwise (Precedes order runs) := by
  have hle : ∀ {a b : UInt32} {k l : List Value}, key? (keysOf runs) a = some k →
      key? (keysOf runs) b = some l → entryLe order (keysOf runs) a b = order.le k l :=
    fun ha hb => by rw [entryLe, ha, hb]; rfl
  refine ((entryLe_preordering order (keysOf runs)).pairwise_mergeSort_of
    (pairwise_entriesOf runs)).imp_of_mem fun {a b} ha hb hab => ?_
  obtain ⟨i, r, p, hi, hp, rfl⟩ := mem_entriesOf (List.mem_mergeSort.mp ha)
  obtain ⟨j, s, q, hj, hq, rfl⟩ := mem_entriesOf (List.mem_mergeSort.mp hb)
  obtain ⟨hbp, hrp, hkp, -⟩ := entry_of_sorted hruns hfew hi hp
  obtain ⟨hbq, hrq, hkq, -⟩ := entry_of_sorted hruns hfew hj hq
  rw [hle hkp hkq, hle hkq hkp] at hab
  refine ⟨r, p, s, q, hbp.symm ▸ hi, hp, hrp.symm, hbq.symm ▸ hj, hq, hrq.symm, hab.1,
    fun htie => ?_⟩
  obtain ⟨i', r', p', j', s', q', hi', hp', hpp, hj', hq', hqq, hlt⟩ := hab.2 htie
  obtain ⟨rfl, rfl, rfl⟩ := position_inj hruns hfew hi hp hi' hp' hpp
  obtain ⟨rfl, rfl, rfl⟩ := position_inj hruns hfew hj hq hj' hq' hqq
  rw [hbp, hbq]
  exact hlt

end Sorted

/-- Merging sorted runs that can be addressed, in two buffers with room for just their rows: the
passes end with nothing out of range, and what they leave has every row of every run once, in the
order of the keys and else of the runs and of the positions in them. No entry is out of range when
rows are gathered. -/
theorem mergeRuns_stable (order : RowOrder) (runs : List SortedRun) (src dst : Array UInt32)
    (hruns : ∀ r ∈ runs, r.Sorted order ∧ r.length ≤ maxSelectionRows)
    (hfew : runs.length ≤ maxSelectionBatches) (hsrc : src.size = total (runs.map SortedRun.length))
    (hdst : dst.size = total (runs.map SortedRun.length)) :
    ∃ entries, mergeRuns order runs src dst = some entries ∧
      entries.size = total (runs.map SortedRun.length) ∧
      (entries.toList.map fun e => (GlobalSelection.batchOf e, GlobalSelection.rowOf e)).Nodup ∧
      (∀ i row, (∃ e ∈ entries, e = GlobalSelection.pack i row ∧ GlobalSelection.batchOf e = i ∧
          GlobalSelection.rowOf e = row) ↔ ∃ r, runs[i]? = some r ∧ row < r.length) ∧
      entries.toList.Pairwise (Precedes order runs) ∧
      (∀ e ∈ entries, Batch.holds (batchesOf runs)
        (GlobalSelection.batchOf e, GlobalSelection.rowOf e)) ∧
      ∀ schema (part : Array UInt32), (∀ e ∈ part, e ∈ entries) →
        HyperBatch.gather ⟨schema, batchesOf runs⟩ part ≠ .error .outOfRange := by
  have hkey : ∀ r ∈ runs, r.InKeyOrder order := fun r hr =>
    (hruns r hr).1.inKeyOrder (hruns r hr).2
  have hperm := List.mergeSort_perm (entriesOf runs) (entryLe order (keysOf runs))
  have hholds : ∀ e ∈ ((entriesOf runs).mergeSort (entryLe order (keysOf runs))).toArray,
      Batch.holds (batchesOf runs) (GlobalSelection.batchOf e, GlobalSelection.rowOf e) := by
    intro e he
    obtain ⟨j, r, p, hj, hp, rfl⟩ := mem_entriesOf (by simpa using he)
    exact (entry_of_sorted hruns hfew hj hp).2.2.2
  refine ⟨_, mergeRuns_eq_mergeSort hkey hfew hsrc hdst, ?_, ?_, ?_,
    precedes_mergeSort hruns hfew, hholds, fun schema part hpart => ?_⟩
  · rw [List.size_toArray, hperm.length_eq, length_entriesOf]
  · exact (hperm.map _).nodup_iff.mpr (nodup_entriesOf hruns hfew)
  · simpa using mem_entriesOf_iff hruns hfew
  · exact HyperBatch.gather_ne_outOfRange schema fun e he => hholds e (hpart e he)

namespace Sample

/-- The order by one column of integers. -/
def ascending : RowOrder :=
  ⟨⟨[.mk "k" (.scalar .int32) false []]⟩, [⟨0, by decide⟩], [.scalar .int32], [(SortKey.asc "k").order]⟩

/-- A run that reads integers through a selection. -/
def runOf (ks : List Int) (offsets : Array Nat) : SortedRun where
  chunk := { batch := .ofColumns ascending.schema ks.length #[(ks.map Value.int).toArray] }
  keys := { rows := (ks.map fun k => [Value.int k]).toArray, bytes := 0 }
  selection? := some { offsets }
  keyCharge := 0

/-- Three runs with ties, one of which is empty. -/
def threeRuns : List SortedRun := [runOf [2, 1, 1] #[1, 2, 0], runOf [] #[], runOf [1, 2] #[0, 1]]

end Sample

theorem mergeRuns_stable_three_runs :
    (∀ r ∈ Sample.threeRuns, r.Sorted Sample.ascending ∧ r.length ≤ maxSelectionRows) ∧
      Sample.threeRuns.length ≤ maxSelectionBatches ∧
      ∃ entries, mergeRuns Sample.ascending Sample.threeRuns #[0, 0, 0, 0, 0] #[0, 0, 0, 0, 0] =
          some entries ∧
        entries.toList.map (fun e => (GlobalSelection.batchOf e, GlobalSelection.rowOf e)) =
          [(0, 1), (0, 2), (2, 0), (0, 0), (2, 1)] ∧
        entries.toList.Pairwise (Precedes Sample.ascending Sample.threeRuns) := by
  have hruns : ∀ r ∈ Sample.threeRuns,
      r.Sorted Sample.ascending ∧ r.length ≤ maxSelectionRows := by
    simp only [Sample.threeRuns, List.forall_mem_cons, List.not_mem_nil, false_implies,
      implies_true, and_true]
    refine ⟨⟨⟨?_, ?_, ?_⟩, ?_⟩, ⟨⟨?_, ?_, ?_⟩, ?_⟩, ⟨⟨?_, ?_, ?_⟩, ?_⟩⟩ <;> decide +kernel
  obtain ⟨entries, hmerge, -, -, -, horder, -⟩ := mergeRuns_stable Sample.ascending Sample.threeRuns
    #[0, 0, 0, 0, 0] #[0, 0, 0, 0, 0] hruns (by decide) (by rfl) (by rfl)
  have hentries : mergeRuns Sample.ascending Sample.threeRuns #[0, 0, 0, 0, 0] #[0, 0, 0, 0, 0] =
      some #[1, 2, 131072, 0, 131073] := by decide +kernel
  obtain rfl := Option.some.inj (hmerge.symm.trans hentries)
  exact ⟨hruns, by decide, _, hmerge, by decide +kernel, horder⟩

end SpillSort
