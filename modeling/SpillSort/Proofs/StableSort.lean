import SpillSort.Sort.Stable

/-!
# Stable sorting

What it means that a list is sorted stably, and how sorted lists are put together. A list is the
stable sort of another one if it is in order and if, for each element, those that tie with it stand
in both lists in the same order. That determines the list, so every way to get there gives the same.

* `sortsStably_iff` says that the stable sort is the merge sort of the library.
* `mergeAll_eq` merges sorted lists, `mergeSort_flatten_map` sorts parts before the whole, and
  `mergeSort_append_cons` finds the first element of the sort.
-/

namespace SpillSort

variable {α β : Type}

/-- A relation that compares any two elements, and transitively. -/
structure Preordering (le : α → α → Bool) : Prop where
  trans : ∀ a b c, le a b → le b c → le a c
  total : ∀ a b, le a b || le b a

/-- Whether two elements tie. -/
def ties (le : α → α → Bool) (a b : α) : Bool := le a b && le b a

/-- A list is in order. -/
abbrev InOrder (le : α → α → Bool) (xs : List α) : Prop := xs.Pairwise fun a b => le a b = true

/-- The second list is the first one in order, and elements that tie keep their order. -/
structure SortsStably (le : α → α → Bool) (xs ys : List α) : Prop where
  inOrder : InOrder le ys
  classes : ∀ a, ys.filter (ties le a) = xs.filter (ties le a)

namespace Preordering

variable {le : α → α → Bool} (hle : Preordering le)
include hle

theorem refl (a : α) : le a a := by simpa using hle.total a a

/-- Comparing images compares any two elements, and transitively. -/
theorem comap (f : β → α) : Preordering fun a b => le (f a) (f b) :=
  ⟨fun _ _ _ => hle.trans _ _ _, fun _ _ => hle.total _ _⟩

theorem ties_refl (a : α) : ties le a a := by simp [ties, hle.refl a]

theorem of_not_le {a b : α} (h : le a b = false) : le b a := by simpa [h] using hle.total a b

/-- A stable sort is determined by what it sorts. -/
theorem eq_of_classes {ys zs : List α} (hy : InOrder le ys) (hz : InOrder le zs)
    (h : ∀ a, ys.filter (ties le a) = zs.filter (ties le a)) : ys = zs := by
  induction ys generalizing zs with
  | nil =>
    match zs with
    | [] => rfl
    | z :: zs => simpa [hle.ties_refl z] using h z
  | cons y ys ih =>
    match zs with
    | [] => simpa [hle.ties_refl y] using h y
    | z :: zs =>
      obtain ⟨hyy, hys⟩ := List.pairwise_cons.mp hy
      obtain ⟨hzz, hzs⟩ := List.pairwise_cons.mp hz
      have hyz : le z y := by
        have hm : y ∈ (z :: zs).filter (ties le y) := by
          rw [← h y]
          simp [hle.ties_refl y]
        rcases List.mem_cons.mp (List.mem_filter.mp hm).1 with rfl | hm
        · exact hle.refl y
        · exact hzz y hm
      have hzy : le y z := by
        have hm : z ∈ (y :: ys).filter (ties le z) := by
          rw [h z]
          simp [hle.ties_refl z]
        rcases List.mem_cons.mp (List.mem_filter.mp hm).1 with rfl | hm
        · exact hle.refl z
        · exact hyy z hm
      have heq : y = z := by
        have hf := h y
        rw [List.filter_cons_of_pos (hle.ties_refl y),
          List.filter_cons_of_pos (by simp [ties, hyz, hzy])] at hf
        exact (List.cons.inj hf).1
      subst heq
      refine congrArg (y :: ·) (ih hys hzs fun a => ?_)
      have hf := h a
      rw [List.filter_cons, List.filter_cons] at hf
      split at hf
      · exact (List.cons.inj hf).2
      · exact hf

theorem inOrder_mergeSort (xs : List α) : InOrder le (xs.mergeSort le) :=
  List.pairwise_mergeSort hle.trans hle.total xs

theorem inOrder_ties (xs : List α) (a : α) : InOrder le (xs.filter (ties le a)) := by
  refine List.pairwise_iff_forall_sublist.mpr fun {x y} hs => ?_
  have hx := (List.mem_filter.mp (hs.subset List.mem_cons_self)).2
  have hy := (List.mem_filter.mp (hs.subset (List.mem_cons_of_mem x List.mem_cons_self))).2
  simp only [ties, Bool.and_eq_true] at hx hy
  exact hle.trans x a y hx.2 hy.1

theorem sortsStably_mergeSort (xs : List α) : SortsStably le xs (xs.mergeSort le) := by
  refine ⟨hle.inOrder_mergeSort xs, fun a => ?_⟩
  have hs : (xs.filter (ties le a)).Sublist (xs.mergeSort le) :=
    List.sublist_mergeSort hle.trans hle.total (hle.inOrder_ties xs a) List.filter_sublist
  have hf := hs.filter (ties le a)
  rw [List.filter_filter] at hf
  simp only [Bool.and_self] at hf
  refine (hf.eq_of_length ?_).symm
  exact ((List.mergeSort_perm xs le).filter (ties le a)).length_eq.symm

/-- In the merge sort, elements that tie stand in the relation that they have in the list. -/
theorem pairwise_mergeSort_of {xs : List α} {R : α → α → Prop} (h : xs.Pairwise R) :
    (xs.mergeSort le).Pairwise fun a b => le a b ∧ (le b a → R a b) := by
  refine List.pairwise_iff_forall_sublist.mpr fun {a b} hs => ?_
  have hab := List.pairwise_iff_forall_sublist.mp (hle.inOrder_mergeSort xs) hs
  refine ⟨hab, fun hba => ?_⟩
  have hties := hs.filter (ties le a)
  rw [(hle.sortsStably_mergeSort xs).classes, List.filter_cons_of_pos (hle.ties_refl a),
    List.filter_cons_of_pos (by simp [ties, hab, hba])] at hties
  exact List.pairwise_iff_forall_sublist.mp h (hties.trans List.filter_sublist)

/-- The merge sort is the stable sort. -/
theorem sortsStably_iff {xs ys : List α} : SortsStably le xs ys ↔ ys = xs.mergeSort le := by
  constructor
  · intro h
    refine hle.eq_of_classes h.inOrder (hle.inOrder_mergeSort xs) fun a => ?_
    rw [h.classes, (hle.sortsStably_mergeSort xs).classes]
  · rintro rfl
    exact hle.sortsStably_mergeSort xs

/-! ## Merging -/

theorem filter_merge (a : α) : ∀ {xs ys : List α}, InOrder le xs → InOrder le ys →
    (xs.merge ys le).filter (ties le a) = xs.filter (ties le a) ++ ys.filter (ties le a)
  | [], ys, _, _ => by simp
  | x :: xs, [], _, _ => by simp
  | x :: xs, y :: ys, hx, hy => by
    obtain ⟨hxx, hxs⟩ := List.pairwise_cons.mp hx
    rw [List.cons_merge_cons]
    split
    · rw [List.filter_cons, List.filter_cons, filter_merge a hxs hy]
      split <;> rfl
    · next hxy =>
      rw [List.filter_cons, filter_merge a hx (List.pairwise_cons.mp hy).2]
      split
      · next hay =>
        -- the second head goes first, so nothing in the first list ties with it
        have hnone : (x :: xs).filter (ties le a) = [] := by
          refine List.filter_eq_nil_iff.mpr fun z hz hza => hxy ?_
          simp only [ties, Bool.and_eq_true] at hay hza
          have hxz : le x z := by
            rcases List.mem_cons.mp hz with rfl | hz
            · exact hle.refl z
            · exact hxx z hz
          exact hle.trans x z y hxz (hle.trans z a y hza.2 hay.1)
        rw [hnone, List.nil_append, List.nil_append, List.filter_cons_of_pos hay]
      · next hay => rw [List.filter_cons_of_neg (a := y) (by simpa using hay)]

theorem inOrder_mergeTwo {xs ys : List α} (hx : InOrder le xs) (hy : InOrder le ys) :
    InOrder le (mergeTwo le xs ys) := by
  rw [mergeTwo_eq]
  exact List.pairwise_merge hle.trans hle.total xs ys hx hy

theorem filter_mergeTwo {xs ys : List α} (hx : InOrder le xs) (hy : InOrder le ys) (a : α) :
    (mergeTwo le xs ys).filter (ties le a) = (xs ++ ys).filter (ties le a) := by
  rw [mergeTwo_eq, hle.filter_merge a hx hy, List.filter_append]

theorem inOrder_mergeAdjacent : ∀ {ls : List (List α)}, (∀ l ∈ ls, InOrder le l) →
    ∀ l ∈ mergeAdjacent le ls, InOrder le l
  | [], h => h
  | [_], h => h
  | a :: b :: rest, h => by
    obtain ⟨ha, h⟩ := List.forall_mem_cons.mp h
    obtain ⟨hb, h⟩ := List.forall_mem_cons.mp h
    rw [mergeAdjacent]
    exact List.forall_mem_cons.mpr ⟨hle.inOrder_mergeTwo ha hb, inOrder_mergeAdjacent h⟩

theorem filter_mergeAdjacent (a : α) : ∀ {ls : List (List α)}, (∀ l ∈ ls, InOrder le l) →
    (mergeAdjacent le ls).flatten.filter (ties le a) = ls.flatten.filter (ties le a)
  | [], _ => rfl
  | [_], _ => rfl
  | b :: c :: rest, h => by
    obtain ⟨hb, h⟩ := List.forall_mem_cons.mp h
    obtain ⟨hc, h⟩ := List.forall_mem_cons.mp h
    rw [mergeAdjacent, List.flatten_cons, List.filter_append, filter_mergeAdjacent a h,
      hle.filter_mergeTwo hb hc, List.flatten_cons, List.flatten_cons, ← List.append_assoc,
      ← List.filter_append]

theorem sortsStably_mergeRounds : ∀ (rounds : Nat) {ls : List (List α)}, ls.length ≤ rounds + 1 →
    (∀ l ∈ ls, InOrder le l) → SortsStably le ls.flatten (mergeRounds le rounds ls)
  | _, [], _, _ => by
    simp only [mergeRounds, List.flatten_nil]
    exact ⟨.nil, fun _ => rfl⟩
  | _, [a], _, h => by
    simp only [mergeRounds, List.flatten_singleton]
    exact ⟨h a List.mem_cons_self, fun _ => rfl⟩
  | 0, _ :: _ :: _, hlen, _ => by simp at hlen
  | rounds + 1, a :: b :: rest, hlen, h => by
    show SortsStably le _ (mergeRounds le rounds (mergeAdjacent le (a :: b :: rest)))
    have hshort : (mergeAdjacent le (a :: b :: rest)).length ≤ rounds + 1 := by
      rw [length_mergeAdjacent]
      simp only [List.length_cons] at hlen ⊢
      omega
    have hs := sortsStably_mergeRounds rounds hshort (hle.inOrder_mergeAdjacent h)
    exact ⟨hs.inOrder, fun c => (hs.classes c).trans (hle.filter_mergeAdjacent c h)⟩

/-- Merging sorted lists sorts all their elements stably. -/
theorem mergeAll_eq {ls : List (List α)} (h : ∀ l ∈ ls, InOrder le l) :
    mergeAll le ls = ls.flatten.mergeSort le :=
  hle.sortsStably_iff.mp (hle.sortsStably_mergeRounds ls.length (Nat.le_succ _) h)

theorem stableSort_eq (xs : List α) : stableSort le xs = xs.mergeSort le := by
  have hone : ∀ l ∈ xs.map fun x => [x], InOrder le l := by
    intro l hl
    obtain ⟨x, -, rfl⟩ := List.mem_map.mp hl
    exact List.pairwise_singleton _ x
  have hflat : (xs.map fun x => [x]).flatten = xs := by
    induction xs with
    | nil => rfl
    | cons x xs ih => simpa using ih
  rw [stableSort, hle.mergeAll_eq hone, hflat]

/-- Sorting parts first does not change the sort of the whole. -/
theorem mergeSort_flatten_map (ls : List (List α)) :
    (ls.map fun l => l.mergeSort le).flatten.mergeSort le = ls.flatten.mergeSort le := by
  refine hle.sortsStably_iff.mp ⟨hle.inOrder_mergeSort _, fun a => ?_⟩
  rw [(hle.sortsStably_mergeSort _).classes, List.filter_flatten, List.filter_flatten, List.map_map]
  refine congrArg List.flatten (List.map_congr_left fun l _ => ?_)
  exact (hle.sortsStably_mergeSort l).classes a

theorem mergeSort_mergeSort_append (xs ys : List α) :
    (xs.mergeSort le ++ ys).mergeSort le = (xs ++ ys).mergeSort le := by
  refine hle.sortsStably_iff.mp ⟨hle.inOrder_mergeSort _, fun a => ?_⟩
  rw [(hle.sortsStably_mergeSort _).classes, List.filter_append, List.filter_append,
    (hle.sortsStably_mergeSort xs).classes]

/-- An element that goes strictly before all in front of it, and not after any behind it, is the
first one of the sort. -/
theorem mergeSort_append_cons {xs ys : List α} {z : α} (hx : ∀ x ∈ xs, le x z = false)
    (hy : ∀ y ∈ ys, le z y) : (xs ++ z :: ys).mergeSort le = z :: (xs ++ ys).mergeSort le := by
  refine (hle.sortsStably_iff.mp ⟨List.pairwise_cons.mpr ⟨fun w hw => ?_,
    hle.inOrder_mergeSort _⟩, fun a => ?_⟩).symm
  · rcases List.mem_append.mp (List.mem_mergeSort.mp hw) with hw | hw
    · exact hle.of_not_le (hx w hw)
    · exact hy w hw
  · rw [List.filter_cons, List.filter_append, List.filter_cons,
      (hle.sortsStably_mergeSort _).classes, List.filter_append]
    split
    · next haz =>
      have hnone : xs.filter (ties le a) = [] := by
        refine List.filter_eq_nil_iff.mpr fun x hxm hax => ?_
        simp only [ties, Bool.and_eq_true] at haz hax
        exact Bool.false_ne_true ((hx x hxm).symm.trans (hle.trans x a z hax.2 haz.1))
      rw [hnone, List.nil_append, List.nil_append]
    · rfl

end Preordering

end SpillSort
