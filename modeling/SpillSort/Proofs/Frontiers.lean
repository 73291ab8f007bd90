import SpillSort.Proofs.KeyOrder
import SpillSort.Sort.Frontier

/-!
# Frontiers as heaps

A frontier holds candidates, and the one it gives out first goes before all others.

* `Frontier.Ordered` is the order along the trees, and all operations keep it.
* `Frontier.push_perm` and `Frontier.pop_spec` say which candidates are in a heap afterwards, and
  that the least one is taken.
-/

namespace SpillSort

/-- Candidates are compared by key and then by source, and these comparisons chain. -/
theorem Candidate.le_trans (order : RowOrder) {a b c : Candidate} (hab : a.le order b)
    (hbc : b.le order c) : a.le order c :=
  ((chains_compareRows order.orders a.key b.key c.key).andThen
    (Chains.compare a.source b.source c.source)).isLE_trans hab hbc

theorem Candidate.le_of_not_le (order : RowOrder) {a b : Candidate} (h : a.le order b ≠ true) :
    b.le order a := by
  unfold Candidate.le at h ⊢
  rw [order.compare_swap a.key b.key, ← Nat.compare_swap a.source b.source, ← Ordering.swap_then]
  revert h
  cases (order.compare a.key b.key).then (compare a.source b.source) <;> simp

theorem Candidate.le_refl (order : RowOrder) (a : Candidate) : a.le order a := by
  by_cases h : a.le order a
  · exact h
  · exact Candidate.le_of_not_le order h

namespace Frontier

variable {order : RowOrder}

mutual

/-- No candidate goes before one above it. -/
def Ordered (order : RowOrder) : Frontier → Prop
  | empty => True
  | node c below => (∀ d ∈ toLists below, c.le order d) ∧ AllOrdered order below

/-- All heaps are ordered. -/
def AllOrdered (order : RowOrder) : List Frontier → Prop
  | [] => True
  | f :: fs => Ordered order f ∧ AllOrdered order fs

end

@[simp] theorem toList_empty : toList empty = [] := by simp [toList]

@[simp] theorem toList_node (c : Candidate) (below : List Frontier) :
    toList (node c below) = c :: toLists below := by simp [toList]

@[simp] theorem toLists_nil : toLists [] = [] := by simp [toLists]

@[simp] theorem toLists_cons (f : Frontier) (fs : List Frontier) :
    toLists (f :: fs) = f.toList ++ toLists fs := by simp [toLists]

theorem Ordered.top_le {c : Candidate} {below : List Frontier}
    (h : Ordered order (node c below)) : ∀ d ∈ (node c below).toList, c.le order d := by
  rw [Ordered] at h
  rw [toList_node]
  exact List.forall_mem_cons.mpr ⟨Candidate.le_refl order c, h.1⟩

theorem meld_perm (order : RowOrder) (a b : Frontier) :
    (a.meld order b).toList.Perm (a.toList ++ b.toList) := by
  unfold meld
  split
  · simp
  · simp
  · next a as b bs =>
    split
    · simp only [toList_node, toLists_cons, List.cons_append]
      refine .cons a (.trans ?_ List.perm_append_comm)
      rw [List.cons_append]
    · simp only [toList_node, toLists_cons, List.cons_append]
      exact (List.Perm.swap a b _).trans (.cons a List.perm_middle.symm)

theorem meld_ordered {a b : Frontier} (ha : Ordered order a) (hb : Ordered order b) :
    Ordered order (a.meld order b) := by
  unfold meld
  split
  · exact hb
  · exact ha
  · next a as b bs =>
    rw [Ordered] at ha hb
    split
    · next hab =>
      rw [Ordered, AllOrdered]
      refine ⟨fun d hd => ?_, ⟨by rw [Ordered]; exact hb, ha.2⟩⟩
      simp only [toLists_cons, toList_node, List.cons_append, List.mem_cons, List.mem_append] at hd
      rcases hd with rfl | hd | hd
      · exact hab
      · exact Candidate.le_trans order hab (hb.1 d hd)
      · exact ha.1 d hd
    · next hab =>
      have hba := Candidate.le_of_not_le order hab
      rw [Ordered, AllOrdered]
      refine ⟨fun d hd => ?_, ⟨by rw [Ordered]; exact ha, hb.2⟩⟩
      simp only [toLists_cons, toList_node, List.cons_append, List.mem_cons, List.mem_append] at hd
      rcases hd with rfl | hd | hd
      · exact hba
      · exact Candidate.le_trans order hba (ha.1 d hd)
      · exact hb.1 d hd

theorem meldAll_perm : ∀ fs : List Frontier, (meldAll order fs).toList.Perm (toLists fs)
  | [] => by simp [meldAll]
  | [f] => by simp [meldAll]
  | f :: g :: fs => by
    rw [meldAll, toLists_cons, toLists_cons, ← List.append_assoc]
    exact (meld_perm order _ _).trans ((meld_perm order f g).append (meldAll_perm fs))

theorem meldAll_ordered : ∀ {fs : List Frontier}, AllOrdered order fs →
    Ordered order (meldAll order fs)
  | [], _ => by simp [meldAll, Ordered]
  | [f], h => by
    rw [AllOrdered] at h
    exact h.1
  | f :: g :: fs, h => by
    rw [AllOrdered, AllOrdered] at h
    rw [meldAll]
    exact meld_ordered (meld_ordered h.1 h.2.1) (meldAll_ordered h.2.2)

theorem push_perm (c : Candidate) (f : Frontier) : (f.push order c).toList.Perm (c :: f.toList) := by
  simpa [push] using meld_perm order (node c []) f

theorem push_ordered {c : Candidate} {f : Frontier} (h : Ordered order f) :
    Ordered order (f.push order c) :=
  meld_ordered (by simp [Ordered, AllOrdered]) h

/-- What is taken out goes before everything that is left. -/
theorem pop_spec {c : Candidate} {f g : Frontier} (h : Ordered order f)
    (hp : f.pop? order = some (c, g)) :
    f.toList.Perm (c :: g.toList) ∧ Ordered order g ∧ ∀ d ∈ f.toList, c.le order d := by
  cases f with
  | empty => cases hp
  | node c below =>
    obtain ⟨rfl, rfl⟩ := Prod.mk.inj (Option.some.inj hp)
    refine ⟨?_, ?_, h.top_le⟩
    · rw [toList_node]
      exact .cons c (meldAll_perm below).symm
    · rw [Ordered] at h
      exact meldAll_ordered h.2

theorem toList_of_pop_none {f : Frontier} (hp : f.pop? order = none) : f.toList = [] := by
  cases f with
  | empty => exact toList_empty
  | node c below => cases hp

end Frontier

end SpillSort
