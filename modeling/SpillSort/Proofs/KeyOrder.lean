import SpillSort.Proofs.StableSort
import SpillSort.Sort.Key

/-!
# The order of keys

Values, and rows of them, are compared in a way that lets any sort work with them: two can always be
compared, and comparisons chain. Both hold for every list of key orders and all values, also of
types that no column mixes.

* `Chains` says that three comparisons fit together; lists are compared item by item, and
  `Chains.andThen` puts the items together.
* `RowOrder.preordering` is the result: the order of rows is a total preorder.
-/

namespace SpillSort

open Std

/-- The comparisons of a first thing with a second, of the second with a third, and of the first with
the third fit together. -/
def Chains (x y z : Ordering) : Prop :=
  (x = .eq → z = y) ∧ (y = .eq → z = x) ∧ (x = y → z = x)

instance (x y z : Ordering) : Decidable (Chains x y z) :=
  inferInstanceAs (Decidable (_ ∧ _ ∧ _))

namespace Chains

variable {x y z x' y' z' : Ordering}

theorem swap (h : Chains x y z) : Chains x.swap y.swap z.swap := by
  revert h
  cases x <;> cases y <;> cases z <;> decide

/-- Comparisons by a first and then by a second criterion. -/
theorem andThen (h : Chains x y z) (h' : Chains x' y' z') :
    Chains (x.then x') (y.then y') (z.then z') := by
  obtain ⟨hx, hy, hxy⟩ := h
  cases x <;> cases y
  case eq.eq =>
    obtain rfl := hx rfl
    exact h'
  case lt.gt | gt.lt => exact ⟨nofun, nofun, nofun⟩
  case lt.lt | gt.gt =>
    obtain rfl := hxy rfl
    exact ⟨nofun, nofun, fun _ => rfl⟩
  case eq.lt | eq.gt =>
    obtain rfl := hx rfl
    exact ⟨fun _ => rfl, nofun, fun h => h.symm⟩
  case lt.eq | gt.eq =>
    obtain rfl := hy rfl
    exact ⟨nofun, fun _ => rfl, fun _ => rfl⟩

theorem isLE_trans (h : Chains x y z) (hx : x.isLE) (hy : y.isLE) : z.isLE := by
  obtain ⟨hxe, hye, hxy⟩ := h
  cases x <;> cases y
  case eq.eq | eq.lt => exact hxe rfl ▸ hy
  case lt.eq => exact hye rfl ▸ hx
  case lt.lt => exact hxy rfl ▸ hx
  all_goals contradiction

/-- The comparisons of a type that has an order fit together. -/
theorem compare {α : Type} [Ord α] [TransOrd α] (a b c : α) :
    Chains (compare a b) (compare b c) (compare a c) := by
  refine ⟨fun h => TransCmp.congr_left h, fun h => (TransCmp.congr_right h).symm, fun h => ?_⟩
  cases hab : Ord.compare a b with
  | lt => exact TransCmp.lt_trans hab (h ▸ hab)
  | eq => exact TransCmp.eq_trans hab (h ▸ hab)
  | gt => exact TransCmp.gt_trans hab (h ▸ hab)

end Chains

/-! ## Values -/

namespace KeyOrder

variable {o : KeyOrder} {x y z : Ordering}

theorem direct_swap : o.direct x.swap = (o.direct x).swap := by
  unfold direct
  split <;> rfl

theorem direct_lt_ne_eq : o.direct .lt ≠ .eq := by
  unfold direct
  cases o.descending <;> decide

theorem direct_gt_ne_eq : o.direct .gt ≠ .eq := by
  unfold direct
  cases o.descending <;> decide

theorem direct_lt_ne_gt : o.direct .lt ≠ o.direct .gt := by
  unfold direct
  cases o.descending <;> decide

theorem chains_direct (h : Chains x y z) : Chains (o.direct x) (o.direct y) (o.direct z) := by
  unfold direct
  split
  · exact h.swap
  · exact h

/-- How values of two ranks compare, of which none are alike: nulls go to their side, other values by
rank in the direction of the key. -/
def rankOrder (o : KeyOrder) (r s : Nat) : Ordering :=
  (compare ((r == 0) != o.nullsFirst) ((s == 0) != o.nullsFirst)).then (o.direct (compare r s))

theorem rankOrder_swap (r s : Nat) : o.rankOrder s r = (o.rankOrder r s).swap := by
  unfold rankOrder
  rw [Ordering.swap_then, ← direct_swap, ← OrientedCmp.eq_swap, ← OrientedCmp.eq_swap]

theorem rankOrder_ne_eq {r s : Nat} (h : r ≠ s) : o.rankOrder r s ≠ .eq := by
  have hc : compare r s ≠ .eq := fun hc => h (Nat.compare_eq_eq.mp hc)
  unfold rankOrder direct
  rw [Ne, Ordering.then_eq_eq]
  rintro ⟨-, he⟩
  split at he
  · exact hc (by simpa using he)
  · exact hc he

theorem chains_rankOrder (r s t : Nat) :
    Chains (o.rankOrder r s) (o.rankOrder s t) (o.rankOrder r t) :=
  (Chains.compare _ _ _).andThen (chains_direct (Chains.compare r s t))

end KeyOrder

namespace Value

variable (o : KeyOrder)

theorem compareWith_of_rank_ne {a b : Value} (h : a.rank ≠ b.rank) :
    compareWith o a b = o.rankOrder a.rank b.rank := by
  obtain ⟨descending, nullsFirst⟩ := o
  cases nullsFirst <;> cases a <;> cases b <;> first | contradiction | rfl

mutual

theorem compareWith_swap : ∀ a b : Value, compareWith o b a = (compareWith o a b).swap
  | a, b => by
    by_cases h : a.rank = b.rank
    · cases a <;> cases b <;> first | exact absurd h (of_decide_eq_false rfl) | skip
      case items.items as bs => simpa only [compareWith] using compareItems_swap as bs
      case null.null => rfl
      all_goals
        simp only [compareWith, ← KeyOrder.direct_swap]
        exact congrArg o.direct OrientedCmp.eq_swap
    · rw [compareWith_of_rank_ne o h, compareWith_of_rank_ne o (Ne.symm h), KeyOrder.rankOrder_swap]

theorem compareItems_swap : ∀ as bs : List Value,
    compareItems o bs as = (compareItems o as bs).swap
  | [], [] => rfl
  | [], _ :: _ => by
    simp only [compareItems, ← KeyOrder.direct_swap]
    rfl
  | _ :: _, [] => by
    simp only [compareItems, ← KeyOrder.direct_swap]
    rfl
  | a :: as, b :: bs => by
    simp only [compareItems, compareWith_swap a b, compareItems_swap as bs, Ordering.swap_then]

end

mutual

theorem chains_compareWith : ∀ a b c : Value,
    Chains (compareWith o a b) (compareWith o b c) (compareWith o a c)
  | a, b, c => by
    by_cases hab : a.rank = b.rank <;> by_cases hbc : b.rank = c.rank
    · cases a <;> cases b <;> first | exact absurd hab (of_decide_eq_false rfl) | skip
      all_goals cases c <;> first | exact absurd hbc (of_decide_eq_false rfl) | skip
      case null.null.null => exact ⟨fun _ => rfl, fun _ => rfl, fun _ => rfl⟩
      case items.items.items as bs cs => simpa only [compareWith] using chains_compareItems as bs cs
      all_goals exact KeyOrder.chains_direct (Chains.compare ..)
    · have hac : a.rank ≠ c.rank := hab ▸ hbc
      rw [compareWith_of_rank_ne o hbc, compareWith_of_rank_ne o hac, hab]
      exact ⟨fun _ => rfl, fun h => absurd h (KeyOrder.rankOrder_ne_eq hbc), Eq.symm⟩
    · have hac : a.rank ≠ c.rank := hbc ▸ hab
      rw [compareWith_of_rank_ne o hab, compareWith_of_rank_ne o hac, hbc]
      exact ⟨fun h => absurd h (KeyOrder.rankOrder_ne_eq (hbc ▸ hab)), fun _ => rfl, fun _ => rfl⟩
    · rw [compareWith_of_rank_ne o hab, compareWith_of_rank_ne o hbc]
      by_cases hac : a.rank = c.rank
      · have hne := KeyOrder.rankOrder_ne_eq (o := o) hbc
        rw [hac, KeyOrder.rankOrder_swap]
        refine ⟨fun h => absurd h (by simpa using hne), fun h => absurd h hne, fun h => ?_⟩
        cases hx : o.rankOrder b.rank c.rank <;> simp [hx] at h hne
      · rw [compareWith_of_rank_ne o hac]
        exact KeyOrder.chains_rankOrder ..

theorem chains_compareItems : ∀ as bs cs : List Value,
    Chains (compareItems o as bs) (compareItems o bs cs) (compareItems o as cs)
  | [], [], cs => by
    simp only [compareItems]
    exact ⟨fun _ => rfl, id, Eq.symm⟩
  | [], _ :: _, [] => by
    simp only [compareItems, KeyOrder.direct]
    cases o.descending <;> decide
  | [], _ :: _, _ :: _ => by
    simp only [compareItems]
    exact ⟨fun h => absurd h KeyOrder.direct_lt_ne_eq, fun _ => rfl, fun _ => rfl⟩
  | _ :: _, [], [] => by
    simp only [compareItems]
    exact ⟨fun h => absurd h KeyOrder.direct_gt_ne_eq, fun _ => rfl, fun _ => rfl⟩
  | _ :: _, [], _ :: _ => by
    simp only [compareItems]
    exact ⟨fun h => absurd h KeyOrder.direct_gt_ne_eq, fun h => absurd h KeyOrder.direct_lt_ne_eq,
      fun h => absurd h.symm KeyOrder.direct_lt_ne_gt⟩
  | _ :: _, _ :: _, [] => by
    simp only [compareItems]
    exact ⟨fun _ => rfl, fun h => absurd h KeyOrder.direct_gt_ne_eq, Eq.symm⟩
  | a :: as, b :: bs, c :: cs => by
    simp only [compareItems]
    exact (chains_compareWith a b c).andThen (chains_compareItems as bs cs)

end

end Value

/-- Rows under any key orders fit together. -/
theorem chains_compareRows : ∀ (os : List KeyOrder) (as bs cs : List Value),
    Chains (compareRows os as bs) (compareRows os bs cs) (compareRows os as cs)
  | [], _, _, _ => ⟨fun _ => rfl, fun _ => rfl, fun _ => rfl⟩
  | o :: os, as, bs, cs =>
    (Value.chains_compareWith o ..).andThen (chains_compareRows os as.tail bs.tail cs.tail)

theorem compareRows_swap : ∀ (os : List KeyOrder) (as bs : List Value),
    compareRows os bs as = (compareRows os as bs).swap
  | [], _, _ => rfl
  | o :: os, as, bs => by
    simp only [compareRows, Value.compareWith_swap o (as.headD .null),
      compareRows_swap os as.tail, Ordering.swap_then]

namespace RowOrder

variable (o : RowOrder)

theorem compare_swap (a b : List Value) : o.compare b a = (o.compare a b).swap :=
  compareRows_swap o.orders a b

/-- The order of rows can always be decided, and it is transitive. -/
theorem preordering : Preordering o.le where
  trans a b c := (chains_compareRows o.orders a b c).isLE_trans
  total a b := by
    rw [le, le, o.compare_swap a b]
    cases o.compare a b <;> rfl

end RowOrder

end SpillSort
