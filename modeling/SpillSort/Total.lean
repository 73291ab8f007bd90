/-!
# Totals

`total` adds up numbers; `total_append` says that parts may be added up on their own, `total_modify`
what a change of one part does to the whole.
-/

namespace SpillSort

/-- The sum of some numbers. -/
def total (ns : List Nat) : Nat := ns.foldr (· + ·) 0

@[simp] theorem total_nil : total [] = 0 := rfl

@[simp] theorem total_cons (n : Nat) (ns : List Nat) : total (n :: ns) = n + total ns := rfl

@[simp] theorem total_append (ms ns : List Nat) : total (ms ++ ns) = total ms + total ns := by
  induction ms with
  | nil => simp
  | cons m ms ih => simp [ih, Nat.add_assoc]

theorem total_le_of_mem {ns : List Nat} {n : Nat} (h : n ∈ ns) : n ≤ total ns := by
  induction h with
  | head ns => exact Nat.le_add_right n (total ns)
  | tail m _ ih => exact Nat.le_trans ih (Nat.le_add_left _ m)

theorem total_eq_zero {ns : List Nat} (h : ∀ n ∈ ns, n = 0) : total ns = 0 := by
  induction ns with
  | nil => rfl
  | cons n ns ih =>
    rw [total_cons, h n List.mem_cons_self, ih fun m hm => h m (List.mem_cons_of_mem n hm)]

theorem total_modify {α : Type} (f : α → Nat) (g : α → α) {xs : List α} {i : Nat} {y : α}
    (h : xs[i]? = some y) :
    total ((xs.modify i g).map f) + f y = total (xs.map f) + f (g y) := by
  induction xs generalizing i with
  | nil => simp at h
  | cons z zs ih =>
    cases i with
    | zero =>
      obtain rfl : z = y := by simpa using h
      simp only [List.modify_zero_cons, List.map_cons, total_cons]
      omega
    | succ i =>
      have hz := ih (by simpa using h)
      simp only [List.modify_succ_cons, List.map_cons, total_cons]
      omega

end SpillSort
