import SpillSort.Memory.Ledger
import SpillSort.Total

/-!
# What lands on a tracker

A tracker shows what was charged to it and to the trackers below it. This module follows the bytes
that reach one tracker, through the forest and through the charges of a ledger.

* `Forest.share` is the part of a charge that a tracker shows; `Forest.current_consume` and
  `Forest.current_release` say that consuming adds it and releasing takes it away again.
* `Ledger.load` is the sum of these parts over all charges that have holders.
-/

namespace SpillSort.Memory

/-! ## Paths -/

/-- The bytes that land on `t` if each tracker on a path gets `bytes`. -/
def landing (t : TrackerId) (bytes : Int64) : List TrackerId → Int64
  | [] => 0
  | j :: js => (if j = t then bytes else 0) + landing t bytes js

theorem landing_neg (t : TrackerId) (bytes : Int64) (path : List TrackerId) :
    landing t (-bytes) path = -landing t bytes path := by
  induction path with
  | nil => simp [landing]
  | cons j js ih =>
    simp only [landing, ih]
    split <;> grind

theorem landing_of_not_mem {t : TrackerId} {path : List TrackerId} (h : t ∉ path) (bytes : Int64) :
    landing t bytes path = 0 := by
  induction path with
  | nil => rfl
  | cons j js ih =>
    rw [landing, if_neg (List.ne_of_not_mem_cons h).symm, ih (List.not_mem_of_not_mem_cons h)]
    rfl

namespace Forest

variable {f : Forest} {g : Tracker → Tracker} {t id : TrackerId} {bytes d : Int64}

/-- The part of `bytes` charged to `id` that `t` shows. -/
def share (f : Forest) (id : TrackerId) (bytes : Int64) (t : TrackerId) : Int64 :=
  if bytes ≤ 0 then 0 else landing t bytes (f.path id)

theorem size_foldl_modify (path : List TrackerId) (ts : Array Tracker) :
    (path.foldl (fun ts j => ts.modify j g) ts).size = ts.size := by
  induction path generalizing ts with
  | nil => rfl
  | cons j js ih => rw [List.foldl_cons, ih, Array.size_modify]

@[simp] theorem size_onPath : (f.onPath id g).trackers.size = f.trackers.size :=
  size_foldl_modify ..

/-- Changes of trackers that keep something of each of them. -/
theorem getElem?_foldl_modify {β : Type} {view : Tracker → β} (hg : ∀ x, view (g x) = view x)
    (path : List TrackerId) (ts : Array Tracker) (j : TrackerId) :
    ((path.foldl (fun ts j => ts.modify j g) ts)[j]?).map view = (ts[j]?).map view := by
  induction path generalizing ts with
  | nil => rfl
  | cons i is ih =>
    rw [List.foldl_cons, ih, Array.getElem?_modify]
    split
    · simp only [Option.map_map]
      exact congrArg (fun v => Option.map v ts[j]?) (funext hg)
    · rfl

theorem path_onPath (hg : ∀ x, (g x).ancestors = x.ancestors) : (f.onPath id g).path = f.path := by
  funext j
  exact congrArg (fun o => j :: o.getD []) (getElem?_foldl_modify hg (f.path id) f.trackers j)

theorem current_foldl_modify (hg : ∀ x, (g x).current = x.current + d) (path : List TrackerId) :
    ∀ ts : Array Tracker, t < ts.size →
      (((path.foldl (fun ts j => ts.modify j g) ts)[t]?).map Tracker.current).getD 0 =
        ((ts[t]?).map Tracker.current).getD 0 + landing t d path := by
  induction path with
  | nil => intro ts _; simp [landing]
  | cons j js ih =>
    intro ts ht
    rw [List.foldl_cons, ih _ (by simpa using ht), Array.getElem?_modify, landing]
    split
    · simp only [Array.getElem?_eq_getElem ht, Option.map_some, Option.getD_some, hg]
      grind
    · grind

theorem current_onPath (hg : ∀ x, (g x).current = x.current + d) (ht : t < f.trackers.size) :
    (f.onPath id g).current t = f.current t + landing t d (f.path id) :=
  current_foldl_modify hg (f.path id) f.trackers ht

@[simp] theorem path_consume : (f.consume id bytes).path = f.path := by
  unfold consume
  split
  · rfl
  · exact path_onPath fun _ => rfl

@[simp] theorem path_release : (f.release id bytes).path = f.path := by
  unfold release
  split
  · rfl
  · exact path_onPath fun _ => rfl

@[simp] theorem size_consume : (f.consume id bytes).trackers.size = f.trackers.size := by
  unfold consume
  split
  · rfl
  · exact size_onPath

@[simp] theorem size_release : (f.release id bytes).trackers.size = f.trackers.size := by
  unfold release
  split
  · rfl
  · exact size_onPath

/-- Consuming adds the share of the bytes. -/
theorem current_consume (ht : t < f.trackers.size) :
    (f.consume id bytes).current t = f.current t + f.share id bytes t := by
  unfold consume share
  split
  · simp
  · exact current_onPath (fun _ => rfl) ht

/-- Releasing takes the share of the bytes away. -/
theorem current_release (ht : t < f.trackers.size) :
    (f.release id bytes).current t = f.current t - f.share id bytes t := by
  unfold release share
  split
  · simp
  · rw [current_onPath (d := -bytes) (fun x => Int64.sub_eq_add_neg ..) ht, landing_neg,
      ← Int64.sub_eq_add_neg]

theorem share_congr {f f' : Forest} (h : f'.path = f.path) : f'.share = f.share := by
  funext id bytes t
  rw [share, share, h]

theorem share_of_not_mem (h : t ∉ f.path id) : f.share id bytes t = 0 := by
  unfold share
  split
  · rfl
  · exact landing_of_not_mem h bytes

/-! ## One more tracker -/

variable {new : Tracker}

theorem get?_push_of_lt (ht : t < f.trackers.size) :
    get? ⟨f.trackers.push new⟩ t = f.get? t :=
  (Array.getElem?_push_lt ht).trans (Array.getElem?_eq_getElem ht).symm

theorem get?_push_size : get? ⟨f.trackers.push new⟩ f.trackers.size = some new :=
  Array.getElem?_push_size

theorem path_push (id : TrackerId) : path ⟨f.trackers.push new⟩ id =
    if id = f.trackers.size then id :: new.ancestors else f.path id := by
  simp only [path, get?, Array.getElem?_push]
  split <;> rfl

theorem path_push_of_lt (ht : t < f.trackers.size) : path ⟨f.trackers.push new⟩ t = f.path t := by
  rw [path_push, if_neg (Nat.ne_of_lt ht)]

end Forest

/-! ## Charges -/

/-- What a tracker shows of a charge, given the shares of a forest: nothing if nobody holds it. -/
def Charge.weight (share : TrackerId → Int64 → TrackerId → Int64) (t : TrackerId) (x : Charge) :
    Int64 :=
  if x.holders = 0 then 0 else share x.tracker x.bytes t

/-- The sum of a weight over a list. -/
def sumOf {α : Type} (weight : α → Int64) (xs : List α) : Int64 :=
  (xs.map weight).foldr (· + ·) 0

theorem sumOf_append {α : Type} (weight : α → Int64) (xs ys : List α) :
    sumOf weight (xs ++ ys) = sumOf weight xs + sumOf weight ys := by
  induction xs with
  | nil => simp [sumOf]
  | cons x xs ih =>
    simp only [sumOf, List.cons_append, List.map_cons, List.foldr_cons] at ih ⊢
    rw [ih, Int64.add_assoc]

/-- Replacing one element replaces its part of the sum. -/
theorem sumOf_modify {α : Type} (weight : α → Int64) (g : α → α) {xs : List α} {c : Nat} {x : α}
    (h : xs[c]? = some x) :
    sumOf weight (xs.modify c g) = sumOf weight xs - weight x + weight (g x) := by
  induction xs generalizing c with
  | nil => simp at h
  | cons y ys ih =>
    cases c with
    | zero =>
      obtain rfl : y = x := by simpa using h
      simp only [List.modify_zero_cons, sumOf, List.map_cons, List.foldr_cons]
      grind
    | succ c =>
      have hy := ih (by simpa using h)
      simp only [List.modify_succ_cons, sumOf, List.map_cons, List.foldr_cons] at hy ⊢
      rw [hy]
      grind

theorem sumOf_eq_zero {α : Type} {weight : α → Int64} {xs : List α} (h : ∀ x ∈ xs, weight x = 0) :
    sumOf weight xs = 0 := by
  induction xs with
  | nil => rfl
  | cons x xs ih =>
    have hx := h x List.mem_cons_self
    have hxs : sumOf weight xs = 0 := ih fun y hy => h y (List.mem_cons_of_mem x hy)
    simp only [sumOf, List.map_cons, List.foldr_cons] at hxs ⊢
    rw [hx, hxs]
    rfl

namespace Ledger

/-- What all charges with holders put on a tracker. -/
def load (l : Ledger) (t : TrackerId) : Int64 :=
  sumOf (Charge.weight l.forest.share t) l.charges.toList

/-- How many hold a charge. -/
def holdersOf (l : Ledger) (c : ChargeId) : Nat := ((l.charges[c]?).map Charge.holders).getD 0

/-- How many hold a lease. -/
def leaseHolders (l : Ledger) (i : LeaseId) : Nat := ((l.leases[i]?).map Lease.holders).getD 0

/-- How often a charge is held by leases. -/
def leased (l : Ledger) (c : ChargeId) : Nat :=
  total (l.leases.toList.map fun x => if x.holders = 0 then 0 else x.charges.count c)

/-! ## Operations on a charge that is there -/

variable {l : Ledger} {c : ChargeId} {x : Charge} {id : TrackerId}

theorem drop_of_some (hx : l.charges[c]? = some x) :
    l.drop c = { l with
      forest := if x.holders = 1 then l.forest.release x.tracker x.bytes else l.forest
      charges := l.charges.modify c fun x => { x with holders := x.holders - 1 } } := by
  simp [drop, hx]

theorem transfer_of_eq (hx : l.charges[c]? = some x) (hid : x.tracker = id) :
    l.transfer c id = l := by
  simp [transfer, hx, hid]

theorem transfer_of_ne (hx : l.charges[c]? = some x) (hid : x.tracker ≠ id) :
    l.transfer c id = { l with
      forest := (l.forest.release x.tracker x.bytes).consume id x.bytes
      charges := l.charges.modify c fun x => { x with tracker := id } } := by
  simp [transfer, hx, hid]

/-! ## Moves -/

variable (l c id)

/-- A move changes nothing, or gives a charge back in one place and consumes it in another. -/
theorem transfer_cases :
    (l.transfer c id = l ∧ ∀ x, l.charges[c]? = some x → x.tracker = id) ∨
    ∃ x, l.charges[c]? = some x ∧ l.transfer c id = { l with
      forest := (l.forest.release x.tracker x.bytes).consume id x.bytes
      charges := l.charges.modify c fun x => { x with tracker := id } } := by
  cases hx : l.charges[c]? with
  | none => exact .inl ⟨by simp only [transfer, hx], nofun⟩
  | some x =>
    by_cases hid : x.tracker = id
    · exact .inl ⟨transfer_of_eq hx hid, fun y hy => Option.some.inj hy ▸ hid⟩
    · exact .inr ⟨x, rfl, transfer_of_ne hx hid⟩

theorem path_transfer : (l.transfer c id).forest.path = l.forest.path := by
  rcases l.transfer_cases c id with ⟨hsame, -⟩ | ⟨x, -, hmove⟩
  · rw [hsame]
  · rw [hmove]
    exact Forest.path_consume.trans Forest.path_release

theorem size_transfer : (l.transfer c id).forest.trackers.size = l.forest.trackers.size := by
  rcases l.transfer_cases c id with ⟨hsame, -⟩ | ⟨x, -, hmove⟩
  · rw [hsame]
  · rw [hmove]
    exact Forest.size_consume.trans Forest.size_release

theorem charges_transfer :
    (l.transfer c id).charges = l.charges.modify c fun x => { x with tracker := id } := by
  rcases l.transfer_cases c id with ⟨hsame, htracker⟩ | ⟨x, -, hmove⟩
  · rw [hsame]
    refine Array.ext_getElem? fun d => ?_
    rw [Array.getElem?_modify]
    split
    · next hcd =>
      subst hcd
      cases hx : l.charges[c]? with
      | none => rfl
      | some x => rw [Option.map_some, ← htracker x hx]
    · rfl
  · rw [hmove]

end Ledger

end SpillSort.Memory
