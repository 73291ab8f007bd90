import Mathlib.Algebra.Order.Group.Multiset
import SpillSort.Proofs.Trackers
import SpillSort.Spill.Disk

/-!
# Accounts

Who holds what of a ledger. Things that are held are resources, and a multiset of them is what some
part of the program answers for. The accounts of a ledger are in order if every holder is a resource
of someone, and if one tracker shows nothing but what was idle on it and the charges with holders.

* `Accounts` is that condition; each operation of the ledger keeps it, and moves resources.
* `Accounts.current_eq` says what the tracker shows in the end: nothing else, if no charge that
  someone still holds is on it.
-/

namespace SpillSort

open Memory

/-- A spill file on the disk: its path, which content it has, and the bytes of that. -/
structure HeldFile where
  path : String
  content : Spill.ContentId
  bytes : ByteArray

instance : DecidableEq HeldFile := fun f g =>
  decidable_of_iff (f.path = g.path ∧ f.content = g.content ∧ f.bytes.data = g.bytes.data) <| by
    cases f
    cases g
    simp [ByteArray.ext_iff]

/-- Something that is held and has to be let go of. -/
inductive Resource where
  | charge (c : ChargeId)
  | lease (i : LeaseId)
  | file (f : HeldFile)
  deriving DecidableEq

/-- What is held together. -/
abbrev Resources := Multiset Resource

/-- A holder of each listed charge. -/
def Resources.charges (cs : List ChargeId) : Resources := (cs.map Resource.charge : List Resource)

namespace Resources

@[simp] theorem charges_nil : charges [] = 0 := rfl

@[simp] theorem charges_cons (c : ChargeId) (cs : List ChargeId) :
    charges (c :: cs) = .charge c ::ₘ charges cs := rfl

@[simp] theorem charges_append (cs ds : List ChargeId) :
    charges (cs ++ ds) = charges cs + charges ds := by
  simp [charges, ← Multiset.coe_add]

@[simp] theorem count_charges (c : ChargeId) (cs : List ChargeId) :
    (charges cs).count (.charge c) = cs.count c := by
  induction cs with
  | nil => rfl
  | cons d ds ih =>
    rw [charges_cons, Multiset.count_cons, ih, List.count_cons]
    by_cases h : c = d
    · simp [h]
    · simp [h, Ne.symm h]

@[simp] theorem count_lease_charges (i : LeaseId) (cs : List ChargeId) :
    (charges cs).count (.lease i) = 0 := by
  rw [Multiset.count_eq_zero]
  simp [charges]

end Resources

/-- What the accounts are kept for: a tracker, what is idle on it, the number of charges that were
opened before, and those of them that were taken over since. -/
structure Books where
  tracker : TrackerId
  idle : Int64
  opened : Nat
  taken : List ChargeId

/-- Leases without holders hold no charges. -/
theorem Memory.Ledger.leased_eq_zero {l : Ledger} (h : ∀ i, l.leaseHolders i = 0) (c : ChargeId) :
    l.leased c = 0 := by
  refine total_eq_zero fun n hn => ?_
  obtain ⟨y, hy, rfl⟩ := List.mem_map.mp hn
  obtain ⟨i, hi⟩ := List.mem_iff_getElem?.mp hy
  have hly := h i
  have hi' : l.leases[i]? = some y := by simpa using hi
  rw [Ledger.leaseHolders, hi'] at hly
  exact if_pos hly

/-- A ledger in which charges are held as often as the list says, and none by a lease. All charges are
on trackers that are there, as are the ancestors of all trackers. -/
structure Memory.Ledger.Balanced (l : Ledger) (cs : List ChargeId) : Prop where
  ancestors : ∀ t ∈ l.forest.trackers, ∀ a ∈ t.ancestors, a < l.forest.trackers.size
  charged : ∀ x ∈ l.charges, x.tracker < l.forest.trackers.size
  holders : ∀ c, l.holdersOf c = cs.count c
  leases : ∀ i, l.leaseHolders i = 0

/-- A charge that is held is there. -/
theorem Memory.Ledger.Balanced.lt_size {l : Ledger} {cs : List ChargeId} (h : l.Balanced cs)
    {c : ChargeId} (hc : c ∈ cs) : c < l.charges.size := by
  by_contra hge
  have hh := h.holders c
  rw [Ledger.holdersOf, Array.getElem?_eq_none (Nat.not_lt.mp hge)] at hh
  exact Nat.ne_of_gt (List.count_pos_iff.mpr hc) hh.symm

/-- The trackers above one that is there are there. -/
theorem Memory.Ledger.Balanced.lt_size_of_mem_path {l : Ledger} {cs : List ChargeId}
    (h : l.Balanced cs) {id a : TrackerId} (hid : id < l.forest.trackers.size)
    (ha : a ∈ l.forest.path id) : a < l.forest.trackers.size := by
  rcases List.mem_cons.mp ha with rfl | ha
  · exact hid
  · simp only [Forest.get?, Array.getElem?_eq_getElem hid, Option.map_some, Option.getD_some] at ha
    exact h.ancestors _ (Array.getElem_mem hid) a ha

/-- The accounts of a ledger are in order, with all that is held. -/
structure Accounts (b : Books) (l : Ledger) (R : Resources) : Prop where
  tracked : b.tracker < l.forest.trackers.size
  shown : l.current b.tracker = b.idle + l.load b.tracker
  holders : ∀ c, l.holdersOf c = R.count (.charge c) + l.leased c
  leases : ∀ i, l.leaseHolders i = R.count (.lease i)
  opened : b.opened ≤ l.charges.size
  /-- A charge opened before lies on the tracker only if it was taken over. -/
  foreign : ∀ c x, c < b.opened → l.charges[c]? = some x →
    x.tracker = b.tracker ∧ c ∈ b.taken ∨ b.tracker ∉ l.forest.path x.tracker

namespace Accounts

variable {b : Books} {l : Ledger} {R : Resources} {c : ChargeId} {i : LeaseId} {x : Charge}

/-- A charge that is held is there, with holders. -/
theorem exists_charge (h : Accounts b l R) (hc : .charge c ∈ R) :
    ∃ x, l.charges[c]? = some x ∧ x.holders = R.count (.charge c) + l.leased c ∧ x.holders ≠ 0 := by
  have hn := h.holders c
  have hp : 0 < R.count (.charge c) := Multiset.count_pos.mpr hc
  unfold Ledger.holdersOf at hn
  rcases hx : l.charges[c]? with _ | x
  · rw [hx] at hn
    simp at hn
    omega
  · rw [hx] at hn
    exact ⟨x, rfl, hn, by simp at hn; omega⟩

/-- What the tracker shows after a charge has changed, and with it the forest. -/
theorem shown_modify (h : Accounts b l R) {forest : Forest} {g : Charge → Charge}
    (hx : l.charges[c]? = some x) (hp : forest.path = l.forest.path)
    (hs : forest.current b.tracker = l.forest.current b.tracker
      - x.weight l.forest.share b.tracker + (g x).weight l.forest.share b.tracker) :
    ({ l with forest, charges := l.charges.modify c g } : Ledger).current b.tracker =
      b.idle + ({ l with forest, charges := l.charges.modify c g } : Ledger).load b.tracker := by
  have hx' : l.charges.toList[c]? = some x := by simpa using hx
  have hl := h.shown
  simp only [Ledger.current, Ledger.load, Array.toList_modify, Forest.share_congr hp,
    sumOf_modify _ g hx'] at hl ⊢
  rw [hs, hl]
  grind

theorem holdersOf_modify {forest : Forest} {g : Charge → Charge} (hx : l.charges[c]? = some x)
    (d : ChargeId) :
    ({ l with forest, charges := l.charges.modify c g } : Ledger).holdersOf d =
      if c = d then (g x).holders else l.holdersOf d := by
  unfold Ledger.holdersOf
  rw [Array.getElem?_modify]
  split
  · next h => simp [← h, hx]
  · rfl

/-- A change of holders keeps a foreign charge foreign. -/
theorem foreign_modify (h : Accounts b l R) {forest : Forest} {g : Charge → Charge}
    (hp : forest.path = l.forest.path) (hg : ∀ x, (g x).tracker = x.tracker) :
    ∀ d y, d < b.opened → (l.charges.modify c g)[d]? = some y →
      y.tracker = b.tracker ∧ d ∈ b.taken ∨ b.tracker ∉ forest.path y.tracker := by
  intro d y hd hy
  rw [Array.getElem?_modify] at hy
  rw [hp]
  split at hy
  · obtain ⟨x, hx, rfl⟩ := Option.map_eq_some_iff.mp hy
    rw [hg]
    exact h.foreign d x hd hx
  · exact h.foreign d y hd hy

theorem share (h : Accounts b l R) (hc : .charge c ∈ R) :
    Accounts b (l.share c) (.charge c ::ₘ R) := by
  obtain ⟨x, hx, hn, h0⟩ := h.exists_charge hc
  refine ⟨h.tracked, h.shown_modify hx rfl ?_, fun d => ?_, fun i => ?_, ?_,
    h.foreign_modify rfl fun _ => rfl⟩
  · simp only [Charge.weight, if_neg h0, Nat.add_eq_zero_iff, Nat.succ_ne_self, and_false, if_false]
    grind
  · refine (holdersOf_modify (g := fun x => { x with holders := x.holders + 1 }) hx d).trans ?_
    rw [Multiset.count_cons]
    split
    · next hd =>
      subst hd
      show x.holders + 1 = _
      simp only [if_true, hn, Ledger.leased, Ledger.share]
      omega
    · next hd =>
      rw [if_neg (by simpa using Ne.symm hd)]
      exact h.holders d
  · rw [Multiset.count_cons_of_ne (by simp)]
    exact h.leases i
  · simpa [Ledger.share] using h.opened

theorem drop (h : Accounts b l (.charge c ::ₘ R)) : Accounts b (l.drop c) R := by
  obtain ⟨x, hx, hn, h0⟩ := h.exists_charge (Multiset.mem_cons_self _ R)
  rw [Multiset.count_cons_self] at hn
  have hp : (if x.holders = 1 then l.forest.release x.tracker x.bytes else l.forest).path =
      l.forest.path := by
    split
    · exact Forest.path_release
    · rfl
  rw [Ledger.drop_of_some hx]
  refine ⟨?_, h.shown_modify hx hp ?_, fun d => ?_, fun i => ?_, ?_,
    h.foreign_modify hp fun _ => rfl⟩
  · show b.tracker < (if _ then _ else _ : Forest).trackers.size
    split
    · rw [Forest.size_release]
      exact h.tracked
    · exact h.tracked
  · by_cases h1 : x.holders = 1
    · rw [if_pos h1, Forest.current_release h.tracked]
      simp [Charge.weight, h1]
    · have h2 : x.holders - 1 ≠ 0 := by omega
      simp only [if_neg h1, Charge.weight, if_neg h0, if_neg h2]
      grind
  · rw [holdersOf_modify hx]
    have hd := h.holders d
    rw [Multiset.count_cons] at hd
    split
    · next hcd =>
      subst hcd
      simp only [hn, Ledger.leased]
      omega
    · next hcd =>
      rw [if_neg (by simpa using Ne.symm hcd)] at hd
      exact hd
  · have hi := h.leases i
    rw [Multiset.count_cons_of_ne (by simp)] at hi
    exact hi
  · simpa using h.opened

theorem charge_fst {id : TrackerId} {bytes : Int64} : (l.charge id bytes).1 = l.charges.size := rfl

/-- A new charge has one holder. -/
theorem charge (h : Accounts b l R) (id : TrackerId) (bytes : Int64) :
    Accounts b (l.charge id bytes).2 (.charge (l.charge id bytes).1 ::ₘ R) := by
  have hnew : l.holdersOf l.charges.size = 0 := by simp [Ledger.holdersOf]
  refine ⟨?_, ?_, fun c => ?_, fun i => ?_, ?_, fun c x hc hx => ?_⟩
  · show b.tracker < (l.forest.consume id bytes).trackers.size
    rw [Forest.size_consume]
    exact h.tracked
  · have hs := h.shown
    simp only [Ledger.current, Ledger.load, Ledger.charge, Ledger.record, Ledger.onForest,
      Array.toList_push, sumOf_append, Forest.share_congr Forest.path_consume,
      Forest.current_consume h.tracked] at hs ⊢
    rw [hs]
    simp [sumOf, Charge.weight, Int64.add_assoc]
  · have hh := h.holders c
    rw [Multiset.count_cons]
    show ((l.charges.push _)[c]?.map Charge.holders).getD 0 = _
    rw [Array.getElem?_push]
    split
    · next hc =>
      subst hc
      rw [hnew] at hh
      show 1 = _ + l.leased _
      rw [if_pos (congrArg _ charge_fst.symm)]
      omega
    · next hc =>
      rw [if_neg (by simpa [Ledger.charge, Ledger.record, Ledger.onForest] using hc)]
      exact hh
  · rw [Multiset.count_cons_of_ne (by simp)]
    exact h.leases i
  · have ho := h.opened
    simp only [Ledger.charge, Ledger.record, Ledger.onForest, Array.size_push]
    omega
  · have ho := h.opened
    simp only [Ledger.charge, Ledger.record, Ledger.onForest] at hx ⊢
    rw [Array.getElem?_push_lt (by omega)] at hx
    rw [Forest.path_consume]
    exact h.foreign c x hc (by rw [Array.getElem?_eq_getElem (by omega)]; exact hx)

/-- Moving a charge. One that was opened before may come to the tracker if it counts as taken over. -/
theorem move (h : Accounts b l R) (hc : .charge c ∈ R) {id : TrackerId}
    (hid : c < b.opened → id = b.tracker ∧ c ∈ b.taken ∨ b.tracker ∉ l.forest.path id) :
    Accounts b (l.transfer c id) R := by
  obtain ⟨x, hx, hn, h0⟩ := h.exists_charge hc
  by_cases hxt : x.tracker = id
  · rw [Ledger.transfer_of_eq hx hxt]
    exact h
  have hp : ((l.forest.release x.tracker x.bytes).consume id x.bytes).path = l.forest.path :=
    Forest.path_consume.trans Forest.path_release
  rw [Ledger.transfer_of_ne hx hxt]
  refine ⟨?_, h.shown_modify hx hp ?_, fun d => ?_, h.leases, ?_, fun d y hd hy => ?_⟩
  · show b.tracker < (Forest.consume _ _ _).trackers.size
    rw [Forest.size_consume, Forest.size_release]
    exact h.tracked
  · rw [Forest.current_consume (by rw [Forest.size_release]; exact h.tracked),
      Forest.current_release h.tracked, Forest.share_congr Forest.path_release]
    simp only [Charge.weight, if_neg h0]
  · rw [holdersOf_modify hx]
    have hd := h.holders d
    split
    · next hcd =>
      subst hcd
      exact hn
    · exact hd
  · simpa using h.opened
  · rw [Array.getElem?_modify] at hy
    rw [hp]
    split at hy
    · next hcd =>
      subst hcd
      obtain ⟨z, -, rfl⟩ := Option.map_eq_some_iff.mp hy
      exact hid hd
    · exact h.foreign d y hd hy

/-- Moving a charge to the tracker, if it was opened since or counts as taken over. -/
theorem transfer (h : Accounts b l R) (hc : .charge c ∈ R) (ht : c < b.opened → c ∈ b.taken) :
    Accounts b (l.transfer c b.tracker) R :=
  h.move hc fun hlt => .inl ⟨rfl, ht hlt⟩

/-! ## Leases -/

theorem lease_fst {cs : List ChargeId} : (l.lease cs).1 = l.leases.size := rfl

/-- The holders of the charges become one holder of a lease. -/
theorem lease {cs : List ChargeId} (h : Accounts b l (.charges cs + R)) :
    Accounts b (l.lease cs).2 (.lease (l.lease cs).1 ::ₘ R) := by
  refine ⟨h.tracked, h.shown, fun c => ?_, fun i => ?_, h.opened, h.foreign⟩
  · have hc := h.holders c
    rw [Multiset.count_add, Resources.count_charges] at hc
    rw [Multiset.count_cons_of_ne (by simp)]
    have hl : (l.lease cs).2.leased c = l.leased c + cs.count c := by
      simp [Ledger.leased, Ledger.lease]
    show l.holdersOf c = _
    omega
  · have hi := h.leases i
    rw [Multiset.count_add, Resources.count_lease_charges, Nat.zero_add] at hi
    rw [Multiset.count_cons]
    show (((l.leases.push _)[i]?).map Lease.holders).getD 0 = _
    rw [Array.getElem?_push]
    split
    · next he =>
      subst he
      have hnew : l.leaseHolders l.leases.size = 0 := by simp [Ledger.leaseHolders]
      rw [hnew] at hi
      rw [← hi, if_pos (congrArg _ lease_fst.symm)]
      rfl
    · next he =>
      rw [if_neg (by simpa [Ledger.lease] using he)]
      exact hi

/-- A lease that is held is there, with holders. -/
theorem exists_lease (h : Accounts b l R) (hi : .lease i ∈ R) :
    ∃ x, l.leases[i]? = some x ∧ x.holders = R.count (.lease i) ∧ x.holders ≠ 0 := by
  have hn := h.leases i
  have hp : 0 < R.count (.lease i) := Multiset.count_pos.mpr hi
  unfold Ledger.leaseHolders at hn
  rcases hx : l.leases[i]? with _ | x
  · rw [hx] at hn
    simp at hn
    omega
  · rw [hx] at hn
    exact ⟨x, rfl, hn, by simp at hn; omega⟩

theorem leaseHolders_modify {g : Lease → Lease} {y : Lease} (hy : l.leases[i]? = some y)
    (j : LeaseId) : ({ l with leases := l.leases.modify i g } : Ledger).leaseHolders j =
      if i = j then (g y).holders else l.leaseHolders j := by
  unfold Ledger.leaseHolders
  rw [Array.getElem?_modify]
  split
  · next h => simp [← h, hy]
  · rfl

/-- What leases hold after one of them has changed. -/
theorem leased_modify {g : Lease → Lease} {y : Lease} (hy : l.leases[i]? = some y) (c : ChargeId) :
    ({ l with leases := l.leases.modify i g } : Ledger).leased c
        + (if y.holders = 0 then 0 else y.charges.count c) =
      l.leased c + if (g y).holders = 0 then 0 else (g y).charges.count c := by
  have hy' : l.leases.toList[i]? = some y := by simpa using hy
  unfold Ledger.leased
  rw [Array.toList_modify]
  exact total_modify (fun x => if x.holders = 0 then 0 else x.charges.count c) g hy'

theorem shareLease (h : Accounts b l R) (hi : .lease i ∈ R) :
    Accounts b (l.shareLease i) (.lease i ::ₘ R) := by
  obtain ⟨y, hy, hn, h0⟩ := h.exists_lease hi
  refine ⟨h.tracked, h.shown, fun c => ?_, fun j => ?_, h.opened, h.foreign⟩
  · have hl := leased_modify (g := fun x => { x with holders := x.holders + 1 }) hy c
    have hc := h.holders c
    rw [if_neg h0, if_neg (Nat.succ_ne_zero _)] at hl
    rw [Multiset.count_cons_of_ne (by simp)]
    refine hc.trans (congrArg _ ?_)
    exact (Nat.add_right_cancel hl).symm
  · refine (leaseHolders_modify (g := fun x => { x with holders := x.holders + 1 }) hy j).trans ?_
    rw [Multiset.count_cons]
    split
    · next hij =>
      subst hij
      rw [if_pos rfl, ← hn]
    · next hij =>
      rw [if_neg (by simpa using Ne.symm hij)]
      exact h.leases j

theorem dropAll {cs : List ChargeId} (h : Accounts b l (.charges cs + R)) :
    Accounts b (l.dropAll cs) R := by
  induction cs generalizing l with
  | nil => simpa [Ledger.dropAll] using h
  | cons c cs ih =>
    rw [Resources.charges_cons, Multiset.cons_add] at h
    exact ih h.drop

theorem shareAll {cs : List ChargeId} (h : Accounts b l (.charges cs + R)) :
    Accounts b (l.shareAll cs) (.charges cs + (.charges cs + R)) := by
  induction cs generalizing l R with
  | nil => simpa [Ledger.shareAll] using h
  | cons c cs ih =>
    rw [Resources.charges_cons, Multiset.cons_add] at h
    have hs := h.share (Multiset.mem_cons_self _ _)
    have hi := ih (R := .charge c ::ₘ .charge c ::ₘ R) (by simpa using hs)
    simpa [Ledger.shareAll] using hi

/-- The last holder of a lease lets go of its charges. -/
theorem dropLease (h : Accounts b l (.lease i ::ₘ R)) : Accounts b (l.dropLease i) R := by
  obtain ⟨y, hy, hn, h0⟩ := h.exists_lease (Multiset.mem_cons_self _ R)
  rw [Multiset.count_cons_self] at hn
  have hleases : ∀ j, ({ l with leases := l.leases.modify i fun x =>
      { x with holders := x.holders - 1 } } : Ledger).leaseHolders j = R.count (.lease j) := by
    intro j
    rw [leaseHolders_modify hy]
    have hj := h.leases j
    rw [Multiset.count_cons] at hj
    split
    · next hij =>
      subst hij
      simp only [hn]
      omega
    · next hij =>
      rw [if_neg (by simpa using Ne.symm hij)] at hj
      exact hj
  have hcount : ∀ c, R.count (.charge c) = (Resource.lease i ::ₘ R).count (.charge c) := fun c =>
    (Multiset.count_cons_of_ne (by simp) R).symm
  have hl := fun c => leased_modify (g := fun x => { x with holders := x.holders - 1 }) hy c
  simp only [Ledger.dropLease, hy]
  split
  · next h1 =>
    refine dropAll ⟨h.tracked, h.shown, fun c => ?_, fun j => ?_, h.opened, h.foreign⟩
    · have hc := h.holders c
      have hlc := hl c
      rw [if_neg h0, if_pos (by simp [h1])] at hlc
      rw [Multiset.count_add, Resources.count_charges, hcount]
      refine hc.trans ?_
      omega
    · rw [Multiset.count_add, Resources.count_lease_charges, Nat.zero_add]
      exact hleases j
  · next h1 =>
    refine ⟨h.tracked, h.shown, fun c => ?_, hleases, h.opened, h.foreign⟩
    have hc := h.holders c
    have hlc := hl c
    rw [if_neg h0, if_neg (by simp; omega)] at hlc
    rw [hcount]
    refine hc.trans (congrArg _ (Nat.add_right_cancel hlc).symm)

/-! ## From the beginning to the end -/

/-- Nothing is on a tracker that was just made. -/
theorem addChild {cs : List ChargeId} (h : l.Balanced cs) (label : String) (limit : Int64)
    (parent : TrackerId) :
    Accounts ⟨(l.addChild label limit parent).1, 0, l.charges.size, []⟩
      (l.addChild label limit parent).2 (.charges cs) := by
  have hforeign : ∀ x ∈ l.charges, l.forest.trackers.size ∉
      (l.addChild label limit parent).2.forest.path x.tracker := by
    intro x hx hm
    have hlt := h.charged x hx
    have hpath : (l.addChild label limit parent).2.forest.path x.tracker =
        l.forest.path x.tracker := Forest.path_push_of_lt hlt
    rw [hpath] at hm
    rcases List.mem_cons.mp hm with heq | hm
    · exact absurd heq (Nat.ne_of_gt hlt)
    · simp only [Forest.get?, Array.getElem?_eq_getElem hlt, Option.map_some,
        Option.getD_some] at hm
      exact Nat.lt_irrefl _ (h.ancestors _ (Array.getElem_mem hlt) _ hm)
  refine ⟨?_, ?_, fun c => ?_, fun i => ?_, Nat.le_refl _, fun c x hc hx => .inr ?_⟩
  · show l.forest.trackers.size < (l.forest.trackers.push _).size
    rw [Array.size_push]
    exact Nat.lt_succ_self _
  · have hload : (l.addChild label limit parent).2.load l.forest.trackers.size = 0 := by
      refine sumOf_eq_zero fun x hx => ?_
      unfold Charge.weight
      split
      · rfl
      · exact Forest.share_of_not_mem (hforeign x (Array.mem_toList_iff.mp hx))
    refine Eq.trans ?_ (congrArg (0 + ·) hload.symm)
    show (l.addChild label limit parent).2.current l.forest.trackers.size = 0
    simp [Ledger.current, Ledger.addChild, Forest.addChild, Forest.current, Forest.get?]
  · rw [Resources.count_charges]
    show l.holdersOf c = _ + l.leased c
    rw [Ledger.leased_eq_zero h.leases, h.holders, Nat.add_zero]
  · rw [Resources.count_lease_charges]
    exact h.leases i
  · exact hforeign x (Array.mem_of_getElem? hx)

/-- More charges may count as taken over. -/
theorem mono {b' : Books} (h : Accounts b l R) (ht : b'.tracker = b.tracker)
    (hi : b'.idle = b.idle) (ho : b'.opened = b.opened) (hs : b.taken ⊆ b'.taken) :
    Accounts b' l R :=
  ⟨ht ▸ h.tracked, by rw [ht, hi]; exact h.shown, h.holders, h.leases, ho ▸ h.opened, by
    rw [ht, ho]
    exact fun c x hc hx => (h.foreign c x hc hx).imp_left (.imp_right (hs ·))⟩

/-- The tracker shows nothing but what is idle, once every charge that is held was opened before and
is not on it. -/
theorem current_eq (h : Accounts b l R)
    (hR : ∀ r ∈ R, ∃ c < b.opened, r = .charge c ∧ l.trackerOf? c ≠ some b.tracker) :
    l.current b.tracker = b.idle := by
  have hleased : ∀ c, l.leased c = 0 := Ledger.leased_eq_zero fun i => by
    rw [h.leases, Multiset.count_eq_zero]
    intro hm
    obtain ⟨c, -, hr, -⟩ := hR _ hm
    cases hr
  have hload : l.load b.tracker = 0 := by
    refine sumOf_eq_zero fun x hx => ?_
    obtain ⟨c, hc⟩ := List.mem_iff_getElem?.mp hx
    have hc' : l.charges[c]? = some x := by simpa using hc
    by_cases h0 : x.holders = 0
    · exact if_pos h0
    have hh := h.holders c
    rw [hleased c, Nat.add_zero, Ledger.holdersOf, hc'] at hh
    have hm : Resource.charge c ∈ R := Multiset.count_pos.mp (by
      have hx0 : x.holders = R.count (.charge c) := hh
      omega)
    obtain ⟨d, hd, hr, ht⟩ := hR _ hm
    obtain rfl : c = d := by simpa using hr
    rw [Ledger.trackerOf?, hc'] at ht
    rcases h.foreign c x hd hc' with hf | hf
    · exact absurd (congrArg some hf.1) ht
    · exact (if_neg h0).trans (Forest.share_of_not_mem hf)
  rw [h.shown, hload, Int64.add_zero]

end Accounts

end SpillSort
