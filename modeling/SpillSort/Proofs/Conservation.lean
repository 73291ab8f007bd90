import SpillSort.Proofs.Accounts

/-!
# Conservation of charges

A tracker shows the bytes of the live charges on it and on the trackers below it, and nothing else. A
charge is live while somebody holds it.

* `Ledger.live` is that sum. `Ledger.Conserved` says that every tracker shows it and that the charges
  are held as often as a list says; each operation of the ledger keeps it, with its change of the list.
* `Conserved.transfer_moves` says what a move does, to the charge and to the trackers above both
  places.
-/

namespace SpillSort.Memory

/-! ## Paths without repetition -/

theorem landing_of_mem {t : TrackerId} {path : List TrackerId} (hn : path.Nodup) (h : t ∈ path)
    (bytes : Int64) : landing t bytes path = bytes := by
  induction path with
  | nil => cases h
  | cons j js ih =>
    obtain ⟨hj, hjs⟩ := List.nodup_cons.mp hn
    rw [landing]
    rcases List.mem_cons.mp h with rfl | ht
    · rw [if_pos rfl, landing_of_not_mem hj, Int64.add_zero]
    · rw [if_neg fun (he : j = t) => hj (he ▸ ht), ih hjs ht, Int64.zero_add]

namespace Forest

variable {f : Forest} {g : Tracker → Tracker} {id a : TrackerId} {bytes : Int64}

theorem getElem?_foldl_modify_of_nodup {path : List TrackerId} (hn : path.Nodup)
    (ts : Array Tracker) (a : TrackerId) :
    (path.foldl (fun ts j => ts.modify j g) ts)[a]? =
      if a ∈ path then (ts[a]?).map g else ts[a]? := by
  induction path generalizing ts with
  | nil => simp
  | cons j js ih =>
    obtain ⟨hj, hjs⟩ := List.nodup_cons.mp hn
    rw [List.foldl_cons, ih hjs, Array.getElem?_modify]
    by_cases haj : j = a
    · subst haj
      simp [hj]
    · simp [haj, Ne.symm haj]

/-- A change along a path changes the trackers on it, each once. -/
theorem get?_onPath (hn : (f.path id).Nodup) (a : TrackerId) :
    (f.onPath id g).get? a = if a ∈ f.path id then (f.get? a).map g else f.get? a :=
  getElem?_foldl_modify_of_nodup hn f.trackers a

/-- No tracker shows more than its peak. -/
def Peaked (f : Forest) : Prop := ∀ a t, f.get? a = some t → t.current ≤ t.peak

theorem Peaked.onPath (h : f.Peaked) (hn : (f.path id).Nodup)
    (hg : ∀ a ∈ f.path id, ∀ t, f.get? a = some t → (g t).current ≤ (g t).peak) :
    (f.onPath id g).Peaked := by
  intro a t ht
  rw [get?_onPath hn] at ht
  split at ht
  · next ha =>
    obtain ⟨s, hs, rfl⟩ := Option.map_eq_some_iff.mp ht
    exact hg a ha s hs
  · exact h a t ht

theorem Peaked.consume (h : f.Peaked) (hn : (f.path id).Nodup) : (f.consume id bytes).Peaked := by
  unfold Forest.consume
  split
  · exact h
  · refine h.onPath hn fun a _ t _ => ?_
    simp only [Tracker.charge]
    split
    · exact Int64.le_refl _
    · next hlt => exact Int64.not_lt.mp hlt

/-- Giving back what the trackers show keeps them below their peaks. -/
theorem Peaked.release (h : f.Peaked) (hn : (f.path id).Nodup)
    (hb : ∀ a ∈ f.path id, bytes ≤ f.current a) : (f.release id bytes).Peaked := by
  unfold Forest.release
  split
  · exact h
  · next hpos =>
    refine h.onPath hn fun a ha t ht => Int64.le_trans ?_ (h a t ht)
    have hle := hb a ha
    rw [current, ht] at hle
    have h0 : 0 ≤ bytes := Int64.le_of_lt (Int64.not_le.mp hpos)
    have hsub := Int64.toInt_sub_of_le t.current bytes h0 hle
    rw [Int64.le_iff_toInt_le] at h0 ⊢
    simp only [Tracker.credit, hsub, Int64.toInt_zero] at h0 ⊢
    omega

/-- What is given back on one path and consumed on another comes back to the trackers on both, and
their peaks stay. -/
theorem get?_release_consume {id' : TrackerId} (h : f.Peaked) (hn : (f.path id).Nodup)
    (hn' : (f.path id').Nodup) (ha : a ∈ f.path id) (ha' : a ∈ f.path id') :
    (((f.release id bytes).consume id' bytes).get? a).map (fun t => (t.current, t.peak)) =
      (f.get? a).map fun t => (t.current, t.peak) := by
  have hpath : (f.release id bytes).path = f.path := path_release
  unfold Forest.consume Forest.release at *
  split
  · rfl
  · next hpos =>
    rw [if_neg hpos] at hpath
    rw [get?_onPath (by rwa [hpath]), hpath, if_pos ha', get?_onPath hn, if_pos ha]
    rcases ht : f.get? a with _ | t
    · rfl
    · have hback : t.current - bytes + bytes = t.current := by grind
      have hpeak := h a t ht
      simp [Tracker.charge, Tracker.credit, hback, Int64.not_lt.mpr hpeak]

end Forest

/-! ## Live charges -/

/-- What a charge puts on a tracker, given the paths of a forest: its bytes, if it is held and the
tracker is its own or above that. -/
def Charge.amount (path : TrackerId → List TrackerId) (t : TrackerId) (x : Charge) : Nat :=
  if x.holders ≠ 0 ∧ t ∈ path x.tracker then x.bytes.toNatClampNeg else 0

/-- The bytes of the live charges on a tracker and on the trackers below it. -/
def Ledger.live (l : Ledger) (t : TrackerId) : Nat :=
  total (l.charges.toList.map (Charge.amount l.forest.path t))

theorem Charge.weight_eq {f : Forest} {x : Charge} (hn : (f.path x.tracker).Nodup) (t : TrackerId) :
    x.weight f.share t = Int64.ofNat (x.amount f.path t) := by
  unfold weight amount Forest.share
  by_cases h0 : x.holders = 0
  · simp [h0]
  rw [if_neg h0]
  by_cases ht : t ∈ f.path x.tracker
  · rw [if_pos (And.intro h0 ht), landing_of_mem hn ht]
    split
    · next hle =>
      rw [Int64.toNatClampNeg_eq_zero_iff.mpr hle]
      rfl
    · next hlt =>
      exact (Int64.ofNat_toNatClampNeg _ (Int64.le_of_lt (Int64.not_le.mp hlt))).symm
  · rw [if_neg fun h : _ ∧ _ => ht h.2, landing_of_not_mem ht, ite_self]
    rfl

namespace Ledger

variable {l l' l₀ l₁ : Ledger} {cs ds : List ChargeId} {c : ChargeId} {x : Charge} {t id : TrackerId}

theorem load_eq (hn : ∀ id, (l.forest.path id).Nodup) (t : TrackerId) :
    l.load t = Int64.ofNat (l.live t) := by
  unfold load live
  induction l.charges.toList with
  | nil => rfl
  | cons x xs ih =>
    simp only [sumOf, List.map_cons, List.foldr_cons, total_cons, Int64.ofNat_add] at ih ⊢
    rw [ih, Charge.weight_eq (hn x.tracker)]

/-- What a change of one charge does to what is live. -/
theorem live_modify {f : Forest} {g : Charge → Charge} (hx : l.charges[c]? = some x)
    (hp : f.path = l.forest.path) (t : TrackerId) :
    ({ l with forest := f, charges := l.charges.modify c g } : Ledger).live t
        + x.amount l.forest.path t =
      l.live t + (g x).amount l.forest.path t := by
  simp only [live, Array.toList_modify, hp]
  exact total_modify _ g (by simpa using hx)

theorem amount_le_live (hx : l.charges[c]? = some x) (t : TrackerId) :
    x.amount l.forest.path t ≤ l.live t := by
  refine total_le_of_mem (List.mem_map.mpr ⟨x, ?_, rfl⟩)
  rw [Array.mem_toList_iff]
  exact Array.mem_of_getElem? hx

/-- Everything that is live fits a signed word, on each tracker. -/
def Fits (l : Ledger) : Prop := ∀ t < l.forest.trackers.size, l.live t < 2 ^ 63

instance (l : Ledger) : Decidable l.Fits := by
  unfold Fits
  infer_instance

/-- What becomes of the charges of a ledger: they keep their bytes, and a closed one is not touched
any more. Trackers stay where they are. -/
structure Continues (l l' : Ledger) : Prop where
  size : l.forest.trackers.size ≤ l'.forest.trackers.size
  charges : ∀ (c : ChargeId) (x : Charge), l.charges[c]? = some x →
    ∃ y : Charge, l'.charges[c]? = some y ∧ y.bytes = x.bytes ∧ (x.holders = 0 → y = x)

namespace Continues

theorem refl (l : Ledger) : l.Continues l := ⟨Nat.le_refl _, fun _ x hx => ⟨x, hx, rfl, fun _ => rfl⟩⟩

theorem trans (h : l.Continues l') (h' : l'.Continues l₁) : l.Continues l₁ := by
  refine ⟨Nat.le_trans h.size h'.size, fun c x hx => ?_⟩
  obtain ⟨y, hy, hbytes, hclosed⟩ := h.charges c x hx
  obtain ⟨z, hz, hbytes', hclosed'⟩ := h'.charges c y hy
  refine ⟨z, hz, hbytes'.trans hbytes, fun h0 => ?_⟩
  obtain rfl := hclosed h0
  exact hclosed' h0

/-- A change of a charge that is held. -/
theorem modify {forest : Forest} {g : Charge → Charge} (hx : l.charges[c]? = some x)
    (h0 : x.holders ≠ 0) (hsize : forest.trackers.size = l.forest.trackers.size)
    (hg : ∀ y, (g y).bytes = y.bytes) :
    l.Continues { l with forest, charges := l.charges.modify c g } := by
  refine ⟨Nat.le_of_eq hsize.symm, fun d y hy => ?_⟩
  simp only [Array.getElem?_modify]
  by_cases hcd : c = d
  · subst hcd
    obtain rfl : x = y := Option.some.inj (hx.symm.trans hy)
    exact ⟨g x, by simp [hx], hg x, fun h => absurd h h0⟩
  · exact ⟨y, by simp [hcd, hy], rfl, fun _ => rfl⟩

end Continues

/-! ## What each operation keeps -/

/-- A ledger that came from another one, in which charges are held as often as the list says. Every
tracker shows what is live on it and below it, all of which fits, and no more than its peak. -/
structure Conserved (l₀ l : Ledger) (cs : List ChargeId) : Prop where
  balanced : l.Balanced cs
  simple : ∀ id, (l.forest.path id).Nodup
  shown : ∀ t < l.forest.trackers.size, l.current t = l.load t
  peaked : l.forest.Peaked
  fits : l.Fits
  continues : l₀.Continues l

namespace Conserved

theorem perm (h : Conserved l₀ l cs) (hp : cs.Perm ds) : Conserved l₀ l ds :=
  { h with balanced := { h.balanced with holders := fun c => by rw [h.balanced.holders, hp.count_eq] } }

theorem accounts (h : Conserved l₀ l cs) (ht : t < l.forest.trackers.size) :
    Accounts ⟨t, 0, 0, []⟩ l (.charges cs) := by
  refine ⟨ht, ?_, fun c => ?_, fun i => ?_, Nat.zero_le _, fun c _ hc => ?_⟩
  · rw [h.shown t ht, Int64.zero_add]
  · rw [Resources.count_charges, leased_eq_zero h.balanced.leases, h.balanced.holders, Nat.add_zero]
  · rw [Resources.count_lease_charges, h.balanced.leases]
  · cases hc

/-- A tracker shows what is live. -/
theorem current_eq (h : Conserved l₀ l cs) (ht : t < l.forest.trackers.size) :
    (l.current t).toInt = l.live t := by
  rw [h.shown t ht, load_eq h.simple, Int64.toInt_ofNat_of_lt (h.fits t ht)]

/-- A charge that is held is there, on a tracker that is there. -/
theorem exists_charge (h : Conserved l₀ l cs) (hc : c ∈ cs) :
    ∃ x, l.charges[c]? = some x ∧ x.holders ≠ 0 ∧ x.tracker < l.forest.trackers.size := by
  have hlt := h.balanced.lt_size hc
  have hn := h.balanced.holders c
  rw [holdersOf, Array.getElem?_eq_getElem hlt, Option.map_some, Option.getD_some] at hn
  refine ⟨l.charges[c], Array.getElem?_eq_getElem hlt, ?_, h.balanced.charged _ (Array.getElem_mem hlt)⟩
  rw [hn]
  exact Nat.ne_of_gt (List.count_pos_iff.mpr hc)

/-- The trackers above a live charge show at least its bytes. -/
theorem bytes_le_current (h : Conserved l₀ l cs) (hx : l.charges[c]? = some x) (h0 : x.holders ≠ 0)
    (ht : t ∈ l.forest.path x.tracker) : x.bytes ≤ l.current t := by
  have hlt := h.balanced.lt_size_of_mem_path (h.balanced.charged x (Array.mem_of_getElem? hx)) ht
  have hle := amount_le_live hx t
  rw [Charge.amount, if_pos ⟨h0, ht⟩, Int64.toNatClampNeg] at hle
  rw [Int64.le_iff_toInt_le, h.current_eq hlt]
  omega

/-- An operation that leaves the trackers where they are keeps what the accounts of every tracker
keep. -/
theorem step (h : Conserved l₀ l cs) (hp : l'.forest.path = l.forest.path)
    (hsize : l'.forest.trackers.size = l.forest.trackers.size) (hid : id < l.forest.trackers.size)
    (hacc : ∀ t < l.forest.trackers.size, Accounts ⟨t, 0, 0, []⟩ l' (.charges ds))
    (hcharged : ∀ x ∈ l'.charges, x.tracker < l.forest.trackers.size)
    (hpeaked : l'.forest.Peaked) (hfits : l'.Fits) (hcont : l.Continues l') :
    Conserved l₀ l' ds := by
  have hleases : ∀ i, l'.leaseHolders i = 0 := fun i => by
    rw [(hacc id hid).leases i, Resources.count_lease_charges]
  refine ⟨⟨fun s hs a ha => ?_, by rwa [hsize], fun c => ?_, hleases⟩, hp ▸ h.simple, fun t ht => ?_,
    hpeaked, hfits, h.continues.trans hcont⟩
  · obtain ⟨i, hi, rfl⟩ := Array.mem_iff_getElem.mp hs
    have hmem : a ∈ l'.forest.path i := List.mem_cons_of_mem _ (by
      simpa [Forest.get?, Array.getElem?_eq_getElem hi] using ha)
    rw [hp] at hmem
    rw [hsize] at hi ⊢
    exact h.balanced.lt_size_of_mem_path hi hmem
  · rw [(hacc id hid).holders, Resources.count_charges, leased_eq_zero hleases, Nat.add_zero]
  · rw [hsize] at ht
    simpa using (hacc t ht).shown

theorem mem_charges : Resource.charge c ∈ Resources.charges cs ↔ c ∈ cs := by
  simp [Resources.charges]

theorem charged_modify (h : Conserved l₀ l cs) {g : Charge → Charge}
    (hg : ∀ y ∈ l.charges, (g y).tracker < l.forest.trackers.size) :
    ∀ y ∈ l.charges.modify c g, y.tracker < l.forest.trackers.size := by
  intro y hy
  obtain ⟨d, hd⟩ := Array.mem_iff_getElem?.mp hy
  rw [Array.getElem?_modify] at hd
  split at hd
  · obtain ⟨z, hz, rfl⟩ := Option.map_eq_some_iff.mp hd
    exact hg z (Array.mem_of_getElem? hz)
  · exact h.balanced.charged y (Array.mem_of_getElem? hd)

theorem share (h : Conserved l₀ l cs) (hc : c ∈ cs) : Conserved l₀ (l.share c) (c :: cs) := by
  obtain ⟨x, hx, h0, hlt⟩ := h.exists_charge hc
  refine h.step rfl rfl hlt (fun t ht => ?_) ?_ h.peaked (fun t ht => ?_)
    (.modify hx h0 rfl fun _ => rfl)
  · exact (h.accounts ht).share (mem_charges.mpr hc)
  · refine h.charged_modify (g := fun x => { x with holders := x.holders + 1 }) ?_
    exact h.balanced.charged
  · have hl := live_modify (f := l.forest)
      (g := fun x => { x with holders := x.holders + 1 }) hx rfl t
    have hsame : ({ x with holders := x.holders + 1 } : Charge).amount l.forest.path t =
        x.amount l.forest.path t := by
      simp [Charge.amount, h0]
    have hlive : (l.share c).live t = l.live t := Nat.add_right_cancel (hl.trans (by rw [hsame]))
    rw [hlive]
    exact h.fits t ht

theorem drop (h : Conserved l₀ l (c :: cs)) : Conserved l₀ (l.drop c) cs := by
  obtain ⟨x, hx, h0, hlt⟩ := h.exists_charge List.mem_cons_self
  have hdrop := drop_of_some hx
  have hpath : (l.drop c).forest.path = l.forest.path := by
    rw [hdrop]
    dsimp only
    split
    · exact Forest.path_release
    · rfl
  have hsize : (l.drop c).forest.trackers.size = l.forest.trackers.size := by
    rw [hdrop]
    dsimp only
    split
    · exact Forest.size_release
    · rfl
  refine h.step hpath hsize hlt (fun t ht => ?_) ?_ ?_ (fun t ht => ?_) ?_
  · exact (h.accounts ht).drop
  · rw [hdrop]
    refine h.charged_modify (g := fun x => { x with holders := x.holders - 1 }) ?_
    exact h.balanced.charged
  · rw [hdrop]
    dsimp only
    split
    · exact h.peaked.release (h.simple _) fun a ha => h.bytes_le_current hx h0 ha
    · exact h.peaked
  · have hl := live_modify (f := (l.drop c).forest)
      (g := fun x => { x with holders := x.holders - 1 }) hx hpath t
    have hle : ({ x with holders := x.holders - 1 } : Charge).amount l.forest.path t ≤
        x.amount l.forest.path t := by
      unfold Charge.amount
      split
      · next hn => rw [if_pos ⟨h0, hn.2⟩]
      · exact Nat.zero_le _
    have hf := h.fits t (hsize ▸ ht)
    rw [hdrop] at hl ⊢
    dsimp only at hl ⊢
    omega
  · rw [hdrop] at hsize ⊢
    exact .modify hx h0 hsize fun _ => rfl

theorem dropAll (h : Conserved l₀ l (cs ++ ds)) : Conserved l₀ (l.dropAll cs) ds := by
  induction cs generalizing l with
  | nil => exact h
  | cons c cs ih => exact ih h.drop

/-- Moving a charge, if everything still fits afterwards. -/
theorem transfer (h : Conserved l₀ l cs) (hc : c ∈ cs) (hid : id < l.forest.trackers.size)
    (hfits : (l.transfer c id).Fits) : Conserved l₀ (l.transfer c id) cs := by
  obtain ⟨x, hx, h0, hlt⟩ := h.exists_charge hc
  by_cases hxt : x.tracker = id
  · rw [transfer_of_eq hx hxt]
    exact h
  have hmove := transfer_of_ne hx hxt
  have hsize := l.size_transfer c id
  refine h.step (l.path_transfer c id) hsize hid (fun t ht => ?_) ?_ ?_ hfits ?_
  · exact (h.accounts ht).move (mem_charges.mpr hc) fun hlt => absurd hlt (Nat.not_lt_zero c)
  · rw [charges_transfer]
    exact h.charged_modify (g := fun x => { x with tracker := id }) fun _ _ => hid
  · rw [hmove]
    refine Forest.Peaked.consume ?_ ?_
    · exact h.peaked.release (h.simple _) fun a ha => h.bytes_le_current hx h0 ha
    · rw [Forest.path_release]
      exact h.simple id
  · rw [hmove] at hsize ⊢
    exact .modify hx h0 hsize fun _ => rfl

/-- Only the whole charge moves, for all its holders, and what a tracker above both places shows stays
the same, as does its peak. -/
theorem transfer_moves (h : Conserved l₀ l cs) (hc : c ∈ cs) (id : TrackerId) :
    ∃ x : Charge, l.charges[c]? = some x ∧ x.holders ≠ 0 ∧
      (l.transfer c id).charges = l.charges.modify c (fun x => { x with tracker := id }) ∧
      ∀ a ∈ l.forest.path x.tracker, a ∈ l.forest.path id →
        ((l.transfer c id).forest.get? a).map (fun t => (t.current, t.peak)) =
          (l.forest.get? a).map fun t => (t.current, t.peak) := by
  obtain ⟨x, hx, h0, -⟩ := h.exists_charge hc
  refine ⟨x, hx, h0, l.charges_transfer c id, fun a ha ha' => ?_⟩
  by_cases hxt : x.tracker = id
  · rw [transfer_of_eq hx hxt]
  · rw [transfer_of_ne hx hxt]
    exact Forest.get?_release_consume h.peaked (h.simple _) (h.simple _) ha ha'

/-- Opening a charge, if everything still fits afterwards. -/
theorem charge {bytes : Int64} (h : Conserved l₀ l cs) (hid : id < l.forest.trackers.size)
    (hfits : (l.charge id bytes).2.Fits) :
    Conserved l₀ (l.charge id bytes).2 ((l.charge id bytes).1 :: cs) := by
  refine h.step Forest.path_consume Forest.size_consume hid (fun t ht => ?_) (fun x hx => ?_)
    (h.peaked.consume (h.simple id)) hfits ⟨Nat.le_of_eq Forest.size_consume.symm, fun c x hx => ?_⟩
  · exact (h.accounts ht).charge id bytes
  · rcases Array.mem_push.mp hx with hx | rfl
    · exact h.balanced.charged x hx
    · exact hid
  · obtain ⟨hlt, -⟩ := Array.getElem?_eq_some_iff.mp hx
    exact ⟨x, (Array.getElem?_push_lt hlt).trans (by rwa [← Array.getElem?_eq_getElem hlt]), rfl,
      fun _ => rfl⟩

/-- A new tracker, below trackers that are there. -/
theorem addTracker {new : Tracker} (h : Conserved l₀ l cs) (hnodup : new.ancestors.Nodup)
    (habove : ∀ a ∈ new.ancestors, a < l.forest.trackers.size) (hcurrent : new.current = 0)
    (hpeak : new.peak = 0) :
    Conserved l₀ { l with forest := { trackers := l.forest.trackers.push new } } cs := by
  have hlive : ∀ t, Ledger.live { l with forest := { trackers := l.forest.trackers.push new } } t =
      l.live t := fun t => congrArg total <| List.map_congr_left fun x hx => by
    have hlt := h.balanced.charged x (Array.mem_toList_iff.mp hx)
    rw [Charge.amount, Forest.path_push_of_lt hlt, Charge.amount]
  have hsimple : ∀ id, (Forest.path { trackers := l.forest.trackers.push new } id).Nodup := by
    intro id
    rw [Forest.path_push]
    split
    · next hid =>
      exact List.nodup_cons.mpr ⟨fun hm => Nat.ne_of_lt (habove _ hm) hid, hnodup⟩
    · exact h.simple id
  have hidle : l.live l.forest.trackers.size = 0 := total_eq_zero fun n hn => by
    obtain ⟨x, hx, rfl⟩ := List.mem_map.mp hn
    refine if_neg fun hm => Nat.lt_irrefl _ (h.balanced.lt_size_of_mem_path ?_ hm.2)
    exact h.balanced.charged x (Array.mem_toList_iff.mp hx)
  refine ⟨⟨fun t ht a ha => ?_, fun x hx => ?_, h.balanced.holders, h.balanced.leases⟩, hsimple,
    fun t ht => ?_, fun a t ht => ?_, fun t ht => ?_, ?_⟩
  · rw [Array.size_push]
    rcases Array.mem_push.mp ht with ht | rfl
    · exact Nat.lt_succ_of_lt (h.balanced.ancestors t ht a ha)
    · exact Nat.lt_succ_of_lt (habove a ha)
  · rw [Array.size_push]
    exact Nat.lt_succ_of_lt (h.balanced.charged x hx)
  · rw [load_eq hsimple, hlive]
    rcases Nat.lt_succ_iff_lt_or_eq.mp (Array.size_push new ▸ ht) with ht | rfl
    · rw [← load_eq h.simple, ← h.shown t ht, current, Forest.current, Forest.get?_push_of_lt ht]
      rfl
    · rw [hidle, current, Forest.current, Forest.get?_push_size]
      exact hcurrent
  · rcases Nat.lt_trichotomy a l.forest.trackers.size with ha | rfl | ha
    · exact h.peaked a t (Forest.get?_push_of_lt ha ▸ ht)
    · obtain rfl := Option.some.inj (Forest.get?_push_size.symm.trans ht)
      rw [hcurrent, hpeak]
      exact Int64.le_refl 0
    · rw [Forest.get?, Array.getElem?_eq_none (by rw [Array.size_push]; omega)] at ht
      cases ht
  · rw [hlive]
    rcases Nat.lt_succ_iff_lt_or_eq.mp (Array.size_push new ▸ ht) with ht | rfl
    · exact h.fits t ht
    · rw [hidle]
      exact Nat.two_pow_pos 63
  · refine h.continues.trans ⟨?_, (Continues.refl l).charges⟩
    rw [Array.size_push]
    exact Nat.le_succ _

/-- Whoever made a tracker lets go of it. -/
theorem letGo (h : Conserved l₀ l cs) (hid : id < l.forest.trackers.size) :
    Conserved l₀ (l.onForest fun f => f.letGo id) cs := by
  have hview : ∀ {β : Type} {v : Tracker → β}, (∀ x : Tracker, v { x with held := false } = v x) →
      ∀ a, ((l.forest.letGo id).get? a).map v = (l.forest.get? a).map v :=
    fun hv a => Forest.getElem?_foldl_modify hv [id] l.forest.trackers a
  have hpath : (l.forest.letGo id).path = l.forest.path := by
    funext a
    rw [Forest.path, hview fun _ => rfl, Forest.path]
  have hcurrent : (l.forest.letGo id).current = l.forest.current := by
    funext a
    rw [Forest.current, hview fun _ => rfl, Forest.current]
  have hlive : (l.onForest fun f => f.letGo id).live = l.live := by
    funext t
    simp only [live, onForest, hpath]
  have hsize : (l.forest.letGo id).trackers.size = l.forest.trackers.size := Array.size_modify
  refine h.step hpath hsize hid (fun t ht => ?_) h.balanced.charged (fun a t ht => ?_)
    (fun t ht => ?_) ⟨Nat.le_of_eq hsize.symm, (Continues.refl l).charges⟩
  · have hacc := h.accounts ht
    refine ⟨?_, ?_, hacc.holders, hacc.leases, Nat.zero_le _, fun c _ hc => ?_⟩
    · exact Nat.lt_of_lt_of_eq ht hsize.symm
    · have hshown := hacc.shown
      simp only [current, load, onForest, hcurrent, Forest.share_congr hpath] at hshown ⊢
      exact hshown
    · cases hc
  · have hpeak := hview (v := fun t => (t.current, t.peak)) (fun _ => rfl) a
    rw [show (l.forest.letGo id).get? a = some t from ht, Option.map_some, eq_comm,
      Option.map_eq_some_iff] at hpeak
    obtain ⟨s, hs, heq⟩ := hpeak
    obtain ⟨hc, hp⟩ := Prod.mk.inj heq
    rw [← hc, ← hp]
    exact h.peaked a s hs
  · rw [hlive]
    exact h.fits t (hsize ▸ ht)

end Conserved

end Ledger

end SpillSort.Memory
