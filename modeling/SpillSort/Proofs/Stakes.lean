import Mathlib.Data.List.Induction
import SpillSort.Proofs.Conservation

/-!
# Stakes in charges

Whoever holds a part of a charge answers for a number of its bytes. Such parts are stakes, and a
ledger covers some stakes if no charge is answered for beyond its bytes.

* `Ledger.Covers.total_le_live` is why this matters: stakes in live charges on one tracker cannot
  sum up to more than that tracker shows.
* `Ledger.Steady` says what opening charges and letting go of them leaves alone. Stakes stay
  covered, and new ones may be taken in charges that were opened since.
* `Ledger.transfer_covers` is about the move of a charge, which changes no bytes.
-/

namespace SpillSort.Memory

/-! ## Peaks -/

namespace Forest

variable {f : Forest} {g : Tracker → Tracker} {t id : TrackerId} {bytes : Int64}

/-- The most that was ever current on `id`. -/
def peak (f : Forest) (id : TrackerId) : Int64 := ((f.get? id).map Tracker.peak).getD 0

theorem peak_foldl_modify (hg : ∀ x : Tracker, x.peak ≤ (g x).peak) (path : List TrackerId)
    (ts : Array Tracker) :
    ((ts[t]?).map Tracker.peak).getD 0 ≤
      (((path.foldl (fun ts j => ts.modify j g) ts)[t]?).map Tracker.peak).getD 0 := by
  induction path generalizing ts with
  | nil => exact Int64.le_refl _
  | cons j js ih =>
    refine Int64.le_trans ?_ (ih _)
    rw [Array.getElem?_modify]
    split
    · cases ts[t]? with
      | none => exact Int64.le_refl _
      | some x => exact hg x
    · exact Int64.le_refl _

theorem peak_onPath (hg : ∀ x : Tracker, x.peak ≤ (g x).peak) :
    f.peak t ≤ (f.onPath id g).peak t :=
  peak_foldl_modify hg (f.path id) f.trackers

theorem peak_consume : f.peak t ≤ (f.consume id bytes).peak t := by
  unfold consume
  split
  · exact Int64.le_refl _
  · refine peak_onPath fun x => ?_
    simp only [Tracker.charge]
    split
    · next h => exact Int64.le_of_lt h
    · exact Int64.le_refl _

theorem peak_release : f.peak t ≤ (f.release id bytes).peak t := by
  unfold release
  split
  · exact Int64.le_refl _
  · exact peak_onPath fun x => Int64.le_refl _

/-- After a charge that is not empty, the trackers above it show no more than their peaks. -/
theorem current_le_peak_consume (hn : (f.path id).Nodup) (ht : t ∈ f.path id) (hb : 0 < bytes) :
    (f.consume id bytes).current t ≤ (f.consume id bytes).peak t := by
  unfold consume
  rw [if_neg (Int64.not_le.mpr hb), current, peak, get?_onPath hn, if_pos ht]
  cases f.get? t with
  | none => exact Int64.le_refl _
  | some x =>
    simp only [Option.map_some, Option.getD_some, Tracker.charge]
    split
    · exact Int64.le_refl _
    · next h => exact Int64.not_lt.mp h

end Forest

/-! ## Stakes -/

/-- A charge, and the bytes of it that somebody answers for. -/
abbrev Stake := ChargeId × Nat

/-- The bytes of a charge that are answered for. -/
def staked (stakes : List Stake) (c : ChargeId) : Nat :=
  total ((stakes.filter fun s => s.1 = c).map Prod.snd)

@[simp] theorem staked_nil (c : ChargeId) : staked [] c = 0 := rfl

@[simp] theorem staked_cons (s : Stake) (stakes : List Stake) (c : ChargeId) :
    staked (s :: stakes) c = (if s.1 = c then s.2 else 0) + staked stakes c := by
  by_cases h : s.1 = c
  · simp [staked, h]
  · simp [staked, h]

@[simp] theorem staked_append (stakes others : List Stake) (c : ChargeId) :
    staked (stakes ++ others) c = staked stakes c + staked others c := by
  simp [staked]

theorem staked_eq_zero {stakes : List Stake} {c : ChargeId} (h : ∀ s ∈ stakes, s.1 ≠ c) :
    staked stakes c = 0 := by
  induction stakes with
  | nil => rfl
  | cons s stakes ih =>
    obtain ⟨hs, hrest⟩ := List.forall_mem_cons.mp h
    rw [staked_cons, if_neg hs, ih hrest]

/-- Stakes in one charge make up their sum. -/
theorem staked_map {c : ChargeId} (parts : List Nat) (d : ChargeId) :
    staked (parts.map (c, ·)) d = if c = d then total parts else 0 := by
  induction parts with
  | nil => simp
  | cons n parts ih =>
    rw [List.map_cons, staked_cons, ih]
    split <;> simp

/-- The stakes in one charge, and all others. -/
theorem total_eq_staked_add (c : ChargeId) (stakes : List Stake) : total (stakes.map Prod.snd) =
    staked stakes c + total ((stakes.filter fun s => s.1 ≠ c).map Prod.snd) := by
  induction stakes with
  | nil => rfl
  | cons s stakes ih =>
    by_cases hs : s.1 = c
    · simp [hs, ih, Nat.add_assoc]
    · simp [hs, ih, Nat.add_left_comm]

theorem staked_filter_ne {c d : ChargeId} (h : c ≠ d) {stakes : List Stake} :
    staked (stakes.filter fun s => s.1 ≠ d) c = staked stakes c := by
  unfold staked
  rw [List.filter_filter]
  congr 2
  refine List.filter_congr fun s _ => ?_
  by_cases hs : s.1 = c
  · simp [hs, h]
  · simp [hs]

/-- If no charge is answered for beyond its amount, the stakes sum up to at most all amounts. -/
theorem total_stakes_le (amounts : List Nat) : ∀ {stakes : List Stake},
    (∀ s ∈ stakes, s.1 < amounts.length) → (∀ c, staked stakes c ≤ amounts.getD c 0) →
    total (stakes.map Prod.snd) ≤ total amounts := by
  induction amounts using List.reverseRecOn with
  | nil =>
    intro stakes hlt _
    cases stakes with
    | nil => exact Nat.le_refl _
    | cons s _ => exact absurd (hlt s List.mem_cons_self) (Nat.not_lt_zero _)
  | append_singleton amounts n ih =>
    intro stakes hlt hle
    have hbelow : ∀ s ∈ stakes, s.1 ≠ amounts.length → s.1 < amounts.length := by
      intro s hs hne
      have h := hlt s hs
      rw [List.length_append, List.length_singleton] at h
      exact Nat.lt_of_le_of_ne (Nat.le_of_lt_succ h) hne
    have hlast : staked stakes amounts.length ≤ n := by
      have h := hle amounts.length
      simpa using h
    have hrest : total ((stakes.filter fun s => s.1 ≠ amounts.length).map Prod.snd) ≤
        total amounts := by
      refine ih (fun s hs => ?_) fun c => ?_
      · obtain ⟨hm, hne⟩ := List.mem_filter.mp hs
        exact hbelow s hm (by simpa using hne)
      · by_cases hc : c < amounts.length
        · rw [staked_filter_ne (Nat.ne_of_lt hc)]
          have h := hle c
          rwa [List.getD_eq_getElem?_getD, List.getElem?_append_left hc,
            ← List.getD_eq_getElem?_getD] at h
        · have hnone : staked (stakes.filter fun s => s.1 ≠ amounts.length) c = 0 := by
            refine staked_eq_zero fun s hs he => ?_
            obtain ⟨hm, hne⟩ := List.mem_filter.mp hs
            exact hc (he ▸ hbelow s hm (by simpa using hne))
          rw [hnone]
          exact Nat.zero_le _
    -- the stakes in the last charge, and all others
    rw [total_eq_staked_add amounts.length, total_append, total_cons, total_nil]
    omega

namespace Ledger

variable {l l' l'' : Ledger} {stakes others : List Stake} {c : ChargeId} {x : Charge}
  {t id : TrackerId} {bytes : Int64}

theorem bytesOf_of_some (hx : l.charges[c]? = some x) : l.bytesOf c = x.bytes := by
  simp [bytesOf, hx]

theorem bytesOf_of_ge (hc : l.charges.size ≤ c) : l.bytesOf c = 0 := by
  rw [bytesOf, Array.getElem?_eq_none hc]
  rfl

/-- No charge is answered for beyond its bytes. -/
def Covers (l : Ledger) (stakes : List Stake) : Prop :=
  ∀ c, staked stakes c ≤ (l.bytesOf c).toNatClampNeg

/-- All stakes are in charges on a tracker. -/
def Places (l : Ledger) (t : TrackerId) (stakes : List Stake) : Prop :=
  ∀ s ∈ stakes, l.trackerOf? s.1 = some t

theorem Covers.le (h : l.Covers stakes) (hle : ∀ c, staked others c ≤ staked stakes c) :
    l.Covers others :=
  fun c => Nat.le_trans (hle c) (h c)

/-- Covered stakes in live charges on a tracker sum up to at most what is live there. -/
theorem Covers.total_le_live (h : l.Covers stakes) (hp : l.Places t stakes)
    (hh : ∀ s ∈ stakes, l.holdersOf s.1 ≠ 0) : total (stakes.map Prod.snd) ≤ l.live t := by
  have hthere : ∀ s ∈ stakes, ∃ x, l.charges[s.1]? = some x ∧ x.tracker = t ∧ x.holders ≠ 0 := by
    intro s hs
    obtain ⟨x, hx, hxt⟩ := Option.map_eq_some_iff.mp (hp s hs)
    have hn := hh s hs
    rw [holdersOf, hx] at hn
    exact ⟨x, hx, hxt, hn⟩
  refine total_stakes_le _ (fun s hs => ?_) fun c => ?_
  · obtain ⟨x, hx, -⟩ := hthere s hs
    rw [List.length_map, Array.length_toList]
    exact (Array.getElem?_eq_some_iff.mp hx).1
  · by_cases hc : ∃ s ∈ stakes, s.1 = c
    · obtain ⟨s, hs, rfl⟩ := hc
      obtain ⟨x, hx, rfl, hn⟩ := hthere s hs
      have hamount : x.amount l.forest.path x.tracker = x.bytes.toNatClampNeg :=
        if_pos ⟨hn, List.mem_cons_self⟩
      have hle := h s.1
      rw [bytesOf_of_some hx, ← hamount] at hle
      simpa [List.getD_eq_getElem?_getD, hx] using hle
    · rw [staked_eq_zero fun s hs he => hc ⟨s, hs, he⟩]
      exact Nat.zero_le _

/-! ## What stays as it is -/

/-- What opening charges and letting go of them leaves alone: the charges that are there keep their
bytes and their places, the trackers their places, the leases their holders, and no peak goes down. -/
structure Steady (l l' : Ledger) : Prop where
  path : l'.forest.path = l.forest.path
  leases : l'.leases = l.leases
  size : l.charges.size ≤ l'.charges.size
  keeps : ∀ (c : ChargeId) (x : Charge), l.charges[c]? = some x →
    ∃ y : Charge, l'.charges[c]? = some y ∧ y.bytes = x.bytes ∧ y.tracker = x.tracker
  peak : ∀ t, l.forest.peak t ≤ l'.forest.peak t

namespace Steady

theorem refl (l : Ledger) : l.Steady l :=
  ⟨rfl, rfl, Nat.le_refl _, fun _ x hx => ⟨x, hx, rfl, rfl⟩, fun _ => Int64.le_refl _⟩

theorem trans (h : l.Steady l') (h' : l'.Steady l'') : l.Steady l'' := by
  refine ⟨h'.path.trans h.path, h'.leases.trans h.leases, Nat.le_trans h.size h'.size,
    fun c x hx => ?_, fun t => ?_⟩
  · obtain ⟨y, hy, hyb, hyt⟩ := h.keeps c x hx
    obtain ⟨z, hz, hzb, hzt⟩ := h'.keeps c y hy
    exact ⟨z, hz, hzb.trans hyb, hzt.trans hyt⟩
  · exact Int64.le_trans (h.peak t) (h'.peak t)

theorem bytesOf (h : l.Steady l') (hc : c < l.charges.size) : l'.bytesOf c = l.bytesOf c := by
  obtain ⟨y, hy, hyb, -⟩ := h.keeps c _ (Array.getElem?_eq_getElem hc)
  rw [bytesOf_of_some hy, bytesOf_of_some (Array.getElem?_eq_getElem hc), hyb]

theorem trackerOf? (h : l.Steady l') (hc : l.trackerOf? c = some t) :
    l'.trackerOf? c = some t := by
  obtain ⟨x, hx, rfl⟩ := Option.map_eq_some_iff.mp hc
  obtain ⟨y, hy, -, hyt⟩ := h.keeps c x hx
  rw [Ledger.trackerOf?, hy, Option.map_some, hyt]

theorem places (h : l.Steady l') (hp : l.Places t stakes) : l'.Places t stakes :=
  fun s hs => h.trackerOf? (hp s hs)

/-- Stakes stay covered, and new ones may be taken in charges opened since. -/
theorem covers_append (h : l.Steady l') (hc : l.Covers stakes) (hn : l'.Covers others)
    (hnew : ∀ s ∈ others, l.charges.size ≤ s.1) : l'.Covers (others ++ stakes) := by
  intro c
  rw [staked_append]
  by_cases hlt : c < l.charges.size
  · have hnone : staked others c = 0 :=
      staked_eq_zero fun s hs he => Nat.not_le.mpr hlt (he ▸ hnew s hs)
    rw [hnone, Nat.zero_add, h.bytesOf hlt]
    exact hc c
  · have hzero := hc c
    rw [bytesOf_of_ge (Nat.not_lt.mp hlt)] at hzero
    have hnone : staked stakes c = 0 := Nat.le_zero.mp hzero
    rw [hnone, Nat.add_zero]
    exact hn c

theorem covers (h : l.Steady l') (hc : l.Covers stakes) : l'.Covers stakes := by
  have hnone : l'.Covers [] := fun c => Nat.zero_le _
  exact h.covers_append hc hnone (by simp)

/-- A change of one charge that keeps its bytes and its place. -/
theorem modify {f : Forest} {g : Charge → Charge} (hp : f.path = l.forest.path)
    (hpeak : ∀ t, l.forest.peak t ≤ f.peak t)
    (hg : ∀ y, (g y).bytes = y.bytes ∧ (g y).tracker = y.tracker) :
    l.Steady { l with forest := f, charges := l.charges.modify c g } := by
  refine ⟨hp, rfl, by simp, fun d y hy => ?_, hpeak⟩
  simp only [Array.getElem?_modify]
  by_cases hcd : c = d
  · subst hcd
    exact ⟨g y, by simp [hy], hg y⟩
  · exact ⟨y, by simp [hcd, hy], rfl, rfl⟩

end Steady

theorem drop_steady (l : Ledger) (c : ChargeId) : l.Steady (l.drop c) := by
  cases hx : l.charges[c]? with
  | none =>
    have hdrop : l.drop c = l := by simp [drop, hx]
    rw [hdrop]
    exact .refl l
  | some x =>
    rw [drop_of_some hx]
    refine .modify ?_ (fun t => ?_) fun y => ⟨rfl, rfl⟩
    · split
      · exact Forest.path_release
      · rfl
    · split
      · exact Forest.peak_release
      · exact Int64.le_refl _

theorem share_steady (l : Ledger) (c : ChargeId) : l.Steady (l.share c) :=
  .modify rfl (fun _ => Int64.le_refl _) fun _ => ⟨rfl, rfl⟩

theorem charge_steady (l : Ledger) (id : TrackerId) (bytes : Int64) :
    l.Steady (l.charge id bytes).2 := by
  refine ⟨Forest.path_consume, rfl, ?_, fun c x hx => ?_, fun t => Forest.peak_consume⟩
  · simp [charge, record, onForest]
  · obtain ⟨hlt, -⟩ := Array.getElem?_eq_some_iff.mp hx
    refine ⟨x, ?_, rfl, rfl⟩
    exact (Array.getElem?_push_lt hlt).trans (by rwa [← Array.getElem?_eq_getElem hlt])

theorem shareAll_steady (l : Ledger) (cs : List ChargeId) : l.Steady (l.shareAll cs) := by
  induction cs generalizing l with
  | nil => exact .refl l
  | cons c cs ih => exact (l.share_steady c).trans (ih _)

theorem dropAll_steady (l : Ledger) (cs : List ChargeId) : l.Steady (l.dropAll cs) := by
  induction cs generalizing l with
  | nil => exact .refl l
  | cons c cs ih => exact (l.drop_steady c).trans (ih _)

/-- A new charge is there with its bytes. -/
theorem charge_some (l : Ledger) (id : TrackerId) (bytes : Int64) :
    (l.charge id bytes).2.charges[(l.charge id bytes).1]? = some ⟨id, bytes, 1⟩ :=
  Array.getElem?_push_size

/-! ## New charges -/

/-- Charges on a tracker that were opened between two ledgers, each with all of its bytes at stake. -/
structure Opens (l l' : Ledger) (t : TrackerId) (stakes : List Stake) : Prop where
  new : ∀ s ∈ stakes, l.charges.size ≤ s.1
  places : l'.Places t stakes
  whole : ∀ s ∈ stakes, (l'.bytesOf s.1).toNatClampNeg = s.2
  distinct : (stakes.map Prod.fst).Nodup

theorem lt_size_of_trackerOf? (h : l.trackerOf? c = some t) : c < l.charges.size := by
  obtain ⟨x, hx, -⟩ := Option.map_eq_some_iff.mp h
  exact (Array.getElem?_eq_some_iff.mp hx).1

/-- Stakes in charges of their own are covered if each of them is. -/
theorem Covers.of_nodup (hn : (stakes.map Prod.fst).Nodup)
    (hle : ∀ s ∈ stakes, s.2 ≤ (l.bytesOf s.1).toNatClampNeg) : l.Covers stakes := by
  induction stakes with
  | nil => exact fun _ => Nat.zero_le _
  | cons s stakes ih =>
    obtain ⟨hs, hstakes⟩ := List.forall_mem_cons.mp hle
    rw [List.map_cons, List.nodup_cons] at hn
    intro c
    rw [staked_cons]
    split
    · next hc =>
      subst hc
      rw [staked_eq_zero fun s' hs' he => hn.1 (List.mem_map.mpr ⟨s', hs', he⟩), Nat.add_zero]
      exact hs
    · rw [Nat.zero_add]
      exact ih hn.2 hstakes c

namespace Opens

theorem nil (l l' : Ledger) (t : TrackerId) : l.Opens l' t [] :=
  ⟨by simp, by simp [Places], by simp, List.nodup_nil⟩

theorem covers (h : l.Opens l' t stakes) : l'.Covers stakes :=
  .of_nodup h.distinct fun s hs => Nat.le_of_eq (h.whole s hs).symm

theorem before (h : l'.Opens l'' t stakes) (hs : l.Steady l') : l.Opens l'' t stakes :=
  { h with new := fun s hm => Nat.le_trans hs.size (h.new s hm) }

theorem later (h : l.Opens l' t stakes) (hs : l'.Steady l'') : l.Opens l'' t stakes := by
  refine ⟨h.new, hs.places h.places, fun s hm => ?_, h.distinct⟩
  rw [hs.bytesOf (lt_size_of_trackerOf? (h.places s hm)), h.whole s hm]

/-- What was opened one after the other. -/
theorem append (h : l.Opens l' t stakes) (hs : l.Steady l') (hs' : l'.Steady l'')
    (h' : l'.Opens l'' t others) : l.Opens l'' t (others ++ stakes) := by
  have hlater := h.later hs'
  refine ⟨fun s hm => ?_, fun s hm => ?_, fun s hm => ?_, ?_⟩
  · exact (List.mem_append.mp hm).elim ((h'.before hs).new s) (h.new s)
  · exact (List.mem_append.mp hm).elim (h'.places s) (hlater.places s)
  · exact (List.mem_append.mp hm).elim (h'.whole s) (hlater.whole s)
  · rw [List.map_append]
    refine List.nodup_append.mpr ⟨h'.distinct, h.distinct, fun c hc d hd he => ?_⟩
    obtain ⟨s, hs, rfl⟩ := List.mem_map.mp hc
    obtain ⟨s', hs', rfl⟩ := List.mem_map.mp hd
    have hlt := lt_size_of_trackerOf? (h.places s' hs')
    exact Nat.not_le.mpr hlt (he ▸ h'.new s hs)

end Opens

/-- All of a new charge may be answered for. -/
theorem charge_opens (l : Ledger) (id : TrackerId) (bytes : Int64) :
    l.Opens (l.charge id bytes).2 id [((l.charge id bytes).1, bytes.toNatClampNeg)] := by
  refine ⟨fun s hs => ?_, fun s hs => ?_, fun s hs => ?_, List.nodup_singleton _⟩
  · rw [List.mem_singleton.mp hs]
    exact Nat.le_refl _
  · rw [List.mem_singleton.mp hs, trackerOf?, l.charge_some id bytes]
    rfl
  · rw [List.mem_singleton.mp hs, bytesOf_of_some (l.charge_some id bytes)]

/-! ## Moves -/

theorem peak_transfer (l : Ledger) (c : ChargeId) (id : TrackerId) :
    l.forest.peak t ≤ (l.transfer c id).forest.peak t := by
  rcases l.transfer_cases c id with ⟨hsame, -⟩ | ⟨x, -, hmove⟩
  · rw [hsame]
    exact Int64.le_refl _
  · rw [hmove]
    exact Int64.le_trans Forest.peak_release Forest.peak_consume

/-- A move changes no bytes, so the same stakes are covered. -/
theorem transfer_covers (h : l.Covers stakes) (c : ChargeId) (id : TrackerId) :
    (l.transfer c id).Covers stakes := by
  intro d
  have hbytes : (l.transfer c id).bytesOf d = l.bytesOf d := by
    rw [bytesOf, charges_transfer, Array.getElem?_modify, bytesOf]
    split
    · cases l.charges[d]? <;> rfl
    · rfl
  rw [hbytes]
  exact h d

/-- Charges on the tracker that another one moves to stay there. -/
theorem transfer_places (h : l.Places t stakes) (c : ChargeId) :
    (l.transfer c t).Places t stakes := by
  intro s hs
  have hp := h s hs
  rw [trackerOf?, charges_transfer, Array.getElem?_modify]
  split
  · obtain ⟨x, hx, -⟩ := Option.map_eq_some_iff.mp hp
    rw [hx]
    rfl
  · exact hp

end Ledger

end SpillSort.Memory
