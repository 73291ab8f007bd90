import SpillSort.Proofs.Moments
import SpillSort.Proofs.Shares

/-!
# The bytes in memory are counted exactly

While an operator takes in its input, its monitor counts the bytes of the groups in memory: nothing
is cut off, and the count never exceeds what the operator's tracker shows.

* `Operator.Tallied` is the invariant, `Operator.advance_tallied` the step.
* `Operator.resident_bytes_exact` is the theorem.
-/

namespace SpillSort

open Memory Spill
open Workspace (Steady)

/-! ## What is still to come -/

/-- The stakes that an event brings. -/
def Event.offers : Event → List Stake
  | batch chunk => chunk.offers
  | _ => []

/-- The charge of a batch was opened for all of its rows at least. -/
def Event.Measured : Event → Prop
  | batch chunk => chunk.Measured
  | _ => True

/-- The stakes that a pull brings. -/
def Pull.offers (p : Pull) : List Stake :=
  match p.outcome with
  | .ok e => e.offers
  | .error _ => []

/-- The same of a pull. -/
def Pull.Measured (p : Pull) : Prop := ∀ e, p.outcome = .ok e → e.Measured

/-- The stakes that are still to come. -/
def Input.offers (i : Input) : List Stake := i.script.flatMap Pull.offers

/-- What is still to come is the next event and what comes after it. -/
theorem Input.next_brings (i : Input) {e : Event} (h : i.next.1.outcome = .ok e) :
    i.charges = e.charges ++ i.next.2.charges ∧ i.offers = e.offers ++ i.next.2.offers ∧
      ((∀ p ∈ i.script, p.Measured) → e.Measured ∧ ∀ p ∈ i.next.2.script, p.Measured) := by
  obtain ⟨_ | ⟨p, rest⟩, pressure, pulls, kills⟩ := i
  · obtain rfl := Except.ok.inj h
    exact ⟨rfl, rfl, fun hs => ⟨trivial, hs⟩⟩
  · have hp : p.outcome = .ok e := h
    refine ⟨?_, ?_, fun hs => ⟨hs p List.mem_cons_self e hp, fun q hq =>
      hs q (List.mem_cons_of_mem p hq)⟩⟩
    · simp [charges, next, Pull.charges, hp]
    · simp [offers, next, Pull.offers, hp]

namespace Moment

/-- The charges held for the event at hand. -/
def charges : Moment → List ChargeId
  | waiting | ended _ => []
  | came e _ => e.charges
  | admitted chunk => chunk.charge?.toList
  | staging _ chunk _ | kept _ chunk _ => chunk.charge?.toList
  | holding _ chunk slice _ => slice.charge?.toList ++ chunk.charge?.toList

/-- The stakes that will come to the groups. -/
def mine : Moment → List Stake
  | staging _ chunk slices | kept _ chunk slices => chunk.shares slices
  | holding _ chunk slice slices => slice.stakes ++ chunk.shares slices
  | _ => []

/-- The stakes that are not on the operator's tracker yet. -/
def offers : Moment → List Stake
  | came e _ => e.offers
  | admitted chunk => chunk.offers
  | _ => []

/-- A chunk that is being staged under the operator's order. -/
structure Stages (op : Operator) (order : RowOrder) (chunk : Chunk) (slices : List (Nat × Nat)) :
    Prop where
  order? : op.order? = some order
  charged : chunk.Charged
  bounds : ∀ s ∈ slices, 0 < s.2 ∧ s.2 ≤ maxSelectionRows

/-- The chunk at hand is as it should be. -/
def Sound (op : Operator) : Moment → Prop
  | waiting | ended _ => True
  | came e _ => e.Measured
  | admitted chunk => chunk.Measured
  | staging order chunk slices | kept order chunk slices => Stages op order chunk slices
  | holding order chunk slice slices => Stages op order chunk slices ∧ slice.Charged ∧
      0 < slice.length ∧ slice.length ≤ maxSelectionRows

theorem Sound.congr {op op' : Operator} {m : Moment} (h : m.Sound op)
    (ho : op'.order? = op.order?) : m.Sound op' := by
  have hstages : ∀ {order : RowOrder} {chunk : Chunk} {slices : List (Nat × Nat)},
      Stages op order chunk slices → Stages op' order chunk slices :=
    fun h => ⟨ho.trans h.order?, h.charged, h.bounds⟩
  cases m with
  | staging => exact hstages h
  | kept => exact hstages h
  | holding => exact ⟨hstages h.1, h.2⟩
  | _ => exact h

end Moment

namespace Operator

variable {op op' : Operator} {w : Workspace} {m n : Moment} {s t : Operator × Workspace}
  {others : List ChargeId} {alone : Prop}

/-- The stakes of an event that was pulled ahead. -/
def pendingOffers (op : Operator) : List Stake := (op.pending?.map Event.offers).getD []

/-- The bytes live on the operator's tracker are fewer than the largest word. -/
def Fits (s : Operator × Workspace) : Prop := (s.2.ledger.live s.1.tracker : Int) < maxWord

instance : DecidablePred Fits := fun _ => inferInstanceAs (Decidable (_ < _))

/-- The invariant of taking in. -/
structure Tallied (others : List ChargeId) (alone : Prop) (m : Moment) (s : Operator × Workspace) :
    Prop where
  backed : s.1.Backed s.2.ledger
    (m.charges ++ (s.1.pendingCharges ++ (s.1.input.charges ++ others))) m.mine
    (m.offers ++ (s.1.pendingOffers ++ s.1.input.offers))
  sound : m.Sound s.1
  pending : ∀ e ∈ s.1.pending?, e.Measured
  script : ∀ p ∈ s.1.input.script, p.Measured
  stage : s.1.stage = .uninitialized ∨ s.1.stage = .ingesting
  exact : s.1.Exact
  /-- Nobody else counts at the sort's own node. -/
  shown : alone → PeakShown s
  fits : Fits s

/-- The invariant, if the bytes on the tracker fit. -/
def Tallies (others : List ChargeId) (alone : Prop) (m : Moment) (s : Operator × Workspace) :
    Prop :=
  Fits s → Tallied others alone m s

/-- A step that keeps to the groups goes on with the events that there were. -/
theorem Tallied.follow (h : Tallied others alone m s) (hf : Follows
      (n.charges ++ (s.1.pendingCharges ++ (s.1.input.charges ++ others))) n.mine
      (n.offers ++ (s.1.pendingOffers ++ s.1.input.offers)) s t)
    (hn : n.Sound s.1) (hfits : Fits t) : Tallied others alone n t := by
  have hinput : t.1.input = s.1.input := (congrArg Operator.input hf.bare :)
  have hpending : t.1.pending? = s.1.pending? := (congrArg Operator.pending? hf.bare :)
  have hstage : t.1.stage = s.1.stage := (congrArg Operator.stage hf.bare :)
  have hbefore : (s.1.answered : Int) < maxWord :=
    Int.lt_of_le_of_lt (Int.ofNat_le.mpr h.backed.answered_le_live) h.fits
  have hafter : (t.1.answered : Int) < maxWord :=
    Int.lt_of_le_of_lt (Int.ofNat_le.mpr hf.backed.answered_le_live) hfits
  have hexact := hf.exact h.exact hbefore hafter
  refine ⟨?_, hn.congr (congrArg Operator.order? hf.bare :), ?_, ?_, ?_, hexact,
    fun ha => hf.shown (h.shown ha) hexact hfits, hfits⟩
  · rw [pendingCharges, pendingOffers, hinput, hpending]
    exact hf.backed
  · rw [hpending]
    exact h.pending
  · rw [hinput]
    exact h.script
  · rw [hstage]
    exact h.stage

/-- A step that leaves the groups alone changes neither the count nor what is shown. -/
theorem Tallied.onward (h : Tallied others alone m s) (hresident : t.1.resident = s.1.resident)
    (hspilled : t.1.spilled = s.1.spilled) (hmonitor : t.1.monitor = s.1.monitor)
    (htracker : t.1.tracker = s.1.tracker) (hstage : t.1.stage = s.1.stage)
    (hback : t.1.Backed t.2.ledger
      (n.charges ++ (t.1.pendingCharges ++ (t.1.input.charges ++ others))) n.mine
      (n.offers ++ (t.1.pendingOffers ++ t.1.input.offers)))
    (hn : n.Sound t.1) (hpending : ∀ e ∈ t.1.pending?, e.Measured)
    (hscript : ∀ p ∈ t.1.input.script, p.Measured) (hshown : t.2.shownPeak? = s.2.shownPeak?)
    (hpeak : ∀ id, s.2.ledger.forest.peak id ≤ t.2.ledger.forest.peak id) (hfits : Fits t) :
    Tallied others alone n t := by
  refine ⟨hback, hn, hpending, hscript, hstage ▸ h.stage, ?_, fun ha => ?_, hfits⟩
  · rw [Exact, residentTotal, groups_congr hresident hspilled, hmonitor]
    exact h.exact
  · obtain ⟨shown, hs, hle⟩ := h.shown ha
    exact ⟨shown, hshown.trans hs, Int64.le_trans hle (htracker ▸ hpeak _)⟩

/-! ## Steps -/

/-- What a state has of the events before one of them came in, it has of that one and of those that
are still to come. -/
theorem nextEvent_brings (s : Operator × Workspace) :
    Gives nextEvent (fun e t => t.2.ledger = s.2.ledger ∧ t.2.shownPeak? = s.2.shownPeak? ∧
      ∃ input, t.1 = { s.1 with pending? := none, input } ∧
        s.1.pendingCharges ++ s.1.input.charges = e.charges ++ input.charges ∧
        s.1.pendingOffers ++ s.1.input.offers = e.offers ++ input.offers ∧
        ((∀ e ∈ s.1.pending?, e.Measured) → (∀ p ∈ s.1.input.script, p.Measured) →
          e.Measured ∧ ∀ p ∈ input.script, p.Measured)) (fun _ _ => True) s := by
  refine gives_nextEvent (fun e he => ?_) fun he => gives_pull (fun e hout => ?_) fun _ _ => trivial
  · refine ⟨rfl, rfl, s.1.input, rfl, ?_, ?_, fun hp hs => ⟨hp e he, hs⟩⟩
    · rw [pendingCharges, he]
      rfl
    · rw [pendingOffers, he]
      rfl
  · obtain ⟨hcharges, hoffers, hmeasured⟩ := s.1.input.next_brings hout
    refine ⟨rfl, rfl, s.1.input.next.2, rfl, ?_, ?_, fun _ hs => hmeasured hs⟩
    · rw [pendingCharges, he]
      exact hcharges
    · rw [pendingOffers, he]
      exact hoffers

/-- Looking for the order notes at most that there is one now. -/
theorem orderFor_settles (schema : Schema) (s : Operator × Workspace) :
    Gives (orderFor schema) (fun order t => t.2.ledger = s.2.ledger ∧
      t.2.shownPeak? = s.2.shownPeak? ∧ t.1.unordered = s.1.unordered ∧
      t.1.order? = some order ∧ (s.1.order? = some order ∨ s.1.order? = none))
      (fun _ _ => True) s :=
  gives_orderFor (fun _ ho _ => ⟨rfl, rfl, rfl, ho, .inl ho⟩) (fun _ _ _ => trivial)
    (fun _ _ ho _ => ⟨rfl, rfl, rfl, rfl, .inr ho⟩) fun _ _ _ => trivial

/-- A new order finds no groups. -/
theorem Backed.settle {l : Ledger} {cs : List ChargeId} {mine rest : List Stake} {order : RowOrder}
    (h : op.Backed l cs mine rest) (hu : op'.unordered = op.unordered)
    (ho' : op'.order? = some order) (ho : op.order? = some order ∨ op.order? = none) :
    op'.Backed l cs mine rest := by
  have hresident : op'.resident = op.resident := (congrArg Operator.resident hu :)
  have hspilled : op'.spilled = op.spilled := (congrArg Operator.spilled hu :)
  have htracker : op'.tracker = op.tracker := (congrArg Operator.tracker hu :)
  rcases ho with ho | ho
  · exact h.congr hresident hspilled htracker (ho'.trans ho.symm)
  · have hsorted : op'.Sorted := by
      intro g hg
      rw [hresident] at hg
      obtain ⟨_, hnone, -⟩ := h.sorted g hg
      rw [ho] at hnone
      cases hnone
    have hgroups := groups_congr hresident hspilled
    refine ⟨h.simple, ?_, hsorted, ?_, ?_, ?_⟩
    · rw [htracker, groupCharges, hgroups]
      exact h.accounts
    · rw [hgroups]
      exact h.charged
    · rw [stakes, hgroups]
      exact h.covers
    · rw [htracker, stakes, hgroups]
      exact h.places

/-- An event comes in, with what it brings. -/
theorem Tallied.of_waiting (h : Tallied others alone .waiting s) :
    Gives (advance .waiting) (Tallies others alone) (fun _ _ => True) s := by
  obtain ⟨op, w⟩ := s
  simp only [advance, Gives.bind_iff, Gives.lift_layer_iff]
  have hlook : Ensures Workspace.cancelled
      (fun _ v => v.ledger = w.ledger ∧ v.shownPeak? = w.shownPeak?) w := ⟨rfl, rfl⟩
  refine hlook.mono fun b v hv => ?_
  split
  · rw [Gives.bind_iff, Gives.throw_iff]
    trivial
  simp only [Gives.bind_iff, Gives.modifyGet_layer_iff, Gives.pure_iff]
  refine (nextEvent_brings (op, v)).mono (fun e t ht hfits => ?_) fun _ _ _ => trivial
  obtain ⟨op', u⟩ := t
  obtain ⟨hledger, hshown, input, rfl, hcharges, hoffers, hmeasured⟩ := ht
  obtain ⟨he, hscript⟩ := hmeasured h.pending h.script
  have hledger' : u.ledger = w.ledger := hledger.trans hv.1
  have hback := h.backed
  simp only [Moment.charges, Moment.mine, Moment.offers, List.nil_append] at hback
  rw [← List.append_assoc, hcharges, hoffers, List.append_assoc] at hback
  refine h.onward rfl rfl rfl rfl rfl ?_ he (fun _ hp => absurd hp (Option.not_mem_none _))
    hscript (hshown.trans hv.2) (fun id => ?_) hfits
  · rw [hledger']
    exact hback.congr rfl rfl rfl rfl
  · rw [hledger']
    exact Int64.le_refl _

/-- Memory is relieved for an event that came in. -/
theorem Tallied.of_came {e : Event} {pressure : Bool}
    (h : Tallied others alone (.came e pressure) s) :
    Gives (advance (.came e pressure)) (Tallies others alone) (fun _ _ => True)
      s := by
  have hsound : e.Measured := h.sound
  have hevent : ∀ {t : Operator × Workspace}, (∀ n : Moment, n.charges = e.charges → n.mine = [] →
      n.offers = e.offers → n.Sound s.1 → Fits t → Tallied others alone n t) →
      Gives (receive e) (Tallies others alone) (fun _ _ => True) t := by
    intro t ht
    clear h
    cases e with
    | batch chunk => exact Gives.pure_iff.mpr (ht _ rfl rfl rfl hsound)
    | endOfInput => exact Gives.pure_iff.mpr (ht _ rfl rfl rfl trivial)
    | stop => exact Gives.pure_iff.mpr (ht _ rfl rfl rfl trivial)
    | notYet => exact Gives.throw_iff.mpr trivial
  rw [advance]
  split
  · simp only [Gives.bind_iff, Gives.rescue_layer_iff]
    refine (relieveInput_backed h.backed).mono (fun _ t ht => ?_) fun _ _ _ =>
      .of_forall fun _ _ => trivial
    refine hevent fun n hcharges hmine hoffers hn hfits => h.follow ?_ hn hfits
    rw [hcharges, hmine, hoffers]
    exact ht.follows
  · refine hevent fun n hcharges hmine hoffers hn hfits => h.follow ?_ hn hfits
    rw [hcharges, hmine, hoffers]
    exact h.backed.relieves.follows

/-- A chunk is taken in, and its stake becomes those of its slices. -/
theorem Tallied.of_admitted {chunk : Chunk} (h : Tallied others alone (.admitted chunk) s) :
    Gives (advance (.admitted chunk)) (Tallies others alone) (fun _ _ => True)
      s := by
  simp only [advance, Gives.bind_iff, Gives.rescue_layer_iff]
  refine (orderFor_settles _ s).mono (fun order t ht => ?_) fun _ _ _ =>
    .of_forall fun _ _ => trivial
  obtain ⟨op, w⟩ := t
  obtain ⟨hledger, hshown, hunordered, ho, hbefore⟩ := ht
  have hresident : op.resident = s.1.resident := (congrArg Operator.resident hunordered :)
  have hspilled : op.spilled = s.1.spilled := (congrArg Operator.spilled hunordered :)
  have hmonitor : op.monitor = s.1.monitor := (congrArg Operator.monitor hunordered :)
  have htracker : op.tracker = s.1.tracker := (congrArg Operator.tracker hunordered :)
  have hstage : op.stage = s.1.stage := (congrArg Operator.stage hunordered :)
  have hinput : op.input = s.1.input := (congrArg Operator.input hunordered :)
  have hpending : op.pending? = s.1.pending? := (congrArg Operator.pending? hunordered :)
  have hback : op.Backed w.ledger (chunk.charge?.toList ++ (op.pendingCharges ++
      (op.input.charges ++ others))) []
      (chunk.offers ++ (op.pendingOffers ++ op.input.offers)) := by
    rw [hledger, pendingCharges, pendingOffers, hinput, hpending]
    exact h.backed.settle hunordered ho hbefore
  have hpend : ∀ e ∈ op.pending?, e.Measured := hpending ▸ h.pending
  have hscript : ∀ p ∈ op.input.script, p.Measured := hinput ▸ h.script
  split
  · simp only [Gives.bind_iff, Gives.lift_layer_iff, Gives.pure_iff]
    refine (hback.dropAll).mono fun _ v hv hfits => ?_
    obtain ⟨hwv, hback⟩ := hv
    refine h.onward hresident hspilled hmonitor htracker hstage ?_ trivial hpend hscript
      (hwv.shownPeak?.trans hshown) (fun id => ?_) hfits
    · refine hback.exchange (fun c => ?_) fun _ hs => absurd hs List.not_mem_nil
      simp only [Moment.mine, Moment.offers, staked_append, staked_nil]
      omega
    · rw [← hledger]
      exact hwv.ledger.peak id
  · next hrows =>
    simp only [Gives.bind_iff, Gives.get_layer_iff, Gives.lift_layer_iff, Gives.pure_iff]
    refine (transfer_backed hback h.sound).mono fun c v hc hfits => ?_
    obtain ⟨hbatch, hmeasured, hcharged, hwv, hpeak, hback⟩ := hc
    have hpos : 0 < c.length := by
      rw [Chunk.length, hbatch]
      exact Nat.pos_of_ne_zero hrows
    refine h.onward hresident hspilled hmonitor htracker hstage (hback.split hmeasured hpos)
      ⟨ho, hcharged, slices_bounds⟩ hpend hscript (hwv.trans hshown) (fun id => ?_) hfits
    rw [← hledger]
    exact hpeak id

/-- The chunk is let go of when all of its slices are kept. -/
theorem Tallied.of_staged {order : RowOrder} {chunk : Chunk}
    (h : Tallied others alone (.staging order chunk []) s) :
    Gives (advance (.staging order chunk [])) (Tallies others alone)
      (fun _ _ => True) s := by
  simp only [advance, Gives.bind_iff, Gives.lift_layer_iff, Gives.pure_iff]
  refine h.backed.dropAll.mono fun _ v hv hfits => ?_
  obtain ⟨hwv, hback⟩ := hv
  refine h.onward rfl rfl rfl rfl rfl ?_ trivial h.pending h.script hwv.shownPeak? hwv.ledger.peak
    hfits
  rw [Moment.mine, Chunk.shares_nil] at hback
  exact hback

/-- A slice is cut out of the chunk, with its share. -/
theorem Tallied.of_staging {order : RowOrder} {chunk : Chunk} {offset length : Nat}
    {slices : List (Nat × Nat)}
    (h : Tallied others alone (.staging order chunk ((offset, length) :: slices)) s) :
    Gives (advance (.staging order chunk ((offset, length) :: slices)))
      (Tallies others alone) (fun _ _ => True) s := by
  obtain ⟨ho, hcharged, hbounds⟩ := h.sound
  obtain ⟨⟨hpos, hsmall⟩, hbounds⟩ := List.forall_mem_cons.mp hbounds
  simp only [advance, Gives.bind_iff, Gives.lift_layer_iff, Gives.pure_iff]
  refine (slice_backed h.backed hcharged).mono fun slice v hv hfits => ?_
  obtain ⟨hwv, hlength, hslice, hback⟩ := hv
  refine h.onward rfl rfl rfl rfl rfl ?_ ⟨⟨ho, hcharged, hbounds⟩, hslice, ?_, ?_⟩ h.pending
    h.script hwv.shownPeak? hwv.ledger.peak hfits
  · rw [Moment.charges, List.append_assoc]
    exact hback
  · rw [hlength]
    exact hpos
  · rw [hlength]
    exact hsmall

/-- It becomes a group. -/
theorem Tallied.of_holding {order : RowOrder} {chunk slice : Chunk} {slices : List (Nat × Nat)}
    (h : Tallied others alone (.holding order chunk slice slices) s) :
    Gives (advance (.holding order chunk slice slices)) (Tallies others alone)
      (fun _ _ => True) s := by
  obtain ⟨hstages, hslice, hpos, hsmall⟩ := h.sound
  have hback := h.backed
  rw [Moment.charges, List.append_assoc] at hback
  simp only [advance, Gives.bind_iff, Gives.rescue_layer_iff]
  refine (keepSlice_backed hstages.order? hback hpos hsmall hslice).mono (fun _ t ht => ?_)
    fun _ _ _ => .of_forall fun _ _ => trivial
  refine Gives.pure_iff.mpr fun hfits => ?_
  exact h.follow (n := .kept order chunk slices) ht hstages hfits

/-- The policy may ask for a spill then. -/
theorem Tallied.of_kept {order : RowOrder} {chunk : Chunk} {slices : List (Nat × Nat)}
    (h : Tallied others alone (.kept order chunk slices) s) :
    Gives (advance (.kept order chunk slices)) (Tallies others alone)
      (fun _ _ => True) s := by
  simp only [advance, Gives.bind_iff, Gives.rescue_layer_iff]
  refine (relieve_backed h.backed).mono (fun _ t ht => ?_)
    fun _ _ _ => .of_forall fun _ _ => trivial
  refine Gives.pure_iff.mpr fun hfits => ?_
  exact h.follow (n := .staging order chunk slices) ht.follows h.sound hfits

/-- Every step keeps the count, as long as the bytes on the tracker fit. -/
theorem advance_tallied (h : Tallied others alone m s) :
    Gives (advance m) (Tallies others alone) (fun _ _ => True) s := by
  cases m with
  | waiting => exact h.of_waiting
  | came => exact h.of_came
  | admitted => exact h.of_admitted
  | staging order chunk slices =>
    cases slices with
    | nil => exact h.of_staged
    | cons => exact h.of_staging
  | holding => exact h.of_holding
  | kept => exact h.of_kept
  | ended => exact Gives.pure_iff.mpr fun _ => h

/-- An event that was pulled ahead waits, and nothing is counted. -/
theorem prime_tallied (h : Tallied others alone .waiting s) (hp : s.1.pending? = none) :
    Gives prime (fun _ => Tallies others alone .waiting) (fun _ _ => True) s := by
  refine gives_prime ((gives_nextEvent_iff hp).mp ((nextEvent_brings s).mono
    (fun e t ht => ?_) fun _ _ _ => trivial))
  obtain ⟨op, w⟩ := t
  obtain ⟨hledger, hshown, input, hop, hcharges, hoffers, hmeasured⟩ := ht
  dsimp only at hledger hshown hop
  obtain ⟨he, hscript⟩ := hmeasured h.pending h.script
  have hback : op.Backed w.ledger (e.charges ++ (input.charges ++ others)) []
      (e.offers ++ input.offers) := by
    have hback := h.backed
    simp only [Moment.charges, Moment.mine, Moment.offers, List.nil_append] at hback
    rw [← List.append_assoc, hcharges, hoffers, List.append_assoc] at hback
    rw [hledger, hop]
    exact hback.congr rfl rfl rfl rfl
  have hwait : ∀ {t : Operator × Workspace}, t.1.unordered = op.unordered →
      t.2.ledger = w.ledger → t.2.shownPeak? = w.shownPeak? →
      t.1.Backed t.2.ledger (e.charges ++ (input.charges ++ others)) [] (e.offers ++ input.offers) →
      Fits t → Tallied others alone .waiting ({ t.1 with pending? := some e }, t.2) := by
    intro t hu hledger' hshown' hback hfits
    rw [hop] at hu
    have hinput : t.1.input = input := (congrArg Operator.input hu :)
    refine h.onward (congrArg Operator.resident hu :) (congrArg Operator.spilled hu :)
      (congrArg Operator.monitor hu :) (congrArg Operator.tracker hu :)
      (congrArg Operator.stage hu :) ?_ trivial (fun e' he' => ?_) ?_ (hshown'.trans hshown)
      (fun id => ?_) hfits
    · show Backed _ t.2.ledger (e.charges ++ (t.1.input.charges ++ others)) []
        (e.offers ++ t.1.input.offers)
      rw [hinput]
      exact hback.congr rfl rfl rfl rfl
    · obtain rfl := Option.some.inj he'
      exact he
    · show ∀ p ∈ t.1.input.script, p.Measured
      rw [hinput]
      exact hscript
    · show s.2.ledger.forest.peak id ≤ t.2.ledger.forest.peak id
      rw [hledger', hledger]
      exact Int64.le_refl _
  cases e with
  | notYet => trivial
  | endOfInput => exact hwait (t := (op, w)) rfl rfl rfl hback
  | stop => exact hwait (t := (op, w)) rfl rfl rfl hback
  | batch chunk =>
    refine (orderFor_settles _ (op, w)).mono (fun order t ht => ?_) fun _ _ _ =>
      .of_forall fun _ _ => trivial
    obtain ⟨hledger', hshown', hu, ho, hbefore⟩ := ht
    refine hwait (t := t) hu hledger' hshown' ?_
    rw [hledger']
    exact hback.settle hu ho hbefore

theorem buildSchema_tallied (h : Tallied others alone .waiting s) :
    Ensures buildSchema (fun r t => ∀ schema?, r = .ok schema? → Fits t →
      Tallied others alone .waiting t) s := by
  refine ensures_buildSchema (fun _ _ _ hr => nomatch hr) (fun _ _ _ _ _ => h) fun _ _ hp => ?_
  exact (prime_tallied h hp).mono (fun _ _ ht _ _ => ht) fun _ _ _ =>
    .of_forall fun _ _ _ hr => nomatch hr

/-- Neither of the stages before the end holds anything. -/
theorem enter_tallied (h : Tallied others alone .waiting s) :
    Ensures (enter .ingesting) (fun _ => Tallied others alone .waiting) s := by
  have hbegin : Tallied others alone .waiting ({ s.1 with stage := .ingesting }, s.2) :=
    ⟨h.backed.congr rfl rfl rfl rfl, trivial, h.pending, h.script, .inr rfl, h.exact, h.shown,
      h.fits⟩
  exact (enter_early h.stage).mono fun _ _ ht => ht ▸ hbegin

/-- Groups may be spilled at any moment. -/
theorem spill_tallied (h : Tallied others alone m s) (reason : SpillReason)
    (journal : Array Notice) :
    Gives (spill reason) (fun _ => Tallies others alone m) (fun _ _ => True)
      (s.1, { s.2 with journal }) := by
  have hnoted : Tallied others alone m (s.1, { s.2 with journal }) :=
    ⟨h.backed, h.sound, h.pending, h.script, h.stage, h.exact, h.shown, h.fits⟩
  refine (spill_backed hnoted.backed reason).mono (fun _ t ht hfits => ?_) fun _ _ _ => trivial
  exact hnoted.follow ht.follows h.sound hfits

/-- Whatever is reached keeps the count. -/
theorem Reached.tallied {first : Operator × Workspace} (hr : Reached Fits first m s)
    (h : Tallied others alone .waiting first) : Tallied others alone m s := by
  induction hr with
  | start => exact h
  | learn _ ht hfits ih =>
    have hstep := buildSchema_tallied ih
    unfold Ensures at hstep
    rw [ht] at hstep
    exact hstep _ rfl hfits
  | enter _ ht _ ih =>
    have hstep := enter_tallied ih
    unfold Ensures at hstep
    rwa [ht] at hstep
  | advance _ ht hfits ih =>
    have hstep := advance_tallied ih
    unfold Gives Ensures at hstep
    rw [ht] at hstep
    exact hstep hfits
  | spill reason journal _ ht hfits ih =>
    have hstep := spill_tallied ih reason journal
    unfold Gives Ensures at hstep
    rw [ht] at hstep
    exact hstep hfits

/-! ## The beginning -/

end Operator

/-- A chunk is the only holder of its charge, which was opened for all of its rows at least, or it
is not charged. -/
def Chunk.Sole (l : Ledger) (c : Chunk) : Prop :=
  ∀ a ∈ c.account?, l.holdersOf a.charge = 1 ∧ (l.bytesOf a.charge).toNatClampNeg = a.bytes ∧
    c.length ≤ a.rows

/-- The same of all batches of a script. -/
def Chunk.AllSole (l : Ledger) (script : List Pull) : Prop :=
  ∀ p ∈ script, ∀ c, p.outcome = .ok (.batch c) → c.Sole l

theorem Chunk.map_offers (c : Chunk) : c.offers.map Prod.fst = c.charge?.toList := by
  unfold offers charge?
  cases c.account? <;> rfl

theorem Pull.map_offers (p : Pull) : p.offers.map Prod.fst = p.charges := by
  unfold offers charges
  cases p.outcome with
  | error => rfl
  | ok e =>
    cases e with
    | batch chunk => exact chunk.map_offers
    | _ => rfl

theorem map_offers (script : List Pull) :
    (script.flatMap Pull.offers).map Prod.fst = script.flatMap Pull.charges := by
  rw [List.map_flatMap]
  exact congrArg (script.flatMap ·) (funext Pull.map_offers)

/-- What a script offers are the accounts of its batches. -/
theorem exists_account {script : List Pull} {s : Stake} (hs : s ∈ script.flatMap Pull.offers) :
    ∃ p ∈ script, ∃ c, p.outcome = .ok (.batch c) ∧ ∃ a ∈ c.account?, s = (a.charge, a.bytes) := by
  obtain ⟨p, hp, hs⟩ := List.mem_flatMap.mp hs
  unfold Pull.offers at hs
  split at hs
  · next e he =>
    cases e with
    | batch c =>
      obtain ⟨a, ha, rfl⟩ := List.mem_map.mp hs
      exact ⟨p, hp, c, he, a, Option.mem_toList.mp ha, rfl⟩
    | _ => cases hs
  · cases hs

namespace Operator

variable {name stem : String} {options : SortOptions} {makeOrder : OrderMaker} {script : List Pull}
  {pressure : Bool} {fragment : Fragment} {ledger : Ledger} {disk : Disk} {s : Operator × Workspace}
  {others : List ChargeId}

/-- Sole holders answer for charges of their own. -/
theorem covers_offers (hledger : ledger.Balanced (script.flatMap Pull.charges ++ others))
    (hsole : Chunk.AllSole ledger script) : ledger.Covers (script.flatMap Pull.offers) := by
  refine .of_nodup ?_ fun s hs => ?_
  · rw [map_offers, List.nodup_iff_count_le_one]
    intro c
    by_cases hc : c ∈ script.flatMap Pull.charges
    · rw [← map_offers] at hc
      obtain ⟨s, hs, rfl⟩ := List.mem_map.mp hc
      obtain ⟨p, hp, chunk, hchunk, a, ha, rfl⟩ := exists_account hs
      have hone := (hsole p hp chunk hchunk a ha).1
      rw [hledger.holders, List.count_append] at hone
      exact Nat.le_of_add_right_le (Nat.le_of_eq hone)
    · rw [List.count_eq_zero_of_not_mem hc]
      exact Nat.zero_le _
  · obtain ⟨p, hp, chunk, hchunk, a, ha, rfl⟩ := exists_account hs
    exact Nat.le_of_eq (hsole p hp chunk hchunk a ha).2.1.symm

/-- A tracker that was just made is above none of those that were there. -/
theorem nodup_path_addChild {l : Ledger} {cs : List ChargeId} (h : l.Balanced cs)
    (hsimple : ∀ id, (l.forest.path id).Nodup) (label : String) (limit : Int64) {parent : TrackerId}
    (hparent : parent < l.forest.trackers.size) (id : TrackerId) :
    ((l.addChild label limit parent).2.forest.path id).Nodup := by
  have hpath : (l.addChild label limit parent).2.forest.path id =
      if id = l.forest.trackers.size then id :: l.forest.path parent else l.forest.path id :=
    Forest.path_push id
  rw [hpath]
  split
  · next hid =>
    refine List.nodup_cons.mpr ⟨fun hm => ?_, hsimple parent⟩
    exact Nat.ne_of_lt (h.lt_size_of_mem_path hparent hm) hid
  · exact hsimple id

/-- The node of a sort that is alone shows what was made with it. -/
theorem value?_profileNode (options : SortOptions) {p : Profile} (h : p.child? name = none)
    (path : List String) (k : String) : (p.onChild name (profileNode options)).value? (name :: path) k =
      (profileNode options (.empty name)).value? path k := by
  have hname : ∀ q, (profileNode options q).name = q.name := by
    intro q
    simp only [profileNode, Profile.name_onChild, Profile.name_addCounter, Profile.name_setInfo]
  rw [Profile.value?_cons, Profile.child?_onChild hname, h]
  rfl

/-- Nothing is live on a tracker that was just made. -/
theorem live_addChild {l : Ledger} {cs : List ChargeId} (h : l.Balanced cs) (label : String)
    (limit : Int64) (parent : TrackerId) :
    (l.addChild label limit parent).2.live (l.addChild label limit parent).1 = 0 := by
  have hbooks := Accounts.addChild h label limit parent
  refine total_eq_zero fun n hn => ?_
  obtain ⟨x, hx, rfl⟩ := List.mem_map.mp hn
  obtain ⟨c, hc⟩ := List.mem_iff_getElem?.mp hx
  have hc' : (l.addChild label limit parent).2.charges[c]? = some x := by simpa using hc
  obtain ⟨hlt, -⟩ := Array.getElem?_eq_some_iff.mp hc'
  rcases hbooks.foreign c x hlt hc' with ⟨-, hnone⟩ | hnot
  · exact absurd hnone List.not_mem_nil
  · exact if_neg fun hall => hnot hall.2

/-- An operator that was just made has counted nothing, and there is nothing to count. -/
theorem create_tallied
    (hs : Operator.create name options makeOrder { script, pressure } stem fragment ledger disk =
      .ok s)
    (hledger : ledger.Balanced (script.flatMap Pull.charges ++ others))
    (hsimple : ∀ id, (ledger.forest.path id).Nodup)
    (htracker : fragment.tracker < ledger.forest.trackers.size)
    (hsole : Chunk.AllSole ledger script) :
    Tallied others (fragment.profile.child? name = none) .waiting s := by
  obtain ⟨-, v, -, hop, hw⟩ := create_ok hs
  obtain ⟨op, w⟩ := s
  obtain rfl : op = _ := hop
  obtain rfl : w = _ := hw
  have hbooks := Accounts.addChild hledger name options.maxAllocation fragment.tracker
  have hcovers := covers_offers hledger hsole
  refine ⟨⟨?_, ?_, ?_, ?_, ?_, ?_⟩, trivial, fun _ hp => absurd hp (Option.not_mem_none _), ?_,
    .inl rfl, rfl, fun ha => ?_, ?_⟩
  · exact nodup_path_addChild hledger hsimple name options.maxAllocation htracker
  · exact ⟨hbooks.tracked, hbooks.shown, hbooks.holders, hbooks.leases, Nat.zero_le _,
      fun c _ hc => absurd hc (Nat.not_lt_zero c)⟩
  · intro g hg
    exact absurd hg (Array.not_mem_empty g)
  · intro g hg
    exact absurd hg List.not_mem_nil
  · exact hcovers
  · intro s hs
    exact absurd hs List.not_mem_nil
  · intro p hp e he
    cases e with
    | batch c => exact fun a ha => (hsole p hp c he a ha).2.2
    | _ => trivial
  · refine ⟨0, value?_profileNode options ha [] _, ?_⟩
    show (0 : Int64) ≤
      (ledger.addChild name options.maxAllocation fragment.tracker).2.forest.peak
        (ledger.addChild name options.maxAllocation fragment.tracker).1
    simp [Ledger.addChild, Forest.addChild, Forest.peak, Forest.get?]
  · show (((ledger.addChild name options.maxAllocation fragment.tracker).2.live _ : Nat) : Int) <
      maxWord
    rw [live_addChild hledger]
    decide

/-! ## Counting -/

/-- The monitor counts exactly the bytes of the runs in memory, and the operator's tracker shows at
least as many. If the operator is alone at its profile node, the peak it shows there is no higher
than that of the tracker. -/
structure Counts (alone : Prop) (s : Operator × Workspace) : Prop where
  exact : s.1.monitor.residentBytes =
    (total (s.1.resident.toList.map SortedGroup.residentBytes) +
      total (s.1.spilled.toList.map SortedGroup.residentBytes) : Nat)
  shown : s.1.monitor.residentBytes ≤ (s.2.ledger.current s.1.tracker).toInt
  peak : alone → ∃ v, s.2.shownPeak? = some v ∧ v ≤ s.2.ledger.forest.peak s.1.tracker

theorem Tallied.counts {alone : Prop} {m : Moment} (h : Tallied others alone m s) :
    Counts alone s := by
  refine ⟨?_, (h.backed.word_le_current h.exact h.fits).1, h.shown⟩
  have hexact := h.exact
  rwa [Exact, residentTotal, groups, List.map_append, total_append] at hexact

/-- **The bytes in memory are counted exactly.** Let every batch of a script be the only holder of
its charge, or not be charged at all. In every state of taking in the monitor counts just the bytes
of the groups in memory and of the heads of those on disk, slices of one batch included; the
operator's tracker shows no less, and its peak is no lower than the one at the sort's node. This is
so as long as what is on the tracker fits a word. Taking in goes through such states from any of
them. -/
theorem resident_bytes_exact
    (hs : Operator.create name options makeOrder { script, pressure } stem fragment ledger disk =
      .ok s)
    (hledger : ledger.Balanced (script.flatMap Pull.charges ++ others))
    (hsimple : ∀ id, (ledger.forest.path id).Nodup)
    (htracker : fragment.tracker < ledger.forest.trackers.size)
    (hsole : Chunk.AllSole ledger script) :
    (∀ m t, Reached Fits s m t → Counts (fragment.profile.child? name = none) t) ∧
    ∀ t, Reached (fun _ => True) s .waiting t → ∀ count,
      Gives (ingest count) (fun _ u => Counts (fragment.profile.child? name = none) u ∨
        ∃ n v, Reached (fun _ => True) s n v ∧ ¬ Fits v) (fun _ _ => True) t := by
  have htallied := create_tallied hs hledger hsimple htracker hsole
  have hcounts : ∀ m t, Reached Fits s m t → Counts (fragment.profile.child? name = none) t :=
    fun m t hr => (hr.tallied htallied).counts
  refine ⟨hcounts, fun t ht count => ?_⟩
  refine (ingest_reached count ht).mono (fun _ u hu => ?_) fun _ _ _ => trivial
  obtain ⟨m, hm⟩ := hu
  by_cases hfits : ∀ n v, Reached (fun _ => True) s n v → Fits v
  · exact .inl (hcounts m u (hm.of_all hfits))
  · simp only [not_forall] at hfits
    obtain ⟨n, v, hv, hnot⟩ := hfits
    exact .inr ⟨n, v, hv, hnot⟩

end Operator

/-! ## A charged batch -/

namespace Sample

/-- The fragment and the ledger of a scan that was charged 4096 bytes. -/
def scanned : Fragment × Ledger :=
  let (fragment, ledger) := Fragment.start ⟨1, 2⟩ ⟨3, 4⟩ (-1)
  (fragment, (ledger.charge fragment.tracker 4096).2)

/-- Three batches, of which the first is a part of the one that the scan was charged for. -/
def scannedBatches : List Pull :=
  [{ outcome := .ok (.batch ⟨batch [(2, 1), (1, 2)], some ⟨0, 4096, 3⟩⟩) }, pull [(1, 3), (3, 4)],
    pull [(1, 5)]]

/-- A sort of these batches. -/
def scannedOperator : Except Failure (Operator × Workspace) :=
  Operator.create "SORT" options .byColumns { script := scannedBatches } "rows" scanned.1 scanned.2
    {}

theorem nodup_path_scanned (id : TrackerId) : (scanned.2.forest.path id).Nodup := by
  by_cases hid : id < scanned.2.forest.trackers.size
  · have hall : ∀ id < scanned.2.forest.trackers.size, (scanned.2.forest.path id).Nodup := by decide
    exact hall id hid
  · rw [Forest.path, Forest.get?, Array.getElem?_eq_none (Nat.not_lt.mp hid)]
    exact List.nodup_singleton id

theorem scannedBatches_sole : Chunk.AllSole scanned.2 scannedBatches := by
  intro p hp c hc a ha
  rcases List.mem_cons.mp hp with rfl | hp
  · obtain rfl := Event.batch.inj (Except.ok.inj hc)
    obtain rfl := Option.some.inj ha
    decide +kernel
  · have hnone : ∀ p ∈ scannedBatches.tail, ∀ c, p.outcome = .ok (.batch c) →
        c.account? = none := by
      simp [scannedBatches, pull]
    rw [hnone p hp c hc] at ha
    cases ha

end Sample

namespace Operator

/-- Two groups lie on disk then and one in memory, and 347 bytes are counted. -/
theorem resident_bytes_exact_scanned_batches : ∃ s t,
    Sample.scannedOperator = .ok s ∧ Reached Fits s (.ended true) t ∧
      t.1.spilled.size = 2 ∧ t.1.resident.size = 1 ∧ t.1.monitor.residentBytes = 347 ∧
      Counts True t := by
  have hbalanced : Sample.scanned.2.Balanced
      (Sample.scannedBatches.flatMap Pull.charges ++ []) := by
    refine ⟨by decide, by decide, fun c => ?_, fun _ => rfl⟩
    cases c <;> rfl
  have hpasses : Sample.scannedOperator.toOption.any fun s =>
      (follow Fits 24 .waiting s).any fun r =>
        r.1.isOver && r.2.1.spilled.size == 2 && r.2.1.resident.size == 1 &&
          r.2.1.monitor.residentBytes == 347 := by
    decide +kernel
  obtain ⟨s, hs, hrun⟩ := (Option.any_eq_true ..).mp hpasses
  obtain ⟨⟨m, t⟩, hfollow, htest⟩ := (Option.any_eq_true ..).mp hrun
  simp only [Bool.and_eq_true, beq_iff_eq] at htest
  obtain ⟨⟨⟨hover, hspilled⟩, hresident⟩, hbytes⟩ := htest
  obtain rfl : m = .ended true := by
    cases m with
    | ended goesOn => rw [show goesOn = true from hover]
    | _ => cases hover
  have hs : Sample.scannedOperator = .ok s := by
    revert hs
    cases Sample.scannedOperator with
    | ok s' => exact fun hs => congrArg _ (Option.some.inj hs)
    | error e => exact fun hs => nomatch hs
  have hreached := follow_reached .start hfollow
  have hcounts := (resident_bytes_exact hs hbalanced Sample.nodup_path_scanned (by decide)
    Sample.scannedBatches_sole).1 _ t hreached
  exact ⟨s, t, hs, hreached, hspilled, hresident, hbytes, hcounts.exact, hcounts.shown,
    fun _ => hcounts.peak rfl⟩

end Operator

end SpillSort
