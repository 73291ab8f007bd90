import SpillSort.Proofs.ResidentBytes
import SpillSort.Proofs.Sessions
import SpillSort.Proofs.Unspilled

/-!
# What the policy answered last

The policy is asked after each slice that was kept. As long as nothing was spilled, what it saw at the
last time is still there when the input has ended: the same rows, and the same bytes on the
operator's tracker.

* `Operator.Judged` are the states of taking in, with what the policy answered last.
* `Operator.Watched` is the invariant, and `advance_watched` one step of it.
* `Operator.Judged.watched` says that it holds throughout.
-/

namespace SpillSort

open Memory Spill

/-! ## Limits -/

namespace Memory

namespace Forest

variable {f : Forest} {id : TrackerId} {bytes : Int64}

/-- The limit of a tracker and its ancestors, which never change. -/
def bounds (f : Forest) (id : TrackerId) : Option (Int64 × List TrackerId) :=
  (f.get? id).map fun t => (t.limit, t.ancestors)

theorem bounds_onPath {g : Tracker → Tracker}
    (hg : ∀ x, ((g x).limit, (g x).ancestors) = (x.limit, x.ancestors)) :
    (f.onPath id g).bounds = f.bounds := by
  funext t
  let view (x : Tracker) : Int64 × List TrackerId := (x.limit, x.ancestors)
  have hview : ∀ x, view (g x) = view x := hg
  exact getElem?_foldl_modify hview (f.path id) f.trackers t

theorem bounds_consume : (f.consume id bytes).bounds = f.bounds := by
  unfold consume
  split
  · rfl
  · exact bounds_onPath fun _ => rfl

theorem bounds_release : (f.release id bytes).bounds = f.bounds := by
  unfold release
  split
  · rfl
  · exact bounds_onPath fun _ => rfl

end Forest

namespace Ledger

variable {l : Ledger} {c : ChargeId} {id : TrackerId}

theorem bounds_charge (bytes : Int64) : (l.charge id bytes).2.forest.bounds = l.forest.bounds :=
  Forest.bounds_consume

theorem bounds_drop : (l.drop c).forest.bounds = l.forest.bounds := by
  unfold drop
  split
  · rfl
  · dsimp only
    split
    · exact Forest.bounds_release
    · rfl

theorem bounds_dropAll (cs : List ChargeId) : (l.dropAll cs).forest.bounds = l.forest.bounds := by
  induction cs generalizing l with
  | nil => rfl
  | cons c cs ih => exact ih.trans bounds_drop

theorem forest_shareAll (cs : List ChargeId) : (l.shareAll cs).forest = l.forest := by
  induction cs generalizing l with
  | nil => rfl
  | cons c cs ih => exact ih

theorem bounds_transfer : (l.transfer c id).forest.bounds = l.forest.bounds := by
  unfold transfer
  split
  · rfl
  · split
    · rfl
    · exact Forest.bounds_consume.trans Forest.bounds_release

end Ledger

end Memory

theorem Chunk.bounds_transfer (chunk : Chunk) (tracker : TrackerId) (l : Ledger) :
    (chunk.transfer tracker l).2.forest.bounds = l.forest.bounds := by
  unfold transfer
  split
  · exact Ledger.bounds_transfer
  · dsimp only
    split
    · rfl
    · exact Ledger.bounds_charge _

/-! ## Charges that stay where they are -/

namespace Accounts

variable {b : Books} {l : Ledger} {R : Resources} {c : ChargeId}

/-- The tracker shows the same without one of several holders of a charge, and without a charge that
was opened before and never taken over. -/
theorem current_drop (h : Accounts b l (.charge c ::ₘ R))
    (hc : .charge c ∈ R ∨ c < b.opened ∧ c ∉ b.taken) :
    (l.drop c).current b.tracker = l.current b.tracker := by
  obtain ⟨x, hx, hn, -⟩ := h.exists_charge (Multiset.mem_cons_self _ R)
  rw [Ledger.drop_of_some hx]
  show (if x.holders = 1 then l.forest.release x.tracker x.bytes else l.forest).current b.tracker = _
  split
  · next hone =>
    rcases hc with hm | ⟨hlt, hnot⟩
    · have hp : 0 < R.count (.charge c) := Multiset.count_pos.mpr hm
      rw [Multiset.count_cons_self] at hn
      omega
    · rcases h.foreign c x hlt hx with hf | hf
      · exact absurd hf.2 hnot
      · rw [Forest.current_release h.tracked, Forest.share_of_not_mem hf, Int64.sub_zero]
        rfl
  · rfl

theorem current_dropAll {c? : Option ChargeId} (h : Accounts b l (.charges c?.toList + R))
    (hc : ∀ c ∈ c?, .charge c ∈ R ∨ c < b.opened ∧ c ∉ b.taken) :
    (l.dropAll c?.toList).current b.tracker = l.current b.tracker := by
  cases c? with
  | none => rfl
  | some c =>
    rw [Option.toList_some, Resources.charges_cons, Resources.charges_nil, Multiset.cons_add,
      zero_add] at h
    exact h.current_drop (hc c rfl)

end Accounts

/-! ## Verdicts -/

/-- Before any spill the policy objects, or what is left of the allocation exceeds the estimate. -/
theorem Monitor.shouldSpill_affords {m : Monitor} (h : m.spillCount = 0) (shown : MemorySnapshot) :
    m.shouldSpill shown = some .inMemorySortUnaffordable ∨
      inMemorySortCost m.totalRows < saturate (m.maxAllocation - shown.allocated) := by
  unfold shouldSpill
  rw [if_neg (by omega)]
  split
  · exact .inl rfl
  · next hnot => exact .inr (by omega)

/-- A call by which others do something, but nothing that the tracker shows or is limited by. -/
def Call.SparesTracker (t : TrackerId) : Call → Prop
  | .cancel | .pressure | .disk _ => True
  | .memory f => SpillSort.Spares t f ∧ ∀ g, (f g).bounds t = g.bounds t
  | _ => False

namespace Operator

/-- What the policy answers where it is asked: before a slice that was kept is left behind. -/
def verdict (v : Option (Option SpillReason)) (m : Moment) (s : Operator × Workspace) :
    Option (Option SpillReason) :=
  match m with
  | .kept _ _ _ => some (s.1.monitor.shouldSpill (Stateful.outcome snapshot s).1)
  | _ => v

/-- The states of an operator on its way through the input, with the last answer of the policy, if it
was asked. Before the first pull the schema may be learnt, and others may do what they like as long
as they leave the operator's tracker alone. -/
inductive Judged (first : Operator × Workspace) :
    Option (Option SpillReason) → Moment → Operator × Workspace → Prop where
  | start : Judged first none .waiting first
  | learn {v : Option (Option SpillReason)} {s t : Operator × Workspace} {schema? : Option Schema} :
    Judged first v .waiting s → Stateful.outcome buildSchema s = (.ok schema?, t) →
    Judged first v .waiting t
  | call {v : Option (Option SpillReason)} {s : Operator × Workspace} {c : Call} :
    Judged first v .waiting s → c.SparesTracker s.1.tracker →
    Judged first v .waiting (Session.perform ⟨s.1, s.2, []⟩ c).2.state
  | enter {v : Option (Option SpillReason)} {s t : Operator × Workspace} :
    Judged first v .waiting s → Stateful.outcome (enter .ingesting) s = ((), t) →
    Judged first v .waiting t
  | advance {v : Option (Option SpillReason)} {m n : Moment} {s t : Operator × Workspace} :
    Judged first v m s → Stateful.outcome (advance m).run s = (.ok n, t) →
    Judged first (verdict v m s) n t

/-- The policy objected, or what is left of the allocation exceeds the estimate. If it was never asked
there are no rows. -/
def Affords (v : Option (Option SpillReason)) (s : Operator × Workspace) : Prop :=
  match v with
  | none => s.1.monitor.totalRows = 0
  | some r => r = some .inMemorySortUnaffordable ∨ inMemorySortCost s.1.monitor.totalRows <
      saturate (s.1.monitor.maxAllocation - (s.2.ledger.current s.1.tracker).toInt)

end Operator

namespace Moment

/-- The chunk that is being staged. -/
def chunk? : Moment → Option Chunk
  | staging _ chunk _ | kept _ chunk _ | holding _ chunk _ _ => some chunk
  | _ => none

/-- The charges of that chunk. -/
def worked (m : Moment) : List ChargeId := m.chunk?.elim [] fun c => c.charge?.toList

/-- The charges that are still to come to the operator. -/
def coming : Moment → List ChargeId
  | came e _ => e.charges
  | admitted chunk => chunk.charge?.toList
  | _ => []

/-- All that was staged was judged, too. -/
def settled : Moment → Bool
  | staging _ _ slices => slices.isEmpty
  | holding _ _ _ _ | kept _ _ _ => false
  | _ => true

/-- Slices can be sorted under the operator's order. -/
def Fits (op : Operator) : Moment → Prop
  | staging order _ slices | kept order _ slices =>
    op.order? = some order ∧ ∀ s ∈ slices, 0 < s.2 ∧ s.2 ≤ maxSelectionRows
  | holding order _ slice slices =>
    (op.order? = some order ∧ ∀ s ∈ slices, 0 < s.2 ∧ s.2 ≤ maxSelectionRows) ∧
      0 < slice.length ∧ slice.length ≤ maxSelectionRows
  | _ => True

theorem Fits.congr {op op' : Operator} {m : Moment} (h : m.Fits op) (ho : op'.order? = op.order?) :
    m.Fits op' := by
  cases m with
  | staging => exact ⟨ho.trans h.1, h.2⟩
  | kept => exact ⟨ho.trans h.1, h.2⟩
  | holding => exact ⟨⟨ho.trans h.1.1, h.1.2⟩, h.2⟩
  | _ => trivial

/-- Once a slice was kept, a group holds the charge of its chunk. -/
def Joined (op : Operator) : Moment → Prop
  | kept _ chunk _ | staging _ chunk [] => ∀ c ∈ chunk.charge?, c ∈ op.groupCharges
  | holding _ chunk slice _ => slice.charge? = chunk.charge?
  | _ => True

end Moment

namespace Operator

variable {op : Operator} {w : Workspace} {m n : Moment} {s t : Operator × Workspace}
  {opened : Nat} {others : List ChargeId} {v : Option (Option SpillReason)}

/-- The charges that are held while an operator takes in its input. -/
def holding (others : List ChargeId) (m : Moment) (op : Operator) : List ChargeId :=
  op.groupCharges ++ (m.charges ++ (op.pendingCharges ++ (op.input.charges ++ others)))

/-- An operator that has not spilled yet, made when `opened` charges were there. -/
structure Unspilled (opened : Nat) (others : List ChargeId) (m : Moment) (s : Operator × Workspace) :
    Prop where
  spilled : s.1.spilled = #[]
  totalRows : s.1.monitor.totalRows = min maxCount (total (s.1.resident.toList.map SortedGroup.rows))
  maxAllocation : s.1.monitor.maxAllocation = s.1.options.maxAllocation.toInt
  bounds : ∃ ancestors, s.1.tracker ∉ ancestors ∧
    s.2.ledger.forest.bounds s.1.tracker = some (s.1.options.maxAllocation, ancestors)
  books : ∃ taken, (∀ c ∈ taken, c ∈ s.1.groupCharges ∨ c ∈ m.worked) ∧
    Accounts ⟨s.1.tracker, 0, opened, taken⟩ s.2.ledger (.charges (holding others m s.1))
  early : ∀ c ∈ m.coming ++ (s.1.pendingCharges ++ s.1.input.charges), c < opened
  joined : m.Joined s.1

/-- The invariant of taking in, of what the policy answered last. -/
structure Watched (opened : Nat) (others : List ChargeId) (v : Option (Option SpillReason))
    (m : Moment) (s : Operator × Workspace) : Prop where
  stage : s.1.stage = .uninitialized ∨ s.1.stage = .ingesting
  sorted : s.1.Sorted
  fits : m.Fits s.1
  unspilled : s.1.monitor.spillCount ≠ 0 ∨
    Unspilled opened others m s ∧ (m.settled → Affords v s)

/-! ## Steps -/

/-- All that the invariant sees of an operator, besides its order and its events. -/
structure Alike (op op' : Operator) : Prop where
  resident : op'.resident = op.resident
  spilled : op'.spilled = op.spilled
  tracker : op'.tracker = op.tracker
  options : op'.options = op.options
  spillCount : op'.monitor.spillCount = op.monitor.spillCount
  totalRows : op'.monitor.totalRows = op.monitor.totalRows
  maxAllocation : op'.monitor.maxAllocation = op.monitor.maxAllocation

namespace Alike

variable {op' : Operator}

theorem of_unordered (h : op'.unordered = op.unordered) : Alike op op' where
  resident := (congrArg Operator.resident h :)
  spilled := (congrArg Operator.spilled h :)
  tracker := (congrArg Operator.tracker h :)
  options := (congrArg Operator.options h :)
  spillCount := (congrArg (fun op => op.monitor.spillCount) h :)
  totalRows := (congrArg (fun op => op.monitor.totalRows) h :)
  maxAllocation := (congrArg (fun op => op.monitor.maxAllocation) h :)

theorem groupCharges (h : Alike op op') : op'.groupCharges = op.groupCharges := by
  rw [Operator.groupCharges, groups_congr h.resident h.spilled]
  rfl

end Alike

theorem Unmoved.alike (h : Unmoved s t) : Alike s.1 t.1 where
  resident := h.resident
  spilled := h.spilled
  tracker := (congrArg Operator.tracker h.bare :)
  options := (congrArg Operator.options h.bare :)
  spillCount := h.spillCount
  totalRows := h.totalRows
  maxAllocation := h.maxAllocation

theorem Affords.congr (h : Affords v s) (ha : Alike s.1 t.1)
    (hc : t.2.ledger.current s.1.tracker = s.2.ledger.current s.1.tracker) : Affords v t := by
  cases v with
  | none => exact ha.totalRows.trans h
  | some r =>
    rw [Affords, ha.totalRows, ha.maxAllocation, ha.tracker, hc]
    exact h

/-- A step that keeps to the groups leaves what the books say to be shown. -/
theorem Unspilled.onward (h : Unspilled opened others m s) (ha : Alike s.1 t.1)
    (hbounds : t.2.ledger.forest.bounds s.1.tracker = s.2.ledger.forest.bounds s.1.tracker)
    (hbooks : ∃ taken, (∀ c ∈ taken, c ∈ s.1.groupCharges ∨ c ∈ n.worked) ∧
      Accounts ⟨s.1.tracker, 0, opened, taken⟩ t.2.ledger
        (.charges (s.1.groupCharges ++ (n.charges ++ (t.1.pendingCharges ++
          (t.1.input.charges ++ others))))))
    (hearly : ∀ c ∈ n.coming ++ (t.1.pendingCharges ++ t.1.input.charges), c < opened)
    (hjoined : n.Joined t.1) : Unspilled opened others n t where
  spilled := ha.spilled.trans h.spilled
  totalRows := by
    rw [ha.totalRows, ha.resident]
    exact h.totalRows
  maxAllocation := by
    rw [ha.maxAllocation, ha.options]
    exact h.maxAllocation
  bounds := by
    rw [ha.tracker, ha.options, hbounds]
    exact h.bounds
  books := by
    rw [holding, ha.tracker, ha.groupCharges]
    exact hbooks
  early := hearly
  joined := hjoined

/-- The groups are sorted under an order that was made for the first of them. -/
theorem Sorted.settle {op' : Operator} (h : op.Sorted) (hr : op'.resident = op.resident)
    (ho' : op'.order? = some order) (ho : op.order? = some order ∨ op.order? = none) :
    op'.Sorted := by
  intro g hg
  rw [hr] at hg
  obtain ⟨order', horder, hrun⟩ := h g hg
  rcases ho with ho | ho
  · obtain rfl := Option.some.inj (ho.symm.trans horder)
    exact ⟨order, ho', hrun⟩
  · rw [ho] at horder
    cases horder

/-- An event comes in, with the charges it brings. -/
theorem Watched.of_waiting (h : Watched opened others v .waiting s) :
    Gives (advance .waiting) (Watched opened others v) (fun _ _ => True) s := by
  obtain ⟨op, w⟩ := s
  simp only [advance, Gives.bind_iff, Gives.lift_layer_iff]
  have hlook : Ensures Workspace.cancelled (fun _ x => x.ledger = w.ledger) w := rfl
  refine hlook.mono fun b x hx => ?_
  split
  · rw [Gives.bind_iff, Gives.throw_iff]
    trivial
  simp only [Gives.bind_iff, Gives.modifyGet_layer_iff, Gives.pure_iff]
  refine (nextEvent_brings (op, x)).mono (fun e t ht => ?_) fun _ _ _ => trivial
  obtain ⟨op', y⟩ := t
  obtain ⟨hledger, -, input, rfl, hcharges, -⟩ := ht
  have hledger' : y.ledger = w.ledger := hledger.trans hx
  refine ⟨h.stage, h.sorted, trivial, h.unspilled.imp id fun hs => ?_⟩
  obtain ⟨hu, hv⟩ := hs
  refine ⟨?_, fun _ => ?_⟩
  · refine hu.onward (n := .came e input.takePressure.1) ⟨rfl, rfl, rfl, rfl, rfl, rfl, rfl⟩
      (congrArg (fun l : Ledger => l.forest.bounds op.tracker) hledger') ?_ ?_ trivial
    · obtain ⟨taken, htaken, ha⟩ := hu.books
      refine ⟨taken, htaken, ?_⟩
      rw [hledger']
      simp only [holding, Moment.charges, List.nil_append] at ha
      rw [← List.append_assoc op.pendingCharges, hcharges, List.append_assoc e.charges] at ha
      exact ha
    · have hearly := hu.early
      simp only [Moment.coming, List.nil_append] at hearly
      rw [hcharges] at hearly
      exact hearly
  · exact (hv rfl).congr ⟨rfl, rfl, rfl, rfl, rfl, rfl, rfl⟩
      (congrArg (fun l : Ledger => l.current op.tracker) hledger')

/-- Memory may be relieved in between. -/
theorem Watched.eased (h : Watched opened others v m s) (he : Eases s t) :
    Watched opened others v m t := by
  have hinput : t.1.input = s.1.input := (congrArg Operator.input he.bare :)
  have hpending : t.1.pending? = s.1.pending? := (congrArg Operator.pending? he.bare :)
  have hfits : m.Fits t.1 := h.fits.congr (congrArg Operator.order? he.bare :)
  have hstage : t.1.stage = s.1.stage := (congrArg Operator.stage he.bare :)
  refine ⟨hstage ▸ h.stage, he.sorted, hfits, ?_⟩
  rcases he.unmoved with hne | hmoved
  · exact .inl hne
  have ha := hmoved.alike
  rcases h.unspilled with hne | ⟨hu, hv⟩
  · exact .inl (ha.spillCount ▸ hne)
  have hbounds := congrArg (fun l : Ledger => l.forest.bounds s.1.tracker) hmoved.ledger
  have hcurrent := congrArg (fun l : Ledger => l.current s.1.tracker) hmoved.ledger
  refine .inr ⟨hu.onward ha hbounds ?_ ?_ ?_, fun hs => (hv hs).congr ha hcurrent⟩
  · obtain ⟨taken, htaken, hbooks⟩ := hu.books
    refine ⟨taken, htaken, ?_⟩
    rw [hmoved.ledger, pendingCharges, hpending, hinput]
    exact hbooks
  · rw [pendingCharges, hpending, hinput]
    exact hu.early
  · have hj := hu.joined
    unfold Moment.Joined at hj ⊢
    rw [ha.groupCharges]
    exact hj

/-- What an event leads to once memory was seen to. -/
theorem Watched.receive {e : Event} {pressure : Bool}
    (h : Watched opened others v (.came e pressure) s) :
    Gives (receive e) (Watched opened others v) (fun _ _ => True) s := by
  have hgo : ∀ n : Moment, n.charges = e.charges → n.coming = e.charges → n.settled →
      n.worked = [] → n.Fits s.1 → n.Joined s.1 → Watched opened others v n s := by
    intro n hcharges hcoming hsettled hworked hfits hjoined
    refine ⟨h.stage, h.sorted, hfits, h.unspilled.imp id fun hs => ?_⟩
    obtain ⟨hu, hv⟩ := hs
    refine ⟨?_, fun _ => hv rfl⟩
    refine hu.onward ⟨rfl, rfl, rfl, rfl, rfl, rfl, rfl⟩ rfl ?_ (hcoming ▸ hu.early) hjoined
    rw [hcharges, hworked]
    exact hu.books
  unfold Operator.receive
  cases e with
  | batch chunk => exact Gives.pure_iff.mpr (hgo _ rfl rfl rfl rfl trivial trivial)
  | endOfInput => exact Gives.pure_iff.mpr (hgo _ rfl rfl rfl rfl trivial trivial)
  | stop => exact Gives.pure_iff.mpr (hgo _ rfl rfl rfl rfl trivial trivial)
  | notYet => exact Gives.throw_iff.mpr trivial

theorem Watched.of_came {e : Event} {pressure : Bool}
    (h : Watched opened others v (.came e pressure) s) :
    Gives (advance (.came e pressure)) (Watched opened others v) (fun _ _ => True) s := by
  rw [advance]
  split
  · simp only [Gives.bind_iff, Gives.rescue_layer_iff]
    exact (relieveInput_eases h.sorted).mono (fun _ _ ht => (h.eased ht).receive) fun _ _ _ =>
      .of_forall fun _ _ => trivial
  · exact h.receive

/-- The books of an operator that has taken over some charges. -/
abbrev booksOf (op : Operator) (opened : Nat) (taken : List ChargeId) : Books :=
  ⟨op.tracker, 0, opened, taken⟩

/-- Letting go of a chunk changes nothing that the tracker shows: either a group holds its charge, too,
or it never came to the tracker. -/
theorem Unspilled.leaves {chunk : Chunk} (h : Unspilled opened others m s)
    (hcharges : m.charges = chunk.charge?.toList)
    (hworked : ∀ c ∈ m.worked, c ∈ s.1.groupCharges)
    (hheld : ∀ c ∈ chunk.charge?, c ∈ s.1.groupCharges ∨ c < opened) :
    Ensures (Workspace.onLedger chunk.drop) (fun _ w => Unspilled opened others .waiting (s.1, w) ∧
      w.ledger.current s.1.tracker = s.2.ledger.current s.1.tracker) s.2 := by
  obtain ⟨taken, htaken, hbooks⟩ := h.books
  have htaken : ∀ c ∈ taken, c ∈ s.1.groupCharges := fun c hc =>
    (htaken c hc).elim id (hworked c)
  have hsplit : Accounts (s.1.booksOf opened taken) s.2.ledger (.charges chunk.charge?.toList +
      .charges (s.1.groupCharges ++ (s.1.pendingCharges ++ (s.1.input.charges ++ others)))) := by
    rw [← Resources.charges_append]
    refine hbooks.perm ?_
    rw [holding, hcharges]
    exact List.perm_append_comm_assoc ..
  refine ⟨h.onward ⟨rfl, rfl, rfl, rfl, rfl, rfl, rfl⟩ (congrFun (Ledger.bounds_dropAll _) _)
    ⟨taken, fun c hc => .inl (htaken c hc), hsplit.dropAll⟩ (fun c hc => ?_) trivial,
    hsplit.current_dropAll fun c hc => ?_⟩
  · exact h.early c (List.mem_append_right _ hc)
  · have hgroup : c ∈ s.1.groupCharges → Resource.charge c ∈ Resources.charges (s.1.groupCharges ++
        (s.1.pendingCharges ++ (s.1.input.charges ++ others))) := fun hm =>
      Multiset.mem_coe.mpr (List.mem_map_of_mem (List.mem_append_left _ hm))
    by_cases hct : c ∈ taken
    · exact .inl (hgroup (htaken c hct))
    · exact (hheld c hc).imp hgroup fun hlt => ⟨hlt, hct⟩

/-- A chunk with rows comes to the operator's tracker. -/
theorem Unspilled.takes_over {chunk : Chunk} (h : Unspilled opened others (.admitted chunk) s) :
    Ensures (Workspace.withLedger (chunk.transfer s.1.tracker)) (fun c w =>
      ∀ order slice slices,
        Unspilled opened others (.staging order c (slice :: slices)) (s.1, w)) s.2 := by
  obtain ⟨taken, htaken, hbooks⟩ := h.books
  have htaken : ∀ c ∈ taken, c ∈ s.1.groupCharges := fun c hc =>
    (htaken c hc).resolve_right List.not_mem_nil
  have hown : Owns (.around (s.1.booksOf opened (taken ++ chunk.charge?.toList)) s.2.disk) s.2
      (chunk.held + .charges (s.1.groupCharges ++
        (s.1.pendingCharges ++ (s.1.input.charges ++ others)))) := by
    have hmore : Accounts (s.1.booksOf opened (taken ++ chunk.charge?.toList)) s.2.ledger
        (.charges (holding others (.admitted chunk) s.1)) :=
      hbooks.mono rfl rfl rfl (List.subset_append_left _ _)
    refine hmore.owns.cast ?_
    simp only [holding, Moment.charges, Chunk.held, Resources.charges_append]
    abel
  have hmoved := hown.transfer fun b hb => by
    obtain rfl := Option.some.inj hb
    exact ⟨rfl, fun c hc _ => List.mem_append_right _ (Option.mem_toList.mpr hc)⟩
  have hkept : Ensures (Workspace.withLedger (chunk.transfer s.1.tracker)) (fun c w =>
      w.ledger.forest.bounds = s.2.ledger.forest.bounds ∧ ∀ i ∈ chunk.charge?, i ∈ c.charge?)
      s.2 := by
    refine ⟨chunk.bounds_transfer s.1.tracker s.2.ledger, fun i hi => ?_⟩
    show i ∈ (chunk.transfer s.1.tracker s.2.ledger).1.charge?
    rcases chunk with ⟨batch, _ | a⟩
    · cases hi
    · exact hi
  refine (hmoved.and hkept).mono fun c w hw order slice slices => ?_
  obtain ⟨⟨-, hown⟩, hbounds, hsame⟩ := hw
  refine h.onward ⟨rfl, rfl, rfl, rfl, rfl, rfl, rfl⟩ (congrFun hbounds _)
    ⟨taken ++ chunk.charge?.toList, fun i hi => ?_, ?_⟩ (fun i hi => ?_) trivial
  · rcases List.mem_append.mp hi with hi | hi
    · exact .inl (htaken i hi)
    · exact .inr (Option.mem_toList.mpr (hsame i (Option.mem_toList.mp hi)))
  · have haccounts := hown.accounts _ rfl
    rw [Chunk.held, ← Resources.charges_append] at haccounts
    exact haccounts.perm (List.perm_append_comm_assoc ..)
  · exact h.early i (List.mem_append_right _ hi)

theorem slices_ne_nil {rows : Nat} (h : rows ≠ 0) : slices rows ≠ [] := by
  have hpos : 0 < (rows + maxSelectionRows - 1) / maxSelectionRows :=
    Nat.div_pos (by omega) (by decide)
  rw [slices, ne_eq, List.map_eq_nil_iff, List.range_eq_nil]
  omega

/-- An order is found for a chunk, and with it the chunk comes to the operator or is left. -/
theorem Watched.of_admitted {chunk : Chunk} (h : Watched opened others v (.admitted chunk) s) :
    Gives (advance (.admitted chunk)) (Watched opened others v) (fun _ _ => True) s := by
  simp only [advance, Gives.bind_iff, Gives.rescue_layer_iff]
  refine (orderFor_settles _ s).mono (fun order t ht => ?_) fun _ _ _ =>
    .of_forall fun _ _ => trivial
  obtain ⟨hledger, -, hunordered, ho, hbefore⟩ := ht
  have ha : Alike s.1 t.1 := .of_unordered hunordered
  have hsorted : t.1.Sorted := h.sorted.settle ha.resident ho hbefore
  have hstage : t.1.stage = .uninitialized ∨ t.1.stage = .ingesting :=
    (show t.1.stage = s.1.stage from (congrArg Operator.stage hunordered :)) ▸ h.stage
  have hinput : t.1.input = s.1.input := (congrArg Operator.input hunordered :)
  have hpending : t.1.pendingCharges = s.1.pendingCharges :=
    (congrArg Operator.pendingCharges hunordered :)
  have hsettled : t.1.monitor.spillCount ≠ 0 ∨
      Unspilled opened others (.admitted chunk) t ∧ Affords v t := by
    refine h.unspilled.imp (ha.spillCount ▸ ·) fun hs => ?_
    obtain ⟨hu, hv⟩ := hs
    refine ⟨hu.onward ha ?_ ?_ ?_ trivial,
      (hv rfl).congr ha (congrArg (fun l : Ledger => l.current s.1.tracker) hledger)⟩
    · rw [hledger]
    · rw [hledger, hpending, hinput]
      exact hu.books
    · rw [hpending, hinput]
      exact hu.early
  obtain ⟨op, w⟩ := t
  split
  · simp only [Gives.bind_iff, Gives.lift_layer_iff, Gives.pure_iff]
    rcases hsettled with hne | ⟨hu, hv⟩
    · exact .of_forall fun _ _ => ⟨hstage, hsorted, trivial, .inl hne⟩
    refine (hu.leaves rfl (fun c hc => absurd hc List.not_mem_nil) fun c hc => .inr ?_).mono
      fun _ x hx => ⟨hstage, hsorted, trivial, .inr ⟨hx.1, fun _ => ?_⟩⟩
    · exact hu.early c (List.mem_append_left _ (Option.mem_toList.mpr hc))
    · exact hv.congr ⟨rfl, rfl, rfl, rfl, rfl, rfl, rfl⟩ hx.2
  · next hrows =>
    simp only [Gives.bind_iff, Gives.get_layer_iff, Gives.lift_layer_iff, Gives.pure_iff]
    rcases hsettled with hne | ⟨hu, -⟩
    · exact .of_forall fun c _ => ⟨hstage, hsorted, ⟨ho, slices_bounds⟩, .inl hne⟩
    have hbatch : Ensures (Workspace.withLedger (chunk.transfer op.tracker))
        (fun c _ => c.batch = chunk.batch) w := chunk.batch_transfer op.tracker w.ledger
    refine (hu.takes_over.and hbatch).mono fun c x hx => ?_
    obtain ⟨hx, hbatch⟩ := hx
    have hbounds := @slices_bounds c.length
    have hlength : c.length ≠ 0 := by
      rw [Chunk.length, hbatch]
      exact hrows
    obtain ⟨slice, rest, hslices⟩ := List.exists_cons_of_ne_nil (slices_ne_nil hlength)
    rw [hslices] at hbounds ⊢
    exact ⟨hstage, hsorted, ⟨ho, hbounds⟩, .inr ⟨hx order slice rest, fun h => by cases h⟩⟩

/-- A chunk is let go of once all of its slices are kept. -/
theorem Watched.of_staged {chunk : Chunk} (h : Watched opened others v (.staging order chunk []) s) :
    Gives (advance (.staging order chunk [])) (Watched opened others v) (fun _ _ => True) s := by
  simp only [advance, Gives.bind_iff, Gives.lift_layer_iff, Gives.pure_iff]
  rcases h.unspilled with hne | ⟨hu, hv⟩
  · exact .of_forall fun _ _ => ⟨h.stage, h.sorted, trivial, .inl hne⟩
  have hjoined : ∀ c ∈ chunk.charge?, c ∈ s.1.groupCharges := hu.joined
  refine (hu.leaves rfl (fun c hc => hjoined c (Option.mem_toList.mp hc)) fun c hc =>
    .inl (hjoined c hc)).mono fun _ w hw => ⟨h.stage, h.sorted, trivial, .inr ⟨hw.1, fun _ => ?_⟩⟩
  exact (hv rfl).congr ⟨rfl, rfl, rfl, rfl, rfl, rfl, rfl⟩ hw.2

/-- A slice is cut out of a chunk, and holds its charge as well. -/
theorem Watched.of_staging {chunk : Chunk} {offset length : Nat} {slices : List (Nat × Nat)}
    (h : Watched opened others v (.staging order chunk ((offset, length) :: slices)) s) :
    Gives (advance (.staging order chunk ((offset, length) :: slices)))
      (Watched opened others v) (fun _ _ => True) s := by
  obtain ⟨ho, hbounds⟩ := h.fits
  obtain ⟨hslice, hbounds⟩ := List.forall_mem_cons.mp hbounds
  simp only [advance, Gives.bind_iff, Gives.lift_layer_iff, Gives.pure_iff]
  have hcut : Ensures (Workspace.withLedger (chunk.slice offset length)) (fun slice w =>
      slice.length = length ∧ slice.charge? = chunk.charge? ∧
        w.ledger = s.2.ledger.shareAll chunk.charge?.toList) s.2 := ⟨rfl, rfl, rfl⟩
  refine hcut.mono fun slice w hw => ?_
  obtain ⟨hlength, hcharge, hledger⟩ := hw
  rw [← hlength] at hslice
  refine ⟨h.stage, h.sorted, ⟨⟨ho, hbounds⟩, hslice⟩,
    h.unspilled.imp id fun hs => ⟨?_, fun h => by cases h⟩⟩
  obtain ⟨hu, -⟩ := hs
  obtain ⟨taken, htaken, hbooks⟩ := hu.books
  refine hu.onward ⟨rfl, rfl, rfl, rfl, rfl, rfl, rfl⟩ ?_ ⟨taken, htaken, ?_⟩ hu.early hcharge
  · show w.ledger.forest.bounds _ = _
    rw [hledger, Ledger.forest_shareAll]
  · have hsplit : Accounts (s.1.booksOf opened taken) s.2.ledger (.charges chunk.charge?.toList +
        .charges (s.1.groupCharges ++ (s.1.pendingCharges ++ (s.1.input.charges ++ others)))) := by
      rw [← Resources.charges_append]
      exact hbooks.perm (List.perm_append_comm_assoc ..)
    have hshared := hsplit.shareAll
    rw [← hledger] at hshared
    refine hshared.congr (fun c => ?_) fun i => ?_
    · simp only [Moment.charges, hcharge, Resources.charges_append, Multiset.count_add]
      omega
    · simp only [Moment.charges, hcharge, Resources.charges_append, Multiset.count_add]
      omega

/-- The charges of a run that was kept are those of its slice and the two that were opened for it. -/
theorem Adds.groupCharges_perm {slice : Chunk} {run : SortedRun} (h : Adds slice run s t)
    (hs : s.1.spilled = #[]) : t.1.groupCharges.Perm
      (run.orderCharges ++ (slice.charge?.toList ++ s.1.groupCharges)) := by
  obtain ⟨monitor, hop⟩ := h.added
  have hgroups : t.1.groups = s.1.groups ++ [.resident run] := by
    rw [hop]
    simp [groups, hs]
  have hcharges : (SortedGroup.resident run).charges = slice.charge?.toList ++ run.orderCharges := by
    rw [← h.chunk]
    rfl
  rw [groupCharges, hgroups, List.flatMap_append, List.flatMap_singleton, hcharges, groupCharges]
  refine List.perm_iff_count.mpr fun c => ?_
  simp only [List.count_append]
  omega

/-- A slice becomes a group, for which two charges are opened on the tracker. -/
theorem Unspilled.adds {chunk slice : Chunk} {run : SortedRun} {slices : List (Nat × Nat)}
    (h : Unspilled opened others (.holding order chunk slice slices) s) (ht : Adds slice run s t) :
    Unspilled opened others (.kept order chunk slices) t := by
  obtain ⟨monitor, hop⟩ := ht.added
  obtain ⟨bytes, bytes', hledger, hcharges⟩ := ht.charges
  obtain ⟨taken, htaken, hbooks⟩ := h.books
  have hperm := ht.groupCharges_perm h.spilled
  have hresident : t.1.resident = s.1.resident.push (.resident run) := by rw [hop]
  have htracker : t.1.tracker = s.1.tracker := by rw [hop]
  have hoptions : t.1.options = s.1.options := by rw [hop]
  have hinput : t.1.input = s.1.input := by rw [hop]
  have hpending : t.1.pendingCharges = s.1.pendingCharges := by rw [hop]; rfl
  have hjoined : slice.charge? = chunk.charge? := h.joined
  have hgrown : ∀ c ∈ s.1.groupCharges, c ∈ t.1.groupCharges := fun c hc =>
    hperm.mem_iff.mpr (List.mem_append_right _ (List.mem_append_right _ hc))
  refine ⟨?_, ?_, ?_, ?_, ⟨taken, fun c hc => (htaken c hc).imp_left (hgrown c), ?_⟩, ?_,
    fun c hc => ?_⟩
  · rw [hop]
    exact h.spilled
  · have hrows : (SortedGroup.resident run).rows = run.length := rfl
    rw [ht.totalRows, h.totalRows, hresident, Array.toList_push, List.map_append, List.map_singleton,
      total_append, total_cons, total_nil, hrows]
    omega
  · rw [ht.maxAllocation, hoptions]
    exact h.maxAllocation
  · rw [htracker, hoptions, hledger, Ledger.bounds_charge, Ledger.bounds_charge]
    exact h.bounds
  · have hopened := (hbooks.charge s.1.tracker bytes).charge s.1.tracker bytes'
    rw [← Resources.charges_cons, ← Resources.charges_cons, ← hledger] at hopened
    rw [htracker]
    refine hopened.perm (List.perm_iff_count.mpr fun c => ?_)
    have hcount := hperm.count_eq c
    have hruns := congrArg (List.count c) hcharges
    simp only [holding, hpending, hinput, Moment.charges, hjoined, List.count_append,
      List.count_cons, List.count_nil] at hcount hruns ⊢
    omega
  · rw [hpending, hinput]
    exact h.early
  · rw [← hjoined] at hc
    exact hperm.mem_iff.mpr (List.mem_append_right _ (List.mem_append_left _
      (Option.mem_toList.mpr hc)))

/-- A slice becomes a group. -/
theorem Watched.of_holding {chunk slice : Chunk} {slices : List (Nat × Nat)}
    (h : Watched opened others v (.holding order chunk slice slices) s) :
    Gives (advance (.holding order chunk slice slices)) (Watched opened others v)
      (fun _ _ => True) s := by
  obtain ⟨⟨ho, hbounds⟩, hpos, hsmall⟩ := h.fits
  simp only [advance, Gives.bind_iff, Gives.rescue_layer_iff]
  refine (keepSlice_adds ho h.sorted hpos hsmall).mono (fun _ t ht => ?_) fun _ _ _ =>
    .of_forall fun _ _ => trivial
  have ho' : t.1.order? = some order :=
    (show t.1.order? = s.1.order? from (congrArg Operator.order? ht.bare :)).trans ho
  have hstage : t.1.stage = s.1.stage := (congrArg Operator.stage ht.bare :)
  refine Gives.pure_iff.mpr ⟨hstage ▸ h.stage, ht.sorted, ⟨ho', hbounds⟩, ?_⟩
  rcases ht.adds with hne | ⟨run, hrun⟩
  · exact .inl hne
  · exact h.unspilled.imp (hrun.spillCount ▸ ·) fun hs =>
      ⟨hs.1.adds hrun, fun h => by cases h⟩

/-- The policy is asked, and if it wants to have something spilled but nothing is there, or does not
want to, its answer holds from then on. -/
theorem Watched.of_kept {chunk : Chunk} {slices : List (Nat × Nat)}
    (h : Watched opened others v (.kept order chunk slices) s) :
    Gives (advance (.kept order chunk slices))
      (Watched opened others (verdict v (.kept order chunk slices) s)) (fun _ _ => True) s := by
  simp only [advance, Gives.bind_iff, Gives.rescue_layer_iff]
  have hjudged : Watched opened others (verdict v (.kept order chunk slices) s)
      (.staging order chunk slices) s := by
    refine ⟨h.stage, h.sorted, h.fits,
      (Decidable.em (s.1.monitor.spillCount = 0)).symm.imp id fun hzero => ?_⟩
    obtain ⟨hu, -⟩ := h.unspilled.resolve_left (not_not.mpr hzero)
    refine ⟨hu.onward ⟨rfl, rfl, rfl, rfl, rfl, rfl, rfl⟩ rfl hu.books hu.early ?_, fun _ => ?_⟩
    · cases slices with
      | nil => exact hu.joined
      | cons => trivial
    · exact s.1.monitor.shouldSpill_affords hzero _
  exact (relieve_eases h.sorted).mono (fun _ t ht => Gives.pure_iff.mpr (hjudged.eased ht))
    fun _ _ _ => .of_forall fun _ _ => trivial

/-- Every step keeps the invariant. -/
theorem advance_watched (h : Watched opened others v m s) :
    Gives (advance m) (Watched opened others (verdict v m s)) (fun _ _ => True) s := by
  cases m with
  | waiting => exact h.of_waiting
  | came => exact h.of_came
  | admitted => exact h.of_admitted
  | staging order chunk slices =>
    cases slices with
    | nil => exact h.of_staged
    | cons => exact h.of_staging
  | holding => exact h.of_holding
  | kept => exact h.of_kept
  | ended => exact Gives.pure_iff.mpr h

/-- An event that was pulled ahead waits. -/
theorem Watched.awaits {e : Event} (h : Watched opened others v .waiting s) (ha : Alike s.1 t.1)
    (hledger : t.2.ledger = s.2.ledger) (hstage : t.1.stage = s.1.stage) (hsorted : t.1.Sorted)
    (hcharges : s.1.pendingCharges ++ s.1.input.charges = e.charges ++ t.1.input.charges) :
    Watched opened others v .waiting ({ t.1 with pending? := some e }, t.2) := by
  have ha' : Alike s.1 { t.1 with pending? := some e } :=
    ⟨ha.resident, ha.spilled, ha.tracker, ha.options, ha.spillCount, ha.totalRows, ha.maxAllocation⟩
  refine ⟨hstage ▸ h.stage, hsorted, trivial, h.unspilled.imp (ha.spillCount ▸ ·) fun hs => ?_⟩
  obtain ⟨hu, hv⟩ := hs
  refine ⟨hu.onward ha' (congrArg (fun l : Ledger => l.forest.bounds s.1.tracker) hledger) ?_ ?_
    trivial, fun _ => (hv rfl).congr ha' (congrArg (fun l : Ledger => l.current s.1.tracker) hledger)⟩
  · obtain ⟨taken, htaken, hbooks⟩ := hu.books
    refine ⟨taken, htaken, ?_⟩
    rw [holding, ← List.append_assoc s.1.pendingCharges, hcharges, List.append_assoc] at hbooks
    show Accounts _ t.2.ledger _
    rw [hledger]
    exact hbooks
  · have hearly := hu.early
    rw [hcharges] at hearly
    exact hearly

/-- Learning the schema pulls one event ahead. -/
theorem prime_watched (h : Watched opened others v .waiting s) (hp : s.1.pending? = none) :
    Gives prime (fun _ => Watched opened others v .waiting) (fun _ _ => True) s := by
  refine gives_prime ((gives_nextEvent_iff hp).mp ((nextEvent_brings s).mono
    (fun e t ht => ?_) fun _ _ _ => trivial))
  obtain ⟨op, w⟩ := t
  obtain ⟨hledger, -, input, rfl, hcharges, -⟩ := ht
  have ha : Alike s.1 { s.1 with pending? := none, input } := ⟨rfl, rfl, rfl, rfl, rfl, rfl, rfl⟩
  cases e with
  | notYet => trivial
  | endOfInput | stop =>
    exact h.awaits (t := ({ s.1 with pending? := none, input }, w)) ha hledger rfl h.sorted hcharges
  | batch chunk =>
    refine (orderFor_settles _ _).mono (fun order t ht => ?_) fun _ _ _ =>
      .of_forall fun _ _ => trivial
    obtain ⟨hledger', -, hunordered, ho, hbefore⟩ := ht
    have ht : Alike { s.1 with pending? := none, input } t.1 := .of_unordered hunordered
    have hinput : t.1.input = input := (congrArg Operator.input hunordered :)
    refine h.awaits (t := t) ?_ (hledger'.trans hledger) (congrArg Operator.stage hunordered :)
      (h.sorted.settle ht.resident ho hbefore) (hinput ▸ hcharges)
    exact ⟨ht.resident, ht.spilled, ht.tracker, ht.options, ht.spillCount, ht.totalRows,
      ht.maxAllocation⟩

theorem buildSchema_watched (h : Watched opened others v .waiting s) :
    Ensures buildSchema (fun r t => ∀ schema?, r = .ok schema? → Watched opened others v .waiting t)
      s := by
  refine ensures_buildSchema (fun _ _ _ hr => by cases hr) (fun _ _ _ _ => h) fun _ _ hp => ?_
  exact (prime_watched h hp).mono (fun _ _ ht _ _ => ht) fun _ _ _ =>
    .of_forall fun _ _ _ hr => by cases hr

/-- Neither of the stages before the end holds anything. -/
theorem enter_watched (h : Watched opened others v .waiting s) :
    Ensures (enter .ingesting) (fun _ => Watched opened others v .waiting) s := by
  have hbegin : Watched opened others v .waiting ({ s.1 with stage := .ingesting }, s.2) := by
    refine ⟨.inr rfl, h.sorted, trivial, h.unspilled.imp id fun hs => ?_⟩
    obtain ⟨hu, hv⟩ := hs
    refine ⟨?_, fun _ => (hv rfl).congr ⟨rfl, rfl, rfl, rfl, rfl, rfl, rfl⟩ rfl⟩
    exact hu.onward ⟨rfl, rfl, rfl, rfl, rfl, rfl, rfl⟩ rfl hu.books hu.early trivial
  exact (enter_early h.stage).mono fun _ _ ht => ht ▸ hbegin

/-- Others may use memory, as long as they spare the operator's tracker. -/
theorem call_watched {c : Call} (h : Watched opened others v .waiting s)
    (hc : c.SparesTracker s.1.tracker) :
    Watched opened others v .waiting (Session.perform ⟨s.1, s.2, []⟩ c).2.state := by
  -- a call that changes nothing but the input's pressure and what the trackers of others show
  have hcall : ∀ {t : Operator × Workspace}, Alike s.1 t.1 → t.1.stage = s.1.stage →
      t.1.order? = s.1.order? → t.1.pending? = s.1.pending? → t.1.input.script = s.1.input.script →
      t.2.ledger.forest.bounds s.1.tracker = s.2.ledger.forest.bounds s.1.tracker →
      t.2.ledger.current s.1.tracker = s.2.ledger.current s.1.tracker →
      (∀ b R, b.tracker = s.1.tracker → Accounts b s.2.ledger R → Accounts b t.2.ledger R) →
      Watched opened others v .waiting t := by
    intro t ha hstage horder hpending hscript hbounds hcurrent hbooks
    have hsorted : t.1.Sorted := by
      intro g hg
      rw [ha.resident] at hg
      rw [horder]
      exact h.sorted g hg
    refine ⟨hstage ▸ h.stage, hsorted, trivial, h.unspilled.imp (ha.spillCount ▸ ·) fun hs => ?_⟩
    obtain ⟨hu, hv⟩ := hs
    refine ⟨hu.onward ha hbounds ?_ ?_ trivial, fun _ => (hv rfl).congr ha hcurrent⟩
    · obtain ⟨taken, htaken, hs⟩ := hu.books
      refine ⟨taken, htaken, ?_⟩
      rw [pendingCharges, hpending, Input.charges, hscript]
      exact hbooks _ _ rfl hs
    · rw [pendingCharges, hpending, Input.charges, hscript]
      exact hu.early
  have hsame : Alike s.1 s.1 := ⟨rfl, rfl, rfl, rfl, rfl, rfl, rfl⟩
  cases c with
  | cancel => exact hcall hsame rfl rfl rfl rfl rfl rfl fun _ _ _ hb => hb
  | pressure =>
    exact hcall ⟨rfl, rfl, rfl, rfl, rfl, rfl, rfl⟩ rfl rfl rfl rfl rfl rfl fun _ _ _ hb => hb
  | disk f => exact hcall hsame rfl rfl rfl rfl rfl rfl fun _ _ _ hb => hb
  | memory f =>
    exact hcall hsame rfl rfl rfl rfl (hc.2 _) (hc.1 _).2.2 fun b R hb hs => hs.onForest (hb ▸ hc.1)
  | _ => exact absurd hc id

/-- An operator that was just made has no rows, and nothing is on its tracker. -/
theorem create_watched {name stem : String} {options : SortOptions} {makeOrder : OrderMaker}
    {script : List Pull} {pressure : Bool} {fragment : Fragment} {ledger : Ledger} {disk : Disk}
    (hs : Operator.create name options makeOrder { script, pressure } stem fragment ledger disk =
      .ok s)
    (hledger : ledger.Balanced (script.flatMap Pull.charges ++ others))
    (htracker : fragment.tracker < ledger.forest.trackers.size) :
    Watched ledger.charges.size others none .waiting s := by
  obtain ⟨-, v, -, hop, hw⟩ := create_ok hs
  obtain ⟨op, w⟩ := s
  obtain rfl : op = _ := hop
  obtain rfl : w = _ := hw
  refine ⟨.inl rfl, fun g hg => absurd hg (Array.not_mem_empty g), trivial, .inr ⟨?_, fun _ => rfl⟩⟩
  have hbooks := Accounts.addChild hledger name options.maxAllocation fragment.tracker
  have hbounds : (ledger.addChild name options.maxAllocation fragment.tracker).2.forest.bounds
      ledger.forest.trackers.size =
        some (options.maxAllocation, ledger.forest.path fragment.tracker) := by
    simp [Ledger.addChild, Forest.addChild, Forest.bounds, Forest.get?]
  refine ⟨rfl, rfl, rfl, ⟨_, fun hm => ?_, hbounds⟩, ⟨[], (fun c hc => by cases hc), hbooks⟩,
    fun c hc => ?_, trivial⟩
  · exact Nat.lt_irrefl _ (hledger.lt_size_of_mem_path htracker hm)
  · exact hledger.lt_size (List.mem_append_left _ hc)

/-- The invariant holds throughout. -/
theorem Judged.watched {first : Operator × Workspace} (hj : Judged first v m s)
    (h : Watched opened others none .waiting first) : Watched opened others v m s := by
  induction hj with
  | start => exact h
  | learn _ ht ih =>
    have hstep := buildSchema_watched ih
    unfold Ensures at hstep
    rw [ht] at hstep
    exact hstep _ rfl
  | call _ hc ih => exact call_watched ih hc
  | enter _ ht ih =>
    have hstep := enter_watched ih
    unfold Ensures at hstep
    rwa [ht] at hstep
  | advance _ ht ih =>
    have hstep := advance_watched ih
    unfold Gives Ensures at hstep
    rwa [ht] at hstep

end Operator

end SpillSort
