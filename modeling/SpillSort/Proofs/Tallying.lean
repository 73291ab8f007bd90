import SpillSort.Proofs.Deposits
import SpillSort.Proofs.Verdicts

/-!
# The tally of taking in

While an operator takes in its input, its counters agree with its groups: all of their rows are counted
as kept, and each group on disk has the file that was counted with it.

* `Operator.Counted` says so, and `Operator.spill_counted` and `Operator.keepSlice_counted` are the two
  steps that count.
* `Operator.keeping_carried` takes it from moment to moment.
-/

namespace SpillSort

open Memory Spill
open Workspace (Silent)

namespace Operator

variable {op : Operator} {w : Workspace} {s t : Operator × Workspace} {order : RowOrder}
  {base : Array ByteArray} {m : Moment} {files : List Deposit}

/-- The counters show the rows of all groups, and these files, one for each group on disk. -/
structure Booked (base : Array ByteArray) (files : List Deposit) (s : Operator × Workspace) :
    Prop where
  shows : s.2.Shows base { sorted := total (s.1.groups.map SortedGroup.rows), deposits := files }
  holds : List.Forall₂ Deposit.In files s.1.spilled.toList
  spillCount : s.1.monitor.spillCount = files.length

/-- The counters agree with the groups. -/
def Counted (base : Array ByteArray) (s : Operator × Workspace) : Prop :=
  ∃ files, Booked base files s

/-- What neither counts nor changes groups. -/
theorem Counted.onward (h : Counted base s) (hr : t.1.resident = s.1.resident)
    (hs : t.1.spilled = s.1.spilled) (hc : t.1.monitor.spillCount = s.1.monitor.spillCount)
    (hw : Silent s.2 t.2) : Counted base t := by
  obtain ⟨files, h⟩ := h
  refine ⟨files, ?_, ?_, hc.trans h.spillCount⟩
  · rw [groups_congr hr hs]
    exact h.shows.silent hw
  · rw [hs]
    exact h.holds

/-- So do changes of the workspace alone. -/
theorem Counted.workspace {v : Workspace} (h : Counted base (op, w)) (hw : Silent w v) :
    Counted base (op, v) :=
  h.onward rfl rfl rfl hw

/-! ## Spills -/

/-- The older half of the groups is replaced by one on disk, with the rows of all of them and a file
that was counted. -/
theorem Booked.spilled {made : SpillOutcome} {d : Deposit} {v : Workspace}
    (h : Booked base files (op, w)) (hs : op.Sorted)
    (hrows : made.group.rows = total ((spillCandidates op.resident).1.map SortedGroup.rows))
    (hd : d.In made.group)
    (hv : v.Shows base
      { sorted := total (op.groups.map SortedGroup.rows), deposits := files ++ [d] }) :
    Booked base (files ++ [d]) (op.spilledTo (some made), v) := by
  refine ⟨?_, ?_, ?_⟩
  · have htotal : total ((op.spilledTo (some made)).groups.map SortedGroup.rows) =
        total (op.groups.map SortedGroup.rows) := by
      rw [groups_spilledTo, hs.groups_eq, List.map_append, List.map_append, total_append,
        total_append, List.map_singleton, total_cons, total_nil, hrows]
      omega
    rw [htotal]
    exact hv
  · show List.Forall₂ Deposit.In (files ++ [d]) (op.spilled.push made.group).toList
    rw [Array.toList_push]
    exact List.rel_append h.holds (.cons hd .nil)
  · show op.monitor.spillCount + 1 = _
    rw [h.spillCount, List.length_append]
    rfl

theorem spill_counted (h : Counted base (op, w)) (hs : op.Sorted) (reason : SpillReason) :
    Gives (spill reason) (fun _ => Counted base) (fun _ _ => True) (op, w) := by
  refine gives_spill (fun _ => h) (fun _ journal _ hempty => ?_) fun order journal ho hne => ?_
  · show Counted base (op.spilledTo none, { w with journal })
    rw [hs.spilledTo_none hempty]
    exact h.onward rfl rfl rfl (Workspace.Modest.journal w journal)
  · obtain ⟨files, h⟩ := h
    have hshows := h.shows.silent (Workspace.Modest.journal w journal)
    have hown := (Owns.nothing { w with journal }).careless_charges
      ((spillCandidates op.resident).1.flatMap SortedGroup.charges)
    refine ((hs.mergeAndSpill_spec ho hne hown _ _).and (mergeAndSpill_deposits hshows
      (fun g hg => hs.unspilled g (hs.mem_of_chosen hg)) op.tracker _)).mono (fun made? x hx => ?_)
        fun _ _ _ => trivial
    obtain ⟨⟨made, R, rfl, hrows, -⟩, d, hd, hx⟩ := hx
    exact ⟨files ++ [d], h.spilled hs hrows hd hx⟩

theorem relieveInput_counted (h : Counted base (op, w)) (hs : op.Sorted) :
    Gives relieveInput (fun _ => Counted base) (fun _ _ => True) (op, w) := by
  have hnoted : ∀ journal, Counted base
      ({ op with monitor := op.monitor.onOutOfMemory.2 }, { w with journal }) := fun journal =>
    h.onward rfl rfl rfl (Workspace.Modest.journal w journal)
  exact gives_relieveInput (fun journal _ => spill_counted (hnoted journal) hs _) hnoted

theorem relieve_counted (h : Counted base (op, w)) (hs : op.Sorted) :
    Gives relieve (fun _ => Counted base) (fun _ _ => True) (op, w) :=
  gives_relieve (fun _ => spill_counted h hs _) h

/-! ## Keeping slices -/

theorem trySelection_counted (rows : Nat) (h : Counted base s) (journal : Array Notice) :
    Ensures (trySelection rows) (fun _ => Counted base) (s.1, { s.2 with journal }) :=
  h.onward rfl rfl rfl (trans_of Silent (Workspace.Modest.journal s.2 journal)
    (Workspace.withLedger_moves (RowSelection.allocate rows s.1.tracker)))

theorem allocateSelection_counted (rows : Nat) (h : Counted base (op, w)) (hs : op.Sorted) :
    Gives (allocateSelection rows) (fun _ => Counted base) (fun _ _ => True) (op, w) := by
  refine (gives_allocateSelection (Q := Counted base) (E := fun _ _ => True) h fun journal => ?_).mono
    (fun v t ht => ?_) fun _ _ _ => trivial
  · exact spill_counted (h.workspace (Workspace.Modest.journal w journal)) hs _
  · obtain ⟨u, hu, hgranted⟩ := ht
    exact hgranted.holds fun journal => (trySelection_counted rows hu journal).mono
      fun _ _ ht _ _ => ht

/-- One more group in memory, whose rows are counted. -/
theorem Booked.kept (h : Booked base files (op, w)) (run : SortedRun) :
    Ensures (countKept op run) (fun _ v => Booked base files (op.keeping run, v)) w := by
  have htotal : total ((op.keeping run).groups.map SortedGroup.rows) =
      total (op.groups.map SortedGroup.rows) + run.length := by
    rw [total_perm ((groups_keeping op run).map SortedGroup.rows), List.map_cons, total_cons,
      Nat.add_comm]
    rfl
  unfold countKept
  rw [Ensures.bind_iff]
  refine (h.shows.keep run.length).mono fun _ x hx => (hx.peak _).mono fun _ y hy => ?_
  refine ⟨?_, h.holds, h.spillCount⟩
  rw [htotal]
  exact hy

theorem keepSlice_counted {chunk : Chunk} (h : Counted base (op, w)) (hs : op.Sorted) :
    Gives (keepSlice order chunk) (fun _ => Counted base) (fun _ _ => True) (op, w) := by
  refine gives_keepSlice (allocateSelection_counted chunk.length h hs) (fun v t ht => ?_)
    fun _ _ _ => .of_forall fun _ _ => trivial
  refine Gives.mono (SortedRun.sort_tries (r := Silent) order chunk v t.1.tracker)
    (fun run x hx => ?_) fun _ _ _ => .of_forall fun _ _ => .of_forall fun _ _ => trivial
  obtain ⟨files, hbooked⟩ := ht.workspace hx
  exact (hbooked.kept run).mono fun _ y hy => ⟨files, hy⟩

/-! ## Events -/

/-- The input leaves the files alone. -/
def Quiet (op : Operator) : Prop := ∀ p ∈ op.input.script, LeavesFiles p.onDisk

theorem Quiet.next (hq : op.Quiet) : Quiet { op with pending? := none, input := op.input.next.2 } := by
  intro p hp
  unfold Quiet at hq
  unfold Input.next at hp
  split at hp
  · next hs => exact hq p (hs ▸ hp)
  · next hs => exact hq p (hs ▸ List.mem_cons_of_mem _ hp)

/-- An event comes in, and nothing is counted. -/
theorem nextEvent_silent (hq : s.1.Quiet) :
    Gives nextEvent (fun _ t => Silent s.2 t.2 ∧ t.1.Quiet ∧
      ∃ input, t.1 = { s.1 with pending? := none, input }) (fun _ _ => True) s := by
  obtain ⟨-, hcontents⟩ := Input.quiet_next hq s.2.disk
  refine gives_nextEvent (fun _ _ => ⟨refl_of Silent s.2, hq, s.1.input, rfl⟩) fun _ => ?_
  exact gives_pull (fun _ _ => ⟨Pull.after_moves ⟨rfl, rfl, hcontents⟩,
    Quiet.next hq, _, rfl⟩) fun _ _ => trivial

/-- Neither is anything when an order is looked for. -/
theorem orderFor_silent (schema : Schema) (s : Operator × Workspace) :
    Gives (orderFor schema) (fun _ t => Silent s.2 t.2) (fun _ _ => True) s :=
  gives_orderFor (fun _ _ _ => refl_of Silent s.2) (fun _ _ _ => trivial)
    (fun _ journal _ _ => Workspace.Modest.journal s.2 journal) fun _ _ _ => trivial

/-! ## From moment to moment -/

/-- What is kept up while an operator takes in its input. -/
structure Keeping (base : Array ByteArray) (m : Moment) (s : Operator × Workspace) : Prop where
  counted : Counted base s
  sorted : s.1.Sorted
  fits : m.Fits s.1
  quiet : s.1.Quiet

namespace Keeping

variable {n : Moment} {chunk slice : Chunk} {cuts : List (Nat × Nat)}

/-- Others than groups change. -/
theorem onward (h : Keeping base m s) (hr : t.1.resident = s.1.resident)
    (hs : t.1.spilled = s.1.spilled) (hc : t.1.monitor.spillCount = s.1.monitor.spillCount)
    (hw : Silent s.2 t.2) (hsorted : t.1.Sorted) (hn : n.Fits t.1) (hq : t.1.Quiet) :
    Keeping base n t :=
  ⟨h.counted.onward hr hs hc hw, hsorted, hn, hq⟩

/-- Nothing but the workspace changes, and nothing is counted. -/
theorem workspace {v : Workspace} (h : Keeping base m s) (hw : Silent s.2 v) (hn : n.Fits s.1) :
    Keeping base n (s.1, v) :=
  h.onward (t := (s.1, v)) rfl rfl rfl hw h.sorted hn h.quiet

/-- Groups may change, but not what an operator takes in. -/
theorem bare (h : Keeping base m s) (hb : t.1.bare = s.1.bare) (ht : Counted base t)
    (hsorted : t.1.Sorted) (hn : n.Fits s.1) : Keeping base n t := by
  have hinput : t.1.input = s.1.input := (congrArg Operator.input hb :)
  refine ⟨ht, hsorted, hn.congr (congrArg Operator.order? hb :), ?_⟩
  unfold Quiet
  rw [hinput]
  exact h.quiet

theorem of_waiting (h : Keeping base .waiting s) :
    Gives (advance .waiting) (Keeping base) (fun _ _ => True) s := by
  obtain ⟨op, w⟩ := s
  simp only [advance, Gives.bind_iff, Gives.lift_layer_iff]
  refine (Workspace.cancelled_moves (r := Silent)).mono fun b v hv => ?_
  split
  · rw [Gives.bind_iff, Gives.throw_iff]
    trivial
  simp only [Gives.bind_iff, Gives.modifyGet_layer_iff, Gives.pure_iff]
  refine (nextEvent_silent (s := (op, v)) h.quiet).mono (fun e t ht => ?_) fun _ _ _ => trivial
  obtain ⟨op', u⟩ := t
  obtain ⟨hu, hq, input, rfl⟩ := ht
  exact h.onward (t := ({ op with pending? := none, input := input.takePressure.2 }, u)) rfl rfl rfl
    (trans_of Silent hv hu) h.sorted trivial hq

theorem receive {e : Event} {pressure : Bool} (h : Keeping base (.came e pressure) s) :
    Gives (receive e) (Keeping base) (fun _ _ => True) s := by
  unfold Operator.receive
  cases e with
  | batch chunk => exact Gives.pure_iff.mpr (h.workspace (refl_of Silent s.2) trivial)
  | endOfInput => exact Gives.pure_iff.mpr (h.workspace (refl_of Silent s.2) trivial)
  | stop => exact Gives.pure_iff.mpr (h.workspace (refl_of Silent s.2) trivial)
  | notYet => exact Gives.throw_iff.mpr trivial

theorem of_came {e : Event} {pressure : Bool} (h : Keeping base (.came e pressure) s) :
    Gives (advance (.came e pressure)) (Keeping base) (fun _ _ => True) s := by
  rw [advance]
  split
  · simp only [Gives.bind_iff, Gives.rescue_layer_iff]
    refine ((relieveInput_counted h.counted h.sorted).and (relieveInput_eases h.sorted)).mono
      (fun _ t ht => ?_) fun _ _ _ => .of_forall fun _ _ => trivial
    exact (h.bare (n := .came e pressure) ht.2.bare ht.1 ht.2.sorted trivial).receive
  · exact h.receive

theorem of_admitted (h : Keeping base (.admitted chunk) s) :
    Gives (advance (.admitted chunk)) (Keeping base) (fun _ _ => True) s := by
  simp only [advance, Gives.bind_iff, Gives.rescue_layer_iff]
  refine ((orderFor_settles _ s).and (orderFor_silent _ s)).mono (fun order t ht => ?_)
    fun _ _ _ => .of_forall fun _ _ => trivial
  obtain ⟨⟨-, -, hunordered, ho, hbefore⟩, hsilent⟩ := ht
  have ha : Alike s.1 t.1 := .of_unordered hunordered
  have hinput : t.1.input = s.1.input := (congrArg Operator.input hunordered :)
  have hq : t.1.Quiet := by
    unfold Quiet
    rw [hinput]
    exact h.quiet
  have ht : Keeping base (.admitted chunk) t := h.onward ha.resident ha.spilled ha.spillCount hsilent
    (h.sorted.settle ha.resident ho hbefore) trivial hq
  split
  · simp only [Gives.bind_iff, Gives.lift_layer_iff, Gives.pure_iff]
    exact (chunk.drop_moves (r := Silent)).mono fun _ _ hv => ht.workspace hv trivial
  · simp only [Gives.bind_iff, Gives.get_layer_iff, Gives.lift_layer_iff, Gives.pure_iff]
    exact (Workspace.withLedger_moves (r := Silent) _).mono fun _ _ hv => ht.workspace hv ⟨ho, slices_bounds⟩

theorem of_staging (h : Keeping base (.staging order chunk cuts) s) :
    Gives (advance (.staging order chunk cuts)) (Keeping base) (fun _ _ => True) s := by
  obtain ⟨ho, hbounds⟩ := h.fits
  cases cuts with
  | nil =>
    simp only [advance, Gives.bind_iff, Gives.lift_layer_iff, Gives.pure_iff]
    exact (chunk.drop_moves (r := Silent)).mono fun _ _ hv => h.workspace hv trivial
  | cons cut cuts =>
    obtain ⟨offset, length⟩ := cut
    obtain ⟨hcut, hbounds⟩ := List.forall_mem_cons.mp hbounds
    simp only [advance, Gives.bind_iff, Gives.lift_layer_iff, Gives.pure_iff]
    have hslice : Ensures (Workspace.withLedger (chunk.slice offset length))
        (fun slice _ => slice.length = length) s.2 := rfl
    refine (hslice.and (Workspace.withLedger_moves (r := Silent) _)).mono fun slice v hv => ?_
    exact h.workspace hv.2 ⟨⟨ho, hbounds⟩, hv.1 ▸ hcut⟩

theorem of_holding (h : Keeping base (.holding order chunk slice cuts) s) :
    Gives (advance (.holding order chunk slice cuts)) (Keeping base) (fun _ _ => True) s := by
  obtain ⟨⟨ho, hbounds⟩, hpos, hsmall⟩ := h.fits
  simp only [advance, Gives.bind_iff, Gives.rescue_layer_iff, Gives.pure_iff]
  refine ((keepSlice_counted h.counted h.sorted).and (keepSlice_adds ho h.sorted hpos hsmall)).mono
    (fun _ t ht => ?_) fun _ _ _ => .of_forall fun _ _ => trivial
  exact h.bare ht.2.bare ht.1 ht.2.sorted ⟨ho, hbounds⟩

theorem of_kept (h : Keeping base (.kept order chunk cuts) s) :
    Gives (advance (.kept order chunk cuts)) (Keeping base) (fun _ _ => True) s := by
  simp only [advance, Gives.bind_iff, Gives.rescue_layer_iff, Gives.pure_iff]
  refine ((relieve_counted h.counted h.sorted).and (relieve_eases h.sorted)).mono
    (fun _ t ht => ?_) fun _ _ _ => .of_forall fun _ _ => trivial
  exact h.bare ht.2.bare ht.1 ht.2.sorted h.fits

end Keeping

/-- Every step keeps the counters right. -/
theorem keeping_carried (base : Array ByteArray) : Carried (Keeping base) := by
  intro m s h
  cases m with
  | waiting => exact h.of_waiting
  | came => exact h.of_came
  | admitted => exact h.of_admitted
  | staging => exact h.of_staging
  | holding => exact h.of_holding
  | kept => exact h.of_kept
  | ended => exact Gives.pure_iff.mpr h

end Operator

end SpillSort
