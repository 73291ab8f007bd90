import SpillSort.Proofs.Effects

/-!
# Rules for the steps of an operator

There is one rule for each step of an operator. It says which states the step can lead to, and
everything known of such a step is drawn from its rule. Where a step makes a note, the rule leaves open
what the journal says then.

* `gives_pull`, `gives_nextEvent` and `gives_orderFor` are about a batch on its way in.
* `gives_spill`, `gives_relieve` and `gives_relieveInput` are about memory: a spill is skipped, or it
  merges the older half of the groups.
* `Granted` and `Refused` are the two ends of a request for a selection, and
  `gives_allocateSelection` puts the spill between two requests. `gives_keepSlice` goes on from there.
* `gives_addBatch` and `gives_ingest_succ` are one batch and one round of taking in.
* `ensures_enter`, `gives_mergeStreams` and `gives_finalize` lead to a final merge, `gives_output` and
  `gives_serve` hand it out; `gives_takeIn` and `gives_step` put all of that together.
* `gives_prime`, `ensures_buildSchema` and `ensures_next` are about the calls that may fail or be
  cancelled.
-/

namespace SpillSort

/-- The workspace when a pull is over. -/
def Pull.after (p : Pull) (w : Workspace) : Workspace :=
  { w with
    disk := p.onDisk w.disk
    cancel := if p.cancels then { raised := true } else w.cancel }

/-- What a pull does besides handing on an event, step by step. -/
theorem Pull.after_moves {r : Workspace → Workspace → Prop} [Workspace.Lenient r] {w : Workspace}
    {p : Pull} (hdisk : r w { w with disk := p.onDisk w.disk }) : r w (p.after w) := by
  unfold Pull.after
  cases p.cancels with
  | true => exact trans_of r hdisk (Workspace.Lenient.raise _)
  | false => exact hdisk

namespace Operator

variable {s t u : Operator × Workspace} {E : Failure → Operator × Workspace → Prop}

/-! ## Events and orders -/

section Events

variable {P : Event → Operator × Workspace → Prop}

/-- What a pull hands on of what its input said. -/
def handOn (outcome : Except Failure Event) : OperatorWork Event :=
  match outcome with
  | .ok e => pure e
  | .error e => throw e

theorem pull_eq : pull = (do
    let p ← modifyGet fun op => (op.input.next.1, { op with input := op.input.next.2 })
    (Workspace.onDisk p.onDisk : Action Unit)
    if p.cancels then (Workspace.raiseCancel : Action Unit)
    handOn p.outcome) :=
  rfl

theorem gives_handOn_iff {outcome : Except Failure Event} :
    Gives (handOn outcome) P E s ↔
      (∀ e, outcome = .ok e → P e s) ∧ ∀ e, outcome = .error e → E e s := by
  cases outcome with
  | ok e => simp [handOn, Gives.pure_iff]
  | error e => simp [handOn, Gives.throw_iff]

/-- Pulling takes the next pull off the input and does what comes with it. -/
theorem gives_pull
    (hevent : ∀ e, s.1.input.next.1.outcome = .ok e →
      P e ({ s.1 with input := s.1.input.next.2 }, s.1.input.next.1.after s.2))
    (hfailure : ∀ e, s.1.input.next.1.outcome = .error e →
      E e ({ s.1 with input := s.1.input.next.2 }, s.1.input.next.1.after s.2)) :
    Gives pull P E s := by
  rw [pull_eq]
  unfold Pull.after at hevent hfailure
  simp only [Gives.bind_iff, Gives.modifyGet_layer_iff, Gives.lift_layer_iff, Workspace.onDisk,
    Ensures.modify_iff]
  split
  · next hcancels =>
    simp only [hcancels, if_true] at hevent hfailure
    simp only [Gives.bind_iff, Gives.lift_layer_iff, Workspace.raiseCancel, Ensures.modify_iff]
    exact gives_handOn_iff.mpr ⟨hevent, hfailure⟩
  · next hquiet =>
    simp only [hquiet] at hevent hfailure
    exact gives_handOn_iff.mpr ⟨hevent, hfailure⟩

/-- An event that waits comes first, and nothing waits any more. -/
theorem gives_nextEvent
    (hwaiting : ∀ e, s.1.pending? = some e → P e ({ s.1 with pending? := none }, s.2))
    (hpull : s.1.pending? = none → Gives pull P E ({ s.1 with pending? := none }, s.2)) :
    Gives nextEvent P E s := by
  unfold nextEvent
  rw [Gives.bind_iff, Gives.modifyGet_layer_iff]
  split
  · next e he => exact Gives.pure_iff.mpr (hwaiting e he)
  · next hnone => exact hpull hnone

end Events

/-- The order of the established schema is kept; before that one is made, or cannot be made. -/
theorem gives_orderFor {P : RowOrder → Operator × Workspace → Prop} {schema : Schema}
    (hkept : ∀ order, s.1.order? = some order → order.schema = schema → P order s)
    (hchanged : ∀ order, s.1.order? = some order → order.schema ≠ schema →
      E (.schemaChange (s!"external sort does not support schema changes: " ++
        s!"{order.schema.display} -> {schema.display}")) s)
    (hmade : ∀ order journal, s.1.order? = none →
      s.1.makeOrder schema s.1.options.keys = .ok order →
      P order ({ s.1 with order? := some order, ordersMade := s.1.ordersMade + 1 },
        { s.2 with journal }))
    (hunmade : ∀ e, s.1.order? = none → s.1.makeOrder schema s.1.options.keys = .error e →
      E e ({ s.1 with ordersMade := s.1.ordersMade + 1 }, s.2)) :
    Gives (orderFor schema) P E s := by
  unfold orderFor
  rw [Gives.bind_iff, Gives.get_layer_iff]
  split
  · next order ho =>
    split
    · next hne => exact Gives.bind_iff.mpr (Gives.throw_iff.mpr (hchanged order ho hne))
    · next heq => exact Gives.pure_iff.mpr (hkept order ho (Decidable.of_not_not heq))
  · next ho =>
    simp only [Gives.bind_iff, Gives.modifyGet_layer_iff, Gives.except_iff]
    split
    · next order hok =>
      simp only [note, Gives.lift_iff, Ensures.bind_iff, Ensures.get_layer_iff,
        Ensures.lift_layer_iff, Gives.modify_layer_iff, Gives.pure_iff, Workspace.note,
        Ensures.modify_iff]
      exact hmade order _ ho hok
    · next e herror => exact hunmade e ho herror

/-! ## Memory -/

section Memory

variable {P : Unit → Operator × Workspace → Prop}

/-- An operator without the older half of its groups, which are chosen for a spill. -/
def withoutChosen (op : Operator) : Operator :=
  { op with resident := (spillCandidates op.resident).2 }

/-- An operator behind a spill, with what came of the merge. -/
def spilledTo (op : Operator) (made? : Option SpillOutcome) : Operator :=
  match made? with
  | none => { op.withoutChosen with monitor := op.monitor.onSpillSkipped }
  | some made =>
    { op.withoutChosen with
      monitor := op.monitor.onSpilled made.releasedBytes made.retainedBytes
      spilled := op.spilled.push made.group }

/-- Without an order nothing is spilled, and without enough groups the spill is skipped. -/
theorem gives_spill {reason : SpillReason} (hunordered : s.1.order? = none → P ⟨⟩ s)
    (hskipped : ∀ order journal, s.1.order? = some order →
      (spillCandidates s.1.resident).1 = [] → P ⟨⟩ (s.1.spilledTo none, { s.2 with journal }))
    (hmerged : ∀ order journal, s.1.order? = some order → (spillCandidates s.1.resident).1 ≠ [] →
      Gives (mergeAndSpill order s.1.tracker (s.1.options.chunkRows order)
          (spillCandidates s.1.resident).1)
        (fun made? w => P ⟨⟩ (s.1.spilledTo made?, w))
        (fun e w => E e (s.1.withoutChosen, w)) { s.2 with journal }) :
    Gives (spill reason) P E s := by
  unfold spill
  rw [Gives.bind_iff, Gives.get_layer_iff]
  split
  · next ho => exact Gives.pure_iff.mpr (hunordered ho)
  next order ho =>
  simp only [Gives.bind_iff, Gives.modifyGet_layer_iff]
  split
  · next hempty =>
    simp only [Gives.bind_iff, note, Gives.lift_iff, Ensures.bind_iff, Ensures.get_layer_iff,
      Ensures.lift_layer_iff, Gives.modify_layer_iff, Workspace.note, Ensures.modify_iff]
    exact hskipped order _ ho (List.isEmpty_iff.mp hempty)
  · next hne =>
    simp only [Gives.bind_iff, Gives.get_layer_iff, Gives.lift_layer_iff, Ensures.getThe_iff,
      Gives.inOperator_iff, Workspace.note, Ensures.modify_iff]
    refine (hmerged order _ ho fun hnil => hne (List.isEmpty_iff.mpr hnil)).mono
      (fun made? w hw => ?_) fun _ _ hw => hw
    cases made? with
    | none => exact hw
    | some made => exact hw

/-- Memory is relieved by a spill, or not at all. -/
theorem gives_relieve (hspill : ∀ reason, Gives (spill reason) P E s) (hnot : P ⟨⟩ s) :
    Gives relieve P E s := by
  unfold relieve snapshot
  simp only [Gives.bind_iff, Gives.lift_iff, Ensures.bind_iff, Ensures.get_layer_iff,
    Ensures.lift_layer_iff, Ensures.getThe_iff, Ensures.pure_iff, Gives.get_layer_iff]
  split
  · exact hspill _
  · exact Gives.pure_iff.mpr hnot

/-- So it is for the input, with a note, if the monitor is in favour. -/
theorem gives_relieveInput
    (hspill : ∀ journal, s.1.monitor.onOutOfMemory.1 = true → Gives (spill .outOfMemory) P E
      ({ s.1 with monitor := s.1.monitor.onOutOfMemory.2 }, { s.2 with journal }))
    (hnot : ∀ journal,
      P ⟨⟩ ({ s.1 with monitor := s.1.monitor.onOutOfMemory.2 }, { s.2 with journal })) :
    Gives relieveInput P E s := by
  unfold relieveInput
  simp only [Gives.bind_iff, Gives.modifyGet_layer_iff, note, Gives.lift_iff, Ensures.bind_iff,
    Ensures.get_layer_iff, Ensures.lift_layer_iff, Workspace.note, Ensures.modify_iff]
  split
  · next hspills => exact hspill _ hspills
  · exact Gives.pure_iff.mpr (hnot _)

end Memory

/-! ## Selections -/

section Selections

variable {rows : Nat} {v : RowSelection} {e : Failure}

/-- The selection is what a request for it leads to, with notes in between. -/
def Granted (rows : Nat) (v : RowSelection) (s t : Operator × Workspace) : Prop :=
  ∃ journal, Stateful.outcome (trySelection rows) (s.1, { s.2 with journal }) = (.ok v, t)

/-- All requests were refused, which was noted and nothing else. -/
def Refused (rows : Nat) (e : Failure) (s t : Operator × Workspace) : Prop :=
  ∃ (cause : Memory.LimitExceeded) (journal : Array Notice),
    (RowSelection.allocate rows s.1.tracker s.2.ledger).1 = .error cause ∧
    t = (s.1, { s.2 with journal }) ∧ e = .outOfMemory
      s!"unable to allocate sv2 for {rows} rows after repeated attempts: {cause.message}"

/-- What a request that is met leads to holds of a selection that was granted. -/
theorem Granted.holds {Q : RowSelection → Operator × Workspace → Prop} (h : Granted rows v s t)
    (hQ : ∀ journal, Ensures (trySelection rows) (fun r u => ∀ v, r = .ok v → Q v u)
      (s.1, { s.2 with journal })) : Q v t := by
  obtain ⟨journal, hout⟩ := h
  have ht := hQ journal
  rw [Ensures, hout] at ht
  exact ht v rfl

theorem Granted.noted {journal : Array Notice} (h : Granted rows v (s.1, { s.2 with journal }) t) :
    Granted rows v s t :=
  h

theorem Refused.noted {journal : Array Notice} (h : Refused rows e (s.1, { s.2 with journal }) t) :
    Refused rows e s t :=
  h

/-- A request that is refused leaves everything as it was. -/
theorem trySelection_gives (rows : Nat) (s : Operator × Workspace) :
    Ensures (trySelection rows) (fun r t =>
      match r with
      | .ok v => Granted rows v s t
      | .error e => (RowSelection.allocate rows s.1.tracker s.2.ledger).1 = .error e ∧ t = s) s := by
  have hrefused : Ensures (trySelection rows) (fun r t => ∀ e, r = .error e →
      (RowSelection.allocate rows s.1.tracker s.2.ledger).1 = .error e ∧ t = s) s := by
    unfold trySelection
    simp only [Ensures.bind_iff, Ensures.get_layer_iff, Ensures.lift_layer_iff,
      Workspace.withLedger, Ensures.modifyGet_iff, RowSelection.allocate, Memory.Ledger.tryCharge]
    split
    · exact fun _ he => ⟨he, rfl⟩
    · exact fun _ he => by cases he
  unfold Ensures at hrefused ⊢
  generalize hout : Stateful.outcome (trySelection rows) s = r at hrefused ⊢
  obtain ⟨_ | v, t⟩ := r
  · exact hrefused _ rfl
  · exact ⟨s.2.journal, hout⟩

/-- Trying again comes to one of the two ends, however often the request is made. -/
theorem retrySelection_gives (rows : Nat) {waits : List Nat} (hwaits : waits ≠ []) :
    Gives (retrySelection rows waits) (fun v t => Granted rows v s t)
      (fun e t => Refused rows e s t) s := by
  induction waits generalizing s with
  | nil => exact absurd rfl hwaits
  | cons wait waits ih =>
    unfold retrySelection
    rw [Gives.bind_iff, Gives.lift_iff]
    refine (trySelection_gives rows s).mono fun r t ht => ?_
    cases r with
    | ok v => exact Gives.pure_iff.mpr ht
    | error cause =>
      obtain ⟨hrefused, rfl⟩ := ht
      dsimp only
      split
      · exact Gives.throw_iff.mpr ⟨cause, t.2.journal, hrefused, rfl, rfl⟩
      · next hmore =>
        simp only [Gives.bind_iff, note, Gives.lift_iff, Ensures.bind_iff, Ensures.get_layer_iff,
          Ensures.lift_layer_iff, Workspace.note, Ensures.modify_iff]
        exact (ih fun hnil => hmore (List.isEmpty_iff.mpr hnil)).mono (fun _ _ hu => hu.noted)
          fun _ _ hu => hu.noted

/-- A selection is granted where it is asked for first, or behind a spill. -/
theorem gives_allocateSelection {Q : Operator × Workspace → Prop} (hs : Q s)
    (hspill : ∀ journal, Gives (spill .outOfMemory) (fun _ => Q) E (s.1, { s.2 with journal })) :
    Gives (allocateSelection rows) (fun v t => ∃ u, Q u ∧ Granted rows v u t)
      (fun e t => E e t ∨ ∃ u, Q u ∧ Refused rows e u t) s := by
  unfold allocateSelection
  rw [Gives.bind_iff, Gives.lift_iff]
  refine (trySelection_gives rows s).mono fun r t ht => ?_
  cases r with
  | ok v => exact Gives.pure_iff.mpr ⟨s, hs, ht⟩
  | error cause =>
    obtain ⟨-, rfl⟩ := ht
    simp only [Gives.bind_iff, note, Gives.lift_iff, Ensures.bind_iff, Ensures.get_layer_iff,
      Ensures.lift_layer_iff, Workspace.note, Ensures.modify_iff]
    refine (hspill _).mono (fun _ u hu => ?_) fun _ _ he => .inl he
    exact (retrySelection_gives rows (by decide)).mono (fun _ _ ht => ⟨u, hu, ht⟩)
      fun _ _ ht => .inr ⟨u, hu, ht⟩

end Selections

/-! ## Slices -/

/-- An operator with one more group in memory. -/
def keeping (op : Operator) (run : SortedRun) : Operator :=
  { op with
    resident := op.resident.push (.resident run)
    monitor := op.monitor.onStaged run.length run.bytes }

/-- What counts a group that is kept: its rows, and the bytes in memory from then on. -/
def countKept (op : Operator) (run : SortedRun) : Action Unit := do
  Workspace.count [] "SortRows" (·.add (Int64.ofNat run.length))
  Workspace.count [] "PeakResidentBytes" (·.raise (Int64.ofInt (op.keeping run).monitor.residentBytes))

/-- A slice is sorted through a selection and kept, and what is held for it is let go of if either of
the two fails. -/
theorem gives_keepSlice {order : RowOrder} {chunk : Chunk} {P : Unit → Operator × Workspace → Prop}
    {Q : RowSelection → Operator × Workspace → Prop} {F : Failure → Operator × Workspace → Prop}
    (hselect : Gives (allocateSelection chunk.length) Q F s)
    (hsort : ∀ v t, Q v t → Gives (SortedRun.sort order chunk v t.1.tracker)
      (fun run w => Ensures (countKept t.1 run) (fun _ w => P ⟨⟩ (t.1.keeping run, w)) w)
      (fun e w => Ensures (Workspace.dropAll v.charge?.toList)
        (fun _ w => Ensures (Workspace.onLedger chunk.drop) (fun _ w => E e (t.1, w)) w) w) t.2)
    (hunselected : ∀ e t, F e t →
      Ensures (Workspace.onLedger chunk.drop) (fun _ w => E e (t.1, w)) t.2) :
    Gives (keepSlice order chunk) P E s := by
  unfold keepSlice
  extract_lets dropChunk
  simp only [Gives.bind_iff, Gives.rescue_layer_iff]
  refine hselect.mono (fun v t ht => ?_) hunselected
  simp only [Gives.get_layer_iff, Gives.inOperator_iff, Gives.rescue_iff, Gives.modify_layer_iff,
    Gives.lift_layer_iff]
  exact hsort v t ht

/-! ## Taking in -/

section Taking

/-- A batch needs an order. Then its charge moves to the operator, its slices are staged, and what is
held for it is let go of in the end. -/
theorem gives_addBatch {chunk : Chunk} {P : Unit → Operator × Workspace → Prop}
    (h : Gives (orderFor chunk.batch.schema) (fun order t =>
      (chunk.length = 0 → Ensures (Workspace.onLedger chunk.drop) (fun _ w => P ⟨⟩ (t.1, w)) t.2) ∧
      (chunk.length ≠ 0 → Ensures (Workspace.withLedger (chunk.transfer t.1.tracker)) (fun moved w =>
        Gives (stageSlices order moved (slices moved.length))
          (fun _ u => Ensures (Workspace.onLedger moved.drop) (fun _ x => P ⟨⟩ (u.1, x)) u.2)
          (fun e u => Ensures (Workspace.onLedger moved.drop) (fun _ x => E e (u.1, x)) u.2)
          (t.1, w)) t.2))
      (fun e t => Ensures (Workspace.onLedger chunk.drop) (fun _ w => E e (t.1, w)) t.2) s) :
    Gives (addBatch chunk) P E s := by
  unfold addBatch
  simp only [Gives.bind_iff, Gives.rescue_layer_iff]
  refine h.mono (fun order t ht => ?_) fun _ _ ht => ht
  split
  · next hzero => exact Gives.lift_layer_iff.mpr (ht.1 hzero)
  · next hrows =>
    simp only [Gives.bind_iff, Gives.get_layer_iff, Gives.lift_layer_iff, Gives.rescue_layer_iff]
    exact ht.2 hrows

/-- What taking in makes of an event, once memory was seen to. -/
def stageEvent (count : Nat) : Event → OperatorWork Bool
  | .batch chunk => do
    addBatch chunk
    ingest count
  | .endOfInput => pure true
  | .stop => pure false
  | .notYet => throw notYetFailure

/-- One round of taking in. -/
theorem ingest_succ (count : Nat) : ingest (count + 1) = (do
    if ← (Workspace.cancelled : Action Bool) then throw .cancelled
    let e ← nextEvent
    let pressure ← modifyGet fun op =>
      (op.input.takePressure.1, { op with input := op.input.takePressure.2 })
    if pressure then Work.rescue relieveInput (Workspace.dropAll e.charges)
    stageEvent count e) :=
  rfl

/-- In one round the flag is looked at, the next event comes, and before it is staged memory is
relieved if the input is short of it. -/
theorem gives_ingest_succ {count : Nat} {P : Bool → Operator × Workspace → Prop}
    {Q R : Event → Operator × Workspace → Prop}
    (hlook : Ensures Workspace.cancelled (fun raised w =>
      (raised → E .cancelled (s.1, w)) ∧ (raised = false → Gives nextEvent Q E (s.1, w))) s.2)
    (hquiet : ∀ e t, Q e t → R e ({ t.1 with input := t.1.input.takePressure.2 }, t.2))
    (hshort : ∀ e t, Q e t → Gives relieveInput (fun _ => R e)
      (fun f u => Ensures (Workspace.dropAll e.charges) (fun _ w => E f (u.1, w)) u.2)
      ({ t.1 with input := t.1.input.takePressure.2 }, t.2))
    (hevent : ∀ e t, R e t → Gives (stageEvent count e) P E t) :
    Gives (ingest (count + 1)) P E s := by
  rw [ingest_succ]
  simp only [Gives.bind_iff, Gives.lift_layer_iff]
  refine hlook.mono fun raised w hw => ?_
  cases raised with
  | true => exact Gives.bind_iff.mpr (Gives.throw_iff.mpr (hw.1 rfl))
  | false =>
    simp only [Bool.false_eq_true, if_false, Gives.bind_iff, Gives.modifyGet_layer_iff]
    refine (hw.2 rfl).mono (fun e t ht => ?_) fun _ _ ht => ht
    split
    · rw [Gives.bind_iff, Gives.rescue_layer_iff]
      exact (hshort e t ht).mono (fun _ u hu => hevent e u hu) fun _ _ hu => hu
    · exact hevent e _ (hquiet e t ht)

end Taking

/-! ## Merging and handing out -/

/-- A stage is entered, and the one before it lets go of what it holds. -/
theorem ensures_enter {Q : Unit → Operator × Workspace → Prop} {stage : Stage}
    (h : Ensures s.1.stage.drop (fun _ w => Q ⟨⟩ ({ s.1 with stage }, w)) s.2) :
    Ensures (enter stage) Q s := by
  unfold enter
  simp only [Ensures.bind_iff, Ensures.modifyGet_layer_iff, Ensures.lift_layer_iff]
  exact h

theorem enter_moves {r : Workspace → Workspace → Prop} [Workspace.Lenient r] (stage : Stage) :
    Ensures (enter stage) (fun _ t => t.1 = { s.1 with stage } ∧ r s.2 t.2) s :=
  ensures_enter (s.1.stage.drop_moves.mono fun _ _ hw => ⟨rfl, hw⟩)

/-- Until the input has ended, a stage holds nothing. -/
theorem enter_early {stage : Stage} (h : s.1.stage = .uninitialized ∨ s.1.stage = .ingesting) :
    Ensures (enter stage) (fun _ t => t = ({ s.1 with stage }, s.2)) s := by
  refine ensures_enter ?_
  rcases h with hs | hs
  · rw [hs]
    exact Ensures.pure_iff.mpr rfl
  · rw [hs]
    exact Ensures.pure_iff.mpr rfl

section Outputs

variable {P : Unit → Operator × Workspace → Prop}

/-- Groups that are merged as streams are merged from then on, with a note. -/
theorem gives_mergeStreams {order : RowOrder} {groups : List SortedGroup}
    (h : ∀ journal, Gives (Merger.ofGroups order s.1.tracker groups)
      (fun merger w => Ensures (enter (.finalMerge merger (s.1.options.chunkRows order)))
        (fun _ => P ⟨⟩) (s.1, w))
      (fun e w => E e (s.1, w)) { s.2 with journal }) :
    Gives (mergeStreams order groups) P E s := by
  unfold mergeStreams
  simp only [Gives.bind_iff, Gives.get_layer_iff, Gives.lift_layer_iff, Ensures.getThe_iff,
    Gives.inOperator_iff, Workspace.note, Ensures.modify_iff]
  exact (h _).mono (fun _ _ hw => Gives.lift_iff.mpr hw) fun _ _ hw => hw

/-- Without rows the sort is done. Otherwise its groups are merged: in memory if none of them was
spilled and nothing else speaks against it, and as streams if not. -/
theorem gives_finalize
    (hnothing : s.1.rowsProcessed = 0 → Ensures (enter .done) (fun _ => P ⟨⟩) s)
    (hunordered : s.1.rowsProcessed ≠ 0 → s.1.order? = none →
      E (.unsupported "rows were staged without an established schema") s)
    (hmemory : ∀ order, s.1.rowsProcessed ≠ 0 → s.1.order? = some order → s.1.spilled = #[] →
      Gives (MemoryMerge.build order s.1.tracker s.1.options.maxInMemory
          (s.1.spilled.toList ++ s.1.resident.toList))
        (fun attempt w => ∀ journal,
          match attempt with
          | .merged m => Ensures (enter (.finalMemory m)) (fun _ => P ⟨⟩)
              ({ s.1 with resident := #[], spilled := #[] }, { w with journal })
          | .refused _ => Gives (mergeStreams order (s.1.spilled.toList ++ s.1.resident.toList)) P E
              ({ s.1 with resident := #[], spilled := #[] }, { w with journal }))
        (fun e w => E e ({ s.1 with resident := #[], spilled := #[] }, w)) s.2)
    (hstreams : ∀ order, s.1.rowsProcessed ≠ 0 → s.1.order? = some order → s.1.spilled ≠ #[] →
      Gives (mergeStreams order (s.1.spilled.toList ++ s.1.resident.toList)) P E
        ({ s.1 with resident := #[], spilled := #[] }, s.2)) :
    Gives finalize P E s := by
  unfold finalize
  rw [Gives.bind_iff, Gives.get_layer_iff]
  split
  · next hzero => exact Gives.lift_iff.mpr (hnothing hzero)
  next hrows =>
  split
  · next ho => exact Gives.throw_iff.mpr (hunordered hrows ho)
  next order ho =>
  simp only [Gives.bind_iff, Gives.modify_layer_iff]
  split
  · next hempty =>
    simp only [Gives.bind_iff, Gives.inOperator_iff]
    refine (hmemory order hrows ho (Array.isEmpty_iff.mp hempty)).mono (fun attempt w hw => ?_)
      fun _ _ hw => hw
    cases attempt with
    | merged m =>
      simp only [Gives.bind_iff, note, Gives.lift_iff, Ensures.bind_iff, Ensures.get_layer_iff,
        Ensures.lift_layer_iff, Workspace.note, Ensures.modify_iff]
      exact hw _
    | refused reason =>
      simp only [Gives.bind_iff, note, Gives.lift_iff, Ensures.bind_iff, Ensures.get_layer_iff,
        Ensures.lift_layer_iff, Workspace.note, Ensures.modify_iff]
      exact hw _
  · next hspilled =>
    exact hstreams order hrows ho fun hnil => hspilled (Array.isEmpty_iff.mpr hnil)

/-- What is done once the input said whether it ended or stopped. -/
theorem gives_takeIn {P : Bool → Operator × Workspace → Prop} (hstage : s.1.stage = .uninitialized)
    (h : Gives (ingest (s.1.input.script.length + 2)) (fun ended t =>
        if ended then Gives finalize (fun _ => P true) E t
        else Ensures releaseGroups (fun _ => Ensures (enter .done) (fun _ => P false)) t) E
      ({ s.1 with stage := .ingesting }, s.2)) :
    Gives takeIn P E s := by
  unfold takeIn
  simp only [Gives.bind_iff, Gives.get_layer_iff, hstage]
  rw [Gives.lift_iff]
  refine (enter_early (.inl hstage)).mono fun _ t ht => ?_
  subst ht
  refine h.mono (fun ended t ht => ?_) fun _ _ ht => ht
  split at ht
  · next hended =>
    rw [if_pos hended, Gives.bind_iff]
    exact ht.mono (fun _ _ hu => Gives.pure_iff.mpr hu) fun _ _ hu => hu
  · next hstopped =>
    rw [if_neg hstopped]
    simp only [Gives.bind_iff, Gives.lift_iff, Gives.pure_iff]
    exact ht

/-- A sort that has taken in its input goes on. -/
theorem gives_takeIn_later {P : Bool → Operator × Workspace → Prop}
    (hstage : s.1.stage ≠ .uninitialized ∧ s.1.stage ≠ .ingesting) (h : P true s) :
    Gives takeIn P E s := by
  unfold takeIn
  rw [Gives.bind_iff, Gives.get_layer_iff]
  split
  · exact absurd ‹_› hstage.1
  · exact absurd ‹_› hstage.2
  · exact Gives.pure_iff.mpr h

/-- The next output is a window of a merge in memory or a chunk of the streams, as long as there is
one. -/
theorem gives_output {P : Option Output → Operator × Workspace → Prop}
    (hmemory : ∀ m, s.1.stage = .finalMemory m → Ensures (m.nextWindow s.1.options.outputRows)
      (fun r w => P (r.1.map .window) ({ s.1 with stage := .finalMemory r.2 }, w)) s.2)
    (hstreams : ∀ m rows, s.1.stage = .finalMerge m rows → Gives (Merger.nextChunk rows)
      (fun chunk? t =>
        match chunk? with
        | none => P none ({ s.1 with stage := .finalMerge t.1 rows }, t.2)
        | some chunk => Ensures (Workspace.onLedger chunk.drop) (fun _ w =>
            P (some (.rows chunk.batch)) ({ s.1 with stage := .finalMerge t.1 rows }, w)) t.2)
      (fun e t => E e ({ s.1 with stage := .finalMerge t.1 rows }, t.2)) (m, s.2))
    (hdone : s.1.stage = .done → P none s)
    (helse : s.1.stage = .uninitialized ∨ s.1.stage = .ingesting ∨ s.1.stage = .failed →
      E (.unsupported s!"external sort pulled in state {s.1.stage.label}") s) :
    Gives output P E s := by
  unfold output
  rw [Gives.bind_iff, Gives.get_layer_iff]
  cases hs : s.1.stage with
  | finalMemory m =>
    simp only [Gives.bind_iff, Gives.lift_layer_iff, Gives.modify_layer_iff, Gives.pure_iff]
    exact hmemory m hs
  | finalMerge m rows =>
    simp only [Gives.bind_iff, Gives.lift_layer_iff, Ensures.run_layer_iff, Gives.run_iff,
      Gives.modify_layer_iff, Gives.except_iff]
    refine (hstreams m rows hs).mono (fun chunk? t ht => ?_) fun _ _ ht => ht
    cases chunk? with
    | none => exact Gives.pure_iff.mpr ht
    | some chunk =>
      simp only [Gives.bind_iff, Gives.lift_layer_iff, Gives.pure_iff]
      exact ht
  | done => exact Gives.pure_iff.mpr (hdone hs)
  | uninitialized => exact Gives.throw_iff.mpr (hs ▸ helse (.inl hs))
  | ingesting => exact Gives.throw_iff.mpr (hs ▸ helse (.inr (.inl hs)))
  | failed => exact Gives.throw_iff.mpr (hs ▸ helse (.inr (.inr hs)))

/-- An output is handed out and counted; without one the sort is done, which is noted once. -/
theorem gives_serve {P : Poll → Operator × Workspace → Prop}
    (h : Gives output (fun o? t =>
      match o? with
      | some o => P (if t.1.schemaEmitted then .batch o else .newSchema o)
          ({ t.1 with rowsReturned := t.1.rowsReturned + o.length, schemaEmitted := true }, t.2)
      | none => ∀ journal, (t.1.stage = .done → journal = t.2.journal) →
          Ensures (enter .done) (fun _ => P .done) (t.1, { t.2 with journal })) E s) :
    Gives serve P E s := by
  unfold serve
  rw [Gives.bind_iff]
  refine h.mono (fun o? t ht => ?_) fun _ _ ht => ht
  cases o? with
  | some o =>
    unfold emit
    simp only [Gives.lift_iff, Ensures.modifyGet_layer_iff]
    exact ht
  | none =>
    rw [Gives.bind_iff, Gives.get_layer_iff]
    split
    · simp only [Gives.bind_iff, Gives.lift_iff, Gives.pure_iff]
      exact ht t.2.journal fun _ => rfl
    · next hstage =>
      simp only [Gives.bind_iff, note, Gives.lift_iff, Ensures.bind_iff, Ensures.get_layer_iff,
        Ensures.lift_layer_iff, Workspace.note, Ensures.modify_iff, Gives.pure_iff]
      exact ht _ fun hdone => absurd hdone hstage

theorem gives_step {P : Poll → Operator × Workspace → Prop}
    (h : Gives takeIn (fun goesOn t => if goesOn then Gives serve P E t else P .stopped t) E s) :
    Gives step P E s := by
  unfold step
  rw [Gives.bind_iff]
  refine h.mono (fun goesOn t ht => ?_) fun _ _ ht => ht
  split at ht
  · next hgoes => rwa [if_pos hgoes]
  · next hstops => rwa [if_neg hstops, Gives.pure_iff]

end Outputs

/-! ## Calls -/

section Calls

/-- The event that is pulled waits from then on; a batch needs an order, and is let go of without. -/
theorem gives_prime {P : Option Schema → Operator × Workspace → Prop}
    (h : Gives pull (fun e t =>
      match e with
      | .notYet => E notYetFailure t
      | .batch chunk => Gives (orderFor chunk.batch.schema)
          (fun order u => P (some order.schema) ({ u.1 with pending? := some (.batch chunk) }, u.2))
          (fun e u => Ensures (Workspace.onLedger chunk.drop) (fun _ w => E e (u.1, w)) u.2) t
      | e => P none ({ t.1 with pending? := some e }, t.2)) E s) :
    Gives prime P E s := by
  unfold prime
  rw [Gives.bind_iff]
  refine h.mono (fun e t ht => ?_) fun _ _ ht => ht
  cases e with
  | notYet => exact Gives.throw_iff.mpr ht
  | endOfInput => exact ht
  | stop => exact ht
  | batch chunk =>
    simp only [Gives.bind_iff, Gives.rescue_layer_iff, Gives.modify_layer_iff, Gives.pure_iff]
    exact ht

/-- The schema is learnt only if the sort did not fail and nothing is known of it yet. -/
theorem ensures_buildSchema {Q : Except Failure (Option Schema) → Operator × Workspace → Prop}
    (hfailed : ∀ e, s.1.failure? = some e → Q (.error e.replay) s)
    (hknown : s.1.failure? = none → s.1.order?.isSome ∨ s.1.pending?.isSome →
      Q (.ok (s.1.order?.map RowOrder.schema)) s)
    (hprime : s.1.failure? = none → s.1.order? = none → s.1.pending? = none →
      Gives prime (fun schema? => Q (.ok schema?))
        (fun e t => Ensures (fail e) (fun f => Q (.error f)) t) s) :
    Ensures buildSchema Q s := by
  unfold buildSchema
  rw [Ensures.bind_iff, Ensures.get_layer_iff]
  split
  · next e he => exact Ensures.pure_iff.mpr (hfailed e he)
  next hnone =>
  split
  · next hsome => exact Ensures.pure_iff.mpr (hknown hnone (Bool.or_eq_true_iff.mp hsome))
  · next hunknown =>
    simp only [Bool.or_eq_true, not_or, Option.not_isSome_iff_eq_none] at hunknown
    rw [Ensures.bind_iff, Gives.run_iff]
    refine (hprime hnone hunknown.1 hunknown.2).mono (fun _ _ ht => Ensures.pure_iff.mpr ht)
      fun e t ht => ?_
    show Ensures (Except.error <$> fail e) _ t
    rw [Ensures.map_iff]
    exact ht

/-- A sort that did not fail looks at the cancel flag before it makes a step, and a step that is
cancelled ends it as the flag does. -/
theorem ensures_next {Q : Except Failure Poll → Operator × Workspace → Prop}
    (hfailed : ∀ e, s.1.failure? = some e → Q (.error e.replay) s)
    (hlook : s.1.failure? = none → Ensures Workspace.cancelled (fun raised w =>
      if raised then Ensures releaseOnCancel (fun _ => Q (.ok .stopped)) (s.1, w)
      else Gives step (fun poll => Q (.ok poll)) (fun e t =>
        if e.isCancelled then Ensures releaseOnCancel (fun _ => Q (.ok .stopped)) t
        else Ensures (fail e) (fun f => Q (.error f)) t) (s.1, w)) s.2) :
    Ensures next Q s := by
  have hstopped : ∀ {t : Operator × Workspace},
      Ensures releaseOnCancel (fun _ => Q (.ok .stopped)) t → Ensures (do
        releaseOnCancel
        pure (.ok .stopped) : OperatorAction (Except Failure Poll)) Q t := by
    intro t ht
    rw [Ensures.bind_iff]
    exact ht.mono fun _ _ hu => Ensures.pure_iff.mpr hu
  unfold next
  rw [Ensures.bind_iff, Ensures.get_layer_iff]
  split
  · next e he => exact Ensures.pure_iff.mpr (hfailed e he)
  next hnone =>
  simp only [Ensures.bind_iff, Ensures.lift_layer_iff]
  refine (hlook hnone).mono fun raised w hw => ?_
  split at hw
  · next hraised =>
    rw [if_pos hraised]
    exact hstopped hw
  · next hlowered =>
    rw [if_neg hlowered, Ensures.bind_iff, Gives.run_iff]
    refine hw.mono (fun _ _ ht => Ensures.pure_iff.mpr ht) fun e t ht => ?_
    dsimp only
    split at ht
    · next hcancelled =>
      rw [if_pos hcancelled]
      exact hstopped ht
    · next hother =>
      rw [if_neg hother, Ensures.map_iff]
      exact ht

end Calls

end Operator

end SpillSort
