import SpillSort.Proofs.Heedless
import SpillSort.Proofs.Moments
import SpillSort.Proofs.Turns

/-!
# Sorts that heed no journal

Two sorts that are the same but for their journals answer every call the same, and stay the same but
for their journals.

* `Operator.ingest_agree` also says that taking in does not depend on how many events it is ready
  for, as long as there are fewer.
* `Operator.next_heedless` and `Operator.buildSchema_heedless` are about single pulls, and
  `Session.run_akin` is about any calls.
-/

namespace SpillSort

open Workspace

/-! ## The operator -/

namespace Operator

theorem enter_heedless (stage : Stage) : Heedless (enter stage) :=
  .bind .modifyGet_layer fun before => before.drop_heedless.lift_layer

theorem note_heedless (n : Operator → Notice) : Heedless (note n) :=
  .bind .get_layer fun op => (Workspace.note_heedless (n op)).lift_layer

theorem releaseGroups_heedless : Heedless releaseGroups := by
  unfold releaseGroups
  refine .bind .modifyGet_layer fun held => ?_
  refine .bind (Workspace.dropAll_heedless _).lift_layer fun _ => ?_
  refine .bind (SortedGroup.dropAll_heedless _).lift_layer fun _ => ?_
  refine .bind (SortedGroup.dropAll_heedless _).lift_layer fun _ => ?_
  refine .bind .get_layer fun op => ?_
  split
  · exact enter_heedless _
  · exact enter_heedless _
  · exact .pure

theorem fail_heedless (e : Failure) : Heedless (fail e) := by
  unfold fail
  refine .bind .get_layer fun op => ?_
  refine .bind (Workspace.note_heedless _).lift_layer fun _ => ?_
  refine .bind (.lift_layer (.of_journal fun _ journal => ⟨rfl, journal, rfl⟩)) fun _ => ?_
  refine .bind releaseGroups_heedless fun _ => ?_
  refine .bind (enter_heedless _) fun _ => ?_
  exact .bind .modify_layer fun _ => .pure

theorem releaseOnCancel_heedless : Heedless releaseOnCancel := by
  unfold releaseOnCancel
  refine .bind .get_layer fun op => ?_
  split
  · exact .pure
  · refine .bind (note_heedless _) fun _ => ?_
    refine .bind releaseGroups_heedless fun _ => ?_
    exact .bind (enter_heedless _) fun _ => .modify_layer

theorem kill_heedless : Heedless kill :=
  .bind raiseCancel_heedless.lift_layer fun _ => releaseOnCancel_heedless

theorem close_heedless : Heedless close := by
  unfold close
  refine .bind .get_layer fun op => ?_
  refine .bind (.lift_layer (.of_journal fun _ journal => ⟨rfl, journal, rfl⟩)) fun _ => ?_
  refine .bind releaseGroups_heedless fun _ => ?_
  refine .bind .get_layer fun op => ?_
  split
  · exact .pure
  · exact enter_heedless _

/-! ### Taking in -/

theorem pull_heedless : Work.Heedless pull := by
  unfold pull
  refine .bind .modifyGet_layer fun p => ?_
  refine .bind (.lift_layer (onDisk_heedless _)) fun _ => ?_
  extract_lets rest
  have hrest : Work.Heedless (rest ⟨⟩) := by
    simp only [rest]
    split
    · exact .pure
    · exact .throw
  split
  · exact .bind (.lift_layer raiseCancel_heedless) fun _ => hrest
  · exact hrest

theorem orderFor_heedless (schema : Schema) : Work.Heedless (orderFor schema) := by
  unfold orderFor
  refine .bind .get_layer fun op => ?_
  split
  · extract_lets rest
    have hrest : Work.Heedless (rest ⟨⟩) := .pure
    split
    · exact .bind .throw fun _ => hrest
    · exact hrest
  · refine .modifyGet_bind fun op => ?_
    refine .bind .except fun order => ?_
    refine .bind (.lift (note_heedless _)) fun _ => ?_
    exact .bind .modify_layer fun _ => .pure

theorem spill_heedless (reason : SpillReason) : Work.Heedless (spill reason) := by
  unfold spill
  refine .bind .get_layer fun op => ?_
  split
  · exact .pure
  · refine .bind .modifyGet_layer fun split => ?_
    split
    split
    · exact .bind (.lift (note_heedless _)) fun _ => .modify_layer
    · refine .bind .get_layer fun op => ?_
      refine .getThe_bind (fun _ _ => rfl) fun w => ?_
      refine .bind (.lift_layer (Workspace.note_heedless _)) fun _ => ?_
      refine .bind (mergeAndSpill_heedless ..).inOperator fun outcome? => ?_
      split
      · exact .modify_layer
      · exact .modify_layer

theorem relieveInput_heedless : Work.Heedless relieveInput := by
  unfold relieveInput
  refine .bind .modifyGet_layer fun spillNow => ?_
  refine .bind (.lift (note_heedless _)) fun _ => ?_
  split
  · exact spill_heedless _
  · exact .pure

theorem trySelection_heedless (rows : Nat) : Heedless (trySelection rows) :=
  .bind .get_layer fun _ => (withLedger_heedless _).lift_layer

theorem retrySelection_heedless (rows : Nat) (waits : List Nat) :
    Work.Heedless (retrySelection rows waits) := by
  induction waits with
  | nil => exact .throw
  | cons wait waits ih =>
    unfold retrySelection
    refine .bind (.lift (trySelection_heedless rows)) fun selection => ?_
    split
    · exact .pure
    · split
      · exact .throw
      · exact .bind (.lift (note_heedless _)) fun _ => ih

theorem allocateSelection_heedless (rows : Nat) : Work.Heedless (allocateSelection rows) := by
  unfold allocateSelection
  refine .bind (.lift (trySelection_heedless rows)) fun selection => ?_
  split
  · exact .pure
  · refine .bind (.lift (note_heedless _)) fun _ => ?_
    exact .bind (spill_heedless _) fun _ => retrySelection_heedless ..

theorem snapshot_heedless : Heedless snapshot :=
  .bind .get_layer fun _ => .getThe_bind (fun _ _ => rfl) fun _ => .pure

theorem keepSlice_heedless (order : RowOrder) (chunk : Chunk) :
    Work.Heedless (keepSlice order chunk) := by
  unfold keepSlice
  extract_lets dropChunk
  refine .bind (.rescue_layer (allocateSelection_heedless _) chunk.drop_heedless)
    fun selection => ?_
  refine .bind .get_layer fun op => ?_
  refine .bind (Work.Heedless.inOperator (.rescue (SortedRun.sort_heedless ..) ?_)) fun run => ?_
  · exact Heedless.bind (Workspace.dropAll_heedless _) fun _ => chunk.drop_heedless
  · refine .bind .modify_layer fun _ => ?_
    refine .bind (.lift_layer (count_heedless ..)) fun _ => ?_
    exact .bind .get_layer fun op => .lift_layer (count_heedless ..)

theorem relieve_heedless : Work.Heedless relieve := by
  unfold relieve
  refine .bind (.lift snapshot_heedless) fun shown => ?_
  refine .bind .get_layer fun op => ?_
  split
  · exact spill_heedless _
  · exact .pure

theorem stageSlices_heedless (order : RowOrder) (chunk : Chunk) (slices : List (Nat × Nat)) :
    Work.Heedless (stageSlices order chunk slices) := by
  induction slices with
  | nil => exact .pure
  | cons slice slices ih =>
    unfold stageSlices stageSlice
    refine .bind (.lift_layer (withLedger_heedless _)) fun slice => ?_
    exact .bind (.bind (keepSlice_heedless ..) fun _ => relieve_heedless) fun _ => ih

/-- What is done with a batch once its order is known. -/
theorem stageBatch_heedless (order : RowOrder) (chunk : Chunk) : Work.Heedless (do
    if chunk.length = 0 then (Workspace.onLedger chunk.drop : Action Unit)
    else do
      let tracker := (← get).tracker
      let chunk ← (Workspace.withLedger (chunk.transfer tracker) : Action Chunk)
      Work.rescue (stageSlices order chunk (slices chunk.length)) (Workspace.onLedger chunk.drop)
      (Workspace.onLedger chunk.drop : Action Unit) : OperatorWork Unit) := by
  split
  · exact .lift_layer chunk.drop_heedless
  · refine .bind .get_layer fun op => ?_
    refine .bind (.lift_layer (withLedger_heedless _)) fun chunk => ?_
    refine .bind (.rescue_layer (stageSlices_heedless ..) chunk.drop_heedless) fun _ => ?_
    exact .lift_layer chunk.drop_heedless

theorem addBatch_heedless (chunk : Chunk) : Work.Heedless (addBatch chunk) :=
  .bind (.rescue_layer (orderFor_heedless _) chunk.drop_heedless) fun order =>
    stageBatch_heedless order chunk

theorem nextEvent_heedless : Work.Heedless nextEvent := by
  unfold nextEvent
  refine .bind .modifyGet_layer fun pending? => ?_
  split
  · exact .pure
  · exact pull_heedless

/-- How many events may come after one only matters if it brings a batch. -/
theorem stageEvent_agree {e : Event} {n k : Nat} {s t : Operator × Workspace} (hst : Akin s t)
    (h : e.batch?.isSome → ∀ {s' t' : Operator × Workspace}, Akin s' t' →
      s'.1.events ≤ s.1.events → Agree Akin (ingest n).run (ingest k).run s' t') :
    Agree Akin (stageEvent n e).run (stageEvent k e).run s t := by
  cases e with
  | batch chunk =>
    exact ((addBatch_heedless chunk).agree hst).work_bind_of (addBatch_events chunk)
      (fun _ _ _ hst hle => h rfl hst hle) fun _ _ _ h _ => h
  | endOfInput => exact .pure hst
  | stop => exact .pure hst
  | notYet => exact .pure hst

/-- It does not matter how many events may be taken in if that is more than there are. -/
theorem ingest_agree {n k : Nat} {s t : Operator × Workspace} (hst : Akin s t)
    (hn : s.1.events < n) (hk : s.1.events < k) :
    Agree Akin (ingest n).run (ingest k).run s t := by
  induction n generalizing k s t with
  | zero => exact absurd hn (Nat.not_lt_zero _)
  | succ n ih =>
    obtain ⟨k, rfl⟩ := Nat.exists_eq_succ_of_ne_zero (Nat.ne_zero_of_lt hk)
    rw [ingest_succ, ingest_succ]
    refine ((Work.Heedless.lift_layer cancelled_heedless).agree hst).work_bind_of
      (Q := fun _ u => u.1 = s.1) (E := fun _ _ => True) rfl (fun raised s₁ t₁ hst hs₁ => ?_)
      fun _ _ _ h _ => h
    cases raised with
    | true => exact .pure hst
    | false =>
      refine (nextEvent_heedless.agree hst).work_bind_of nextEvent_fewer
        (fun e s₂ t₂ hst hfewer => ?_) fun _ _ _ h _ => h
      -- an event that brings a batch leaves fewer events than the rest of either run is ready for
      have hevent : ∀ {s₃ t₃ : Operator × Workspace}, Akin s₃ t₃ → s₃.1.events ≤ s₂.1.events →
          Agree Akin (stageEvent n e).run (stageEvent k e).run s₃ t₃ := by
        intro s₃ t₃ hst hle
        refine stageEvent_agree hst fun hbatch s₄ t₄ hst hle' => ?_
        have hless : s₂.1.events < s.1.events := hs₁ ▸ hfewer hbatch
        exact ih hst (by omega) (by omega)
      refine ((Work.Heedless.modifyGet_layer).agree hst).work_bind_of
        (Q := fun _ u => u.1.events ≤ s₂.1.events) (E := fun _ _ => True) (le_refl s₂.1.events)
        (fun pressure s₃ t₃ hst hle => ?_) fun _ _ _ h _ => h
      cases pressure with
      | false => exact hevent hst hle
      | true =>
        have hrelieved := (Work.Heedless.rescue_layer relieveInput_heedless
          (Workspace.dropAll_heedless e.charges)).agree hst
        refine hrelieved.work_bind_of (Q := fun _ u => u.1.events ≤ s₃.1.events)
          (E := fun _ _ => True) (Gives.rescue_layer_iff.mpr ?_)
          (fun _ _ _ hst hle' => hevent hst (hle'.trans hle)) fun _ _ _ h _ => h
        exact relieveInput_events.mono (fun _ _ h => h) fun _ _ _ => .of_forall fun _ _ => trivial

/-! ### Handing out -/

theorem mergeStreams_heedless (order : RowOrder) (groups : List SortedGroup) :
    Work.Heedless (mergeStreams order groups) := by
  unfold mergeStreams
  refine .bind .get_layer fun op => ?_
  refine .getThe_bind (fun _ _ => rfl) fun w => ?_
  refine .bind (.lift_layer (Workspace.note_heedless _)) fun _ => ?_
  refine .bind (Merger.ofGroups_heedless ..).inOperator fun merger => ?_
  exact .lift (enter_heedless _)

theorem finalize_heedless : Work.Heedless finalize := by
  unfold finalize
  refine .bind .get_layer fun op => ?_
  split
  · exact .lift (enter_heedless _)
  split
  · exact .throw
  · refine .bind .modify_layer fun _ => ?_
    extract_lets groups
    split
    · refine .bind (MemoryMerge.build_heedless ..).inOperator fun attempt => ?_
      split
      · exact .bind (.lift (note_heedless _)) fun _ => .lift (enter_heedless _)
      · exact .bind (.lift (note_heedless _)) fun _ => mergeStreams_heedless ..
    · exact mergeStreams_heedless ..

theorem output_heedless : Work.Heedless output := by
  unfold output
  refine .bind .get_layer fun op => ?_
  split
  · refine .bind (.lift_layer (MemoryMerge.nextWindow_heedless ..)) fun served => ?_
    exact .bind .modify_layer fun _ => .pure
  · refine .bind (.lift_layer ((Merger.nextChunk_heedless _).run.run_layer _)) fun served => ?_
    refine .bind .modify_layer fun _ => ?_
    refine .bind .except fun chunk? => ?_
    split
    · exact .pure
    · exact .bind (.lift_layer (onLedger_heedless _)) fun _ => .pure
  · exact .pure
  · exact .throw

theorem serve_heedless : Work.Heedless serve := by
  unfold serve
  refine .bind output_heedless fun output? => ?_
  split
  · exact .lift .modifyGet_layer
  · refine .bind .get_layer fun op => ?_
    extract_lets rest
    have hrest : Work.Heedless (rest ⟨⟩) := .bind (.lift (enter_heedless _)) fun _ => .pure
    split
    · exact hrest
    · exact .bind (.lift (note_heedless _)) fun _ => hrest

/-- What is done once the input said whether the sort goes on. -/
theorem settle_heedless (goesOn : Bool) : Work.Heedless (if goesOn then do
      finalize
      pure true
    else do
      releaseGroups
      enter .done
      pure false : OperatorWork Bool) := by
  split
  · exact finalize_heedless.bind fun _ => .pure
  · refine .bind (.lift releaseGroups_heedless) fun _ => ?_
    exact .bind (.lift (enter_heedless _)) fun _ => .pure

theorem takeIn_heedless : Work.Heedless takeIn := by
  unfold takeIn
  have htake : Work.Heedless (do
      enter .ingesting
      let op ← get
      if ← ingest (op.input.script.length + 2) then do
        finalize
        pure true
      else do
        releaseGroups
        enter .done
        pure false : OperatorWork Bool) := by
    refine .bind (.lift (enter_heedless _)) fun _ => .get_layer_bind fun {s t} hst => ?_
    have hevents : s.1.events < s.1.input.script.length + 2 := by
      unfold events
      split <;> omega
    exact (ingest_agree hst hevents hevents).work_bind fun goesOn _ _ hst =>
      (settle_heedless goesOn).agree hst
  refine .bind .get_layer fun op => ?_
  split
  · exact htake
  · exact htake
  · exact .pure

theorem step_heedless : Work.Heedless step := by
  unfold step
  refine .bind takeIn_heedless fun goesOn => ?_
  split
  · exact serve_heedless
  · exact .pure

/-- What becomes of a pull that was made. -/
theorem answer_heedless (answer : Except Failure Poll) : Heedless (match answer with
    | .ok poll => pure (.ok poll)
    | .error e =>
      if e.isCancelled then do
        releaseOnCancel
        pure (.ok .stopped)
      else .error <$> fail e : OperatorAction (Except Failure Poll)) := by
  split
  · exact .pure
  · split
    · exact releaseOnCancel_heedless.bind fun _ => .pure
    · exact (fail_heedless _).map

theorem next_heedless : Heedless next := by
  unfold next
  refine .bind .get_layer fun op => ?_
  split
  · exact .pure
  · refine .bind cancelled_heedless.lift_layer fun raised => ?_
    split
    · exact releaseOnCancel_heedless.bind fun _ => .pure
    · exact step_heedless.run.bind answer_heedless

theorem prime_heedless : Work.Heedless prime := by
  unfold prime
  refine .bind pull_heedless fun e => ?_
  split
  · exact .throw
  · refine .bind (.rescue_layer (orderFor_heedless _) (Chunk.drop_heedless _)) fun order => ?_
    exact .bind .modify_layer fun _ => .pure
  · exact .bind .modify_layer fun _ => .pure

theorem buildSchema_heedless : Heedless buildSchema := by
  unfold buildSchema
  refine .bind .get_layer fun op => ?_
  split
  · exact .pure
  · split
    · exact .pure
    · refine prime_heedless.run.bind fun answer => ?_
      split
      · exact .pure
      · exact (fail_heedless _).map

end Operator

/-! ## Sessions -/

namespace Session

instance : Journaled Session where
  Akin s t := Akin s.state t.state ∧ t.held = s.held

variable {s t : Session}

theorem act_agree {α : Type} {x : OperatorAction α} {y : OperatorAction α}
    (h : Agree Akin x y s.state t.state) (hheld : t.held = s.held) :
    (t.act y).1 = (s.act x).1 ∧ Akin (s.act x).2 (t.act y).2 :=
  ⟨h.1, h.2, hheld⟩

theorem act_akin {α : Type} {x : OperatorAction α} (hx : Heedless x) (hst : Akin s t) :
    (t.act x).1 = (s.act x).1 ∧ Akin (s.act x).2 (t.act x).2 :=
  act_agree (hx.agree hst.1) hst.2

/-- What the consumer does with an answer. -/
theorem next_agree (h : Agree Akin Operator.next Operator.next s.state t.state)
    (hheld : t.held = s.held) (keep : Bool) :
    (t.next keep).1 = (s.next keep).1 ∧ Akin (s.next keep).2 (t.next keep).2 := by
  obtain ⟨hanswer, hst⟩ := act_agree h hheld
  unfold Session.next
  generalize s.act Operator.next = a at *
  generalize t.act Operator.next = b at *
  obtain ⟨p, s⟩ := a
  obtain ⟨q, t⟩ := b
  obtain rfl : q = p := hanswer
  dsimp only
  split
  · exact ⟨rfl, hst⟩
  · next o _ =>
    split
    · exact ⟨rfl, hst.1, congrArg (o :: ·) hst.2⟩
    · exact ⟨rfl, (act_akin o.drop_heedless.lift_layer hst).2⟩

theorem next_akin (hst : Akin s t) (keep : Bool) :
    (t.next keep).1 = (s.next keep).1 ∧ Akin (s.next keep).2 (t.next keep).2 :=
  next_agree (Operator.next_heedless.agree hst.1) hst.2 keep

theorem pulls_akin (hst : Akin s t) (count : Nat) (found : List (Except Failure Poll)) :
    (t.pulls count found).1 = (s.pulls count found).1 ∧
      Akin (s.pulls count found).2 (t.pulls count found).2 := by
  induction count generalizing s t found with
  | zero => exact ⟨rfl, hst⟩
  | succ count ih =>
    obtain ⟨hanswer, hnext⟩ := next_akin hst false
    rw [pulls_succ, pulls_succ, hanswer]
    split
    · exact ih hnext _
    · exact ⟨rfl, hnext⟩

theorem drain_akin (hst : Akin s t) :
    t.drain.1 = s.drain.1 ∧ Akin s.drain.2 t.drain.2 := by
  have hrows : t.rowsLeft = s.rowsLeft := by
    unfold rowsLeft
    rw [show t.operator = s.operator from hst.1.1]
  unfold drain
  rw [hrows]
  exact pulls_akin hst _ _

theorem perform_akin (hst : Akin s t) (c : Call) :
    (t.perform c).1 = (s.perform c).1 ∧ Akin (s.perform c).2 (t.perform c).2 := by
  cases c with
  | buildSchema =>
    obtain ⟨hanswer, hst⟩ := act_akin Operator.buildSchema_heedless hst
    exact ⟨congrArg Reply.schema hanswer, hst⟩
  | next keep =>
    obtain ⟨hanswer, hst⟩ := next_akin hst keep
    exact ⟨congrArg Reply.poll hanswer, hst⟩
  | drain =>
    obtain ⟨hanswer, hst⟩ := drain_akin hst
    exact ⟨congrArg Reply.polls hanswer, hst⟩
  | letGo =>
    have hlet : Heedless (s.held.forM fun o => o.drop : Action Unit) := Output.forM_drop_heedless _
    rw [perform_letGo, perform_letGo, hst.2]
    exact ⟨rfl, (act_akin (s := { s with held := [] }) (t := { t with held := [] }) hlet.lift_layer
      ⟨hst.1, rfl⟩).2⟩
  | kill => exact ⟨rfl, (act_akin Operator.kill_heedless hst).2⟩
  | close => exact ⟨rfl, (act_akin Operator.close_heedless hst).2⟩
  | cancel => exact ⟨rfl, (act_akin raiseCancel_heedless.lift_layer hst).2⟩
  | pressure =>
    have hpress : Heedless (modify fun op =>
        { op with input := { op.input with pressure := true } } : OperatorAction PUnit) :=
      .modify_layer
    exact ⟨rfl, (act_akin hpress hst).2⟩
  | memory f => exact ⟨rfl, (act_akin (onLedger_heedless (·.onForest f)).lift_layer hst).2⟩
  | disk f => exact ⟨rfl, (act_akin (onDisk_heedless f).lift_layer hst).2⟩

theorem run_akin (hst : Akin s t) (cs : List Call) :
    (t.run cs).1 = (s.run cs).1 ∧ Akin (s.run cs).2 (t.run cs).2 := by
  induction cs generalizing s t with
  | nil => exact ⟨rfl, hst⟩
  | cons c cs ih =>
    obtain ⟨hreply, hst⟩ := perform_akin hst c
    obtain ⟨hreplies, hst⟩ := ih hst
    rw [run_cons, run_cons, hreply, hreplies]
    exact ⟨rfl, hst⟩

end Session

end SpillSort
