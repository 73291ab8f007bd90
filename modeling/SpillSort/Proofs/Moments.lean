import SpillSort.Proofs.Progress
import SpillSort.Proofs.StagingStates

/-!
# Moments of taking in

Taking in is cut into small steps, so that something can be said of every state on the way.

* A `Moment` is a point of taking in, and `Operator.advance` goes from one to the next.
* `Operator.Reached` are the states on the way. A schema may be learnt ahead of time, and groups may
  be spilled at any moment.
* `Operator.Carried` is a condition that goes on from each moment to the next, and
  `Operator.Carried.ingest` says that taking in, as it is, carries it on;
  `Operator.Carried.takeAll` is taking in all there is.
* `Operator.ingest_reached` is the case of the states on the way.
* `Operator.follow` goes a number of steps and checks a condition after each.
-/

namespace SpillSort

open Memory

/-! ## Moments -/

/-- Where an operator stands while it takes in its input. -/
inductive Moment where
  /-- Before the next event. -/
  | waiting
  /-- An event came in, and memory may have run short meanwhile. -/
  | came (e : Event) (pressure : Bool)
  /-- A chunk is about to be taken in. -/
  | admitted (chunk : Chunk)
  /-- A chunk is on the operator's tracker, and some of its slices are still to be kept. -/
  | staging (order : RowOrder) (chunk : Chunk) (slices : List (Nat × Nat))
  /-- One of them was cut out. -/
  | holding (order : RowOrder) (chunk slice : Chunk) (slices : List (Nat × Nat))
  /-- It is a group now, and the policy was not asked yet. -/
  | kept (order : RowOrder) (chunk : Chunk) (slices : List (Nat × Nat))
  /-- There are no more events to take in. -/
  | ended (goesOn : Bool)

/-- Whether the input ended. -/
def Moment.isOver : Moment → Bool
  | ended goesOn => goesOn
  | _ => false

namespace Operator

/-- What an event leads to. -/
def receive : Event → OperatorWork Moment
  | .batch chunk => pure (.admitted chunk)
  | .endOfInput => pure (.ended true)
  | .stop => pure (.ended false)
  | .notYet => throw notYetFailure

/-- Goes on to the next moment. -/
def advance : Moment → OperatorWork Moment
  | .waiting => do
    if ← (Workspace.cancelled : Action Bool) then throw .cancelled
    let e ← nextEvent
    let pressure ← modifyGet fun op =>
      let (pressure, input) := op.input.takePressure
      (pressure, { op with input })
    pure (.came e pressure)
  | .came e pressure => do
    if pressure then Work.rescue relieveInput (Workspace.dropAll e.charges)
    receive e
  | .admitted chunk => do
    let order ← Work.rescue (orderFor chunk.batch.schema) (Workspace.onLedger chunk.drop)
    if chunk.length = 0 then do
      (Workspace.onLedger chunk.drop : Action Unit)
      pure .waiting
    else do
      let tracker := (← get).tracker
      let chunk ← (Workspace.withLedger (chunk.transfer tracker) : Action Chunk)
      pure (.staging order chunk (slices chunk.length))
  | .staging _ chunk [] => do
    (Workspace.onLedger chunk.drop : Action Unit)
    pure .waiting
  | .staging order chunk ((offset, length) :: rest) => do
    let slice ← (Workspace.withLedger (chunk.slice offset length) : Action Chunk)
    pure (.holding order chunk slice rest)
  | .holding order chunk slice rest => do
    Work.rescue (keepSlice order slice) (Workspace.onLedger chunk.drop)
    pure (.kept order chunk rest)
  | .kept order chunk rest => do
    Work.rescue relieve (Workspace.onLedger chunk.drop)
    pure (.staging order chunk rest)
  | .ended goesOn => pure (.ended goesOn)

/-- The states of an operator on its way through the input, from one state on and as long as a
condition holds: it may learn the schema ahead of time, and memory may run short at any moment. -/
inductive Reached (allowed : Operator × Workspace → Prop) (first : Operator × Workspace) :
    Moment → Operator × Workspace → Prop where
  | start : Reached allowed first .waiting first
  | learn {s t : Operator × Workspace} {schema? : Option Schema} :
    Reached allowed first .waiting s → Stateful.outcome buildSchema s = (.ok schema?, t) →
    allowed t → Reached allowed first .waiting t
  | enter {s t : Operator × Workspace} :
    Reached allowed first .waiting s → Stateful.outcome (enter .ingesting) s = ((), t) →
    allowed t → Reached allowed first .waiting t
  | advance {m n : Moment} {s t : Operator × Workspace} :
    Reached allowed first m s → Stateful.outcome (advance m).run s = (.ok n, t) →
    allowed t → Reached allowed first n t
  | spill {m : Moment} {s t : Operator × Workspace} (reason : SpillReason)
    (journal : Array Notice) : Reached allowed first m s →
    Stateful.outcome (spill reason).run (s.1, { s.2 with journal }) = (.ok (), t) →
    allowed t → Reached allowed first m t

namespace Reached

variable {allowed : Operator × Workspace → Prop} {first s t : Operator × Workspace} {m : Moment}
  {order : RowOrder} {chunk : Chunk}

/-- If the condition holds of every state that could be reached, nothing is out of reach. -/
theorem of_all (h : Reached (fun _ => True) first m s)
    (hall : ∀ n t, Reached (fun _ => True) first n t → allowed t) : Reached allowed first m s := by
  induction h with
  | start => exact .start
  | learn hr ht _ ih => exact .learn ih ht (hall _ _ (.learn hr ht trivial))
  | enter hr ht _ ih => exact .enter ih ht (hall _ _ (.enter hr ht trivial))
  | advance hr ht _ ih => exact .advance ih ht (hall _ _ (.advance hr ht trivial))
  | spill reason journal hr ht _ ih =>
    exact .spill reason journal ih ht (hall _ _ (.spill reason journal hr ht trivial))

end Reached

/-! ## Events that are still to come -/

section Events

variable {s t : Operator × Workspace}

/-- What taking in does besides asking for the next event leaves the events alone. -/
theorem Stays.events_le (h : Stays s t) : t.1.events ≤ s.1.events := by
  have hlen := h.script.length_le
  unfold events
  rcases h.pending with hp | hp
  · rw [hp]
    omega
  · rw [hp]
    exact Nat.le_trans hlen (Nat.le_add_right _ _)

/-- An operator with any failures at all. -/
theorem meets_any (op : Operator) : op.Meets fun _ => True :=
  ⟨fun _ _ => trivial, fun _ _ _ _ => trivial, fun _ _ _ _ => trivial⟩

theorem relieveInput_events :
    Gives relieveInput (fun _ t => t.1.events ≤ s.1.events) (fun _ _ => True) s :=
  Gives.mono (relieveInput_stays (meets_any s.1)) (fun _ _ ht => ht.events_le) fun _ _ _ => trivial

theorem addBatch_events (chunk : Chunk) :
    Gives (addBatch chunk) (fun _ t => t.1.events ≤ s.1.events) (fun _ _ => True) s :=
  Gives.mono (addBatch_stays (meets_any s.1) chunk) (fun _ _ ht => ht.events_le)
    fun _ _ _ => trivial

/-- Once a batch came in, there is one event fewer to come. -/
theorem nextEvent_fewer :
    Gives nextEvent (fun e t => e.batch?.isSome → t.1.events < s.1.events) (fun _ _ => True)
      s := by
  refine gives_nextEvent (fun e hp _ => ?_) fun hp => ?_
  · simp [events, hp]
  · refine pull_gives.mono (fun e t ht hb => ?_) fun _ _ _ => trivial
    obtain ⟨hop, -, hout⟩ := ht
    rw [hop]
    show s.1.input.next.2.script.length + 0 < s.1.input.script.length + _
    rcases hs : s.1.input.script with _ | ⟨p, rest⟩
    · have hend : s.1.input.next.1.outcome = .ok .endOfInput := by rw [Input.next, hs]
      obtain rfl := Except.ok.inj (hend.symm.trans hout)
      cases hb
    · have hrest : s.1.input.next.2.script = rest := by rw [Input.next, hs]
      rw [hrest, List.length_cons]
      omega

end Events

/-! ## What goes on from moment to moment -/

/-- What holds at a moment goes on to the next. -/
def Carried (P : Moment → Operator × Workspace → Prop) : Prop :=
  ∀ m s, P m s → Gives (advance m) P (fun _ _ => True) s

namespace Carried

variable {P : Moment → Operator × Workspace → Prop} (hP : Carried P) {s : Operator × Workspace}
  {order : RowOrder} {chunk : Chunk}

include hP

/-- A slice is kept, and memory relieved. -/
theorem stageSlice {slice : Chunk} {slices : List (Nat × Nat)}
    (h : P (.holding order chunk slice slices) s) :
    Gives (stageSlice order slice) (fun _ => P (.staging order chunk slices)) (fun _ _ => True)
      s := by
  have hkeep := hP _ _ h
  simp only [Operator.advance, Gives.bind_iff, Gives.rescue_layer_iff, Gives.pure_iff] at hkeep
  unfold Operator.stageSlice
  rw [Gives.bind_iff]
  refine hkeep.mono (fun _ t ht => ?_) fun _ _ _ => trivial
  have hrelieve := hP _ _ ht
  simp only [Operator.advance, Gives.bind_iff, Gives.rescue_layer_iff, Gives.pure_iff] at hrelieve
  exact hrelieve.mono (fun _ _ hu => hu) fun _ _ _ => trivial

theorem stageSlices : ∀ {slices : List (Nat × Nat)} {s : Operator × Workspace},
    P (.staging order chunk slices) s →
    Gives (stageSlices order chunk slices) (fun _ => P (.staging order chunk []))
      (fun _ _ => True) s
  | [], s, h => by
    unfold Operator.stageSlices
    exact Gives.pure_iff.mpr h
  | (offset, length) :: slices, s, h => by
    have hcut := hP _ _ h
    simp only [Operator.advance, Gives.bind_iff, Gives.lift_layer_iff, Gives.pure_iff] at hcut
    unfold Operator.stageSlices
    simp only [Gives.bind_iff, Gives.lift_layer_iff]
    refine hcut.mono fun slice w hw => ?_
    exact (hP.stageSlice hw).mono (fun _ t ht => stageSlices ht) fun _ _ _ => trivial

theorem addBatch (h : P (.admitted chunk) s) :
    Gives (addBatch chunk) (fun _ => P .waiting) (fun _ _ => True) s := by
  have hstage := hP _ _ h
  simp only [Operator.advance, Gives.bind_iff, Gives.rescue_layer_iff] at hstage
  unfold Operator.addBatch
  simp only [Gives.bind_iff, Gives.rescue_layer_iff]
  refine hstage.mono (fun order t ht => ?_) fun _ _ _ => .of_forall fun _ _ => trivial
  by_cases hrows : chunk.length = 0
  · rw [if_pos hrows] at ht ⊢
    simp only [Gives.bind_iff, Gives.lift_layer_iff, Gives.pure_iff] at ht ⊢
    exact ht
  · rw [if_neg hrows] at ht ⊢
    simp only [Gives.bind_iff, Gives.get_layer_iff, Gives.lift_layer_iff, Gives.rescue_layer_iff,
      Gives.pure_iff] at ht ⊢
    refine ht.mono fun c w hc => ?_
    refine (hP.stageSlices hc).mono (fun _ u hu => ?_) fun _ _ _ => .of_forall fun _ _ => trivial
    have hover := hP _ _ hu
    simp only [Operator.advance, Gives.bind_iff, Gives.lift_layer_iff, Gives.pure_iff] at hover
    exact hover

/-- Taking in goes on to the end of the input, if there are no more events than it is ready for. -/
theorem ingest : ∀ (count : Nat) {s : Operator × Workspace}, P .waiting s →
    Gives (ingest count) (fun goesOn t => P (.ended goesOn) t ∨
      count ≤ s.1.events ∧ goesOn = true ∧ P .waiting t) (fun _ _ => True) s
  | 0, s, h => by
    unfold Operator.ingest
    exact Gives.pure_iff.mpr (.inr ⟨Nat.zero_le _, rfl, h⟩)
  | count + 1, s, h => by
    have hcome := hP _ _ h
    simp only [advance, Gives.bind_iff, Gives.lift_layer_iff] at hcome
    rw [ingest_succ]
    simp only [Gives.bind_iff, Gives.lift_layer_iff]
    refine hcome.mono fun b w hw => ?_
    split at hw
    · next hb =>
      rw [if_pos hb, Gives.bind_iff, Gives.throw_iff]
      trivial
    next hb =>
    simp only [Gives.bind_iff, Gives.modifyGet_layer_iff, Gives.pure_iff] at hw
    rw [if_neg hb]
    simp only [Gives.bind_iff, Gives.modifyGet_layer_iff]
    refine (hw.and nextEvent_fewer).mono (fun e t ht => ?_) fun _ _ _ => trivial
    obtain ⟨ht, hfewer⟩ := ht
    -- what comes of the event, once memory was seen to
    have hevent : ∀ {u : Operator × Workspace}, u.1.events ≤ t.1.events →
        Gives (receive e) P (fun _ _ => True) u →
        Gives (stageEvent count e) (fun goesOn v => P (.ended goesOn) v ∨
          count + 1 ≤ s.1.events ∧ goesOn = true ∧ P .waiting v) (fun _ _ => True) u := by
      intro u hle hu
      unfold receive at hu
      unfold stageEvent
      cases e with
      | batch chunk =>
        rw [Gives.bind_iff]
        refine ((hP.addBatch (Gives.pure_iff.mp hu)).and (addBatch_events chunk)).mono
          (fun _ v hv => ?_) fun _ _ _ => trivial
        refine (ingest count hv.1).mono (fun goesOn x hx => ?_) fun _ _ _ => trivial
        refine hx.imp_right fun h => ⟨?_, h.2⟩
        have hcount := h.1
        have hless : t.1.events < s.1.events := hfewer rfl
        have hsame : v.1.events ≤ u.1.events := hv.2
        omega
      | endOfInput => exact Gives.pure_iff.mpr (.inl (Gives.pure_iff.mp hu))
      | stop => exact Gives.pure_iff.mpr (.inl (Gives.pure_iff.mp hu))
      | notYet => exact Gives.throw_iff.mpr trivial
    have hreceive := hP _ _ ht
    rw [advance] at hreceive
    split
    · next hpressure =>
      rw [if_pos hpressure] at hreceive
      simp only [Gives.bind_iff, Gives.rescue_layer_iff] at hreceive ⊢
      refine (hreceive.and relieveInput_events).mono (fun _ u hu => hevent ?_ hu.1) fun _ _ _ =>
        .of_forall fun _ _ => trivial
      exact hu.2
    · next hpressure =>
      rw [if_neg hpressure] at hreceive
      exact hevent (Nat.le_refl _) hreceive

/-- All of the input is taken in. -/
theorem takeAll (h : P .waiting s) : Gives (Operator.ingest (s.1.input.script.length + 2))
    (fun goesOn => P (.ended goesOn)) (fun _ _ => True) s := by
  refine (hP.ingest _ h).mono (fun _ _ ht => ht.resolve_right fun hmany => ?_) fun _ _ _ => trivial
  have hevents : s.1.events ≤ s.1.input.script.length + 1 := by
    unfold events
    split <;> omega
  have hmore := hmany.1
  omega

end Carried

/-- Nothing is out of reach of a step. -/
theorem reached_carried (first : Operator × Workspace) :
    Carried (Reached (fun _ => True) first) := fun _ _ h =>
  Gives.of_outcome.mono (fun _ _ ht => h.advance ht trivial) fun _ _ _ => trivial

/-- Taking in goes through moments. -/
theorem ingest_reached {first : Operator × Workspace} (count : Nat) {s : Operator × Workspace}
    (h : Reached (fun _ => True) first .waiting s) :
    Gives (ingest count) (fun _ t => ∃ m, Reached (fun _ => True) first m t) (fun _ _ => True) s :=
  ((reached_carried first).ingest count h).mono
    (fun _ _ ht => ht.elim (fun ht => ⟨_, ht⟩) fun ht => ⟨_, ht.2.2⟩) fun _ _ _ => trivial

/-- Goes some steps, as long as a condition holds after each. -/
def follow (allowed : Operator × Workspace → Prop) [DecidablePred allowed] : Nat → Moment →
    Operator × Workspace → Option (Moment × (Operator × Workspace))
  | 0, m, s => some (m, s)
  | count + 1, m, s =>
    match Stateful.outcome (advance m).run s with
    | (.ok n, t) => if allowed t then follow allowed count n t else none
    | (.error _, _) => none

theorem follow_reached {allowed : Operator × Workspace → Prop} [DecidablePred allowed]
    {first : Operator × Workspace} :
    ∀ {count : Nat} {m n : Moment} {s t : Operator × Workspace}, Reached allowed first m s →
      follow allowed count m s = some (n, t) → Reached allowed first n t
  | 0, m, n, s, t, h, hf => by
    obtain ⟨rfl, rfl⟩ := Prod.mk.inj (Option.some.inj hf)
    exact h
  | count + 1, m, n, s, t, h, hf => by
    unfold follow at hf
    split at hf
    · next m' s' hout =>
      split at hf
      · next hs' => exact follow_reached (h.advance hout hs') hf
      · cases hf
    · cases hf

end Operator

end SpillSort
