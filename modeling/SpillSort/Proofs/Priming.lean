import SpillSort.Proofs.CalledOff
import SpillSort.Proofs.HeedlessSorts
import SpillSort.Proofs.Outputs

/-!
# Learning the schema ahead of time

A look at the schema before the first pull takes the first event off the input, makes the order for
its schema, and keeps both. The first pull finds them where it would have fetched and made them
itself. From then on the sort is in the state it would be in without the look, but for its journal,
where the notice of the schema may stand before one of a shortage of memory.

* `Operator.Foreseen` relates a sort that was just made to the same sort after the look.
* `Operator.next_foreseen` is about the first pull of both, `Session.priming_transparent` about all
  that follows.
-/

namespace SpillSort

open Workspace

/-- The schema of a batch that comes in. -/
def Event.schema? : Event → Option Schema
  | batch chunk => some chunk.batch.schema
  | _ => none

theorem Workspace.akin_symm {w v : Workspace} (h : Akin w v) : Akin v w := by
  obtain ⟨journal, rfl⟩ := h
  exact ⟨w.journal, rfl⟩

theorem Workspace.akin_trans {w v u : Workspace} (h : Akin w v) (h' : Akin v u) : Akin w u := by
  obtain ⟨journal, rfl⟩ := h
  obtain ⟨journal', rfl⟩ := h'
  exact ⟨journal', rfl⟩

/-- What the first event says of the schema: a batch has it, and without a batch there is none. -/
inductive Input.FirstSchema (i : Input) : Option Schema → Prop where
  | batch {chunk : Chunk} : i.next.1.outcome = .ok (.batch chunk) →
    FirstSchema i (some chunk.batch.schema)
  | endOfInput : i.next.1.outcome = .ok .endOfInput → FirstSchema i none
  | stop : i.next.1.outcome = .ok .stop → FirstSchema i none

namespace Operator

variable {e : Event} {s t : Operator × Workspace}

/-! ## The first event -/

/-- The operator with the order for the schema of an event, if that has one. -/
def ordered (op : Operator) (e : Event) : Operator :=
  match e.schema? with
  | some schema =>
    { op with
      order? := (op.makeOrder schema op.options.keys).toOption, ordersMade := op.ordersMade + 1 }
  | none => op

/-- An order can be made for the schema of an event, and it is an order for that schema. -/
def Sortable (op : Operator) (e : Event) : Prop :=
  ∀ schema, e.schema? = some schema →
    ∃ order, op.makeOrder schema op.options.keys = .ok order ∧ order.schema = schema

/-- The state after a pull. -/
def afterPull (s : Operator × Workspace) : Operator × Workspace :=
  ({ s.1 with input := s.1.input.next.2 }, s.1.input.next.1.after s.2)

/-- Two states that differ in that the second one has the order for the event already. -/
structure Ordered (e : Event) (s t : Operator × Workspace) : Prop where
  order : s.1.order? = none
  sortable : s.1.Sortable e
  operator : t.1 = s.1.ordered e
  workspace : Akin s.2 t.2

/-- Two states that differ in that the second one has pulled the event and has the order for it. -/
structure Foreseen (e : Event) (s t : Operator × Workspace) : Prop where
  outcome : s.1.input.next.1.outcome = .ok e
  order : s.1.order? = none
  pending : s.1.pending? = none
  sortable : s.1.Sortable e
  operator : t.1 = { (afterPull s).1.ordered e with pending? := some e }
  workspace : Akin (afterPull s).2 t.2

theorem Ordered.akin (h : Ordered e s t) (he : e.schema? = none) : Akin s t := by
  have ht := h.operator
  rw [ordered, he] at ht
  exact ⟨ht, h.workspace⟩

theorem ordered_eq (op : Operator) {schema : Schema} {order : RowOrder}
    (he : e.schema? = some schema) (hmade : op.makeOrder schema op.options.keys = .ok order) :
    op.ordered e = { op with order? := some order, ordersMade := op.ordersMade + 1 } := by
  simp only [ordered, he, hmade]
  rfl

/-- Nothing but the order changes. -/
theorem unordered_ordered (op : Operator) (e : Event) :
    (op.ordered e).unordered = op.unordered := by
  unfold ordered
  split <;> rfl

theorem Ordered.unordered (h : Ordered e s t) : t.1.unordered = s.1.unordered := by
  rw [h.operator, unordered_ordered]

theorem Foreseen.unordered (h : Foreseen e s t) :
    t.1.unordered = { (afterPull s).1.unordered with pending? := some e } := by
  rw [h.operator]
  exact congrArg (fun op : Operator => { op with pending? := some e })
    (unordered_ordered (afterPull s).1 e)

theorem pull_leads : Gives pull (fun e u => s.1.input.next.1.outcome = .ok e ∧ u = afterPull s)
    (fun e _ => s.1.input.next.1.outcome = .error e) s :=
  gives_pull (fun _ he => ⟨he, rfl⟩) fun _ he => he

/-- Without an event ahead of time it is pulled now. -/
theorem nextEvent_pulls (hpending : s.1.pending? = none)
    (hout : s.1.input.next.1.outcome = .ok e) :
    Gives nextEvent (fun e' u => e' = e ∧ u = afterPull s) (fun _ _ => False) s := by
  refine gives_nextEvent (fun e he => absurd (hpending.symm.trans he) nofun) fun _ => ?_
  have hsame : ({ s.1 with pending? := none }, s.2) = s := by rw [← hpending]
  rw [hsame]
  refine pull_leads.mono (fun e' u hu => ⟨?_, hu.2⟩) fun e' _ he => ?_
  · exact Except.ok.inj (hu.1.symm.trans hout)
  · exact absurd (he.symm.trans hout) nofun

/-- An event pulled ahead of time is next. -/
theorem nextEvent_pending (hpending : s.1.pending? = some e) :
    Gives nextEvent (fun e' u => e' = e ∧ u = ({ s.1 with pending? := none }, s.2))
      (fun _ _ => False) s := by
  refine gives_nextEvent (fun e' he => ⟨?_, rfl⟩) fun he => absurd (hpending.symm.trans he) nofun
  exact Option.some.inj (he.symm.trans hpending)

theorem nextEvent_foreseen (h : Foreseen e s t) :
    Agree (Ordered e) nextEvent.run nextEvent.run s t := by
  have hpending : t.1.pending? = some e := congrArg pending? h.operator
  refine .of_gives (nextEvent_pulls h.pending h.outcome) (nextEvent_pending hpending) ?_
  rintro _ _ rfl rfl
  refine ⟨h.order, h.sortable, ?_, h.workspace⟩
  have hnone : ((afterPull s).1.ordered e).pending? = none :=
    (congrArg pending? (unordered_ordered (afterPull s).1 e) :).trans h.pending
  show { t.1 with pending? := none } = (afterPull s).1.ordered e
  rw [h.operator, ← hnone]

/-- Without an order one is made. -/
theorem orderFor_makes {schema : Schema} {order : RowOrder} (ho : s.1.order? = none)
    (hmade : s.1.makeOrder schema s.1.options.keys = .ok order) : Gives (orderFor schema)
    (fun o u => o = order ∧
      u.1 = { s.1 with order? := some order, ordersMade := s.1.ordersMade + 1 } ∧ Akin s.2 u.2)
    (fun _ _ => False) s := by
  refine gives_orderFor (fun _ hsome => absurd (ho.symm.trans hsome) nofun)
    (fun _ hsome => absurd (ho.symm.trans hsome) nofun) (fun order' journal _ hok => ?_)
    fun _ _ herror => absurd (hmade.symm.trans herror) nofun
  obtain rfl := Except.ok.inj (hmade.symm.trans hok)
  exact ⟨rfl, rfl, journal, rfl⟩

/-- An order that is there already is kept if the schema is its own. -/
theorem orderFor_keeps {order : RowOrder} (ho : s.1.order? = some order) :
    Gives (orderFor order.schema) (fun o u => o = order ∧ u = s) (fun _ _ => False) s := by
  have hnone : s.1.order? ≠ none := by rw [ho]; exact nofun
  refine gives_orderFor (fun order' hsome _ => ⟨Option.some.inj (hsome.symm.trans ho), rfl⟩)
    (fun order' hsome hne => hne ?_) (fun _ _ h => absurd h hnone) fun _ h => absurd h hnone
  rw [Option.some.inj (hsome.symm.trans ho)]

/-- The order for the schema of the first batch is there, or it is made. -/
theorem orderFor_ordered {chunk : Chunk} (h : Ordered (.batch chunk) s t) :
    Agree Akin (orderFor chunk.batch.schema).run (orderFor chunk.batch.schema).run s t := by
  obtain ⟨order, hmade, hschema⟩ := h.sortable _ rfl
  have ht : t.1 = { s.1 with order? := some order, ordersMade := s.1.ordersMade + 1 } :=
    h.operator.trans (ordered_eq s.1 rfl hmade)
  have hkeeps := orderFor_keeps (congrArg order? ht)
  rw [hschema] at hkeeps
  refine .of_gives (orderFor_makes h.order hmade) hkeeps ?_
  rintro u v ⟨hu, hw⟩ rfl
  exact ⟨ht.trans hu.symm, akin_trans (akin_symm hw) h.workspace⟩

/-- Shortage of memory before anything was taken in is noted. -/
theorem relieveInput_notes (h : s.1.monitor.stagedSinceSpill ≤ 2) : Gives relieveInput
    (fun _ u => u.1 = { s.1 with monitor := s.1.monitor.onOutOfMemory.2 } ∧ Akin s.2 u.2)
    (fun _ _ => False) s := by
  have hnot : s.1.monitor.onOutOfMemory.1 = false := by
    simpa [Monitor.onOutOfMemory] using h
  exact gives_relieveInput (fun _ hspills => absurd (hnot.symm.trans hspills) nofun)
    fun journal => ⟨rfl, journal, rfl⟩

/-- Whether memory ran short does not depend on the order. -/
theorem takePressure_ordered (h : Ordered e s t) : Agree (Ordered e)
    (modifyGet fun op => (op.input.takePressure.1, { op with input := op.input.takePressure.2 }) :
      OperatorWork Bool).run
    (modifyGet fun op => (op.input.takePressure.1, { op with input := op.input.takePressure.2 }) :
      OperatorWork Bool).run s t := by
  have hinput : t.1.input = s.1.input := (congrArg input h.unordered :)
  refine ⟨?_, h.order, h.sortable, ?_, h.workspace⟩
  · show Except.ok t.1.input.takePressure.1 = .ok s.1.input.takePressure.1
    rw [hinput]
  · show ({ t.1 with input := t.1.input.takePressure.2 } : Operator) =
      ({ s.1 with input := s.1.input.takePressure.2 } : Operator).ordered e
    rw [hinput, h.operator]
    unfold ordered
    split <;> rfl

/-- The first event comes before anything to spill, with the order or without. -/
theorem relieveInput_ordered (h : Ordered e s t) (hstaged : s.1.monitor.stagedSinceSpill ≤ 2)
    (cleanup : Action Unit) : Agree (Ordered e) (Work.rescue relieveInput cleanup).run
      (Work.rescue relieveInput cleanup).run s t := by
  have hmonitor : t.1.monitor = s.1.monitor := (congrArg monitor h.unordered :)
  have hrescue : ∀ {s : Operator × Workspace}, s.1.monitor.stagedSinceSpill ≤ 2 →
      Gives (Work.rescue relieveInput cleanup) (fun a u => a = ⟨⟩ ∧
        u.1 = { s.1 with monitor := s.1.monitor.onOutOfMemory.2 } ∧ Akin s.2 u.2)
        (fun _ _ => False) s := fun hstaged => by
    rw [Gives.rescue_layer_iff]
    exact (relieveInput_notes hstaged).mono (fun _ _ hu => ⟨rfl, hu⟩) fun _ _ hf => hf.elim
  refine .of_gives (hrescue hstaged) (hrescue (hmonitor ▸ hstaged)) ?_
  rintro u v ⟨hu, hw⟩ ⟨hv, hw'⟩
  refine ⟨by rw [hu]; exact h.order, by rw [hu]; exact h.sortable, ?_, ?_⟩
  · rw [hv, hu, hmonitor, h.operator]
    unfold ordered
    split <;> rfl
  · exact akin_trans (akin_symm hw) (akin_trans h.workspace hw')

theorem stageEvent_ordered {n k : Nat} (h : Ordered e s t) (hn : s.1.events < n)
    (hk : s.1.events < k) : Agree Akin (stageEvent n e).run (stageEvent k e).run s t := by
  cases e with
  | batch chunk =>
    have hadd : Agree Akin (addBatch chunk).run (addBatch chunk).run s t :=
      ((orderFor_ordered h).rescue chunk.drop_heedless.lift_layer).work_bind fun order _ _ hst =>
        (stageBatch_heedless order chunk).agree hst
    exact hadd.work_bind_of (addBatch_events chunk)
      (fun _ u v hst hle => ingest_agree hst (hle.trans_lt hn) (hle.trans_lt hk))
      fun _ _ _ hst _ => hst
  | endOfInput => exact .pure (h.akin rfl)
  | stop => exact .pure (h.akin rfl)
  | notYet => exact .pure (h.akin rfl)

/-- The flag is as it would be, unless it was raised by the pull itself. -/
theorem cancelled_foreseen (h : Foreseen e s t) (hquiet : s.1.input.next.1.cancels = false) :
    Agree (Foreseen e) (liftM (Workspace.cancelled : Action Bool) : OperatorAction Bool)
      (liftM (Workspace.cancelled : Action Bool) : OperatorAction Bool) s t := by
  obtain ⟨op, w⟩ := s
  obtain ⟨op', v⟩ := t
  obtain ⟨journal, hv⟩ := h.workspace
  have hafter : ∀ w : Workspace, op.input.next.1.after w =
      { w with disk := op.input.next.1.onDisk w.disk } := fun w => by
    rw [Pull.after, show op.input.next.1.cancels = false from hquiet]
    rfl
  simp only [afterPull, hafter] at hv
  obtain rfl : v = _ := hv
  refine ⟨rfl, h.outcome, h.order, h.pending, h.sortable, h.operator, journal, ?_⟩
  simp only [afterPull]
  show _ = { op.input.next.1.after { w with cancel := w.cancel.look.2 } with journal }
  rw [hafter]
  rfl

/-- Taking in comes to the same, whatever the two are ready for. -/
theorem ingest_foreseen {n k : Nat} (h : Foreseen e s t)
    (hquiet : s.1.input.next.1.cancels = false) (hstaged : s.1.monitor.stagedSinceSpill ≤ 2)
    (hflag : s.2.cancel.look.1 = false) (hn : s.1.input.next.2.script.length < n)
    (hk : s.1.input.next.2.script.length < k) :
    Agree Akin (ingest (n + 1)).run (ingest (k + 1)).run s t := by
  rw [ingest_succ, ingest_succ]
  refine (cancelled_foreseen h hquiet).lift.work_bind_of (Q := fun raised u => raised = false ∧ u.1 = s.1)
    (E := fun _ _ => False) ⟨hflag, rfl⟩ (fun raised s₁ t₁ h hs => ?_) fun _ _ _ _ hf => hf.elim
  obtain ⟨rfl, hs₁⟩ := hs
  refine (nextEvent_foreseen h).work_bind_of (nextEvent_pulls h.pending h.outcome)
    (fun e' s₂ t₂ h₂ hs => ?_) fun _ _ _ _ hf => hf.elim
  obtain ⟨rfl, rfl⟩ := hs
  have hevents : (afterPull s₁).1.events = s.1.input.next.2.script.length := by
    show s₁.1.input.next.2.script.length + _ = _
    rw [show (afterPull s₁).1.pending? = none from h.pending, hs₁]
    rfl
  -- what comes of the event, once memory was seen to
  have hevent : ∀ {s₃ t₃ : Operator × Workspace}, Ordered e' s₃ t₃ →
      s₃.1.events ≤ (afterPull s₁).1.events →
      Agree Akin (stageEvent n e').run (stageEvent k e').run s₃ t₃ := fun h₃ hle =>
    stageEvent_ordered h₃ (hle.trans_lt (hevents ▸ hn)) (hle.trans_lt (hevents ▸ hk))
  refine (takePressure_ordered h₂).work_bind_of (Q := fun _ u => u.1.monitor = s.1.monitor ∧
    u.1.events ≤ (afterPull s₁).1.events) (E := fun _ _ => False) ⟨?_, le_refl (afterPull s₁).1.events⟩
    (fun pressure s₃ t₃ h₃ hs => ?_) fun _ _ _ _ hf => hf.elim
  · show s₁.1.monitor = s.1.monitor
    rw [hs₁]
  obtain ⟨hmonitor, hle⟩ := hs
  cases pressure with
  | false => exact hevent h₃ hle
  | true =>
    have hstaged₃ : s₃.1.monitor.stagedSinceSpill ≤ 2 := hmonitor ▸ hstaged
    refine (relieveInput_ordered h₃ hstaged₃ _).work_bind_of (Q := fun _ u =>
      u.1.events ≤ s₃.1.events) (E := fun _ _ => False) (Gives.rescue_layer_iff.mpr ?_)
      (fun _ s₄ t₄ h₄ hle' => hevent h₄ (hle'.trans hle)) fun _ _ _ _ hf => hf.elim
    exact (relieveInput_notes hstaged₃).mono (fun _ u hu => (congrArg events hu.1).le)
      fun _ _ hf => hf.elim

theorem enter_foreseen (h : Foreseen e s t) (hstage : s.1.stage = .uninitialized) (stage : Stage) :
    Agree (Foreseen e) (enter stage) (enter stage) s t := by
  have hstage' : t.1.stage = .uninitialized := (congrArg Operator.stage h.unordered :).trans hstage
  refine .of_ensures (a := ⟨⟩) ((enter_early (.inl hstage)).mono fun _ _ hu => ⟨rfl, hu⟩)
    ((enter_early (.inl hstage')).mono fun _ _ hu => ⟨rfl, hu⟩) ?_
  rintro _ _ rfl rfl
  refine ⟨h.outcome, h.order, h.pending, h.sortable, ?_, h.workspace⟩
  show ({ t.1 with stage } : Operator) = _
  rw [h.operator]
  unfold ordered afterPull
  cases e.schema? <;> rfl

theorem takeIn_foreseen (h : Foreseen e s t) (hquiet : s.1.input.next.1.cancels = false)
    (hstage : s.1.stage = .uninitialized)
    (hstaged : s.1.monitor.stagedSinceSpill ≤ 2) (hflag : s.2.cancel.look.1 = false) :
    Agree Akin takeIn.run takeIn.run s t := by
  unfold takeIn
  refine .work_get_layer ?_
  rw [hstage, show t.1.stage = .uninitialized from
    (congrArg Operator.stage h.unordered :).trans hstage]
  refine (enter_foreseen h hstage _).lift.work_bind_of (Q := fun _ u =>
    u.1.monitor = s.1.monitor ∧ u.2.cancel = s.2.cancel ∧ u.1.input = s.1.input)
    (E := fun _ _ => False) ?_ (fun _ s₁ t₁ h₁ hs => .work_get_layer ?_) fun _ _ _ _ hf => hf.elim
  · rw [Gives.lift_iff]
    exact (enter_early (.inl hstage)).mono fun _ u hu => by rw [hu]; exact ⟨rfl, rfl, rfl⟩
  obtain ⟨hmonitor, hcancel, hinput⟩ := hs
  have hinput₁ : t₁.1.input = s₁.1.input.next.2 := (congrArg input h₁.unordered :)
  have hlength : s₁.1.input.next.2.script.length < s₁.1.input.script.length + 1 := by
    rw [Input.next_script, List.length_drop]
    omega
  rw [hinput₁]
  exact (ingest_foreseen h₁ (hinput ▸ hquiet) (hmonitor ▸ hstaged) (hcancel ▸ hflag) hlength
    (Nat.lt_succ_self _)).work_bind fun goesOn _ _ hst => (settle_heedless goesOn).agree hst

/-- The first pull after a look at the schema is the first pull without it. -/
theorem next_foreseen (h : Foreseen e s t) (hquiet : s.1.input.next.1.cancels = false)
    (hfresh : s.1.Fresh) (hstaged : s.1.monitor.stagedSinceSpill ≤ 2)
    (hflag : s.2.cancel.upSoon = false) :
    Agree Akin next next s t := by
  have hfailure : t.1.failure? = none := (congrArg failure? h.unordered :).trans hfresh.failure
  unfold next
  refine .get_layer ?_
  rw [hfresh.failure, hfailure]
  refine (cancelled_foreseen h hquiet).bind_of (Q := fun raised u =>
    raised = false ∧ u = (s.1, { s.2 with cancel := s.2.cancel.look.2 }))
    ⟨CancelFlag.look_down hflag, rfl⟩ fun raised s₁ t₁ h₁ hs => ?_
  obtain ⟨rfl, rfl⟩ := hs
  have hstep : Agree Akin step.run step.run
      (s.1, { s.2 with cancel := s.2.cancel.look.2 }) t₁ := by
    refine (takeIn_foreseen h₁ hquiet hfresh.stage hstaged hflag).work_bind fun goesOn u v hst => ?_
    cases goesOn with
    | true => exact serve_heedless.agree hst
    | false => exact .pure hst
  exact hstep.bind fun answer _ _ hst => (answer_heedless answer).agree hst

/-- Nothing but the event is held after the look. -/
theorem Foreseen.idle (h : Foreseen e s t) (hidle : s.1.Idle) : t.1.Idle where
  stage := (congrArg Operator.stage h.unordered :).trans hidle.stage
  failure := (congrArg failure? h.unordered :).trans hidle.failure
  released := (congrArg released h.unordered :).trans hidle.released
  returned := (congrArg rowsReturned h.unordered :).trans hidle.returned
  emitted := (congrArg schemaEmitted h.unordered :).trans hidle.emitted
  resident := (congrArg resident h.unordered :).trans hidle.resident
  spilled := (congrArg spilled h.unordered :).trans hidle.spilled

theorem Foreseen.ledger (h : Foreseen e s t) : t.2.ledger = s.2.ledger := by
  obtain ⟨journal, hw⟩ := h.workspace
  rw [hw]
  rfl

theorem Foreseen.upSoon (h : Foreseen e s t) (hup : s.2.cancel.upSoon = true) :
    t.2.cancel.upSoon = true := by
  obtain ⟨journal, hw⟩ := h.workspace
  rw [hw]
  show (if _ then _ else s.2.cancel : CancelFlag).upSoon = true
  split
  · rfl
  · exact hup

/-! ## Looking at the schema -/

theorem prime_foresees (horder : s.1.order? = none) (hpending : s.1.pending? = none)
    (hmake : ∀ schema order, s.1.makeOrder schema s.1.options.keys = .ok order →
      order.schema = schema) :
    Gives prime (fun schema? t => s.1.input.FirstSchema schema? ∧
      ∃ e, Foreseen e s t ∧ schema? = e.schema?) (fun _ _ => True) s := by
  refine gives_prime (pull_leads.mono (fun e u hu => ?_) fun _ _ _ => trivial)
  obtain ⟨hout, rfl⟩ := hu
  have hkept : e.schema? = none →
      ∃ e', Foreseen e' s ({ (afterPull s).1 with pending? := some e }, (afterPull s).2) ∧
        none = e'.schema? := by
    intro hnone
    have hordered : (afterPull s).1.ordered e = (afterPull s).1 := by rw [ordered, hnone]
    refine ⟨e, ⟨hout, horder, hpending, fun schema hschema => ?_, ?_, _, rfl⟩, hnone.symm⟩
    · exact absurd (hnone.symm.trans hschema) nofun
    · rw [hordered]
  cases e with
  | notYet => trivial
  | endOfInput => exact ⟨.endOfInput hout, hkept rfl⟩
  | stop => exact ⟨.stop hout, hkept rfl⟩
  | batch chunk =>
    cases hmade : s.1.makeOrder chunk.batch.schema s.1.options.keys with
    | error e =>
      refine (orderFor_gives (s := afterPull s) chunk.batch.schema).mono (fun _ _ ht => ?_)
        fun _ _ _ => .of_forall fun _ _ => trivial
      obtain ⟨order, hok⟩ := ht.2.2.2 horder
      exact absurd (hmade.symm.trans hok) nofun
    | ok order =>
      refine (orderFor_makes (s := afterPull s) horder hmade).mono (fun o u hu => ?_)
        fun _ _ hf => hf.elim
      obtain ⟨rfl, hop, hw⟩ := hu
      have hschema : o.schema = chunk.batch.schema := hmake _ _ hmade
      refine ⟨hschema ▸ .batch hout, .batch chunk, ⟨hout, horder, hpending, ?_, ?_, hw⟩,
        congrArg some hschema⟩
      · intro schema heq
        obtain rfl := Option.some.inj heq
        exact ⟨o, hmade, hschema⟩
      · show ({ u.1 with pending? := some (.batch chunk) } : Operator) = _
        rw [hop, ordered_eq (afterPull s).1 rfl hmade]

/-- A look that finds a schema, or that there is none, leaves the first event for the first pull. -/
theorem buildSchema_foresees (hfailure : s.1.failure? = none) (horder : s.1.order? = none)
    (hpending : s.1.pending? = none)
    (hmake : ∀ schema order, s.1.makeOrder schema s.1.options.keys = .ok order →
      order.schema = schema) :
    Ensures buildSchema (fun r t => ∀ schema?, r = .ok schema? →
      s.1.input.FirstSchema schema? ∧ ∃ e, Foreseen e s t ∧ schema? = e.schema?) s := by
  refine ensures_buildSchema (fun e he => absurd (hfailure.symm.trans he) nofun)
    (fun _ hknown => ?_) fun _ _ _ => ?_
  · rcases hknown with hsome | hsome
    · rw [horder] at hsome
      cases hsome
    · rw [hpending] at hsome
      cases hsome
  · exact (prime_foresees horder hpending hmake).mono
      (fun _ t ht _ heq => Except.ok.inj heq ▸ ht) fun _ _ _ =>
        .of_forall fun _ _ _ heq => absurd heq nofun

/-- Another look finds the same and changes nothing. -/
theorem buildSchema_again (h : Foreseen e s t) (hfailure : s.1.failure? = none) :
    Ensures buildSchema (fun r u => r = .ok e.schema? ∧ u = t) t := by
  have hfailure' : t.1.failure? = none := (congrArg failure? h.unordered :).trans hfailure
  have hpending : t.1.pending? = some e := congrArg pending? h.operator
  have horder : t.1.order?.map RowOrder.schema = e.schema? := by
    cases he : e.schema? with
    | none =>
      have hnone : t.1.order? = none := by
        rw [h.operator, ordered, he]
        exact h.order
      rw [hnone]
      rfl
    | some schema =>
      obtain ⟨order, hmade, hschema⟩ := h.sortable schema he
      have hsome : t.1.order? = some order := by
        rw [h.operator, ordered_eq (afterPull s).1 he hmade]
      rw [hsome, ← hschema]
      rfl
  refine ensures_buildSchema (fun e he => absurd (hfailure'.symm.trans he) nofun)
    (fun _ _ => ⟨congrArg Except.ok horder, rfl⟩) fun _ _ hnone => absurd (hpending.symm.trans hnone) nofun

end Operator

namespace OrderMaker

/-- Orders by columns are made for the schema that was asked for. -/
theorem schema_of_byColumns {schema : Schema} {keys : List SortKey} {order : RowOrder}
    (h : byColumns schema keys = .ok order) : order.schema = schema := by
  unfold byColumns at h
  cases hresolve : RowOrder.resolve schema keys with
  | error e =>
    rw [hresolve] at h
    cases h
  | ok o =>
    rw [hresolve] at h
    obtain rfl := Except.ok.inj h
    exact (RowOrder.resolve_fits hresolve).schema_eq

end OrderMaker

namespace Sample

/-- Three batches, the first of which comes when memory is short. -/
def shortOfMemory : List Pull :=
  [{ pull [(2, 1), (1, 2)] with pressure := true }, pull [(1, 3), (3, 4)], pull [(1, 5)]]

/-- Whether a reply is a schema, or that there is none. -/
def isSchema : Reply → Bool
  | .schema (.ok _) => true
  | _ => false

theorem exists_of_isSchema {r : Reply} (h : isSchema r) : ∃ schema?, r = .schema (.ok schema?) := by
  unfold isSchema at h
  split at h
  · exact ⟨_, rfl⟩
  · cases h

end Sample

/-! ## Sessions -/

namespace Session

variable {e : Event} {s t : Session}

/-- Further looks at the schema find what the first one found. -/
theorem run_looks (h : Operator.Foreseen e s.state t.state) (hfailure : s.operator.failure? = none)
    (k : Nat) : t.run (List.replicate k .buildSchema) =
      (List.replicate k (.schema (.ok e.schema?)), t) := by
  have hlook : t.perform .buildSchema = (.schema (.ok e.schema?), t) := by
    obtain ⟨⟨hanswer, hstate⟩, hheld⟩ := act_spec (Operator.buildSchema_again h hfailure)
    unfold perform
    exact Prod.ext (congrArg Reply.schema hanswer) (eq_of_state hstate hheld)
  induction k with
  | zero => rfl
  | succ k ih => rw [List.replicate_succ, run_cons, hlook, ih, List.replicate_succ]

theorem run_primed (h : Operator.Foreseen e s.state t.state) (hfailure : s.operator.failure? = none)
    (hlook : s.perform .buildSchema = (.schema (.ok e.schema?), t)) (k : Nat) (cs : List Call) :
    s.run (List.replicate (k + 1) .buildSchema ++ cs) =
      (List.replicate (k + 1) (.schema (.ok e.schema?)) ++ (t.run cs).1, (t.run cs).2) := by
  rw [List.replicate_succ, List.cons_append, run_cons, hlook, run_append, run_looks h hfailure]
  rfl

/-- From the first pull on, a sort that has looked at its schema does what it would have done. -/
theorem run_foreseen (h : Operator.Foreseen e s.state t.state) (hheld : t.held = s.held)
    (hquiet : s.operator.input.next.1.cancels = false)
    (hfresh : s.operator.Fresh) (hstaged : s.operator.monitor.stagedSinceSpill ≤ 2)
    (hflag : s.workspace.cancel.upSoon = false) (keep : Bool) (cs : List Call) :
    (t.run (.next keep :: cs)).1 = (s.run (.next keep :: cs)).1 ∧
      Akin (s.run (.next keep :: cs)).2 (t.run (.next keep :: cs)).2 := by
  obtain ⟨hanswer, hst⟩ := next_agree (Operator.next_foreseen h hquiet hfresh hstaged hflag) hheld keep
  obtain ⟨hreplies, hst⟩ := run_akin hst cs
  exact ⟨congrArg₂ List.cons (congrArg Reply.poll hanswer) hreplies, hst⟩

/-- If the flag is up by the first pull, a sort is called off whether it has looked at its schema or
not, and its own tracker does not notice what it lets go of. -/
theorem run_calledOff_foreseen (h : Operator.Foreseen e s.state t.state) (hidle : s.operator.Idle)
    (hup : s.workspace.cancel.upSoon = true) (keep : Bool) {cs : List Call}
    (hcs : ∀ c ∈ cs, ∃ keep, c = .next keep) :
    let u := s.run (.next keep :: cs)
    let v := t.run (.next keep :: cs)
    v.1 = u.1 ∧ v.2.operator.monitor = u.2.operator.monitor ∧
      v.2.operator.rowsReturned = u.2.operator.rowsReturned ∧
      ∀ a, s.workspace.ledger.Spares a →
        v.2.workspace.ledger.forest.get? a = u.2.workspace.ledger.forest.get? a := by
  obtain ⟨hreplies, hop, _, hw⟩ := run_calledOff hidle hup keep hcs
  obtain ⟨hreplies', hop', _, hw'⟩ := run_calledOff (h.idle hidle) (h.upSoon hup) keep hcs
  have hmonitor : t.operator.monitor = s.operator.monitor := (congrArg Operator.monitor h.unordered :)
  have hreturned : t.operator.rowsReturned = s.operator.rowsReturned :=
    (congrArg Operator.rowsReturned h.unordered :)
  refine ⟨hreplies'.trans hreplies.symm, ?_, ?_, fun a ha => ?_⟩
  · exact (congrArg Operator.monitor hop').trans
      (hmonitor.trans (congrArg Operator.monitor hop).symm)
  · exact (congrArg Operator.rowsReturned hop').trans
      (hreturned.trans (congrArg Operator.rowsReturned hop).symm)
  · have hledger := congrArg Workspace.ledger hw
    have hledger' := congrArg Workspace.ledger hw'
    dsimp only [state] at hledger hledger'
    rw [hledger, hledger', show t.workspace.ledger = s.workspace.ledger from h.ledger]
    exact (Memory.Ledger.get?_dropAll ha _).trans (Memory.Ledger.get?_dropAll ha _).symm

section Begin

variable {name : String} {options : SortOptions} {makeOrder : OrderMaker} {script : List Pull}
  {pressure : Bool} {stem : String} {fragment : Fragment} {ledger : Memory.Ledger}
  {disk : Spill.Disk} {s : Operator × Workspace}

/-- **Looking at the schema first changes nothing.** If any number of looks at the schema before the
first pull succeed, each of them answers with the schema of the first batch, or with none if the
input ends or stops before one. The pulls that follow are answered as without the looks, row by row,
with the same rows taken in and handed out, the same spills made and the same on the tracker of the
sort. Unless the flag is up by the first pull, whatever is called from then on leaves the same sort
with the same trackers; only the journal may differ. Orders are made for the schema that they were
asked for, and the first event does not come with the cancel flag raised, if it is not up by then
anyway: a look does not ask for the flag, the first pull after it does. -/
theorem priming_transparent (hs : Operator.create name options makeOrder { script, pressure } stem
      fragment ledger disk = .ok s) (flag : CancelFlag)
    (hquiet : flag.upSoon = false → ∀ p ∈ script.head?, p.cancels = false)
    (hmake : ∀ schema order, makeOrder schema options.keys = .ok order → order.schema = schema)
    (k : Nat) (hok : ∀ r ∈ ((begin s flag).run (List.replicate k .buildSchema)).1,
      ∃ schema?, r = .schema (.ok schema?)) (keep : Bool) (cs : List Call)
    (hcs : flag.upSoon = true → ∀ c ∈ cs, ∃ keep, c = .next keep) :
    let plain := (begin s flag).run (.next keep :: cs)
    let primed := (begin s flag).run (List.replicate k .buildSchema ++ .next keep :: cs)
    (∃ schema?, (0 < k → ({ script, pressure } : Input).FirstSchema schema?) ∧
      primed.1 = List.replicate k (.schema (.ok schema?)) ++ plain.1) ∧
    primed.2.operator.monitor = plain.2.operator.monitor ∧
    primed.2.operator.rowsReturned = plain.2.operator.rowsReturned ∧
    (∀ others, ledger.Balanced others →
      primed.2.workspace.ledger.forest.get? s.1.tracker =
        plain.2.workspace.ledger.forest.get? s.1.tracker) ∧
    (flag.upSoon = false →
      primed.2.operator = plain.2.operator ∧ primed.2.held = plain.2.held ∧
      ∃ journal, primed.2.workspace = { plain.2.workspace with journal }) := by
  have hfresh := create_fresh hs
  obtain ⟨-, v, -, hop, hw⟩ := Operator.create_ok hs
  have hinput : s.1.input = { script, pressure } := congrArg Operator.input hop
  have hmakes : ∀ schema order, s.1.makeOrder schema s.1.options.keys = .ok order →
      order.schema = schema := by
    rw [hop]
    exact hmake
  intro plain primed
  cases k with
  | zero =>
    exact ⟨⟨none, fun h => absurd h (Nat.lt_irrefl 0), rfl⟩, rfl, rfl, fun _ _ => rfl,
      fun _ => ⟨rfl, rfl, _, rfl⟩⟩
  | succ k =>
    obtain ⟨hlook, hheld⟩ := act_spec (s := begin s flag) (Operator.buildSchema_foresees
      hfresh.failure (congrArg Operator.order? hop) (congrArg Operator.pending? hop) hmakes)
    obtain ⟨schema?, hreply⟩ := hok (.schema ((begin s flag).act Operator.buildSchema).1)
      List.mem_cons_self
    obtain ⟨hfirst, e, hforeseen, rfl⟩ := hlook schema? (Reply.schema.inj hreply)
    have hprimed : primed = _ :=
      run_primed hforeseen hfresh.failure (Prod.ext hreply rfl) k (.next keep :: cs)
    rw [hprimed]
    cases hup : flag.upSoon with
    | false =>
      have hcancels : s.1.input.next.1.cancels = false := by
        rw [hinput]
        cases script with
        | nil => rfl
        | cons p rest => exact hquiet hup p rfl
      have hstaged : s.1.monitor.stagedSinceSpill ≤ 2 := by
        rw [hop]
        exact Nat.zero_le 2
      obtain ⟨hreplies, hst⟩ := run_foreseen hforeseen hheld hcancels hfresh hstaged hup keep cs
      obtain ⟨⟨hoperator, hworkspace⟩, hheld⟩ := hst
      refine ⟨⟨e.schema?, fun _ => hinput ▸ hfirst, by rw [hreplies]⟩, ?_, ?_, fun _ _ => ?_,
        fun _ => ⟨hoperator, hheld, hworkspace⟩⟩
      · exact congrArg Operator.monitor hoperator
      · exact congrArg Operator.rowsReturned hoperator
      · obtain ⟨journal, hjournal⟩ := hworkspace
        have hledger := congrArg Workspace.ledger hjournal
        exact congrArg (fun l : Memory.Ledger => l.forest.get? s.1.tracker) hledger
    | true =>
      have hidle : s.1.Idle :=
        { hfresh with
          resident := congrArg Operator.resident hop, spilled := congrArg Operator.spilled hop }
      obtain ⟨hreplies, hmonitor, hreturned, hforest⟩ :=
        run_calledOff_foreseen hforeseen hidle hup keep (hcs hup)
      refine ⟨⟨e.schema?, fun _ => hinput ▸ hfirst, by rw [hreplies]⟩, hmonitor, hreturned,
        fun others hbalanced => hforest _ ?_, nofun⟩
      have htracker := congrArg Operator.tracker hop
      have hledger := congrArg Workspace.ledger hw
      dsimp only at htracker hledger
      show s.2.ledger.Spares s.1.tracker
      rw [htracker, hledger]
      exact hbalanced.spares_addChild name options.maxAllocation fragment.tracker

end Begin

/-- Two looks at a sort of three batches, the first of which comes when memory is short: with the flag
down, and with the flag up, where all pulls are stopped. -/
theorem priming_transparent_three_batches : ∃ s,
    Sample.operator Sample.options Sample.shortOfMemory = .ok s ∧
    (let plain := (begin s {}).run [.next false, .next false]
      let primed := (begin s {}).run [.buildSchema, .buildSchema, .next false, .next false]
      primed.1 = .schema (.ok (some Sample.schema)) :: .schema (.ok (some Sample.schema)) :: plain.1 ∧
        primed.2.operator = plain.2.operator) ∧
    let plain := (begin s { raised := true }).run [.next false, .next false]
    let primed := (begin s { raised := true }).run
      [.buildSchema, .buildSchema, .next false, .next false]
    (∃ schema?, primed.1 = .schema (.ok schema?) :: .schema (.ok schema?) :: plain.1) ∧
      primed.2.operator.monitor = plain.2.operator.monitor := by
  have hpasses : Sample.passes Sample.options Sample.shortOfMemory fun s =>
      ((begin s {}).run [.buildSchema, .buildSchema]).1.all Sample.isSchema &&
        ((begin s { raised := true }).run [.buildSchema, .buildSchema]).1.all Sample.isSchema := by
    decide +kernel
  obtain ⟨s, hs, hlooks⟩ := Sample.exists_of_passes hpasses
  obtain ⟨hdown, hup⟩ := Bool.and_eq_true_iff.mp hlooks
  have hok : ∀ flag, ((begin s flag).run [.buildSchema, .buildSchema]).1.all Sample.isSchema →
      ∀ r ∈ ((begin s flag).run (List.replicate 2 .buildSchema)).1,
        ∃ schema?, r = .schema (.ok schema?) := fun flag hall r hr =>
    Sample.exists_of_isSchema (List.all_eq_true.mp hall r hr)
  have hquiet : ∀ p ∈ Sample.shortOfMemory.head?, p.cancels = false := fun p hp => by
    obtain rfl := Option.some.inj hp
    rfl
  obtain ⟨⟨schema?, hfirst, hreplies⟩, -, -, -, hsame⟩ := priming_transparent hs {} (fun _ => hquiet)
    (fun _ _ => OrderMaker.schema_of_byColumns) 2 (hok _ hdown) false [.next false] nofun
  obtain ⟨⟨schema'?, -, hreplies'⟩, hmonitor, -⟩ := priming_transparent hs { raised := true } nofun
    (fun _ _ => OrderMaker.schema_of_byColumns) 2 (hok _ hup) false [.next false]
    fun _ c hc => ⟨false, List.mem_singleton.mp hc⟩
  obtain rfl : schema? = some Sample.schema := by
    cases hfirst (by decide) with
    | batch hout =>
      obtain rfl := Event.batch.inj (Except.ok.inj hout)
      rfl
    | endOfInput hout => cases hout
    | stop hout => cases hout
  exact ⟨s, hs, ⟨hreplies, (hsame rfl).1⟩, ⟨schema'?, hreplies'⟩, hmonitor⟩

/-- Someone cancels while the input finds that it has nothing. A first pull that asks the input
itself answers that the sort is done; after a look it finds the flag raised and answers stopped. -/
theorem stopped_after_look : ∃ s,
    Sample.operator Sample.options [{ outcome := .ok .endOfInput, cancels := true }] = .ok s ∧
      ((begin s {}).run [.next false]).1 = [.poll (.ok .done)] ∧
      ∃ schema?, ((begin s {}).run [.buildSchema, .next false]).1 =
        [.schema (.ok schema?), .poll (.ok .stopped)] := by
  have hpasses : Sample.passes Sample.options
      [{ outcome := .ok .endOfInput, cancels := true }] fun s =>
        let looked := (begin s {}).perform .buildSchema
        Sample.glance ((begin s {}).perform (.next false)).1 == .done &&
          Sample.isSchema looked.1 &&
          Sample.glance (looked.2.perform (.next false)).1 == .stopped := by
    decide +kernel
  obtain ⟨s, hs, hrun⟩ := Sample.exists_of_passes hpasses
  simp only [Bool.and_eq_true, beq_iff_eq] at hrun
  obtain ⟨⟨hdone, hlook⟩, hstopped⟩ := hrun
  obtain ⟨schema?, hschema⟩ := Sample.exists_of_isSchema hlook
  refine ⟨s, hs, congrArg (fun r => [r]) (Sample.eq_done_of_glance hdone), schema?, ?_⟩
  exact congrArg₂ (fun r r' => [r, r']) hschema (Sample.eq_stopped_of_glance hstopped)

end Session

end SpillSort
