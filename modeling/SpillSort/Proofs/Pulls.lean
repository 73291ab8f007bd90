import SpillSort.Proofs.Serving

/-!
# Pulls

What an operator that nobody ended answers to pulls: all rows in key order, one output after the
other, and then that it is done.

* `Operator.Working` is such an operator between two calls, with the rows handed out so far.
* `Operator.next_spec` is one pull, `Operator.buildSchema_spec` a look at the schema.
-/

namespace SpillSort

open Memory Spill

variable {E : Surroundings} {w : Workspace} {R S U : Resources} {script : List Pull}
  {order : RowOrder} {left given : List Row} {all : List Batch}

namespace Operator

variable {op op' first : Operator} {s t : Operator × Workspace} {staged : List Batch}
  {taken : List ChargeId}

/-- An operator that was not asked for anything yet. -/
structure Fresh (op : Operator) : Prop where
  stage : op.stage = .uninitialized
  failure : op.failure? = none
  released : op.released = false
  returned : op.rowsReturned = 0
  emitted : op.schemaEmitted = false

/-- An operator that takes in, and will have `all` slices if nothing goes wrong. -/
structure Taking (E : Surroundings) (script : List Pull) (S : Resources) (first : Operator)
    (all : List Batch) (s : Operator × Workspace) : Prop where
  frame : s.1.frame = first.frame
  takes : ∃ staged taken R, Takes E script S s staged taken R ∧
    staged ++ s.1.ahead.flatMap Batch.slices = all

/-- An operator that serves, has handed out the rows `given`, and has `left` to hand out. -/
structure Serving (E : Surroundings) (script : List Pull) (S : Resources) (first : Operator)
    (all : List Batch) (given left : List Row) (s : Operator × Workspace) : Prop where
  core : s.1.core = first.core
  resident : s.1.resident = #[]
  spilled : s.1.spilled = #[]
  failure : s.1.failure? = none
  released : s.1.released = false
  returned : s.1.rowsReturned = given.length
  processed : s.1.rowsProcessed = min maxCount (given ++ left).length
  serves : ∃ order U taken, s.1.order? = some order ∧ given ++ left = order.sortedTables all ∧
    s.1.stage.Serves order left U ∧ s.1.Draws script taken ∧
    Owns (E.take taken) s.2 (U + (.charges s.1.pendingCharges + (.charges s.1.input.charges + S)))

/-- These rows are all there are. -/
def Complete (op : Operator) (all : List Batch) (given : List Row) : Prop :=
  match op.order? with
  | some order => given = order.sortedTables all
  | none => given = [] ∧ all = []

theorem Complete.of_order (ho : op.order? = some order) (h : given = order.sortedTables all) :
    op.Complete all given := by
  rw [Complete, ho]
  exact h

theorem Complete.nil (op : Operator) : op.Complete [] [] := by
  unfold Complete
  split
  · simp [RowOrder.sortedTables]
  · exact ⟨rfl, rfl⟩

/-- An operator that has handed out all rows. -/
structure Finished (E : Surroundings) (script : List Pull) (S : Resources) (first : Operator)
    (all : List Batch) (given : List Row) (s : Operator × Workspace) : Prop where
  core : s.1.core = first.core
  isOver : Over E script S s
  failure : s.1.failure? = none
  released : s.1.released = false
  returned : s.1.rowsReturned = given.length
  processed : s.1.rowsProcessed = min maxCount given.length
  complete : s.1.Complete all given

/-- An operator between two calls that nobody ended and that did not fail. -/
inductive Working (E : Surroundings) (script : List Pull) (S : Resources) (first : Operator)
    (all : List Batch) : List Row → Operator × Workspace → Prop where
  | taking {s : Operator × Workspace} :
    Taking E script S first all s → Working E script S first all [] s
  | serving {given left : List Row} {s : Operator × Workspace} :
    Serving E script S first all given left s → Working E script S first all given s
  | finished {given : List Row} {s : Operator × Workspace} :
    Finished E script S first all given s → Working E script S first all given s

/-- An operator that is over, whatever became of its rows. -/
structure Stopped (E : Surroundings) (script : List Pull) (S : Resources) (first : Operator)
    (s : Operator × Workspace) : Prop where
  core : s.1.core = first.core
  isOver : Over E script S s
  failure : s.1.failure? = none

/-- What is left of an operator when a step fails. -/
structure Broken (E : Surroundings) (script : List Pull) (S : Resources) (first : Operator)
    (s : Operator × Workspace) : Prop where
  core : s.1.core = first.core
  live : Live E script S s
  failure : s.1.failure? = none
  released : s.1.released = false

theorem Takes.live (h : Takes E script S s staged taken R) (hk : s.1.stage.Keeps 0) :
    Live E script S s :=
  ⟨taken, R, 0, h.has.keeps, hk, h.draws, by simpa using h.owns⟩

theorem Fails.live (h : Fails E script S s) (hk : s.1.stage.Keeps 0) : Live E script S s := by
  obtain ⟨taken, R, hg, hd, hw⟩ := h
  exact ⟨taken, R, 0, hg, hk, hd, by simpa using hw⟩

theorem Has.rowsProcessed_eq (h : op.Has staged R) :
    op.rowsProcessed = min maxCount (total (staged.map Batch.rows)) := by
  unfold Has at h
  split at h
  · exact h.totalRows
  · obtain ⟨-, -, ht, rfl, -⟩ := h
    exact ht

/-! ## Taking in everything -/

/-- What comes of taking in: the rows to serve, nothing to serve, or an input that stopped. -/
def TakenIn (E : Surroundings) (script : List Pull) (S : Resources) (first : Operator)
    (all : List Batch) (goesOn : Bool) (s : Operator × Workspace) : Prop :=
  if goesOn then Finished E script S first all [] s ∨ ∃ left, Serving E script S first all [] left s
  else Stopped E script S first s

/-- Nothing was done before the first pull. -/
theorem Taking.stage (h : Taking E script S first all s) (hfresh : Fresh first) :
    s.1.stage = .uninitialized :=
  (congrArg Operator.stage h.frame :).trans hfresh.stage

/-- Another stage does not change what there is to take in. -/
theorem Taking.ingesting (h : Taking E script S first all s) :
    Taking E script S { first with stage := .ingesting } all
      ({ s.1 with stage := .ingesting }, s.2) := by
  obtain ⟨staged, taken, R, htakes, hall⟩ := h.takes
  exact ⟨congrArg (fun op => { op with stage := Stage.ingesting }) h.frame, staged, taken, R,
    ⟨htakes.has.congr rfl rfl rfl rfl, htakes.draws.congr rfl rfl rfl rfl rfl rfl, htakes.pulled,
      htakes.owns⟩, hall⟩

/-- All slices are staged when the input has ended. -/
theorem ingest_all (h : Taking E script S first all s)
    (hscript : ∀ p ∈ script, LeavesFiles p.onDisk)
    (hE : ∀ b ∈ E.books?, b.tracker = first.tracker) :
    Gives (ingest (s.1.input.script.length + 2))
      (fun ended t => t.1.frame = first.frame ∧ ∃ staged taken R, Takes E script S t staged taken R ∧
        (ended → staged = all))
      (fun _ t => t.1.frame = first.frame ∧ Fails E script S t) s := by
  obtain ⟨op, w⟩ := s
  obtain ⟨staged, taken, R, htakes, hall⟩ := h.takes
  have htracker : op.tracker = first.tracker := (congrArg Operator.tracker h.frame :)
  refine (ingest_spec hscript hE _ htracker htakes).mono (fun ended t ht => ?_) fun _ t ht => ?_
  · obtain ⟨staged', taken', R', hf, ht, hended⟩ := ht
    refine ⟨hf.trans h.frame, staged', taken', R', ht, fun hyes => ?_⟩
    rw [← hall]
    apply hended hyes
    show op.events < op.input.script.length + 2
    unfold events
    split <;> omega
  · exact ⟨ht.1.trans h.frame, ht.2⟩

/-- An operator that has begun to take in, whatever it has staged. -/
structure Begun (first op : Operator) : Prop where
  core : op.core = first.core
  stage : op.stage = .ingesting
  failure : op.failure? = none
  released : op.released = false
  returned : op.rowsReturned = 0

theorem Begun.of_frame (hf : op.frame = { first with stage := .ingesting }.frame)
    (hfresh : Fresh first) : Begun first op :=
  ⟨(core_of_frame hf :), (congrArg Operator.stage hf :),
    (congrArg Operator.failure? hf :).trans hfresh.failure,
    (congrArg Operator.released hf :).trans hfresh.released,
    (congrArg Operator.rowsReturned hf :).trans hfresh.returned⟩

theorem Begun.keeps (h : Begun first op) : op.stage.Keeps 0 := by
  rw [h.stage]
  exact rfl

/-- What was staged is to be served, if there are any rows. -/
theorem finalize_takenIn (hb : Begun first t.1) (ht : Takes E script S t staged taken R) :
    Gives finalize (fun _ => TakenIn E script S first staged true)
      (fun _ => Broken E script S first) t := by
  have hd := ht.draws
  refine (finalize_spec ht.has hb.stage ht.owns).mono (fun _ u hu => ?_) fun _ u hu => ?_
  · obtain ⟨op, w⟩ := u
    obtain ⟨stage, hop, hu⟩ := hu
    obtain rfl : op = t.1.servingAt stage := hop
    have hprocessed := ht.has.rowsProcessed_eq
    rw [TakenIn, if_pos rfl]
    rcases hu with ⟨hnil, rfl, hw⟩ | ⟨order, U, ho, hserves, hw⟩
    · refine .inl ⟨hb.core, ⟨rfl, rfl, .inl rfl, taken, hd.congr rfl rfl rfl rfl rfl rfl, hw⟩,
        hb.failure, hb.released, hb.returned, ?_, ?_⟩
      · rw [hnil] at hprocessed
        exact hprocessed
      · rw [hnil]
        exact Complete.nil _
    · refine .inr ⟨_, hb.core, rfl, rfl, hb.failure, hb.released, hb.returned, ?_, order, U, taken, ho,
        List.nil_append _, hserves, hd.congr rfl rfl rfl rfl rfl rfl, hw⟩
      rw [List.nil_append, RowOrder.length_sortedTables]
      exact hprocessed
  · obtain ⟨op, w⟩ := u
    obtain ⟨hop, hw⟩ := hu
    obtain rfl : op = t.1.servingAt .ingesting := hop
    exact ⟨hb.core, ⟨taken, 0, 0, keepsGroups_zero rfl rfl, rfl, hd.congr rfl rfl rfl rfl rfl rfl,
      (hw.cast (zero_add _).symm).cast (zero_add _).symm⟩, hb.failure, hb.released⟩

/-- After an input that stopped there is nothing to serve. -/
theorem stop_takenIn (hb : Begun first t.1) (ht : Takes E script S t staged taken R) :
    Ensures releaseGroups
      (fun _ => Ensures (enter .done) fun _ => TakenIn E script S first all false) t := by
  refine (ht.live hb.keeps).release.mono fun _ u hu => ?_
  obtain ⟨hop, taken, hd, hw⟩ := hu
  refine (enter_ended (by rw [hop]; exact Stage.ended_ended _) hw _).mono fun _ v hv => ?_
  obtain ⟨op, w⟩ := v
  obtain rfl : op = { t.1.emptied with stage := .done } := hop ▸ hv.1
  rw [TakenIn, if_neg Bool.false_ne_true]
  exact ⟨hb.core, ⟨rfl, rfl, .inl rfl, taken, hd.congr rfl rfl rfl rfl rfl rfl,
    hv.2.cast (zero_add _).symm⟩, hb.failure⟩

theorem takeIn_spec (hscript : ∀ p ∈ script, LeavesFiles p.onDisk)
    (hE : ∀ b ∈ E.books?, b.tracker = first.tracker) (hfresh : Fresh first)
    (h : Taking E script S first all s) :
    Gives takeIn (TakenIn E script S first all) (fun _ => Broken E script S first) s := by
  refine gives_takeIn (h.stage hfresh) ((ingest_all h.ingesting hscript hE).mono
    (fun ended t ht => ?_) fun _ t ht => ?_)
  · obtain ⟨hf, staged, taken, R, ht, hended⟩ := ht
    have hb := Begun.of_frame hf hfresh
    split
    · next hyes =>
      obtain rfl := hended hyes
      exact finalize_takenIn hb ht
    · exact stop_takenIn hb ht
  · obtain ⟨hf, ht⟩ := ht
    have hb := Begun.of_frame hf hfresh
    exact ⟨hb.core, ht.live hb.keeps, hb.failure, hb.released⟩

/-! ## Handing out -/

/-- What the answer to a pull says, after the rows `given`. -/
def Polled (E : Surroundings) (script : List Pull) (S : Resources) (first : Operator)
    (all : List Batch) (given : List Row) (p : Poll) (s : Operator × Workspace) : Prop :=
  match p with
  | .newSchema o | .batch o => ∃ order front left, s.1.order? = some order ∧ o.Holds order front ∧
      front ≠ [] ∧ Serving E script (o.held + S) first all (given ++ front) left s
  | .done => Finished E script S first all given s
  | .stopped => Stopped E script S first s

theorem serve_spec (h : Serving E script S first all given left s) :
    Gives serve (Polled E script S first all given) (fun _ => Broken E script S first) s := by
  obtain ⟨order, U, taken, ho, hgiven, hserves, hd, hw⟩ := h.serves
  refine gives_serve ((output_spec hserves hw).mono (fun o? t ht => ?_) fun _ t ht => ?_)
  · obtain ⟨stage, hop, ht⟩ := ht
    obtain ⟨op, w⟩ := t
    obtain rfl : op = { s.1 with stage } := hop
    cases o? with
    | none =>
      obtain ⟨rfl, U, hk, hw⟩ := ht
      intro journal _
      refine (enter_spec hk (hw.journal journal) .done).mono fun _ u hu => ?_
      obtain ⟨op, w⟩ := u
      obtain rfl : op = { s.1 with stage := .done } := hu.1
      refine ⟨h.core, ⟨h.resident, h.spilled, .inl rfl, taken, hd.congr rfl rfl rfl rfl rfl rfl, hu.2⟩,
        h.failure, h.released, h.returned, ?_, ?_⟩
      · rw [← List.append_nil given]
        exact h.processed
      · exact .of_order ho ((List.append_nil given).symm.trans hgiven)
    | some o =>
      obtain ⟨front, rest, U, rfl, hne, hfront, hserves, hw⟩ := ht
      have hw' : Owns (E.take taken) w (U + (.charges s.1.pendingCharges +
          (.charges s.1.input.charges + (o.held + S)))) := hw.cast (by abel)
      have hserving : Serving E script (o.held + S) first all (given ++ front) rest
          ({ s.1 with stage, rowsReturned := s.1.rowsReturned + o.length, schemaEmitted := true },
            w) := by
        refine ⟨h.core, h.resident, h.spilled, h.failure, h.released, ?_, ?_, order, U, taken, ho, ?_,
          hserves, hd.congr rfl rfl rfl rfl rfl rfl, hw'⟩
        · show s.1.rowsReturned + o.length = _
          rw [h.returned, hfront.length_eq, List.length_append]
        · rw [List.append_assoc]
          exact h.processed
        · rw [List.append_assoc]
          exact hgiven
      dsimp only
      split
      · exact ⟨order, front, rest, ho, hfront, hne, hserving⟩
      · exact ⟨order, front, rest, ho, hfront, hne, hserving⟩
  · obtain ⟨stage, U, hop, hk, hw⟩ := ht
    obtain ⟨op, w⟩ := t
    obtain rfl : op = { s.1 with stage } := hop
    exact ⟨h.core, ⟨taken, 0, U, keepsGroups_zero h.resident h.spilled, hk,
      hd.congr rfl rfl rfl rfl rfl rfl, hw.cast (zero_add _).symm⟩, h.failure, h.released⟩

/-- Nothing is handed out any more once a sort is done. -/
theorem serve_done (h : s.1.stage = .done) :
    Gives serve (fun p t => p = .done ∧ t = s) (fun _ _ => False) s := by
  have hop : { s.1 with stage := .done } = s.1 := by rw [← h]
  refine gives_serve (gives_output (fun _ hs => absurd (h.symm.trans hs) nofun)
    (fun _ _ hs => absurd (h.symm.trans hs) nofun) (fun _ journal hjournal => ?_) fun hs => ?_)
  · obtain rfl := hjournal h
    refine ensures_enter ?_
    rw [h, hop]
    exact Ensures.pure_iff.mpr ⟨rfl, rfl⟩
  · rcases hs with hs | hs | hs
    all_goals exact absurd (h.symm.trans hs) nofun

theorem takeIn_done (h : s.1.stage = .done) :
    Gives takeIn (fun goesOn t => goesOn = true ∧ t = s) (fun _ _ => False) s :=
  gives_takeIn_later (by rw [h]; exact ⟨nofun, nofun⟩) ⟨rfl, rfl⟩

theorem takeIn_serves (h : s.1.stage.Serves order left U) :
    Gives takeIn (fun goesOn t => goesOn = true ∧ t = s) (fun _ _ => False) s := by
  refine gives_takeIn_later ?_ ⟨rfl, rfl⟩
  generalize s.1.stage = stage at h
  cases h with
  | memory => exact ⟨nofun, nofun⟩
  | merge => exact ⟨nofun, nofun⟩

theorem step_done (h : s.1.stage = .done) :
    Gives step (fun p t => p = .done ∧ t = s) (fun _ _ => False) s := by
  refine gives_step ((takeIn_done h).mono (fun goesOn t ht => ?_) fun _ _ hf => hf)
  obtain ⟨rfl, rfl⟩ := ht
  exact serve_done h

theorem Finished.done (h : Finished E script S first all given s) : s.1.stage = .done := by
  rcases h.isOver.stage with hd | ⟨-, hf⟩
  · exact hd
  · rw [h.failure] at hf
    cases hf

theorem step_spec (hscript : ∀ p ∈ script, LeavesFiles p.onDisk)
    (hE : ∀ b ∈ E.books?, b.tracker = first.tracker) (hfresh : Fresh first)
    (h : Working E script S first all given s) :
    Gives step (Polled E script S first all given) (fun _ => Broken E script S first) s := by
  cases h with
  | taking h =>
    refine gives_step ((takeIn_spec hscript hE hfresh h).mono (fun goesOn t ht => ?_) fun _ _ hb => hb)
    unfold TakenIn at ht
    split at ht
    · next hyes =>
      rw [if_pos hyes]
      rcases ht with hf | ⟨left, hserving⟩
      · refine (serve_done hf.done).mono (fun p u hu => ?_) fun _ _ hf => hf.elim
        obtain ⟨rfl, rfl⟩ := hu
        exact hf
      · exact serve_spec hserving
    · next hno => rwa [if_neg hno]
  | serving h =>
    obtain ⟨order, U, taken, -, -, hserves, -⟩ := h.serves
    refine gives_step ((takeIn_serves hserves).mono (fun goesOn t ht => ?_) fun _ _ hf => hf.elim)
    obtain ⟨rfl, rfl⟩ := ht
    exact serve_spec h
  | finished h =>
    refine (step_done h.done).mono (fun p t ht => ?_) fun _ _ hf => hf.elim
    obtain ⟨rfl, rfl⟩ := ht
    exact h

/-! ## One pull -/

/-- An operator that failed, once and for all. -/
structure Failed (E : Surroundings) (script : List Pull) (S : Resources) (first : Operator)
    (s : Operator × Workspace) : Prop where
  core : s.1.core = first.core
  isOver : Over E script S s
  failure : s.1.failure?.isSome

/-- What comes of a pull, after the rows `given`. -/
def Answered (E : Surroundings) (script : List Pull) (S : Resources) (first : Operator)
    (all : List Batch) (given : List Row) (r : Except Failure Poll) (s : Operator × Workspace) :
    Prop :=
  match r with
  | .ok p => Polled E script S first all given p s
  | .error _ => Failed E script S first s

theorem Serving.broken (h : Serving E script S first all given left s) :
    Broken E script S first s := by
  obtain ⟨order, U, taken, -, -, hserves, hd, hw⟩ := h.serves
  exact ⟨h.core, ⟨taken, 0, U, keepsGroups_zero h.resident h.spilled, hserves.keeps, hd,
    hw.cast (zero_add _).symm⟩, h.failure, h.released⟩

theorem Taking.broken (h : Taking E script S first all s) (hfresh : Fresh first) :
    Broken E script S first s := by
  obtain ⟨staged, taken, R, htakes, -⟩ := h.takes
  have hstage : s.1.stage = .uninitialized := (congrArg Operator.stage h.frame :).trans hfresh.stage
  exact ⟨core_of_frame h.frame, htakes.live (by rw [hstage]; exact rfl),
    (congrArg Operator.failure? h.frame :).trans hfresh.failure,
    (congrArg Operator.released h.frame :).trans hfresh.released⟩

theorem Working.broken (h : Working E script S first all given s) (hfresh : Fresh first) :
    Broken E script S first s := by
  cases h with
  | taking h => exact h.broken hfresh
  | serving h => exact h.broken
  | finished h => exact ⟨h.core, h.isOver.live, h.failure, h.released⟩

theorem Working.frame {α : Type} {x : Action α} {S' : Resources}
    (h : Working E script S first all given s) (hx : Frames E x s.2 S S') :
    Ensures x (fun _ w => Working E script S' first all given (s.1, w)) s.2 := by
  cases h with
  | taking h =>
    obtain ⟨staged, taken, R, htakes, hall⟩ := h.takes
    have hw := htakes.owns
    simp only [← add_assoc] at hw
    refine (hx taken _ hw).mono fun _ w hw => .taking ⟨h.frame, staged, taken, R,
      ⟨htakes.has, htakes.draws, htakes.pulled, ?_⟩, hall⟩
    simpa only [add_assoc] using hw
  | serving h =>
    obtain ⟨order, U, taken, ho, hgiven, hserves, hd, hw⟩ := h.serves
    simp only [← add_assoc] at hw
    refine (hx taken _ hw).mono fun _ w hw => .serving ⟨h.core, h.resident, h.spilled, h.failure,
      h.released, h.returned, h.processed, order, U, taken, ho, hgiven, hserves, hd, ?_⟩
    simpa only [add_assoc] using hw
  | finished h =>
    exact (h.isOver.frame hx).mono fun _ w hw => .finished ⟨h.core, hw, h.failure, h.released,
      h.returned, h.processed, h.complete⟩

/-- Memory runs short where the batches come from. -/
def pressed (op : Operator) : Operator := { op with input := { op.input with pressure := true } }

theorem Over.press (h : Over E script S s) : Over E script S (s.1.pressed, s.2) := by
  obtain ⟨taken, hd, hw⟩ := h.rest
  exact ⟨h.resident, h.spilled, h.stage, taken, hd.congr rfl rfl rfl rfl rfl rfl, hw⟩

theorem Working.press (h : Working E script S first all given s) :
    Working E script S first all given (s.1.pressed, s.2) := by
  cases h with
  | taking h =>
    obtain ⟨staged, taken, R, htakes, hall⟩ := h.takes
    exact .taking ⟨h.frame, staged, taken, R, ⟨htakes.has.congr rfl rfl rfl rfl,
      htakes.draws.congr rfl rfl rfl rfl rfl rfl, htakes.pulled, htakes.owns⟩, hall⟩
  | serving h =>
    obtain ⟨order, U, taken, ho, hgiven, hserves, hd, hw⟩ := h.serves
    exact .serving ⟨h.core, h.resident, h.spilled, h.failure, h.released, h.returned, h.processed,
      order, U, taken, ho, hgiven, hserves, hd.congr rfl rfl rfl rfl rfl rfl, hw⟩
  | finished h =>
    exact .finished ⟨h.core, h.isOver.press, h.failure, h.released, h.returned, h.processed, h.complete⟩

theorem Working.ne_failed (h : Working E script S first all given s) (hfresh : Fresh first) :
    s.1.stage ≠ .failed := by
  cases h with
  | taking h =>
    have hstage : s.1.stage = .uninitialized := (congrArg Operator.stage h.frame :).trans hfresh.stage
    rw [hstage]
    nofun
  | serving h =>
    obtain ⟨order, U, taken, -, -, hserves, -⟩ := h.serves
    intro hstage
    rw [hstage] at hserves
    cases hserves
  | finished h =>
    rw [h.done]
    nofun

/-- A sort that is over has handed out all rows if nobody ended it and it did not fail. -/
theorem Working.finished_of_over (h : Working E script S first all given s) (hfresh : Fresh first)
    (ho : Over E script U s) : Finished E script S first all given s := by
  have hfailure := (h.broken hfresh).failure
  have hdone : s.1.stage = .done := by
    rcases ho.stage with hd | ⟨-, hf⟩
    · exact hd
    · rw [hfailure] at hf
      cases hf
  cases h with
  | taking h =>
    have hstage : s.1.stage = .uninitialized := (congrArg Operator.stage h.frame :).trans hfresh.stage
    rw [hstage] at hdone
    cases hdone
  | serving h =>
    obtain ⟨order, V, taken, -, -, hserves, -⟩ := h.serves
    rw [hdone] at hserves
    cases hserves
  | finished h => exact h

theorem Broken.releaseOnCancel_spec (h : Broken E script S first s) :
    Ensures releaseOnCancel (fun _ t => Stopped E script S first t) s := by
  have ho : s.1.released → Over E script S s := fun hr => by
    rw [h.released] at hr
    cases hr
  exact (Operator.releaseOnCancel_spec h.live ho).mono fun _ t ht =>
    ⟨ht.2.1.trans h.core, ht.1, ht.2.2.2.trans h.failure⟩

theorem next_spec (hscript : ∀ p ∈ script, LeavesFiles p.onDisk)
    (hE : ∀ b ∈ E.books?, b.tracker = first.tracker) (hfresh : Fresh first)
    (h : Working E script S first all given s) :
    Ensures next (Answered E script S first all given) s := by
  have hnone := (h.broken hfresh).failure
  refine ensures_next (fun e he => absurd (hnone.symm.trans he) nofun) fun _ => ?_
  refine (h.frame frames_cancelled).mono fun b w h => ?_
  split
  · exact (h.broken hfresh).releaseOnCancel_spec
  · refine (step_spec hscript hE hfresh h).mono (fun _ _ ht => ht) fun e t ht => ?_
    split
    · exact ht.releaseOnCancel_spec
    · exact (fail_spec ht.live e).mono fun _ u hu => ⟨hu.2.1.trans ht.core, hu.1, hu.2.2⟩

/-- A sort that is over hands out nothing, and stays over. -/
theorem next_over (h : Over E script S s) :
    Ensures next (fun r t => Over E script S t ∧ t.1.core = s.1.core ∧
      r.toOption.bind Poll.output? = none) s := by
  refine ensures_next (fun _ _ => ⟨h, rfl, rfl⟩) fun hf => ?_
  have hdone : s.1.stage = .done := by
    rcases h.stage with hd | ⟨-, hs⟩
    · exact hd
    · rw [hf] at hs
      cases hs
  refine (h.frame frames_cancelled).mono fun b w h => ?_
  split
  · exact (releaseOnCancel_spec h.live fun _ => h).mono fun _ t ht => ⟨ht.1, ht.2.1, rfl⟩
  · refine (step_done (s := (s.1, w)) hdone).mono (fun p t ht => ?_) fun _ _ hf => hf.elim
    obtain ⟨rfl, rfl⟩ := ht
    exact ⟨h, rfl, rfl⟩

/-! ## The schema ahead of time -/

/-- What an event pulled ahead leaves alone. -/
structure Ahead (op op' : Operator) : Prop where
  frame : op'.frame = op.frame
  monitor : op'.monitor = op.monitor

/-- A sort that is over stays over while it waits for nothing. -/
theorem Over.pulled {op op' : Operator} {i : Input} {w' : Workspace}
    (h : Over E script S (op, w)) (hp : op.pending? = none)
    (hu : op'.unordered = ({ op with input := i } : Operator).unordered)
    (hd : op'.Draws script taken) (hw : Owns (E.take taken) w' (.charges i.charges + S)) :
    Over E script S (op', w') ∧ Ahead op op' := by
  have hstage : op'.stage = op.stage := (congrArg Operator.stage hu :)
  have hfailure : op'.failure? = op.failure? := (congrArg Operator.failure? hu :)
  have hpending : op'.pending? = none := (congrArg Operator.pending? hu :).trans hp
  have hinput : op'.input = i := (congrArg Operator.input hu :)
  have hnone : op'.pendingCharges = [] := by rw [pendingCharges, hpending]; rfl
  refine ⟨⟨(congrArg Operator.resident hu :).trans h.resident,
    (congrArg Operator.spilled hu :).trans h.spilled, ?_, taken, hd, ?_⟩,
    (frame_of_shell (shell_of_unordered hu) :), (congrArg Operator.monitor hu :)⟩
  · rw [hstage, hfailure]
    exact h.stage
  · rwa [hnone, hinput, Resources.charges_nil, zero_add]

/-- Nor does it matter what it waits for, as long as nothing was taken over. -/
theorem Over.waits {op op' : Operator} {i : Input} {e : Event} {w' : Workspace}
    (h : Over E script S (op, w)) (hfree : taken = [])
    (hu : op'.unordered = ({ op with input := i } : Operator).unordered)
    (hd : op'.Draws script taken)
    (hcharges : ∀ c ∈ e.charges, c ∈ (script.take i.pulls).flatMap Pull.charges)
    (hbatch : ∀ b, e.batch? = some b → ∃ p ∈ script, p.batch? = some b)
    (hw : Owns (E.take taken) w' (.charges e.charges + (.charges i.charges + S))) :
    Over E script S ({ op' with pending? := some e }, w') ∧
      Ahead op { op' with pending? := some e } := by
  have hstage : op'.stage = op.stage := (congrArg Operator.stage hu :)
  have hfailure : op'.failure? = op.failure? := (congrArg Operator.failure? hu :)
  have hinput : op'.input = i := (congrArg Operator.input hu :)
  subst hinput
  refine ⟨⟨(congrArg Operator.resident hu :).trans h.resident,
    (congrArg Operator.spilled hu :).trans h.spilled, ?_, taken, hd.wait hfree hcharges hbatch, hw⟩,
    (frame_of_shell (shell_of_unordered hu) :), (congrArg Operator.monitor hu :)⟩
  show op'.stage = .done ∨ op'.stage = .failed ∧ op'.failure?.isSome
  rw [hstage, hfailure]
  exact h.stage

/-- A sort that is over may still pull an event ahead, and stays over. -/
theorem prime_over (hscript : ∀ p ∈ script, LeavesFiles p.onDisk) (h : Over E script S s)
    (ho : s.1.order? = none) (hp : s.1.pending? = none) :
    Gives prime (fun _ t => Over E script S t ∧ Ahead s.1 t.1)
      (fun _ t => Over E script S t ∧ Ahead s.1 t.1) s := by
  obtain ⟨op, w⟩ := s
  obtain ⟨taken, hd, hw⟩ := h.rest
  have hp : op.pending? = none := hp
  have hfree : taken = [] := hd.untaken (.inl ho)
  have hquiet := hd.quiet hscript
  have hw : Owns (E.take taken) w (.charges op.input.charges + S) := by
    have hnone : op.pendingCharges = [] := by rw [pendingCharges, hp]; rfl
    have hw : Owns (E.take taken) w
      (.charges op.pendingCharges + (.charges op.input.charges + S)) := hw
    rwa [hnone, Resources.charges_nil, zero_add] at hw
  obtain ⟨hdraws, hcame⟩ := hd.pull
  have hop : { op with pending? := none, input := op.input.next.2 } =
      { op with input := op.input.next.2 } := by
    rw [← hp]
  rw [hop] at hdraws
  refine gives_prime ((pull_spec op hquiet hw).mono (fun e t ht => ?_) fun e t ht => ?_)
  · obtain ⟨op', w'⟩ := t
    obtain ⟨hop', hout, hw⟩ := ht
    obtain rfl : op' = _ := hop'
    obtain ⟨hsub, hbatch⟩ := hcame e hout
    cases e with
    | notYet => exact h.pulled hp rfl hdraws (hw.cast (zero_add _))
    | endOfInput => exact h.waits hfree rfl hdraws hsub hbatch hw
    | stop => exact h.waits hfree rfl hdraws hsub hbatch hw
    | batch chunk =>
      have hsettled : ∀ {op' : Operator},
          op'.unordered = ({ op with input := op.input.next.2 } : Operator).unordered →
          Settles { op with input := op.input.next.2 } chunk.batch.schema op' →
          op'.Draws script taken := by
        intro op' hu hset
        have hd := hdraws.settle (shell_of_unordered hu) hset (hbatch _ rfl) (by simp) (.inl rfl)
        rwa [List.append_nil] at hd
      refine (orderFor_spec hw _).mono (fun order t ht => ?_) fun _ t ht => ?_
      · obtain ⟨hu, hset, -, hw⟩ := ht
        exact h.waits hfree hu (hsettled hu hset) hsub hbatch hw
      · obtain ⟨hu, hset, hw⟩ := ht
        have hw : Owns (E.take taken) t.2
          (chunk.held + (.charges op.input.next.2.charges + S)) := hw
        exact hw.dropChunk.mono fun _ w hw => h.pulled hp hu (hsettled hu hset) hw
  · obtain ⟨op', w'⟩ := t
    obtain ⟨hop', -, hw⟩ := ht
    obtain rfl : op' = _ := hop'
    exact h.pulled hp rfl hdraws hw

theorem buildSchema_over (hscript : ∀ p ∈ script, LeavesFiles p.onDisk) (h : Over E script S s) :
    Ensures buildSchema (fun _ t => Over E script S t ∧ t.1.core = s.1.core) s := by
  refine ensures_buildSchema (fun _ _ => ⟨h, rfl⟩) (fun _ _ => ⟨h, rfl⟩) fun _ ho hp => ?_
  refine (prime_over hscript h ho hp).mono (fun _ t ht => ⟨ht.1, core_of_frame ht.2.frame⟩)
    fun e t ht => ?_
  exact (fail_spec ht.1.live e).mono fun _ u hu => ⟨hu.1, hu.2.1.trans (core_of_frame ht.2.frame)⟩

theorem buildSchema_spec (hscript : ∀ p ∈ script, LeavesFiles p.onDisk) (hfresh : Fresh first)
    (h : Working E script S first all given s) :
    Ensures buildSchema (fun r t =>
      match r with
      | .ok _ => Working E script S first all given t
      | .error _ => Failed E script S first t) s := by
  refine ensures_buildSchema (fun e he => absurd ((h.broken hfresh).failure.symm.trans he) nofun)
    (fun _ _ => h) fun _ ho hp => ?_
  cases h with
  | taking h =>
    obtain ⟨staged, taken, R, htakes, hall⟩ := h.takes
    refine (prime_spec hscript htakes ho hp).mono (fun _ t ht => ?_) fun e t ht => ?_
    · obtain ⟨hf, htakes, hahead⟩ := ht
      refine .taking ⟨hf.trans h.frame, staged, taken, R, htakes, ?_⟩
      rw [hahead]
      exact hall
    · obtain ⟨hf, ht⟩ := ht
      have hstage : t.1.stage = .uninitialized :=
        (congrArg Operator.stage (hf.trans h.frame) :).trans hfresh.stage
      have hlive : Live E script S t := ht.live (by rw [hstage]; exact rfl)
      exact (fail_spec hlive e).mono fun _ u hu =>
        ⟨hu.2.1.trans (core_of_frame (hf.trans h.frame)), hu.1, hu.2.2⟩
  | serving h =>
    obtain ⟨order, U, taken, ho', -⟩ := h.serves
    rw [ho] at ho'
    cases ho'
  | finished h =>
    have hcomplete := h.complete
    rw [Complete, ho] at hcomplete
    obtain ⟨rfl, rfl⟩ := hcomplete
    refine (prime_over hscript h.isOver ho hp).mono (fun _ t ht => ?_) fun e t ht => ?_
    · obtain ⟨hover, hf, hm⟩ := ht
      refine .finished ⟨(core_of_frame hf).trans h.core, hover,
        (congrArg Operator.failure? hf :).trans h.failure,
        (congrArg Operator.released hf :).trans h.released,
        (congrArg Operator.rowsReturned hf :).trans h.returned, ?_, Complete.nil _⟩
      rw [rowsProcessed, hm]
      exact h.processed
    · exact (fail_spec ht.1.live e).mono fun _ u hu =>
        ⟨hu.2.1.trans ((core_of_frame ht.2.frame).trans h.core), hu.1, hu.2.2⟩

end Operator

end SpillSort
