import SpillSort.Proofs.Effects
import SpillSort.Proofs.Pulls

/-!
# What working on a sort leaves alone

Taking in and handing out change the groups, the order and the stage of an operator. They never touch
a recorded failure, the input's kills or the mark of a release, and they report nothing.

* `Operator.Stays` is what every part of taking in leaves alone, `Operator.Advances` the same up to the
  stage.
* `Operator.ingest_stays` is all of taking in, `Operator.step_advances` one pull with its stages.
* `Operator.Meets` bounds the failures that can come up on the way.
-/

namespace SpillSort

namespace Input

variable {i : Input}

theorem next_script (i : Input) : i.next.2.script = i.script.drop 1 := by
  rcases i with ⟨_ | ⟨q, rest⟩, pressure, pulls, kills⟩ <;> rfl

theorem next_pulls (i : Input) : i.next.2.pulls = i.pulls + 1 := by
  rcases i with ⟨_ | ⟨q, rest⟩, pressure, pulls, kills⟩ <;> rfl

theorem next_kills (i : Input) : i.next.2.kills = i.kills := by
  rcases i with ⟨_ | ⟨q, rest⟩, pressure, pulls, kills⟩ <;> rfl

/-- Some pulls went by. -/
def Draws (i j : Input) : Prop := ∃ n, j.script = i.script.drop n ∧ j.pulls = i.pulls + n

theorem Draws.rfl : Draws i i := ⟨0, Eq.refl _, Eq.refl _⟩

theorem Draws.trans {j k : Input} (h : Draws i j) (h' : Draws j k) : Draws i k := by
  obtain ⟨n, hs, hp⟩ := h
  obtain ⟨n', hs', hp'⟩ := h'
  exact ⟨n + n', by rw [hs', hs, List.drop_drop], by rw [hp', hp, Nat.add_assoc]⟩

theorem next_draws (i : Input) : Draws i i.next.2 := ⟨1, i.next_script, i.next_pulls⟩

/-- Only a pull of the script fails. -/
theorem next_mem {e : Failure} (h : i.next.1.outcome = .error e) : i.next.1 ∈ i.script := by
  rcases i with ⟨_ | ⟨q, rest⟩, pressure, pulls, kills⟩
  · cases h
  · exact List.mem_cons_self

end Input

namespace Stage

/-- Whether a stage is a final merge. -/
def Merges : Stage → Prop
  | finalMemory _ | finalMerge _ _ => True
  | _ => False

/-- How far a stage is. -/
def rank : Stage → Nat
  | uninitialized => 0
  | ingesting => 1
  | finalMemory _ | finalMerge _ _ => 2
  | done => 3
  | failed => 4

theorem rank_of_merges {stage : Stage} (h : stage.Merges) : stage.rank = 2 := by
  unfold Merges at h
  split at h
  · rfl
  · rfl
  · exact h.elim

theorem eq_done_of_label {stage : Stage} (h : stage.label = "done") : stage = .done := by
  cases stage <;> simp_all [label]

theorem eq_failed_of_label {stage : Stage} (h : stage.label = "failed") : stage = .failed := by
  cases stage <;> simp_all [label]

variable {a b c : Stage}

/-- Whether a stage can come after another one, or is the same up to what it holds. One final merge
does not come after the other. -/
structure Leads (a b : Stage) : Prop where
  rank : a.rank ≤ b.rank
  label : a.rank = b.rank → a.label = b.label

theorem Leads.rfl : Leads a a := ⟨Nat.le_refl _, fun _ => Eq.refl _⟩

theorem Leads.of_eq (h : b = a) : Leads a b := h ▸ .rfl

theorem Leads.of_lt (h : a.rank < b.rank) : Leads a b := ⟨h.le, fun he => absurd he h.ne⟩

theorem Leads.trans (h : Leads a b) (h' : Leads b c) : Leads a c := by
  refine ⟨h.rank.trans h'.rank, fun he => ?_⟩
  have hab : a.rank = b.rank := h.rank.antisymm (he ▸ h'.rank)
  exact (h.label hab).trans (h'.label (hab.symm.trans he))

/-- Whether a stage is the same final merge as another one, up to what is left of it. -/
structure Resumes (a b : Stage) : Prop where
  merges : b.Merges
  leads : a.Leads b

end Stage

namespace Operator

open Workspace (Calm)

variable {p : Failure → Prop} {op op' : Operator} {w v : Workspace} {s t u : Operator × Workspace}

/-- Every failure that an operator can meet is of a kind: its own ones, those of its input, and those
of the maker of its order. -/
structure Meets (p : Failure → Prop) (op : Operator) : Prop where
  own : ∀ e, e.Bare → p e
  input : ∀ q ∈ op.input.script, ∀ e, q.outcome = .error e → p e
  order : ∀ schema keys e, op.makeOrder schema keys = .error e → p e

/-- What working on a sort leaves alone. An event that was pulled ahead may be used up, and an order may
be made. -/
structure Advances (s t : Operator × Workspace) : Prop where
  name : t.1.name = s.1.name
  makeOrder : t.1.makeOrder = s.1.makeOrder
  failure : t.1.failure? = s.1.failure?
  released : t.1.released = s.1.released
  kills : t.1.input.kills = s.1.input.kills
  input : s.1.input.Draws t.1.input
  pending : t.1.pending? = s.1.pending? ∨ t.1.pending? = none
  order : s.1.order?.isSome → t.1.order?.isSome
  calm : Calm s.2 t.2

/-- What taking in leaves alone, the stage as well. -/
structure Stays (s t : Operator × Workspace) : Prop extends Advances s t where
  stage : t.1.stage = s.1.stage

instance : IsPreorder (Operator × Workspace) Advances where
  refl _ := ⟨rfl, rfl, rfl, rfl, rfl, Input.Draws.rfl, .inl rfl, id, refl_of Calm _⟩
  trans _ _ _ h h' :=
    ⟨h'.name.trans h.name, h'.makeOrder.trans h.makeOrder, h'.failure.trans h.failure,
      h'.released.trans h.released, h'.kills.trans h.kills, h.input.trans h'.input,
      h'.pending.elim (fun he => h.pending.imp he.trans he.trans) .inr, fun ho => h'.order (h.order ho),
      trans_of Calm h.calm h'.calm⟩

instance : IsPreorder (Operator × Workspace) Stays where
  refl s := ⟨refl_of Advances s, rfl⟩
  trans _ _ _ h h' :=
    ⟨trans_of Advances h.toAdvances h'.toAdvances, h'.stage.trans h.stage⟩

theorem Advances.script (h : Advances s t) : t.1.input.script <:+ s.1.input.script := by
  obtain ⟨n, hs, -⟩ := h.input
  exact hs ▸ List.drop_suffix n _

theorem Advances.meets (h : Advances s t) (hs : s.1.Meets p) : t.1.Meets p where
  own := hs.own
  input q hq := hs.input q (h.script.subset hq)
  order schema keys e he := hs.order schema keys e (h.makeOrder ▸ he)

theorem Advances.pending_none (h : Advances s t) (hs : s.1.pending? = none) :
    t.1.pending? = none :=
  h.pending.elim (fun he => he.trans hs) id

/-- The groups do not matter, and neither does an order that is made. -/
theorem Stays.of_shell (h : op'.shell = op.shell) (ho : op.order?.isSome → op'.order?.isSome)
    (hw : Calm w v) : Stays (op, w) (op', v) where
  name := (congrArg name h :)
  makeOrder := (congrArg makeOrder h :)
  failure := (congrArg failure? h :)
  released := (congrArg released h :)
  kills := (congrArg (fun op => op.input.kills) h :)
  input := by
    have hinput : op'.input = op.input := (congrArg Operator.input h :)
    exact hinput ▸ .rfl
  pending := .inl (congrArg pending? h :)
  order := ho
  calm := hw
  stage := (congrArg Operator.stage h :)

theorem Stays.of_bare (h : op'.bare = op.bare) (hw : Calm w v) : Stays (op, w) (op', v) := by
  refine .of_shell (shell_of_bare h) (fun ho => ?_) hw
  rwa [show op'.order? = op.order? from (congrArg order? h :)]

/-! ## Steps of the parts -/

section Parts

variable {α : Type}

theorem get_stays : Tries Stays p (get : OperatorWork Operator) s := refl_of Stays s

theorem action_stays {x : Action α} (hx : Moves Calm x s.2) :
    Tries Stays p (liftM x : OperatorWork α) s :=
  Stays.of_bare rfl hx

theorem rescue_stays {x : OperatorWork α} {cleanup : Action Unit} (hx : Tries Stays p x s)
    (hc : ∀ w, Moves Calm cleanup w) : Tries Stays p (Work.rescue x cleanup) s := by
  rw [Tries, Gives.rescue_layer_iff]
  refine Gives.mono hx (fun _ _ h => h) fun e t ht => ?_
  exact (hc t.2).mono fun _ w hw => ⟨trans_of Stays ht.1 (.of_bare rfl hw), ht.2⟩

end Parts

/-! ## Pulling and orders -/

/-- Pulling takes the next pull off the input, whatever else happens then. -/
theorem pull_gives : Gives pull
    (fun e t => t.1 = { s.1 with input := s.1.input.next.2 } ∧ Calm s.2 t.2 ∧
      s.1.input.next.1.outcome = .ok e)
    (fun e t => t.1 = { s.1 with input := s.1.input.next.2 } ∧ Calm s.2 t.2 ∧
      s.1.input.next.1.outcome = .error e) s := by
  have hcalm : Calm s.2 (s.1.input.next.1.after s.2) := Pull.after_moves ⟨rfl, id⟩
  exact gives_pull (fun _ he => ⟨rfl, hcalm, he⟩) fun _ he => ⟨rfl, hcalm, he⟩

theorem pull_stays (h : s.1.Meets p) : Tries Stays p pull s := by
  have hstays : ∀ {w : Workspace}, Calm s.2 w →
      Stays s ({ s.1 with input := s.1.input.next.2 }, w) := fun hw =>
    ⟨⟨rfl, rfl, rfl, rfl, s.1.input.next_kills, s.1.input.next_draws, .inl rfl, id, hw⟩, rfl⟩
  refine pull_gives.mono (fun e t ht => ?_) fun e t ht => ?_
  · obtain ⟨op, w⟩ := t
    obtain rfl : op = _ := ht.1
    exact hstays ht.2.1
  · obtain ⟨op, w⟩ := t
    obtain rfl : op = _ := ht.1
    exact ⟨hstays ht.2.1, h.input _ (Input.next_mem ht.2.2) e ht.2.2⟩

/-- Asking for the order leaves everything else alone. If it fails, then because the schema is another
one than before, or no order can be made for it. -/
theorem orderFor_gives (schema : Schema) : Gives (orderFor schema)
    (fun _ t => t.1.unordered = s.1.unordered ∧ t.1.order?.isSome ∧ Calm s.2 t.2 ∧
      (s.1.order? = none → ∃ order, s.1.makeOrder schema s.1.options.keys = .ok order))
    (fun e t => t.1.unordered = s.1.unordered ∧ t.1.order? = s.1.order? ∧ Calm s.2 t.2 ∧
      (s.1.order?.isSome ∧ (∃ text, e = .schemaChange text) ∨
        s.1.makeOrder schema s.1.options.keys = .error e)) s := by
  have hsome : ∀ {order : RowOrder}, s.1.order? = some order → s.1.order?.isSome := fun ho =>
    Option.isSome_iff_exists.mpr ⟨_, ho⟩
  refine gives_orderFor (fun order ho _ => ⟨rfl, hsome ho, refl_of Calm s.2, fun hnone => ?_⟩)
    (fun order ho _ => ⟨rfl, rfl, refl_of Calm s.2, .inl ⟨hsome ho, _, rfl⟩⟩)
    (fun order journal _ hmade => ⟨rfl, rfl, Workspace.Modest.journal .., fun _ => ⟨order, hmade⟩⟩)
    fun e _ hunmade => ⟨rfl, rfl, refl_of Calm s.2, .inr hunmade⟩
  exact absurd (ho.symm.trans hnone) nofun

theorem orderFor_stays (h : s.1.Meets p) (schema : Schema) : Tries Stays p (orderFor schema) s := by
  refine (orderFor_gives schema).mono (fun _ t ht => ?_) fun e t ht => ?_
  · exact .of_shell (shell_of_unordered ht.1) (fun _ => ht.2.1) ht.2.2.1
  · obtain ⟨hu, ho, hw, hcause⟩ := ht
    refine ⟨.of_shell (shell_of_unordered hu) (fun hsome => ho ▸ hsome) hw, ?_⟩
    rcases hcause with ⟨-, text, rfl⟩ | hmade
    · exact h.own _ trivial
    · exact h.order _ _ e hmade

/-! ## Taking in -/

theorem spill_stays (h : s.1.Meets p) (reason : SpillReason) : Tries Stays p (spill reason) s := by
  have hnoted : ∀ journal, Calm s.2 { s.2 with journal } := Workspace.Modest.journal s.2
  refine gives_spill (fun _ => refl_of Stays s) (fun _ journal _ _ => .of_bare rfl (hnoted journal))
    fun order journal _ _ => ?_
  refine Gives.mono (mergeAndSpill_tries (r := Calm) ..) (fun made? w hw => ?_) fun e w hw => ?_
  · cases made? with
    | none => exact .of_bare rfl (trans_of Calm (hnoted journal) hw)
    | some made => exact .of_bare rfl (trans_of Calm (hnoted journal) hw)
  · exact ⟨.of_bare rfl (trans_of Calm (hnoted journal) hw.1), h.own e hw.2⟩

theorem relieveInput_stays (h : s.1.Meets p) : Tries Stays p relieveInput s := by
  have hnoted : ∀ journal, Stays s
      ({ s.1 with monitor := s.1.monitor.onOutOfMemory.2 }, { s.2 with journal }) := fun journal =>
    .of_bare rfl (Workspace.Modest.journal ..)
  refine gives_relieveInput (fun journal _ => ?_) hnoted
  exact (spill_stays ((hnoted journal).meets h) _).behind (hnoted journal)

theorem trySelection_stays (rows : Nat) : Moves Stays (trySelection rows) s :=
  Stays.of_bare rfl (Workspace.withLedger_moves (RowSelection.allocate rows s.1.tracker))

theorem allocateSelection_stays (h : s.1.Meets p) (rows : Nat) :
    Tries Stays p (allocateSelection rows) s := by
  have hnoted : ∀ (s : Operator × Workspace) journal, Stays s (s.1, { s.2 with journal }) :=
    fun s _ => .of_bare rfl (Workspace.Modest.journal s.2 _)
  refine Gives.mono (gives_allocateSelection (Q := Stays s) (refl_of Stays s) fun journal =>
    (spill_stays ((hnoted s journal).meets h) _).behind (hnoted s journal)) (fun v t ht => ?_)
      fun e t ht => ?_
  · obtain ⟨u, hu, hgranted⟩ := ht
    exact trans_of Stays hu (hgranted.holds fun journal =>
      (trySelection_stays rows).mono fun _ _ ht _ _ => trans_of Stays (hnoted u journal) ht)
  · rcases ht with ht | ⟨u, hu, cause, journal, -, rfl, rfl⟩
    · exact ht
    · exact ⟨trans_of Stays hu (hnoted u journal), h.own _ trivial⟩

theorem keepSlice_stays (h : s.1.Meets p) (order : RowOrder) (chunk : Chunk) :
    Tries Stays p (keepSlice order chunk) s := by
  refine gives_keepSlice (allocateSelection_stays h _) (fun v t ht => ?_) fun e t ht => ?_
  · refine Gives.mono (SortedRun.sort_tries (r := Calm) ..) (fun run w hw => ?_) fun e w hw => ?_
    · have hkept : Stays t (t.1.keeping run, w) := .of_bare rfl hw
      have hcounts : Moves Calm (countKept t.1 run) w :=
        .bind (Workspace.count_moves ..) fun _ _ _ => Workspace.count_moves ..
      exact hcounts.mono fun _ x hx =>
        trans_of Stays ht (trans_of Stays hkept (.of_bare rfl hx))
    · refine (Workspace.dropAll_moves (r := Calm) _).mono fun _ x hx => ?_
      refine (chunk.drop_moves (r := Calm)).mono fun _ y hy => ⟨trans_of Stays ht ?_, h.own e hw.2⟩
      exact .of_bare rfl (trans_of Calm hw.1 (trans_of Calm hx hy))
  · exact (chunk.drop_moves (r := Calm)).mono fun _ w hw =>
      ⟨trans_of Stays ht.1 (.of_bare rfl hw), ht.2⟩

theorem relieve_stays (h : s.1.Meets p) : Tries Stays p relieve s :=
  gives_relieve (fun _ => spill_stays h _) (refl_of Stays s)

theorem stageSlices_stays (h : s.1.Meets p) (order : RowOrder) (chunk : Chunk)
    (slices : List (Nat × Nat)) : Tries Stays p (stageSlices order chunk slices) s := by
  induction slices generalizing s with
  | nil => exact .pure
  | cons slice slices ih =>
    refine .bind (action_stays (Workspace.withLedger_moves _)) fun _ t ht => ?_
    have h := ht.meets h
    refine .bind (.bind (keepSlice_stays h ..) fun _ u hu => relieve_stays (hu.meets h))
      fun _ u hu => ih (hu.meets h)

theorem addBatch_stays (h : s.1.Meets p) (chunk : Chunk) : Tries Stays p (addBatch chunk) s := by
  have hdropped : ∀ {c : Chunk} {e : Failure} {t : Operator × Workspace}, Stays s t ∧ p e →
      Ensures (Workspace.onLedger c.drop) (fun _ w => Stays s (t.1, w) ∧ p e) t.2 := fun ht =>
    (Chunk.drop_moves (r := Calm) _).mono fun _ w hw => ⟨trans_of Stays ht.1 (.of_bare rfl hw), ht.2⟩
  refine gives_addBatch (Gives.mono (orderFor_stays h _) (fun order t ht => ?_) fun _ _ => hdropped)
  refine ⟨fun _ => ?_, fun _ => ?_⟩
  · exact (chunk.drop_moves (r := Calm)).mono fun _ w hw => trans_of Stays ht (.of_bare rfl hw)
  · refine (Workspace.withLedger_moves (r := Calm) _).mono fun moved w hw => ?_
    have hmoved : Stays s (t.1, w) := trans_of Stays ht (.of_bare rfl hw)
    refine ((stageSlices_stays (hmoved.meets h) ..).behind hmoved).mono (fun _ u hu => ?_)
      fun _ _ => hdropped
    exact (moved.drop_moves (r := Calm)).mono fun _ x hx => trans_of Stays hu (.of_bare rfl hx)

/-- No event waits any more once the next one was taken. -/
theorem nextEvent_stays (h : s.1.Meets p) :
    Brings Stays p nextEvent (fun _ t => t.1.pending? = none) s := by
  have hforgot : Stays s ({ s.1 with pending? := none }, s.2) :=
    ⟨⟨rfl, rfl, rfl, rfl, rfl, Input.Draws.rfl, .inr rfl, id, refl_of Calm s.2⟩, rfl⟩
  refine gives_nextEvent (fun _ _ => ⟨hforgot, rfl⟩) fun _ => ?_
  refine (((pull_stays (hforgot.meets h)).behind hforgot).and pull_gives).mono
    (fun _ _ ht => ⟨ht.1, ?_⟩) fun _ _ ht => ht.1
  exact (congrArg Operator.pending? ht.2.1 :)

/-- Nothing waits any more once the input was asked at all. -/
theorem ingest_stays (h : s.1.Meets p) (count : Nat) :
    Brings Stays p (ingest count) (fun _ t => count ≠ 0 → t.1.pending? = none) s := by
  induction count generalizing s with
  | zero => exact .pure fun hne => absurd rfl hne
  | succ count ih =>
    have hasked : ∀ t : Operator × Workspace,
        Stays t ({ t.1 with input := t.1.input.takePressure.2 }, t.2) := fun t =>
      ⟨⟨rfl, rfl, rfl, rfl, rfl, Input.Draws.rfl, .inl rfl, id, refl_of Calm t.2⟩, rfl⟩
    refine gives_ingest_succ (Q := fun _ t => Stays s t ∧ t.1.pending? = none)
      (R := fun _ t => Stays s t ∧ t.1.pending? = none)
      ((Workspace.cancelled_moves (r := Calm)).mono fun raised w hw => ?_)
      (fun e t ht => ⟨trans_of Stays ht.1 (hasked t), ht.2⟩) (fun e t ht => ?_) fun e t ht => ?_
    · have hlooked : Stays s (s.1, w) := .of_bare rfl hw
      exact ⟨fun _ => ⟨hlooked, h.own _ trivial⟩,
        fun _ => (nextEvent_stays (hlooked.meets h)).behind hlooked⟩
    · have ht' := trans_of Stays ht.1 (hasked t)
      refine Gives.mono (relieveInput_stays (ht'.meets h)) (fun _ u hu => ?_) fun f u hu => ?_
      · exact ⟨trans_of Stays ht' hu, (trans_of Stays (hasked t) hu).pending_none ht.2⟩
      · refine (Workspace.dropAll_moves (r := Calm) _).mono fun _ w hw => ⟨?_, hu.2⟩
        exact trans_of Stays ht' (trans_of Stays hu.1 (.of_bare rfl hw))
    · cases e with
      | batch chunk =>
        rw [stageEvent, Gives.bind_iff]
        refine Gives.mono (addBatch_stays (ht.1.meets h) chunk) (fun _ u hu => ?_)
          fun f u hu => ⟨trans_of Stays ht.1 hu.1, hu.2⟩
        have hsu := trans_of Stays ht.1 hu
        refine Gives.mono (ih (hsu.meets h)) (fun _ v hv => ?_)
          fun f v hv => ⟨trans_of Stays hsu hv.1, hv.2⟩
        exact ⟨trans_of Stays hsu hv.1, fun _ => (trans_of Stays hu hv.1).pending_none ht.2⟩
      | endOfInput => exact Gives.pure_iff.mpr ⟨ht.1, fun _ => ht.2⟩
      | stop => exact Gives.pure_iff.mpr ⟨ht.1, fun _ => ht.2⟩
      | notYet => exact Gives.throw_iff.mpr ⟨ht.1, h.own _ trivial⟩

/-! ## Handing out -/

/-- Handing out concerns the groups, the stage, and the account of what was handed out. -/
theorem Advances.serves {resident spilled : Array SortedGroup} {stage : Stage} {rowsReturned : Nat}
    {schemaEmitted : Bool} (hw : Calm s.2 w) :
    Advances s ({ s.1 with resident, spilled, stage, rowsReturned, schemaEmitted }, w) :=
  ⟨rfl, rfl, rfl, rfl, rfl, Input.Draws.rfl, .inl rfl, id, hw⟩

theorem enter_advances (h : Advances s t) (stage : Stage) :
    Ensures (enter stage) (fun _ u => Advances s u ∧ u.1 = { t.1 with stage }) t := by
  refine (enter_moves (r := Calm) stage).mono fun _ u hu => ?_
  obtain ⟨op, w⟩ := u
  obtain rfl : op = _ := hu.1
  exact ⟨trans_of Advances h (.serves hu.2), rfl⟩

theorem mergeStreams_advances (h : s.1.Meets p) (order : RowOrder) (groups : List SortedGroup) :
    Brings Advances p (mergeStreams order groups)
      (fun _ t => t.1.stage.Merges ∧ t.1.order? = s.1.order?) s := by
  refine gives_mergeStreams fun journal => ?_
  have hnoted : Calm s.2 { s.2 with journal } := Workspace.Modest.journal ..
  refine Gives.mono (Merger.ofGroups_tries (r := Calm) ..) (fun m w hw => ?_) fun e w hw => ?_
  · refine (enter_advances (.serves (trans_of Calm hnoted hw)) _).mono fun _ t ht => ⟨ht.1, ?_⟩
    show t.1.stage.Merges ∧ t.1.order? = s.1.order?
    rw [ht.2]
    exact ⟨trivial, rfl⟩
  · exact ⟨.serves (trans_of Calm hnoted hw.1), h.own e hw.2⟩

/-- What was taken in is merged under its order, or there is nothing. -/
theorem finalize_advances (h : s.1.Meets p) : Brings Advances p finalize
    (fun _ t => t.1.stage.Merges ∧ t.1.order?.isSome ∨ t.1.stage = .done) s := by
  have hstreams : ∀ {order : RowOrder} {groups : List SortedGroup} {w : Workspace},
      s.1.order? = some order → Calm s.2 w → Gives (mergeStreams order groups)
        (fun _ t => Advances s t ∧ (t.1.stage.Merges ∧ t.1.order?.isSome ∨ t.1.stage = .done))
        (fun e t => Advances s t ∧ p e) ({ s.1 with resident := #[], spilled := #[] }, w) := by
    intro order groups w ho hw
    have hmerged : Advances s ({ s.1 with resident := #[], spilled := #[] }, w) := .serves hw
    refine ((mergeStreams_advances (hmerged.meets h) order groups).behind hmerged).mono
      (fun _ t ht => ⟨ht.1, .inl ⟨ht.2.1, ?_⟩⟩) fun _ _ ht => ht
    exact Option.isSome_iff_exists.mpr ⟨order, ht.2.2.trans ho⟩
  refine gives_finalize (fun _ => ?_) (fun _ _ => ⟨refl_of Advances s, h.own _ trivial⟩)
    (fun order _ ho _ => ?_) fun order _ ho _ => hstreams ho (refl_of Calm s.2)
  · refine (enter_advances (refl_of Advances s) _).mono fun _ t ht => ⟨ht.1, .inr ?_⟩
    rw [ht.2]
  · refine Gives.mono (MemoryMerge.build_tries (r := Calm) ..) (fun attempt w hw journal => ?_)
      fun e w hw => ⟨.serves hw.1, h.own e hw.2⟩
    have hnoted : Calm s.2 { w with journal } := trans_of Calm hw (Workspace.Modest.journal ..)
    cases attempt with
    | merged m =>
      refine (enter_advances (.serves hnoted) _).mono fun _ t ht => ⟨ht.1, .inl ?_⟩
      rw [ht.2]
      exact ⟨trivial, Option.isSome_iff_exists.mpr ⟨order, ho⟩⟩
    | refused reason => exact hstreams ho hnoted

/-- An output comes from a final merge, which goes on with what is left of it. -/
theorem output_advances (h : s.1.Meets p) :
    Brings Advances p output (fun o? t => o?.isSome → s.1.stage.Resumes t.1.stage) s := by
  refine gives_output (fun m hs => ?_) (fun m rows hs => ?_)
    (fun _ => ⟨refl_of Advances s, fun hsome => by cases hsome⟩)
    fun _ => ⟨refl_of Advances s, h.own _ trivial⟩
  · refine (m.nextWindow_moves (r := Calm) _).mono fun r w hw => ⟨.serves hw, fun _ => ?_⟩
    rw [hs]
    exact ⟨trivial, Nat.le_refl _, fun _ => rfl⟩
  · refine Gives.mono (Merger.nextChunk_tries (r := Calm) rows) (fun chunk? t ht => ?_)
      fun e t ht => ⟨.serves ht.1.2, h.own e ht.2⟩
    cases chunk? with
    | none => exact ⟨.serves ht.2, fun hsome => by cases hsome⟩
    | some chunk =>
      refine (chunk.drop_moves (r := Calm)).mono fun _ w hw =>
        ⟨.serves (trans_of Calm ht.2 hw), fun _ => ?_⟩
      rw [hs]
      exact ⟨trivial, Nat.le_refl _, fun _ => rfl⟩

/-- Serving ends with an output of a final merge, or it is done. -/
theorem serve_advances (h : s.1.Meets p) : Brings Advances p serve
    (fun poll t => if poll.output?.isSome then s.1.stage.Resumes t.1.stage else t.1.stage = .done)
    s := by
  refine gives_serve (Gives.mono (output_advances h) (fun o? t ht => ?_) fun _ _ ht => ht)
  cases o? with
  | some o =>
    refine ⟨trans_of Advances ht.1 (.serves (refl_of Calm t.2)), ?_⟩
    have hm : s.1.stage.Resumes t.1.stage := ht.2 rfl
    cases t.1.schemaEmitted with
    | false => exact hm
    | true => exact hm
  | none =>
    intro journal _
    have hnoted : Advances t (t.1, { t.2 with journal }) := .serves (Workspace.Modest.journal ..)
    refine (enter_advances (trans_of Advances ht.1 hnoted) _).mono fun _ u hu => ⟨hu.1, ?_⟩
    show u.1.stage = .done
    rw [hu.2]

/-- Everything is let go of, and a final merge is done with that. -/
theorem releaseGroups_gives :
    Ensures releaseGroups (fun _ t => t.1 = s.1.emptied ∧ Calm s.2 t.2) s := by
  unfold releaseGroups
  simp only [Ensures.bind_iff, Ensures.modifyGet_layer_iff, Ensures.lift_layer_iff,
    Ensures.get_layer_iff]
  refine (Workspace.dropAll_moves (r := Calm) _).mono fun _ w hw => ?_
  refine (SortedGroup.dropAll_moves (r := Calm) _).mono fun _ w' hw' => ?_
  refine (SortedGroup.dropAll_moves (r := Calm) _).mono fun _ v hv => ?_
  have hcalm : Calm s.2 v := trans_of Calm hw (trans_of Calm hw' hv)
  have henter : ∀ {op : Operator}, Ensures (enter .done)
      (fun _ t => t.1 = { op with stage := .done } ∧ Calm s.2 t.2) (op, v) := fun {op} =>
    (enter_moves (r := Calm) .done).mono fun _ t ht => ⟨ht.1, trans_of Calm hcalm ht.2⟩
  unfold emptied
  cases s.1.stage with
  | finalMemory m => exact henter
  | finalMerge m rows => exact henter
  | _ => exact Ensures.pure_iff.mpr ⟨rfl, hcalm⟩

theorem releaseGroups_advances :
    Ensures releaseGroups (fun _ t => Advances s t ∧ t.1.pending? = none) s := by
  refine releaseGroups_gives.mono fun _ t ht => ?_
  obtain ⟨op, w⟩ := t
  obtain rfl : op = _ := ht.1
  exact ⟨⟨rfl, rfl, rfl, rfl, rfl, Input.Draws.rfl, .inr rfl, id, ht.2⟩, rfl⟩

/-- An operator in its final merge, with nothing left to take in. -/
structure Merging (op : Operator) : Prop where
  stage : op.stage.Merges
  pending : op.pending? = none
  order : op.order?.isSome

/-- After taking in nothing waits any more; either there is a final merge, or the sort is done. -/
theorem takeIn_advances (h : s.1.Meets p) (hs : s.1.stage = .uninitialized ∨ s.1.Merging) :
    Brings Advances p takeIn
      (fun goesOn t => t.1.Merging ∧ s.1.stage.Leads t.1.stage ∧ goesOn ∨
        t.1.pending? = none ∧ t.1.stage = .done) s := by
  rcases hs with hs | hm
  · have hbegun : Advances s ({ s.1 with stage := .ingesting }, s.2) := .serves (refl_of Calm s.2)
    refine gives_takeIn hs (Gives.mono (ingest_stays (hbegun.meets h) _) (fun ended t ht => ?_)
      fun e t ht => ⟨trans_of Advances hbegun ht.1.toAdvances, ht.2⟩)
    have hnone : t.1.pending? = none := ht.2 (Nat.succ_ne_zero _)
    have ht : Advances s t := trans_of Advances hbegun ht.1.toAdvances
    split
    · refine Gives.mono (finalize_advances (ht.meets h)) (fun _ u hu => ?_)
        fun e u hu => ⟨trans_of Advances ht hu.1, hu.2⟩
      have hnone := hu.1.pending_none hnone
      refine ⟨trans_of Advances ht hu.1, hu.2.imp (fun hm => ?_) fun hdone => ⟨hnone, hdone⟩⟩
      refine ⟨⟨hm.1, hnone, hm.2⟩, .of_lt ?_, rfl⟩
      rw [hs, Stage.rank_of_merges hm.1]
      exact Nat.zero_lt_two
    · refine releaseGroups_advances.mono fun _ u hu => ?_
      refine (enter_advances (trans_of Advances ht hu.1) _).mono fun _ v hv => ⟨hv.1, .inr ?_⟩
      rw [hv.2]
      exact ⟨hu.2, rfl⟩
  · refine gives_takeIn_later ?_ ⟨refl_of Advances s, .inl ⟨hm, .rfl, rfl⟩⟩
    have hmerges := hm.stage
    unfold Stage.Merges at hmerges
    split at hmerges
    · next hs => rw [hs]; exact ⟨nofun, nofun⟩
    · next hs => rw [hs]; exact ⟨nofun, nofun⟩
    · exact hmerges.elim

/-- What an answer to a pull leaves: an output comes from a final merge, which goes on, and without one
the sort is done. -/
def Leaves (before : Stage) (poll : Poll) (op : Operator) : Prop :=
  if poll.output?.isSome then op.Merging ∧ before.Leads op.stage
  else op.pending? = none ∧ op.stage = .done

theorem step_advances (h : s.1.Meets p) (hs : s.1.stage = .uninitialized ∨ s.1.Merging) :
    Brings Advances p step (fun poll t => t.1.Leaves s.1.stage poll) s := by
  refine gives_step (Gives.mono (takeIn_advances h hs) (fun goesOn t ht => ?_) fun _ _ ht => ht)
  obtain ⟨ht, ⟨hm, hleads, rfl⟩ | ⟨hnone, hdone⟩⟩ := ht
  · refine Gives.mono (serve_advances (ht.meets h)) (fun poll u hu => ?_)
      fun e u hu => ⟨trans_of Advances ht hu.1, hu.2⟩
    obtain ⟨hu, hpoll⟩ := hu
    refine ⟨trans_of Advances ht hu, ?_⟩
    unfold Leaves
    split at hpoll
    · next hsome =>
      rw [if_pos hsome]
      exact ⟨⟨hpoll.merges, hu.pending_none hm.pending, hu.order hm.order⟩, hleads.trans hpoll.leads⟩
    · next hnone =>
      rw [if_neg hnone]
      exact ⟨hu.pending_none hm.pending, hpoll⟩
  · split
    · refine (serve_done hdone).mono (fun poll u hu => ?_) fun _ _ hf => hf.elim
      obtain ⟨rfl, rfl⟩ := hu
      exact ⟨ht, hnone, hdone⟩
    · exact ⟨ht, hnone, hdone⟩

end Operator

end SpillSort
