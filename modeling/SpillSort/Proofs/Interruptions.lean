import Mathlib.Logic.Relation
import SpillSort.Proofs.Phases
import SpillSort.Proofs.Reliable
import SpillSort.Proofs.StagingStates

/-!
# What can interrupt a spill

Slices lie in memory, so merging them reads no file back and always succeeds. A spill of slices
fails only if the disk refuses the file or if the cancel flag was raised meanwhile.

* `Workspace.Happens` is one thing that happens in a workspace while a sort takes in, and
  `Workspace.Runs` any number of them.
* `Failure.Strikes` says which failures a workspace has in store whatever the input is, and
  `Failure.Interrupts` that a run came by such a workspace.
* `Merger.Unspilled` says that a merge reads no files; `Merger.Ready` that it can go on.
* `Merger.nextChunk_ready` never fails, `mergeAndSpill_withstands` only if something interrupts it.
-/

namespace SpillSort

open Memory Spill

/-! ## Runs of a workspace -/

namespace Workspace

/-- One thing that happens in a workspace while a sort takes in. Bytes are charged, shared, moved to
another tracker and given back. The disk is asked for a trouble; the next spill file gets its path,
is made unless there is a trouble, written to, and removed. The flag is looked at, something is
noted or counted. A pull of the input is over, with what others did meanwhile. -/
inductive Happens (pulls : List Pull) (w : Workspace) : Workspace → Prop where
  | charge (id : TrackerId) (bytes : Int64) :
    Happens pulls w { w with ledger := (w.ledger.charge id bytes).2 }
  | share (c : ChargeId) : Happens pulls w { w with ledger := w.ledger.share c }
  | move (c : ChargeId) (id : TrackerId) :
    Happens pulls w { w with ledger := w.ledger.transfer c id }
  | drop (c : ChargeId) : Happens pulls w { w with ledger := w.ledger.drop c }
  | trouble : Happens pulls w { w with disk := w.disk.nextTrouble.2 }
  | name : Happens pulls w w.named
  | create {d disk : Disk} {c : ContentId} (h : w.disk.nextTrouble = (none, d))
    (hc : d.createFile w.nextPath = .ok (c, disk)) : Happens pulls w { w.named with disk }
  | write (c : ContentId) (bytes : ByteArray) :
    Happens pulls w { w with disk := w.disk.write c bytes }
  | remove {path : String} {disk : Disk} (h : w.disk.removeFile path = .ok disk) :
    Happens pulls w { w with disk }
  | look : Happens pulls w { w with cancel := w.cancel.look.2 }
  | note (journal : Array Notice) : Happens pulls w { w with journal }
  | count (path : List String) (k : String) (f : Counter → Counter) :
    Happens pulls w ((count path k f).run w).2
  | pull {p : Pull} (hp : p ∈ pulls) : Happens pulls w (p.after w)

/-- One thing after the other leads from a workspace to another. -/
def Runs (pulls : List Pull) : Workspace → Workspace → Prop :=
  Relation.ReflTransGen (Happens pulls)

variable {pulls : List Pull} {w v : Workspace}

theorem Happens.runs (h : Happens pulls w v) : Runs pulls w v := Relation.ReflTransGen.single h

instance : IsPreorder Workspace (Runs pulls) where
  refl _ := Relation.ReflTransGen.refl
  trans _ _ _ := Relation.ReflTransGen.trans

instance : Routine (Runs pulls) where
  drop _ c := (Happens.drop c).runs
  charge _ id bytes := (Happens.charge id bytes).runs
  trouble _ := Happens.trouble.runs
  remove h := (Happens.remove h).runs
  named _ := Happens.name.runs
  look _ := Happens.look.runs
  journal _ journal := (Happens.note journal).runs
  create h hc := (Happens.create h hc).runs
  write _ c bytes := (Happens.write c bytes).runs
  count _ k f := (Happens.count ["Spill"] k f).runs

theorem count_runs (path : List String) (k : String) (f : Counter → Counter) :
    Moves (Runs pulls) (count path k f) w :=
  (Happens.count path k f).runs

theorem slice_runs (chunk : Chunk) (offset length : Nat) :
    Moves (Runs pulls) (withLedger (chunk.slice offset length)) w := by
  show Runs pulls w { w with ledger := w.ledger.shareAll chunk.charge?.toList }
  cases chunk.charge? with
  | none => exact refl_of (Runs pulls) w
  | some c => exact (Happens.share c).runs

theorem transfer_runs (chunk : Chunk) (tracker : TrackerId) :
    Moves (Runs pulls) (withLedger (chunk.transfer tracker)) w := by
  simp only [Moves, withLedger, Chunk.transfer, Ensures.modifyGet_iff]
  split
  · exact (Happens.move _ tracker).runs
  · split
    · exact refl_of (Runs pulls) w
    · exact (Happens.charge tracker _).runs

theorem Happens.raised (h : Happens pulls w v) (hw : w.cancel.raised) : v.cancel.raised := by
  cases h with
  | look => simp [CancelFlag.look, hw]
  | @pull p hp =>
    unfold Pull.after
    cases p.cancels with
    | true => rfl
    | false => exact hw
  | _ => exact hw

/-- A flag that was raised stays so. -/
theorem Runs.raised (h : Runs pulls w v) (hw : w.cancel.raised) : v.cancel.raised := by
  induction h with
  | refl => exact hw
  | tail _ h ih => exact h.raised ih

end Workspace

open Workspace (Runs Happens)

/-! ## Interruptions -/

/-- What the interruptions of a sort depend on: the workspace it begins in, the pulls of its input,
its tracker, and the most rows of a chunk it spills. -/
structure Circumstances where
  start : Workspace
  pulls : List Pull
  tracker : TrackerId
  longest : Nat

/-- A workspace that a run may come by. -/
def Circumstances.Reached (C : Circumstances) (w : Workspace) : Prop := Runs C.pulls C.start w

/-- What fails in a workspace whatever the input is: a selection is refused, the disk has a trouble,
refuses the next spill file or has no more room in one, the flag is up. And a chunk may be too long
for its file, if chunks may be as long. -/
inductive Failure.Strikes (C : Circumstances) (w : Workspace) : Failure → Prop where
  | memory {rows : Nat} {e : LimitExceeded}
    (h : (RowSelection.allocate rows C.tracker w.ledger).1 = .error e) : Strikes C w (.outOfMemory
      s!"unable to allocate sv2 for {rows} rows after repeated attempts: {e.message}")
  | trouble {fault : DiskFault} {d : Disk} (context : String)
    (h : w.disk.nextTrouble = (some fault, d)) : Strikes C w (.io context fault)
  | refused {fault : DiskFault} {d : Disk} (h : w.disk.nextTrouble = (none, d))
    (hc : d.createFile w.nextPath = .error fault) :
    Strikes C w (.io s!"create spill file {w.nextPath}" fault)
  | full {x : Writer} {bs : List Batch} {b : Batch} (h : x.Holds bs)
    (hfull : farthestSeek ≤ x.written + (MessageFormat.encode x.codec b).length) :
    Strikes C w (.io s!"write spill file {x.path}" .fileTooLarge)
  | length {rows : Nat} (hlong : Writer.mostRows < rows) (hshort : rows ≤ C.longest) :
    Strikes C w (.unsupported s!"spill batch of {rows} rows")
  | cancelled (h : w.cancel.raised) : Strikes C w .cancelled

/-- A run came by a workspace in which the failure struck. -/
def Failure.Interrupts (C : Circumstances) (v : Workspace) (e : Failure) : Prop :=
  ∃ u, C.Reached u ∧ e.Strikes C u ∧ Runs C.pulls u v

variable {C : Circumstances} {w v : Workspace} {R : Resources} {order : RowOrder} {e : Failure}

namespace Circumstances.Reached

theorem runs (h : C.Reached w) (hv : Runs C.pulls w v) : C.Reached v :=
  trans_of (Runs C.pulls) h hv

theorem strikes (h : C.Reached w) (he : e.Strikes C w) : e.Interrupts C w :=
  ⟨w, h, he, refl_of (Runs C.pulls) w⟩

/-- An action that cannot fail leads on. -/
theorem after {α : Type} {x : Action α} (h : C.Reached w) (hx : Moves (Runs C.pulls) x w) :
    Ensures x (fun _ v => C.Reached v) w :=
  hx.mono fun _ _ hv => h.runs hv

end Circumstances.Reached

namespace Failure.Interrupts

theorem runs (h : e.Interrupts C w) (hv : Runs C.pulls w v) : e.Interrupts C v := by
  obtain ⟨u, hu, he, huw⟩ := h
  exact ⟨u, hu, he, trans_of (Runs C.pulls) huw hv⟩

/-- Cleaning up does not change what interrupted a step. -/
theorem after {α : Type} {x : Action α} (h : e.Interrupts C w) (hx : Moves (Runs C.pulls) x w) :
    Ensures x (fun _ v => e.Interrupts C v) w :=
  hx.mono fun _ _ hv => h.runs hv

/-- A step was cancelled because the flag was up. -/
theorem raised (h : e.Interrupts C w) (hc : e.isCancelled) : w.cancel.raised := by
  obtain ⟨u, -, he, huw⟩ := h
  cases he with
  | cancelled hup => exact huw.raised hup
  | _ => cases hc

end Failure.Interrupts

/-- What owns no files does so on any disk. -/
theorem Owns.careless_self (hR : R.files = 0) : Owns (.careless w.disk) w (R + 0) := by
  refine Owns.careless_iff.mpr ⟨[], ?_, .nil _⟩
  rw [add_zero, hR]
  rfl

/-! ## Slices -/

/-- A selection that was allocated has the rows as they lie. -/
theorem RowSelection.offsets_allocate {rows : Nat} {tracker : TrackerId}
    {l : Ledger} {v : RowSelection} (h : (RowSelection.allocate rows tracker l).1 = .ok v) :
    v.offsets = RowSelection.identityOffsets rows := by
  simp only [RowSelection.allocate] at h
  cases hc : (l.tryCharge tracker (clampBytes (RowSelection.bytesFor rows))).1 with
  | error e =>
    rw [hc] at h
    cases h
  | ok c =>
    rw [hc] at h
    obtain rfl := Except.ok.inj h
    rfl

/-- Sorting a slice through a selection that covers it succeeds. -/
theorem SortedRun.sort_succeeds {chunk : Chunk} {selection : RowSelection}
    (hoffsets : selection.offsets = RowSelection.identityOffsets chunk.length)
    (hsmall : chunk.length ≤ maxSelectionRows) (hschema : chunk.batch.schema = order.schema)
    (tracker : TrackerId) :
    Gives (SortedRun.sort order chunk selection tracker) (fun _ _ => True)
      (fun _ _ => False) w := by
  have hsize : selection.offsets.size = chunk.length := by
    rw [hoffsets, ← Array.length_toList, RowSelection.identityOffsets_eq hsmall, List.length_range]
  obtain ⟨keys, hkeys⟩ := order.encode_eq hschema
  unfold SortedRun.sort
  rw [if_neg (not_not_intro hsize)]
  simp only [Gives.bind_iff, Gives.except_iff, hkeys, Except.mapError, Gives.lift_iff]
  exact .of_forall fun _ _ => trivial

/-! ## Merges in memory -/

namespace Merger

variable {m : Merger} {s : Merger × Workspace} {xs : List Source} {away : Nat → Prop}

/-- None of the groups is on disk. -/
def Unspilled (m : Merger) : Prop := ∀ g ∈ m.groups, g.spilled? = none

/-- A merge of groups in memory can be started. -/
theorem ofGroups_unspilled {groups : List SortedGroup} (h : ∀ g ∈ groups, g.spilled? = none)
    (order : RowOrder) (tracker : TrackerId) :
    Gives (ofGroups order tracker groups) (fun m _ => m.Unspilled) (fun _ _ => False) w :=
  Gives.mono (ofGroups_reliable reliable_unspilled h tracker) (fun _ _ hm => hm.1) fun _ _ hf => hf

/-- Without groups on disk a merge owns no files. -/
theorem Holds.files_eq (h : m.Holds order xs away R) (hu : m.Unspilled) : R.files = 0 := by
  have hgroups : ∀ x ∈ xs, x.group.spilled? = none := by
    intro x hx
    refine hu x.group (Array.mem_toList_iff.mp ?_)
    rw [h.has.groups]
    exact List.mem_map_of_mem hx
  have hparts := h.parts
  clear h hu
  induction hparts with
  | nil => rfl
  | @cons x xs S T hx _ ih =>
    obtain ⟨hnone, hrest⟩ := List.forall_mem_cons.mp hgroups
    obtain ⟨U, hU, rfl⟩ := hx.group
    have hkeeps := hU.keeps
    rw [SortedGroup.Keeps, hnone] at hkeeps
    obtain rfl : U = .charges x.group.charges := hkeeps
    simp [ih hrest]

/-- The merge reads groups in memory, and all of its sources are there. -/
structure Ready (order : RowOrder) (m : Merger) : Prop where
  unspilled : m.Unspilled
  holds : ∃ xs R, m.Holds order xs (fun _ => False) R

/-- The next chunk of a merge in memory can always be made. -/
theorem nextChunk_ready (h : m.Ready order) (hfields : order.schema.fields ≠ []) (maxRows : Nat) :
    Gives (nextChunk maxRows)
      (fun c? t => ∀ c ∈ c?, c.batch.schema = order.schema ∧ c.length ≤ max maxRows 1 ∧
        t.1.Ready order)
      (fun _ _ => False) (m, w) := by
  obtain ⟨xs, R, hm⟩ := h.holds
  have howns : Owns (.careless w.disk) w (R + 0) := .careless_self (hm.files_eq h.unspilled)
  refine (nextChunk_reliable reliable_unspilled hm h.unspilled hfields howns maxRows).mono
    (fun c? t ht => ?_) fun _ _ hf => hf
  obtain ⟨hmerged, hu, -⟩ := ht
  intro c hc
  obtain rfl := Option.mem_def.mp hc
  obtain ⟨ys, R', -, hschema, -, hlength, ht, -⟩ := hmerged
  exact ⟨hschema, hlength ▸ Nat.min_le_left _ _, hu, ys, R', ht⟩

end Merger

/-! ## Steps that are interrupted -/

/-- A step of a run fails only if something interrupts it. -/
def Withstands {α : Type} (C : Circumstances) (x : Work α) (w : Workspace) : Prop :=
  Gives x (fun _ v => C.Reached v) (fun e v => e.Interrupts C v) w

namespace Withstands

variable {α β : Type}

theorem bind {x : Work α} {f : α → Work β} (hx : Withstands C x w)
    (hf : ∀ a v, C.Reached v → Withstands C (f a) v) : Withstands C (x >>= f) w := by
  rw [Withstands, Gives.bind_iff]
  exact Gives.mono hx (fun a v hv => hf a v hv) fun _ _ he => he

theorem lift {x : Action α} (hw : C.Reached w) (hx : Moves (Runs C.pulls) x w) :
    Withstands C (liftM x : Work α) w :=
  Gives.lift_iff.mpr (hw.after hx)

end Withstands

theorem Work.brace_withstands (hw : C.Reached w) (context : String) :
    Withstands C (brace context) w := by
  have htrouble : Runs C.pulls w { w with disk := w.disk.nextTrouble.2 } := Happens.trouble.runs
  refine gives_brace (fun d hd => ?_) fun fault d hd => ?_
  · rw [hd] at htrouble
    exact hw.runs htrouble
  · rw [hd] at htrouble
    exact (hw.strikes (.trouble context hd)).runs htrouble

namespace Spill.Writer

/-- A file is made, unless the disk has a trouble or refuses it. -/
theorem create_withstands (hw : C.Reached w) (schema : Schema) :
    Withstands C (create schema) w := by
  have htrouble := trans_of (Runs C.pulls) Happens.name.runs (Workspace.Modest.trouble w.named)
  refine gives_create (w.nextSpillPath_gives.mono ?_)
  rintro path v ⟨rfl, rfl⟩
  refine Work.gives_brace (fun d hd => ?_) fun fault d hd => ?_
  · split
    · next fault hc =>
      rw [hd] at htrouble
      exact (hw.strikes (.refused hd hc)).runs htrouble
    · next c disk hc =>
      have hmade : Happens C.pulls w { w.named with disk } := .create hd hc
      exact Gives.mono (Work.brace_withstands (hw.runs hmade.runs) _) (fun _ _ hx => hx)
        fun _ _ he => he.after (Workspace.removeFile_moves _)
  · rw [hd] at htrouble
    exact (hw.strikes (.trouble _ hd)).runs htrouble

/-- A batch that is not too long is taken in, if there is room for it. -/
theorem append_withstands (hw : C.Reached w) {x : Writer} {bs : List Batch} (hx : x.Holds bs)
    {b : Batch} (hshort : b.rows ≤ C.longest) : Withstands C (x.append b) w := by
  refine gives_append (fun hlong => hw.strikes (.length hlong hshort)) fun _ => ?_
  refine Gives.mono (Work.brace_withstands hw _) (fun _ v hv => ?_) fun _ _ he => he
  exact ⟨fun hfull => hv.strikes (.full hx hfull), fun _ => hv⟩

theorem writeOut_withstands (hw : C.Reached w) (x : Writer) : Withstands C x.writeOut w := by
  unfold writeOut
  refine .bind (Work.brace_withstands hw _) fun _ v hv => ?_
  refine .bind (Work.brace_withstands hv _) fun _ v hv => ?_
  refine .bind (.lift hv (Workspace.write_moves ..)) fun _ v hv => ?_
  refine .bind (Work.brace_withstands hv _) fun _ v hv => ?_
  exact .bind (Work.brace_withstands hv _) fun _ v hv => .lift hv (Workspace.overwrite_moves ..)

theorem finish_withstands (hw : C.Reached w) (x : Writer) : Withstands C x.finish w :=
  gives_finish <| Gives.mono (x.writeOut_withstands hw)
    (fun _ _ hv => hv.after (Workspace.note_moves _)) fun _ _ he => he.after x.abandon_moves

end Spill.Writer

/-! ## Spills -/

namespace SpillOutcome

variable {m : Merger}

/-- The next chunk of a merge in memory can be made, and a run goes on with it. -/
theorem nextChunk_reaches (hw : C.Reached w) (h : m.Ready order)
    (hfields : order.schema.fields ≠ []) (maxRows : Nat) :
    Gives (Merger.nextChunk maxRows)
      (fun c? t => C.Reached t.2 ∧ ∀ c ∈ c?, c.batch.schema = order.schema ∧
        c.length ≤ max maxRows 1 ∧ t.1.Ready order)
      (fun _ _ => False) (m, w) := by
  have hruns := Merger.nextChunk_tries (r := Runs C.pulls) (s := (m, w)) maxRows
  exact ((Merger.nextChunk_ready h hfields maxRows).and hruns).mono
    (fun _ _ ht => ⟨hw.runs ht.2.2, ht.1⟩) fun _ _ hf => hf.1

/-- The rest of a merge is appended chunk by chunk, with a look at the flag before each. -/
theorem appendChunks_withstands (hfields : order.schema.fields ≠ []) {chunkRows : Nat} (count : Nat)
    (hlongest : max chunkRows 1 ≤ C.longest) {x : Writer} {bs : List Batch} (hx : x.Holds bs)
    (h : m.Ready order) (hw : C.Reached w) :
    Gives (appendChunks chunkRows count x) (fun _ t => C.Reached t.2)
      (fun e t => e.Interrupts C t.2) (m, w) := by
  induction count generalizing m w x bs with
  | zero => exact Gives.pure_iff.mpr hw
  | succ count ih =>
    refine gives_appendChunks_succ ((nextChunk_reaches hw h hfields chunkRows).mono
      (fun _ _ ht => ht) fun _ _ hf => hf.elim) (fun _ ht => ht.1) fun chunk t ht => ?_
    obtain ⟨m, v⟩ := t
    obtain ⟨hv, hchunk⟩ := ht
    obtain ⟨-, hlength, hready⟩ := hchunk chunk rfl
    have hlook := Operator.cancelled_gives.and (hv.after Workspace.cancelled_moves)
    refine hlook.mono fun raised v hraised => ?_
    obtain ⟨⟨hraised, -⟩, hv⟩ := hraised
    split
    · next hup =>
      have hup : v.cancel.raised := hraised ▸ hup
      refine ((hv.strikes (.cancelled hup)).after chunk.drop_moves).mono fun _ u hu => ?_
      exact hu.after x.abandon_moves
    · have happend := x.append_spec (Owns.nothing v) hx chunk.batch
      refine ((Writer.append_withstands hv hx (hlength.trans hlongest)).and happend).mono
        (fun y u hu => ?_) fun e u he => ?_
      · exact (hu.1.after chunk.drop_moves).mono fun _ _ hz => ih hu.2.1 hready hz
      · exact (he.1.after chunk.drop_moves).mono fun _ _ hz => hz.after x.abandon_moves

/-- The first chunk is there; its rest takes the disk. -/
theorem writeChunks_withstands (hfields : order.schema.fields ≠ []) (h : m.Ready order)
    (hw : C.Reached w) (schema : Schema) {chunkRows : Nat}
    (hlongest : max chunkRows 1 ≤ C.longest) :
    Gives (writeChunks schema chunkRows)
      (fun made? t => C.Reached t.2 ∧ ∀ made ∈ made?, made.1.batch.schema = order.schema)
      (fun e t => e.Interrupts C t.2) (m, w) := by
  refine gives_writeChunks ((nextChunk_reaches hw h hfields chunkRows).mono (fun _ _ ht => ht)
      fun _ _ hf => hf.elim)
    (fun _ ht => ⟨ht.1, fun made hmade => absurd hmade (Option.not_mem_none made)⟩)
    fun first t ht => ?_
  obtain ⟨m, v⟩ := t
  obtain ⟨hv, hfirst⟩ := ht
  obtain ⟨hschema, -, hready⟩ := hfirst first rfl
  have hcreate := Writer.create_spec (Owns.nothing v) schema
  refine ((Writer.create_withstands hv schema).and hcreate).mono (fun x u hu => ?_)
    fun e u he => he.1.after first.drop_moves
  refine (appendChunks_withstands hfields _ hlongest hu.2.1 hready hu.1).mono (fun y t ht => ?_)
    fun e t he => he.after first.drop_moves
  refine Gives.mono (y.finish_withstands ht) (fun file _ hx => ⟨hx, fun made hmade => ?_⟩)
    fun e u he => he.after first.drop_moves
  obtain rfl := Option.some.inj hmade
  exact hschema

end SpillOutcome

/-- Spilling slices fails only if something interrupts it. -/
theorem mergeAndSpill_withstands {ps : List (SortedGroup × List Row)} {cs : List ChargeId}
    (hfields : order.schema.fields ≠ [])
    (hparts : Shared (SortedGroup.Part order) ps (.charges cs))
    (hps : ∀ p ∈ ps, p.1.spilled? = none) (tracker : TrackerId) {chunkRows : Nat}
    (hlongest : max chunkRows 1 ≤ C.longest) (hw : C.Reached w) :
    Withstands C (mergeAndSpill order tracker chunkRows (ps.map Prod.fst)) w := by
  have howns : Owns (.careless w.disk) w (.charges cs + 0) :=
    .careless_self (Resources.files_charges cs)
  have hgroups : ∀ g ∈ ps.map Prod.fst, g.spilled? = none := by
    intro g hg
    obtain ⟨p, hp, rfl⟩ := List.mem_map.mp hg
    exact hps p hp
  refine gives_mergeAndSpill (R := fun made? v => C.Reached v ∧
      ∀ made ∈ made?, made.1.batch.schema = order.schema)
    (fun _ => hw) (fun _ => ?_) (fun _ hv => hv.1) fun first file v hmade => ?_
  · have hstart := Merger.ofGroups_spec (hparts.mono fun _ _ _ hp => hp.holds) tracker howns
    have hruns := Merger.ofGroups_tries (r := Runs C.pulls) (w := w) order tracker (ps.map Prod.fst)
    refine ((hstart.and (Merger.ofGroups_unspilled hgroups order tracker)).and hruns).mono
      (fun m v hm => ?_) fun _ _ hf => hf.1.2.elim
    obtain ⟨⟨⟨xs, R, -, hholds, -⟩, hu⟩, hv⟩ := hm
    refine (SpillOutcome.writeChunks_withstands hfields ⟨hu, xs, R, hholds⟩ (hw.runs hv) _
      hlongest).mono (fun made? t ht => ?_) fun e t he => he.after t.1.drop_moves
    exact (ht.1.after t.1.drop_moves).mono fun _ _ hx => ⟨hx, ht.2⟩
  · have hschema : first.batch.schema = order.schema := hmade.2 _ rfl
    obtain ⟨keys, hkeys⟩ := order.encode_eq hschema
    have hfile := SpillOutcome.ofFile_tries (r := Runs C.pulls) (w := v) order tracker
      (ps.map Prod.fst).length (SortedGroup.totalBytes (ps.map Prod.fst)) first file
    have hsucceeds : Gives (SpillOutcome.ofFile order tracker (ps.map Prod.fst).length
        (SortedGroup.totalBytes (ps.map Prod.fst)) first file) (fun _ _ => True)
        (fun _ _ => False) v := by
      refine SpillOutcome.gives_ofFile (fun _ _ => ?_) fun e he => ?_
      · exact .of_forall fun _ _ => .of_forall fun _ _ => .of_forall fun _ _ =>
          .of_forall fun _ _ => .of_forall fun _ _ => trivial
      · cases hkeys.symm.trans he
    exact (hsucceeds.and hfile).mono (fun _ _ hu => hmade.1.runs hu.2) fun _ _ hf => hf.1.elim

end SpillSort
