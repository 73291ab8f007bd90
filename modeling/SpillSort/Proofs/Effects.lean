import Mathlib.Order.Defs.Unbundled
import SpillSort.Proofs.MergeRules

/-!
# What steps leave alone

Spilling, merging and reading files back change the ledger, the disk and the journal. They report no
error to the fragment and never lower the cancel flag, and none of their failures names an operator
yet.

* `Moves` and `Tries` say of a step that it goes from each state to a related one; a relation that
  chains holds of a step if it holds of all its parts.
* `Workspace.Calm` is the relation for workspaces, `Failure.Bare` is about the failures.
* `mergeAndSpill_tries` and `MemoryMerge.build_tries` are the results for the two ways to merge.
-/

namespace SpillSort

open Spill

/-! ## Relations along steps -/

section Relations

variable {m : Type → Type} {σ α β : Type} [Monad m] [Stateful m σ] {r : σ → σ → Prop}
  {p : Failure → Prop} {s : σ}

/-- A step that cannot fail leads to a state that is related to the one before. -/
def Moves (r : σ → σ → Prop) (x : m α) (s : σ) : Prop := Ensures x (fun _ t => r s t) s

/-- So does a step that may fail, in either case, and it fails only in the ways `p`. -/
def Tries (r : σ → σ → Prop) (p : Failure → Prop) (x : ExceptT Failure m α) (s : σ) : Prop :=
  Gives x (fun _ t => r s t) (fun e t => r s t ∧ p e) s

/-- If it does not fail, it also brings something about. -/
def Brings (r : σ → σ → Prop) (p : Failure → Prop) (x : ExceptT Failure m α) (Q : α → σ → Prop)
    (s : σ) : Prop :=
  Gives x (fun a t => r s t ∧ Q a t) (fun e t => r s t ∧ p e) s

namespace Moves

theorem pure [Std.Refl r] {a : α} : Moves r (pure a : m α) s := Ensures.pure_iff.mpr (refl_of r s)

theorem bind [IsTrans σ r] {x : m α} {f : α → m β} (hx : Moves r x s)
    (hf : ∀ a t, r s t → Moves r (f a) t) : Moves r (x >>= f) s := by
  rw [Moves, Ensures.bind_iff]
  exact hx.mono fun a t ht => (hf a t ht).mono fun _ u hu => trans_of r ht hu

end Moves

namespace Tries

/-- What was done before counts as well. -/
theorem behind [IsTrans σ r] {t : σ} {x : ExceptT Failure m α} (hst : r s t) (hx : Tries r p x t) :
    Gives x (fun _ u => r s u) (fun e u => r s u ∧ p e) t :=
  Gives.mono hx (fun _ _ hu => trans_of r hst hu) fun _ _ hu => ⟨trans_of r hst hu.1, hu.2⟩

theorem pure [Std.Refl r] {a : α} : Tries r p (pure a : ExceptT Failure m α) s :=
  Gives.pure_iff.mpr (refl_of r s)

theorem throw [Std.Refl r] {e : Failure} (he : p e) :
    Tries r p (throw e : ExceptT Failure m α) s :=
  Gives.throw_iff.mpr ⟨refl_of r s, he⟩

theorem bind [IsTrans σ r] {x : ExceptT Failure m α} {f : α → ExceptT Failure m β}
    (hx : Tries r p x s) (hf : ∀ a t, r s t → Tries r p (f a) t) : Tries r p (x >>= f) s := by
  rw [Tries, Gives.bind_iff]
  exact Gives.mono hx (fun a t ht => behind ht (hf a t ht)) fun _ _ h => h

theorem map [LawfulMonad m] {x : ExceptT Failure m α} {f : α → β} (hx : Tries r p x s) :
    Tries r p (f <$> x) s :=
  Gives.map_iff.mpr hx

theorem lift [LawfulMonad m] {x : m α} (hx : Moves r x s) :
    Tries r p (liftM x : ExceptT Failure m α) s :=
  Gives.lift_iff.mpr hx

/-- A value that is there already, or a failure. -/
theorem except [Std.Refl r] {a : Except Failure α} (ha : ∀ e, a = .error e → p e) :
    Tries r p (liftM a : ExceptT Failure m α) s := by
  rw [Tries, Gives.except_iff]
  cases a with
  | ok a => exact refl_of r s
  | error e => exact ⟨refl_of r s, ha e rfl⟩

end Tries

namespace Brings

variable {Q : α → σ → Prop}

theorem pure [Std.Refl r] {a : α} (h : Q a s) : Brings r p (pure a : ExceptT Failure m α) Q s :=
  Gives.pure_iff.mpr ⟨refl_of r s, h⟩

/-- What was done before counts as well. -/
theorem behind [IsTrans σ r] {t : σ} {x : ExceptT Failure m α} (hst : r s t)
    (hx : Brings r p x Q t) :
    Gives x (fun a u => r s u ∧ Q a u) (fun e u => r s u ∧ p e) t :=
  Gives.mono hx (fun _ _ hu => ⟨trans_of r hst hu.1, hu.2⟩) fun _ _ hu =>
    ⟨trans_of r hst hu.1, hu.2⟩

/-- Only the last part has to bring it about. -/
theorem after [IsTrans σ r] {Q : β → σ → Prop} {x : ExceptT Failure m α}
    {f : α → ExceptT Failure m β} (hx : Tries r p x s)
    (hf : ∀ a t, r s t → Brings r p (f a) Q t) : Brings r p (x >>= f) Q s := by
  rw [Brings, Gives.bind_iff]
  exact Gives.mono hx (fun a t ht => behind ht (hf a t ht)) fun _ _ h => h

end Brings

end Relations

/-! ## Relations below a layer -/

section Layers

variable {τ α β : Type} {g : τ → β} {r : Workspace → Workspace → Prop} {p : Failure → Prop}
  {s : τ × Workspace}

/-- The relation of the workspaces below a layer of state, of which a view stays the same. -/
def Below (g : τ → β) (r : Workspace → Workspace → Prop) (s t : τ × Workspace) : Prop :=
  g t.1 = g s.1 ∧ r s.2 t.2

instance [IsPreorder Workspace r] : IsPreorder (τ × Workspace) (Below g r) where
  refl s := ⟨rfl, refl_of r s.2⟩
  trans _ _ _ h h' := ⟨h'.1.trans h.1, trans_of r h.2 h'.2⟩

theorem Tries.get_layer [IsPreorder Workspace r] :
    Tries (Below g r) p (get : ExceptT Failure (StateT τ Action) τ) s :=
  refl_of (Below g r) s

theorem Tries.lift_layer {x : Action α} (hx : Moves r x s.2) :
    Tries (Below g r) p (liftM x : ExceptT Failure (StateT τ Action) α) s :=
  Gives.lift_layer_iff.mpr (hx.mono fun _ _ hv => ⟨rfl, hv⟩)

theorem Tries.rescue_layer [IsPreorder Workspace r] {x : ExceptT Failure (StateT τ Action) α}
    {cleanup : Action Unit} (hx : Tries (Below g r) p x s) (hc : ∀ w, Moves r cleanup w) :
    Tries (Below g r) p (Work.rescue x cleanup) s := by
  rw [Tries, Gives.rescue_layer_iff]
  refine Gives.mono hx (fun _ _ h => h) fun e t ht => ?_
  exact (hc t.2).mono fun _ w hw => ⟨⟨ht.1.1, trans_of r ht.1.2 hw⟩, ht.2⟩

theorem Tries.inMerge {g : Merger → β} {x : Work α} {s : Merger × Workspace}
    (hx : Tries r p x s.2) : Tries (Below g r) p x.inMerge s :=
  Gives.inMerge_iff.mpr <|
    Gives.mono hx (fun _ _ hv => ⟨rfl, hv⟩) fun _ _ hv => ⟨⟨rfl, hv.1⟩, hv.2⟩

/-- A layer is run from a state of its own, and what became of it is looked at later. -/
theorem Tries.run_layer [IsPreorder Workspace r] {γ : Type}
    {x : ExceptT Failure (StateT τ Action) α} {t : τ} {w : Workspace}
    {f : Except Failure α × τ → Work γ} (hx : Tries (Below g r) p x (t, w))
    (hf : ∀ a t v, r w v → (∀ e, a = .error e → p e) → Tries r p (f (a, t)) v) :
    Tries r p ((x.run.run t : Action (Except Failure α × τ)) >>= f : Work γ) w := by
  rw [Tries, Gives.bind_iff, Gives.lift_iff, Ensures.run_layer_iff, Gives.run_iff]
  refine Gives.mono hx (fun a s hs => ?_) fun e s hs => ?_
  · exact Tries.behind hs.2 (hf (.ok a) s.1 s.2 hs.2 nofun)
  · refine Tries.behind hs.1.2 (hf (.error e) s.1 s.2 hs.1.2 fun e' he => ?_)
    obtain rfl := Except.error.inj he
    exact hs.2

theorem Tries.get [IsPreorder Workspace r] {w : Workspace} :
    Tries r p (get : Work Workspace) w :=
  refl_of r w

theorem Tries.rescue [IsPreorder Workspace r] {x : Work α} {cleanup : Action Unit} {w : Workspace}
    (hx : Tries r p x w) (hc : ∀ w, Moves r cleanup w) : Tries r p (Work.rescue x cleanup) w := by
  rw [Tries, Gives.rescue_iff]
  refine Gives.mono hx (fun _ _ h => h) fun e v hv => ?_
  exact (hc v).mono fun _ u hu => ⟨trans_of r hv.1 hu, hv.2⟩

end Layers

/-! ## Failures -/

namespace Failure

/-- A failure that names no operator yet. -/
def Bare : Failure → Prop
  | failed _ _ _ => False
  | _ => True

theorem bare_io (context : String) (fault : DiskFault) : (io context fault).Bare := trivial

theorem bare_keyFault (k : KeyFault) : k.failure.Bare := by
  cases k <;> trivial

theorem bare_blockFault (k : BlockFault) : k.failure.Bare := by
  cases k <;> trivial

/-- Faults keep what all of them have when they become failures. -/
theorem of_mapError {ε α : Type} {f : ε → Failure} {p : Failure → Prop} (hf : ∀ k, p (f k))
    {x : Except ε α} {e : Failure} (h : x.mapError f = .error e) : p e := by
  cases x with
  | ok a => cases h
  | error k =>
    obtain rfl := Except.error.inj h
    exact hf k

theorem bare_readHeader {content : ByteArray} {e : Failure} (h : readHeader content = .error e) :
    e.Bare := by
  unfold readHeader at h
  split at h
  · obtain rfl := Except.error.inj h
    trivial
  · exact of_mapError bare_blockFault h

theorem bare_readIndex {header : Header} {content : ByteArray} {farthest : Nat} {e : Failure}
    (h : readIndex header content farthest = .error e) : e.Bare := by
  unfold readIndex at h
  extract_lets length messages at h
  split at h
  · cases h
  · split at h
    · obtain rfl := Except.error.inj h
      exact bare_blockFault _
    · split at h
      · obtain rfl := Except.error.inj h
        trivial
      · split at h
        · obtain rfl := Except.error.inj h
          trivial
        · cases h

theorem bare_decode [MessageFormat] {bytes : List UInt8} {e : Failure}
    (h : Message.decode bytes = .error e) : e.Bare := by
  unfold Message.decode at h
  split at h
  case h_4 => cases h
  all_goals
    obtain rfl := Except.error.inj h
    trivial

end Failure

/-! ## Workspaces -/

namespace Spill.Disk

theorem contents_nextTrouble (d : Disk) : d.nextTrouble.2.contents = d.contents := by
  unfold nextTrouble
  split <;> rfl

/-- A removed file keeps its content. -/
theorem contents_removeFile {d d' : Disk} {path : String} (h : d.removeFile path = .ok d') :
    d'.contents = d.contents := by
  simp only [removeFile, bind, Except.bind] at h
  split at h
  · cases h
  · split at h
    · obtain rfl := Except.ok.inj h
      rfl
    · cases h
    · cases h

end Spill.Disk

/-- A relation of workspaces that most of the work on groups keeps to. This work opens charges and
lets go of them, asks the disk for troubles, removes files and finds a path for the next, writes to the
journal, and looks at the cancel flag. -/
class Workspace.Modest (r : Workspace → Workspace → Prop) : Prop extends IsPreorder Workspace r where
  drop (w : Workspace) (c : Memory.ChargeId) : r w { w with ledger := w.ledger.drop c }
  charge (w : Workspace) (id : Memory.TrackerId) (bytes : Int64) :
    r w { w with ledger := (w.ledger.charge id bytes).2 }
  trouble (w : Workspace) : r w { w with disk := w.disk.nextTrouble.2 }
  remove {w : Workspace} {path : String} {disk : Disk} :
    w.disk.removeFile path = .ok disk → r w { w with disk }
  named (w : Workspace) : r w w.named
  look (w : Workspace) : r w { w with cancel := w.cancel.look.2 }
  journal (w : Workspace) (journal : Array Notice) : r w { w with journal }

/-- A relation of workspaces that all of this work keeps to. It also makes the next spill file, unless
the disk has a trouble, and writes to it, and it counts below the sort's node. -/
class Workspace.Routine (r : Workspace → Workspace → Prop) : Prop extends Modest r where
  create {w : Workspace} {d disk : Disk} {c : ContentId} : w.disk.nextTrouble = (none, d) →
    d.createFile w.nextPath = .ok (c, disk) → r w { w.named with disk }
  write (w : Workspace) (c : ContentId) (bytes : ByteArray) :
    r w { w with disk := w.disk.write c bytes }
  count (w : Workspace) (k : String) (f : Counter → Counter) :
    Moves r (Workspace.count ["Spill"] k f) w

/-- A relation of workspaces that keeps to whatever becomes of the ledger, and of the cancel flag once
it is raised. -/
class Workspace.Lenient (r : Workspace → Workspace → Prop) : Prop extends Modest r where
  ledger (w : Workspace) (ledger : Memory.Ledger) : r w { w with ledger }
  raise (w : Workspace) : r w { w with cancel := { raised := true } }
  drop := fun w c => ledger w (w.ledger.drop c)
  charge := fun w id bytes => ledger w (w.ledger.charge id bytes).2

/-- What most of the work leaves alone in a workspace: it reports nothing to the fragment, and a flag
that was raised stays so. -/
structure Workspace.Calm (w v : Workspace) : Prop where
  error : v.fragment.error = w.fragment.error
  raised : w.cancel.raised → v.cancel.raised

instance : IsPreorder Workspace Workspace.Calm where
  refl _ := ⟨rfl, id⟩
  trans _ _ _ h h' := ⟨h'.error.trans h.error, fun hr => h'.raised (h.raised hr)⟩

instance : Workspace.Routine Workspace.Calm where
  drop _ _ := ⟨rfl, id⟩
  charge _ _ _ := ⟨rfl, id⟩
  trouble _ := ⟨rfl, id⟩
  remove _ := ⟨rfl, id⟩
  named _ := ⟨rfl, id⟩
  look w := ⟨rfl, fun hr => by simp [CancelFlag.look, hr]⟩
  journal _ _ := ⟨rfl, id⟩
  create _ _ := ⟨rfl, id⟩
  write _ _ _ := ⟨rfl, id⟩
  count _ _ _ := ⟨rfl, id⟩

instance : Workspace.Lenient Workspace.Calm where
  ledger _ _ := ⟨rfl, id⟩
  raise _ := ⟨rfl, fun _ => rfl⟩

variable {r : Workspace → Workspace → Prop} {w : Workspace}

namespace Workspace

theorem onLedger_moves [Lenient r] (f : Memory.Ledger → Memory.Ledger) : Moves r (onLedger f) w :=
  Lenient.ledger w _

theorem withLedger_moves [Lenient r] {α : Type} (f : Memory.Ledger → α × Memory.Ledger) :
    Moves r (withLedger f) w :=
  Lenient.ledger w _

theorem count_moves (path : List String) (k : String) (f : Counter → Counter) :
    Moves Calm (count path k f) w :=
  ⟨rfl, id⟩

theorem raiseCancel_moves [Lenient r] : Moves r raiseCancel w := Lenient.raise w

theorem write_moves [Routine r] (c : ContentId) (bytes : ByteArray) :
    Moves r (onDisk fun d => d.write c bytes) w :=
  Routine.write w c bytes

theorem overwrite_moves [Routine r] (c : ContentId) (bytes : ByteArray) :
    Moves r (onDisk fun d => d.overwrite c bytes) w :=
  Routine.write w c _

variable [Modest r]

theorem note_moves (n : Notice) : Moves r (note n) w := Modest.journal w _

theorem nextSpillPath_moves : Moves r nextSpillPath w := Modest.named w

theorem cancelled_moves : Moves r cancelled w := Modest.look w

theorem dropAll_moves (cs : List Memory.ChargeId) : Moves r (dropAll cs) w := by
  induction cs generalizing w with
  | nil => exact refl_of r w
  | cons c cs ih => exact trans_of r (Modest.drop w c) ih

theorem charge_moves (id : Memory.TrackerId) (bytes : Int64) :
    Moves r (withLedger fun l => l.charge id bytes) w :=
  Modest.charge w id bytes

theorem tracked_moves (b : Batch) (tracker : Memory.TrackerId) :
    Moves r (withLedger (Chunk.tracked b tracker)) w := by
  simp only [Moves, withLedger, Chunk.tracked, Chunk.transfer, Ensures.modifyGet_iff]
  split
  · exact refl_of r w
  · exact Modest.charge w tracker _

theorem allocate_moves (rows : Nat) (tracker : Memory.TrackerId) :
    Moves r (withLedger (RowSelection.allocate rows tracker)) w := by
  simp only [Moves, withLedger, RowSelection.allocate, Memory.Ledger.tryCharge,
    Ensures.modifyGet_iff]
  split
  · exact refl_of r w
  · exact Modest.charge w tracker _

theorem removeFile_moves (path : String) : Moves r (removeFile path) w := by
  exact ensures_removeFile (fun _ h => Modest.remove h) (fun _ => refl_of r w) fun _ _ =>
    note_moves _

end Workspace

open Workspace

section Modest

variable [Modest r]

theorem Chunk.drop_moves (chunk : Chunk) : Moves r (onLedger chunk.drop) w :=
  Workspace.dropAll_moves chunk.charge?.toList

section Disk

variable {p : Failure → Prop} (hp : ∀ context fault, p (.io context fault))

include hp

namespace Work

theorem brace_tries (context : String) : Tries r p (brace context) w := by
  have htrouble := Modest.trouble (r := r) w
  refine gives_brace (fun d hd => ?_) fun _ d hd => ⟨?_, hp ..⟩
  · rwa [hd] at htrouble
  · rwa [hd] at htrouble

theorem ofDisk_tries {α : Type} (context : String) (x : Except DiskFault α) :
    Tries r p (ofDisk context x) w := by
  unfold ofDisk
  split
  · exact .pure
  · exact .throw (hp ..)

end Work

/-! ## Spill files -/

namespace Spill

namespace Writer

omit hp in
theorem abandon_moves (x : Writer) : Moves r x.abandon w := removeFile_moves x.path

/-- A message cannot count more rows than it has bits for. -/
theorem append_tries [MessageFormat] (x : Writer) (b : Batch)
    (hrows : mostRows < b.rows → p (.unsupported s!"spill batch of {b.rows} rows")) :
    Tries r p (x.append b) w := by
  unfold append
  extract_lets context message length last rest
  have hrest : ∀ {w : Workspace}, Tries r p (rest ⟨⟩) w := by
    intro w
    simp only [rest]
    refine .bind (Work.brace_tries hp _) fun _ _ _ => ?_
    split
    · exact .bind (.throw (hp ..)) fun _ _ _ => .pure
    · exact .pure
  split
  · next hlt => exact .bind (.throw (hrows hlt)) fun _ _ _ => hrest
  · exact hrest

end Writer

end Spill

end Disk

namespace Spill

theorem SpillFile.drop_moves (f : SpillFile) : Moves r f.drop w := removeFile_moves f.path

namespace Reader

theorem open_tries (path : String) (schema : Schema) :
    Tries r Failure.Bare (Reader.open path schema) w := by
  unfold Reader.open
  refine .bind (Work.brace_tries Failure.bare_io _) fun _ _ _ => ?_
  refine .bind .get fun _ _ _ => ?_
  refine .bind (Work.ofDisk_tries Failure.bare_io _ _) fun _ _ _ => ?_
  refine .bind (Work.brace_tries Failure.bare_io _) fun _ _ _ => ?_
  refine .bind .get fun _ _ _ => ?_
  refine .bind (Work.ofDisk_tries Failure.bare_io _ _) fun _ _ _ => ?_
  refine .bind (.except fun _ => Failure.bare_readHeader) fun header _ _ => ?_
  extract_lets rest
  have hrest : ∀ {w : Workspace}, Tries r Failure.Bare (rest ⟨⟩) w := by
    intro w
    refine .bind (Work.brace_tries Failure.bare_io _) fun _ _ _ => ?_
    exact .bind (.except fun _ => Failure.bare_readIndex) fun _ _ _ => .pure
  split
  · exact .bind (.throw trivial) fun _ _ _ => hrest
  · exact hrest

theorem messageAt_tries (x : Reader) (e : Entry) : Tries r Failure.Bare (x.messageAt e) w := by
  unfold messageAt
  refine .bind (Work.brace_tries Failure.bare_io _) fun _ _ _ => ?_
  refine .bind .get fun _ _ _ => ?_
  refine .bind (Work.ofDisk_tries Failure.bare_io _ _) fun _ _ _ => ?_
  extract_lets rest
  have hrest : ∀ {w : Workspace}, Tries r Failure.Bare (rest ⟨⟩) w := by
    intro w
    simp only [rest]
    split
    · exact .pure
    · exact .throw trivial
  split
  · exact .bind (.throw trivial) fun _ _ _ => hrest
  · exact hrest

theorem batchAt_tries [MessageFormat] (x : Reader) (e : Entry) :
    Tries r Failure.Bare (x.batchAt e) w := by
  unfold batchAt
  refine .bind (x.messageAt_tries e) fun _ _ _ => ?_
  refine .bind (.except fun _ => Failure.bare_decode) fun batch _ _ => ?_
  extract_lets last rest
  have hrest : ∀ {w : Workspace}, Tries r Failure.Bare (rest ⟨⟩) w := by
    intro w
    simp only [rest]
    split
    · exact .bind (.throw trivial) fun _ _ _ => .pure
    · exact .pure
  split
  · exact .bind (.throw trivial) fun _ _ _ => hrest
  · exact hrest

end Reader

end Spill

/-! ## Runs and groups -/

namespace SortedRun

theorem ofKeys_moves (chunk : Chunk) (keys : EncodedKeys) (selection? : Option RowSelection)
    (tracker : Memory.TrackerId) : Moves r (ofKeys chunk keys selection? tracker) w := by
  unfold ofKeys
  exact .bind (charge_moves ..) fun _ _ _ => .pure

theorem drop_moves (run : SortedRun) : Moves r run.drop w := dropAll_moves run.charges

theorem sort_tries (order : RowOrder) (chunk : Chunk) (selection : RowSelection)
    (tracker : Memory.TrackerId) :
    Tries r Failure.Bare (sort order chunk selection tracker) w := by
  unfold sort
  extract_lets rest
  have hrest : ∀ {w : Workspace}, Tries r Failure.Bare (rest ⟨⟩) w := by
    intro w
    refine .bind (.except fun _ => Failure.of_mapError Failure.bare_keyFault) fun keys _ _ => ?_
    exact .lift (ofKeys_moves ..)
  split
  · exact .bind (.throw trivial) fun _ _ _ => hrest
  · exact hrest

end SortedRun

namespace SortedGroup

theorem drop_moves (g : SortedGroup) : Moves r g.drop w := by
  unfold drop
  refine .bind (dropAll_moves _) fun _ _ _ => ?_
  split
  · exact SpillFile.drop_moves _
  · exact .pure

theorem dropAll_moves (gs : List SortedGroup) : Moves r (dropAll gs) w := by
  induction gs generalizing w with
  | nil => exact .pure
  | cons g gs ih => exact .bind g.drop_moves fun _ _ _ => ih

end SortedGroup

theorem Merger.drop_moves (m : Merger) : Moves r m.drop w := by
  unfold drop
  exact .bind (SortedGroup.dropAll_moves _) fun _ _ _ => Workspace.dropAll_moves _

end Modest

section Routine

variable [Routine r]

namespace Spill.Writer

variable {p : Failure → Prop} (hp : ∀ context fault, p (.io context fault))

include hp

theorem create_tries (schema : Schema) : Tries r p (create schema) w := by
  have htrouble := trans_of r (Modest.named w) (Modest.trouble w.named)
  refine gives_create (w.nextSpillPath_gives.mono ?_)
  rintro path v ⟨rfl, rfl⟩
  refine Work.gives_brace (fun d hd => ?_) fun fault d hd => ?_
  · split
    · next fault _ =>
      rw [hd] at htrouble
      exact ⟨htrouble, hp ..⟩
    · next c disk hc =>
      have hmade : r w { w.named with disk } := Routine.create hd hc
      exact Gives.mono (Work.brace_tries (r := r) hp _) (fun _ _ hx => trans_of r hmade hx)
        fun _ x hx => (removeFile_moves _).mono fun _ _ hy =>
          ⟨trans_of r hmade (trans_of r hx.1 hy), hx.2⟩
  · rw [hd] at htrouble
    exact ⟨htrouble, hp ..⟩

theorem writeOut_tries (x : Writer) : Tries r p x.writeOut w := by
  unfold writeOut
  refine .bind (Work.brace_tries hp _) fun _ _ _ => ?_
  refine .bind (Work.brace_tries hp _) fun _ _ _ => ?_
  refine .bind (.lift (write_moves ..)) fun _ _ _ => ?_
  refine .bind (Work.brace_tries hp _) fun _ _ _ => ?_
  exact .bind (Work.brace_tries hp _) fun _ _ _ => .lift (overwrite_moves ..)

theorem finish_tries (x : Writer) : Tries r p x.finish w := by
  unfold finish
  refine .bind (.rescue (x.writeOut_tries hp) fun _ => x.abandon_moves) fun _ _ _ => ?_
  exact .bind (.lift (note_moves _)) fun _ _ _ => .pure

end Spill.Writer

namespace SortedGroup

variable (order : RowOrder) (tracker : Memory.TrackerId)

theorem restore_tries (batch : Batch) :
    Tries r Failure.Bare (restore order tracker batch) w := by
  unfold restore
  refine .bind (.lift (Routine.count ..)) fun _ _ _ => ?_
  refine .bind (.except fun _ => Failure.of_mapError Failure.bare_keyFault) fun _ _ _ => ?_
  refine .bind (.lift (tracked_moves ..)) fun _ _ _ => ?_
  exact .lift (SortedRun.ofKeys_moves ..)

/-- An action that says with its answer that it failed, and how. -/
def Answers {α β : Type} (r : Workspace → Workspace → Prop)
    (x : Action (Except Failure α × β)) (w : Workspace) : Prop :=
  Ensures x (fun a v => r w v ∧ ∀ e, a.1 = .error e → e.Bare) w

theorem Answers.behind {α β : Type} {x : Action (Except Failure α × β)} {v : Workspace} (hv : r w v)
    (hx : Answers r x v) : Ensures x (fun a u => r w u ∧ ∀ e, a.1 = .error e → e.Bare) v :=
  Ensures.mono hx fun _ _ hu => ⟨trans_of r hv hu.1, hu.2⟩

theorem restoreNext_answers (es : List Entry) (x : Reader) :
    Answers r (restoreNext order tracker es x) w := by
  induction es generalizing w x with
  | nil => exact Ensures.pure_iff.mpr ⟨refl_of r w, fun _ he => by cases he⟩
  | cons e es ih =>
    refine ensures_restoreNext_cons (R := fun _ v => r w v) ?_ (fun run v hv _ => ?_)
      fun _ _ hv _ => ⟨hv, fun _ he => by cases he⟩
    · refine Gives.mono (x.batchAt_tries (r := r) e) (fun b v hv => ?_) fun e v hv => ⟨hv.1, ?_⟩
      · refine Gives.mono (restore_tries (r := r) order tracker b)
          (fun _ u hu => trans_of r hv hu) fun e u hu => ⟨trans_of r hv hu.1, ?_⟩
        rintro _ ⟨⟩
        exact hu.2
      · rintro _ ⟨⟩
        exact hv.2
    · refine (run.drop_moves (r := r)).mono fun _ u hu => ?_
      exact Answers.behind (trans_of r hv hu) (ih (x.advance es))

theorem nextSpilled_answers (g : SortedGroup) : Answers r (g.nextSpilled order tracker) w := by
  refine ensures_nextSpilled (fun _ => ⟨refl_of r w, fun _ he => by cases he⟩) (fun s x _ _ => ?_)
    fun s _ _ => ?_
  · exact restoreNext_answers order tracker x.pending x
  · refine Gives.mono (Reader.open_tries (r := r) ..) (fun x v hv => ?_) fun e v hv => ⟨hv.1, ?_⟩
    · exact Answers.behind hv (restoreNext_answers order tracker x.pending x)
    · rintro _ ⟨⟩
      exact hv.2

theorem nextRun_answers (g : SortedGroup) : Answers r (g.nextRun order tracker) w := by
  refine ensures_nextRun (fun _ => nextSpilled_answers ..) (fun run _ _ => ?_)
    fun _ _ _ => ⟨refl_of r w, fun _ he => by cases he⟩
  exact (run.drop_moves (r := r)).mono fun _ v hv => Answers.behind hv (nextSpilled_answers ..)

end SortedGroup

/-! ## Merges -/

namespace Merger

variable {s : Merger × Workspace}

theorem load_tries (source : Nat) : Tries (Below Merger.tracker r) Failure.Bare (load source) s := by
  obtain ⟨m, w⟩ := s
  refine gives_load (fun _ => refl_of _ _) fun g _ => ?_
  refine Ensures.mono (Workspace.dropAll_moves (r := r) _) fun _ v hv => ?_
  refine (SortedGroup.nextRun_answers (r := r) m.order m.tracker g).mono fun a u hu => ?_
  have hall := trans_of r hv hu.1
  obtain ⟨e | _ | run, g⟩ := a
  · exact ⟨⟨rfl, hall⟩, hu.2 e rfl⟩
  · exact ⟨rfl, hall⟩
  · exact ⟨rfl, hall⟩

theorem loadAll_tries (count source : Nat) :
    Tries (Below Merger.tracker r) Failure.Bare (loadAll count source) s := by
  induction count generalizing s source with
  | zero => exact .pure
  | succ count ih => exact .bind (load_tries source) fun _ _ _ => ih _

theorem ofGroups_tries (order : RowOrder) (tracker : Memory.TrackerId) (groups : List SortedGroup) :
    Tries r Failure.Bare (ofGroups order tracker groups) w := by
  refine gives_ofGroups (Gives.mono (loadAll_tries (r := r) groups.length 0)
    (fun _ _ ht => ht.2) fun e t ht => ?_)
  exact (t.1.drop_moves (r := r)).mono fun _ v hv => ⟨trans_of r ht.1.2 hv, ht.2⟩

theorem pick_tries (count : Nat) (picked : Array (Nat × Nat)) :
    Tries (Below Merger.tracker r) Failure.Bare (pick count picked) s := by
  induction count generalizing s picked with
  | zero => exact .pure
  | succ count ih =>
    obtain ⟨m, w⟩ := s
    have htake : ∀ {c? m₁ source row? m₂}, m.popCandidate = (c?, m₁) →
        m₁.takeRow source = (row?, m₂) → Below Merger.tracker r (m, w) (m₂, w) := by
      intro c? m₁ source row? m₂ hpop htake
      obtain ⟨cursors, f, rfl⟩ := eq_with_of_takeRow hpop htake
      exact ⟨rfl, refl_of r w⟩
    refine gives_pick_succ (fun m₁ hpop => ?_) (fun c m₁ m₂ hpop hrow => ?_)
      (fun c m₁ row m₂ hpop hrow => ?_) fun c m₁ row m₂ hpop hrow => ?_
    · obtain ⟨-, rfl⟩ := popCandidate_eq_none hpop
      exact ⟨rfl, refl_of r w⟩
    · exact Tries.behind (htake hpop hrow) (ih picked)
    · exact Tries.behind (htake hpop hrow) (ih (picked.push row))
    · refine Gives.mono (Tries.behind (htake hpop hrow) (load_tries c.source)) (fun _ t ht => ?_)
        fun _ _ ht => ht
      exact Tries.behind ht (ih (picked.push row))

theorem nextChunk_tries (maxRows : Nat) :
    Tries (Below Merger.tracker r) Failure.Bare (nextChunk maxRows) s := by
  refine gives_nextChunk (pick_tries (r := r) (max maxRows 1) #[]) (fun _ ht => ht)
    (fun picked t batch ht _ _ => ?_) fun _ _ _ ht _ _ => ⟨ht, trivial⟩
  exact Ensures.mono (tracked_moves (r := r) ..) fun _ v hv => ⟨ht.1, trans_of r ht.2 hv⟩

end Merger

/-! ## Spills and merges in memory -/

namespace SpillOutcome

variable {s : Merger × Workspace}

theorem appendChunks_tries (chunkRows count : Nat) (x : Writer) :
    Tries (Below Merger.tracker r) Failure.Bare (appendChunks chunkRows count x) s := by
  induction count generalizing s x with
  | zero => exact .pure
  | succ count ih =>
    unfold appendChunks
    refine .bind (.rescue_layer (Merger.nextChunk_tries _) fun _ => x.abandon_moves) fun c? _ _ => ?_
    split
    · exact .pure
    · next chunk =>
      have hdone : ∀ w, Moves r (onLedger chunk.drop) w := fun _ => chunk.drop_moves
      refine .bind (.lift_layer cancelled_moves) fun b _ _ => ?_
      split
      · refine .bind (.lift_layer (hdone _)) fun _ _ _ => ?_
        exact .bind (.lift_layer x.abandon_moves) fun _ _ _ => .throw trivial
      · refine .bind (.rescue_layer (.inMerge (x.append_tries Failure.bare_io _ fun _ => trivial))
          fun _ => ?_) fun y _ _ => ?_
        · exact .bind (hdone _) fun _ _ _ => x.abandon_moves
        · exact .bind (.lift_layer (hdone _)) fun _ _ _ => ih y

theorem writeChunks_tries (schema : Schema) (chunkRows : Nat) :
    Tries (Below Merger.tracker r) Failure.Bare (writeChunks schema chunkRows) s := by
  unfold writeChunks
  refine .bind (Merger.nextChunk_tries _) fun first? _ _ => ?_
  split
  · exact .pure
  · refine .rescue_layer ?_ fun _ => Chunk.drop_moves _
    refine .bind (.inMerge (Writer.create_tries Failure.bare_io _)) fun _ _ _ => ?_
    refine .bind .get_layer fun _ _ _ => ?_
    refine .bind (appendChunks_tries ..) fun _ _ _ => ?_
    exact .bind (.inMerge (Writer.finish_tries Failure.bare_io _)) fun _ _ _ => .pure

theorem ofFile_tries (order : RowOrder) (tracker : Memory.TrackerId)
    (mergedGroups releasedBytes : Nat) (first : Chunk) (file : SpillFile) :
    Tries r Failure.Bare (ofFile order tracker mergedGroups releasedBytes first file) w := by
  unfold ofFile
  refine .bind (.rescue (.except fun _ => Failure.of_mapError Failure.bare_keyFault) fun _ => ?_)
    fun _ _ _ => ?_
  · exact .bind file.drop_moves fun _ _ _ => first.drop_moves
  · refine .bind (.lift (SortedRun.ofKeys_moves ..)) fun _ _ _ => ?_
    refine .bind (.lift (Routine.count ..)) fun _ _ _ => ?_
    refine .bind (.lift (Routine.count ..)) fun _ _ _ => ?_
    refine .bind (.lift (Routine.count ..)) fun _ _ _ => ?_
    exact .bind (.lift (note_moves _)) fun _ _ _ => .pure

end SpillOutcome

theorem mergeAndSpill_tries (order : RowOrder) (tracker : Memory.TrackerId) (chunkRows : Nat)
    (groups : List SortedGroup) :
    Tries r Failure.Bare (mergeAndSpill order tracker chunkRows groups) w := by
  unfold mergeAndSpill
  split
  · exact .pure
  · refine .bind (Merger.ofGroups_tries ..) fun merger v _ => ?_
    have hwritten := SpillOutcome.writeChunks_tries (r := r) order.schema chunkRows (s := (merger, v))
    refine .run_layer hwritten fun written merger u _ hbare => ?_
    refine .bind (.lift merger.drop_moves) fun _ _ _ => ?_
    refine .bind (.except hbare) fun made? _ _ => ?_
    split
    · exact .pure
    · exact .map (SpillOutcome.ofFile_tries ..)

end Routine

section Lenient

variable [Lenient r]

namespace MemoryMerge

theorem allocate_moves (tracker : Memory.TrackerId) (rows : Nat) :
    Moves r (allocate tracker rows) w :=
  withLedger_moves _

theorem build_tries (order : RowOrder) (tracker : Memory.TrackerId) (maxBytes : Nat)
    (groups : List SortedGroup) : Tries r Failure.Bare (build order tracker maxBytes groups) w := by
  unfold build
  extract_lets bytes
  split
  · exact .pure
  split
  · exact .pure
  split
  · exact .pure
  refine .bind (.lift (allocate_moves ..)) fun _ _ _ => ?_
  split
  · exact .pure
  · refine .bind (.lift (dropAll_moves _)) fun _ _ _ => ?_
    split
    · exact .bind (.lift (dropAll_moves _)) fun _ _ _ => .throw trivial
    · exact .bind (.lift (withLedger_moves _)) fun _ _ _ => .pure

theorem drop_moves (m : MemoryMerge) : Moves r m.drop w := onLedger_moves _

theorem nextWindow_moves (m : MemoryMerge) (maxRows : Nat) : Moves r (m.nextWindow maxRows) w := by
  exact ensures_nextWindow (fun _ => refl_of r w) fun _ => onLedger_moves _

end MemoryMerge

theorem Stage.drop_moves (stage : Stage) : Moves r stage.drop w := by
  unfold Stage.drop
  split
  · exact MemoryMerge.drop_moves _
  · exact Merger.drop_moves _
  · exact .pure

theorem Output.drop_moves (o : Output) : Moves r o.drop w := by
  unfold Output.drop
  split
  · exact .pure
  · exact onLedger_moves _

theorem Output.forM_drop_moves (os : List Output) :
    Moves r (os.forM fun o => o.drop : Action Unit) w := by
  induction os generalizing w with
  | nil => exact .pure
  | cons o os ih => exact .bind o.drop_moves fun _ _ _ => ih

end Lenient

end SpillSort
