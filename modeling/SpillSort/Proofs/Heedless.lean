import SpillSort.Proofs.Steps

/-!
# Steps that heed no journal

A sort writes its journal and never reads it. So two runs from states that are the same but for the
journal answer the same and leave states that are again the same but for it. Nothing here depends on
what a step does; it is shown of each step by how the step is put together.

* `Akin` relates the states, `Agree` the outcomes of two steps.
* `Heedless` and `Work.Heedless` are about a single step, which cannot fail or may.
* `mergeAndSpill_heedless` and `MemoryMerge.build_heedless` are about the two ways to merge.
-/

namespace SpillSort

open Spill

/-! ## Two runs -/

/-- A state with a journal. -/
class Journaled (σ : Type) where
  /-- Two states are the same but for the journal. -/
  Akin : σ → σ → Prop

export Journaled (Akin)

instance : Journaled Workspace where
  Akin w v := ∃ journal, v = { w with journal }

instance {τ : Type} : Journaled (τ × Workspace) where
  Akin s t := t.1 = s.1 ∧ Akin s.2 t.2

section Steps

variable {m : Type → Type} {σ α β : Type} [Monad m] [Stateful m σ] {s t : σ}

/-- Two steps, each from a state of its own, answer the same and leave related states. -/
def Agree (r : σ → σ → Prop) (x y : m α) (s t : σ) : Prop :=
  (Stateful.outcome y t).1 = (Stateful.outcome x s).1 ∧
    r (Stateful.outcome x s).2 (Stateful.outcome y t).2

namespace Agree

variable {r r' : σ → σ → Prop}

theorem pure {a : α} (h : r s t) : Agree r (pure a : m α) (pure a) s t := by
  unfold Agree
  rw [Stateful.outcome_pure, Stateful.outcome_pure]
  exact ⟨rfl, h⟩

/-- Two steps agree if it is known what they come to. -/
theorem of_ensures {x y : m α} {a : α} {P Q : σ → Prop}
    (hx : Ensures x (fun b u => b = a ∧ P u) s) (hy : Ensures y (fun b u => b = a ∧ Q u) t)
    (h : ∀ u v, P u → Q v → r u v) : Agree r x y s t :=
  ⟨hy.1.trans hx.1.symm, h _ _ hx.2 hy.2⟩

theorem of_gives {x y : ExceptT Failure m α} {a : α} {P Q : σ → Prop}
    (hx : Gives x (fun b u => b = a ∧ P u) (fun _ _ => False) s)
    (hy : Gives y (fun b u => b = a ∧ Q u) (fun _ _ => False) t)
    (h : ∀ u v, P u → Q v → r u v) : Agree r x.run y.run s t := by
  have hok : ∀ {z : ExceptT Failure m α} {R : σ → Prop} {s : σ},
      Gives z (fun b u => b = a ∧ R u) (fun _ _ => False) s →
      Ensures z.run (fun b u => b = .ok a ∧ R u) s := fun hz => by
    rw [Gives.run_iff]
    exact hz.mono (fun b u hu => ⟨congrArg _ hu.1, hu.2⟩) fun _ _ hf => hf.elim
  exact .of_ensures (hok hx) (hok hy) h

/-- What the first step ensures is known of the answer and of the state of the first run. -/
theorem bind_of {x y : m α} {f g : α → m β} {Q : α → σ → Prop} (h : Agree r x y s t)
    (hQ : Ensures x Q s) (hf : ∀ a s t, r s t → Q a s → Agree r' (f a) (g a) s t) :
    Agree r' (x >>= f) (y >>= g) s t := by
  obtain ⟨ha, hs⟩ := h
  have hrest := hf _ _ _ hs hQ
  unfold Agree at hrest ⊢
  rw [Stateful.outcome_bind, Stateful.outcome_bind, ha]
  exact hrest

theorem bind {x y : m α} {f g : α → m β} (h : Agree r x y s t)
    (hf : ∀ a s t, r s t → Agree r' (f a) (g a) s t) : Agree r' (x >>= f) (y >>= g) s t :=
  h.bind_of (Q := fun _ _ => True) trivial fun a s t hs _ => hf a s t hs

/-- A step that may fail is followed by the next one only if it does not. -/
theorem work_bind_of {x y : ExceptT Failure m α} {f g : α → ExceptT Failure m β} {Q : α → σ → Prop}
    {E : Failure → σ → Prop} (h : Agree r x.run y.run s t) (hQ : Gives x Q E s)
    (hf : ∀ a s t, r s t → Q a s → Agree r' (f a).run (g a).run s t)
    (he : ∀ e s t, r s t → E e s → r' s t) : Agree r' (x >>= f).run (y >>= g).run s t := by
  refine h.bind_of hQ fun a s t hs ha => ?_
  cases a with
  | ok a => exact hf a s t hs ha
  | error e => exact .pure (he e s t hs ha)

theorem work_bind {x y : ExceptT Failure m α} {f g : α → ExceptT Failure m β}
    (h : Agree r x.run y.run s t) (hf : ∀ a s t, r s t → Agree r (f a).run (g a).run s t) :
    Agree r (x >>= f).run (y >>= g).run s t :=
  h.work_bind_of (Q := fun _ _ => True) (E := fun _ _ => True)
    (.of_forall fun a _ => by cases a <;> trivial) (fun a s t hs _ => hf a s t hs)
    fun _ _ _ hs _ => hs

/-- A step that cannot fail, among those that may. -/
theorem lift [LawfulMonad m] {x y : m α} (h : Agree r x y s t) :
    Agree r (liftM x : ExceptT Failure m α).run (liftM y : ExceptT Failure m α).run s t := by
  show Agree r (Except.ok <$> x) (Except.ok <$> y) s t
  rw [← bind_pure_comp, ← bind_pure_comp]
  exact h.bind fun _ _ _ => .pure

end Agree

variable [Journaled σ]

/-- A step that does the same whatever the journal says. -/
structure Heedless (x : m α) : Prop where
  agree {s t : σ} : Akin s t → Agree Akin x x s t

/-- So does a step that may fail. -/
def Work.Heedless (x : ExceptT Failure m α) : Prop := SpillSort.Heedless x.run

namespace Heedless

theorem pure {a : α} : Heedless (pure a : m α) := ⟨.pure⟩

theorem bind {x : m α} {f : α → m β} (hx : Heedless x) (hf : ∀ a, Heedless (f a)) :
    Heedless (x >>= f) :=
  ⟨fun h => (hx.agree h).bind fun a _ _ h => (hf a).agree h⟩

theorem map [LawfulMonad m] {x : m α} {f : α → β} (hx : Heedless x) : Heedless (f <$> x) := by
  rw [← bind_pure_comp]
  exact hx.bind fun _ => .pure

end Heedless

/-- Cleaning up heeds no journal if its steps do not. -/
theorem Agree.rescue [MonadLiftT Action m] {x y : ExceptT Failure m α} {cleanup : Action Unit}
    (h : Agree Akin x.run y.run s t) (hc : Heedless (liftM cleanup : m Unit)) :
    Agree Akin (Work.rescue x cleanup).run (Work.rescue y cleanup).run s t := by
  refine h.bind fun r s t hst => ?_
  cases r with
  | ok a => exact .pure hst
  | error e => exact (hc.agree hst).bind fun _ _ _ => .pure

namespace Work.Heedless

theorem pure {a : α} : Work.Heedless (pure a : ExceptT Failure m α) :=
  SpillSort.Heedless.pure (m := m) (a := Except.ok a)

theorem throw {e : Failure} : Work.Heedless (throw e : ExceptT Failure m α) :=
  SpillSort.Heedless.pure (m := m) (a := (Except.error e : Except Failure α))

theorem bind {x : ExceptT Failure m α} {f : α → ExceptT Failure m β} (hx : Work.Heedless x)
    (hf : ∀ a, Work.Heedless (f a)) : Work.Heedless (x >>= f) :=
  ⟨fun h => (hx.agree h).work_bind fun a _ _ h => (hf a).agree h⟩

theorem lift [LawfulMonad m] {x : m α} (hx : SpillSort.Heedless x) :
    Work.Heedless (liftM x : ExceptT Failure m α) :=
  ⟨fun h => (hx.agree h).lift⟩

theorem map [LawfulMonad m] {x : ExceptT Failure m α} {f : α → β} (hx : Work.Heedless x) :
    Work.Heedless (f <$> x) := by
  rw [← bind_pure_comp]
  exact hx.bind fun _ => .pure

/-- A value that is there already, or a failure. -/
theorem except {r : Except Failure α} : Work.Heedless (liftM r : ExceptT Failure m α) :=
  SpillSort.Heedless.pure (m := m) (a := r)

theorem mk {x : m (Except Failure α)} (hx : SpillSort.Heedless x) :
    Work.Heedless (ExceptT.mk x) :=
  hx

/-- What became of a step may be looked at. -/
theorem run {x : ExceptT Failure m α} (hx : Work.Heedless x) : SpillSort.Heedless x.run := hx

theorem rescue [MonadLiftT Action m] {x : ExceptT Failure m α} {cleanup : Action Unit}
    (hx : Work.Heedless x) (hc : SpillSort.Heedless (liftM cleanup : m Unit)) :
    Work.Heedless (Work.rescue x cleanup) :=
  ⟨fun h => (hx.agree h).rescue hc⟩

end Work.Heedless

end Steps

/-! ## Layers -/

section Layers

variable {τ α β : Type} {w : Workspace}

/-- A look at a workspace of which only other parts than the journal are used. -/
theorem Heedless.get_bind {f : Workspace → Action α}
    (hf : ∀ (w : Workspace) (journal : Array Notice), f { w with journal } = f w)
    (h : ∀ w, Heedless (f w)) : Heedless (get >>= f) := by
  refine ⟨fun {w v} hv => ?_⟩
  obtain ⟨journal, rfl⟩ := hv
  show Agree Akin (f w) (f { w with journal }) w { w with journal }
  exact (hf w journal).symm ▸ (h w).agree ⟨journal, rfl⟩

theorem Work.Heedless.get_bind {f : Workspace → Work α}
    (hf : ∀ (w : Workspace) (journal : Array Notice), f { w with journal } = f w)
    (h : ∀ w, Work.Heedless (f w)) : Work.Heedless (get >>= f) :=
  SpillSort.Heedless.get_bind (f := f) hf h

/-- An action does not see the layer above it. -/
theorem Heedless.lift_layer {x : Action α} (hx : Heedless x) :
    Heedless (liftM x : StateT τ Action α) := by
  refine ⟨fun {s t} h => ?_⟩
  obtain ⟨hvalue, hakin⟩ := hx.agree h.2
  exact ⟨hvalue, h.1, hakin⟩

/-- A look at the workspace from a layer above it. -/
theorem Heedless.getThe_bind {f : Workspace → StateT τ Action α}
    (hf : ∀ (w : Workspace) (journal : Array Notice), f { w with journal } = f w)
    (h : ∀ w, Heedless (f w)) :
    Heedless ((liftM (getThe Workspace : Action Workspace) : StateT τ Action Workspace) >>= f) := by
  refine ⟨fun {s t} hst => ?_⟩
  obtain ⟨journal, hw⟩ := hst.2
  have ht : f t.2 = f s.2 := hw ▸ hf s.2 journal
  show Agree Akin (f s.2) (f t.2) s t
  exact ht ▸ (h s.2).agree hst

theorem Work.Heedless.getThe_bind {f : Workspace → ExceptT Failure (StateT τ Action) α}
    (hf : ∀ (w : Workspace) (journal : Array Notice), f { w with journal } = f w)
    (h : ∀ w, Work.Heedless (f w)) :
    Work.Heedless ((liftM (getThe Workspace : Action Workspace) :
      ExceptT Failure (StateT τ Action) Workspace) >>= f) :=
  SpillSort.Heedless.getThe_bind (f := f) hf h

/-- Each step goes on with the layer it is in. -/
theorem Agree.get_layer {r : τ × Workspace → τ × Workspace → Prop} {s t : τ × Workspace}
    {f g : τ → StateT τ Action α} (h : Agree r (f s.1) (g t.1) s t) :
    Agree r (get >>= f) (get >>= g) s t :=
  h

theorem Agree.work_get_layer {r : τ × Workspace → τ × Workspace → Prop} {s t : τ × Workspace}
    {f g : τ → ExceptT Failure (StateT τ Action) α} (h : Agree r (f s.1).run (g t.1).run s t) :
    Agree r (get >>= f).run (get >>= g).run s t :=
  h

theorem Heedless.get_layer : Heedless (get : StateT τ Action τ) :=
  ⟨fun h => ⟨h.1, h⟩⟩

theorem Heedless.modify_layer {f : τ → τ} : Heedless (modify f : StateT τ Action PUnit) :=
  ⟨fun h => ⟨rfl, congrArg f h.1, h.2⟩⟩

theorem Heedless.modifyGet_layer {f : τ → α × τ} : Heedless (modifyGet f : StateT τ Action α) :=
  ⟨fun h => ⟨congrArg (fun a => (f a).1) h.1, congrArg (fun a => (f a).2) h.1, h.2⟩⟩

/-- A layer may be run from a state of its own. -/
theorem Heedless.run_layer {x : StateT τ Action α} (hx : Heedless x) (a : τ) :
    Heedless (x.run a : Action (α × τ)) := by
  refine ⟨fun {w v} h => ?_⟩
  have hrun : Agree Akin x x (a, w) (a, v) := hx.agree ⟨rfl, h⟩
  obtain ⟨hvalue, hstate, hakin⟩ := hrun
  exact ⟨Prod.ext hvalue hstate, hakin⟩

namespace Work.Heedless

theorem lift_layer {x : Action α} (hx : SpillSort.Heedless x) :
    Work.Heedless (liftM x : ExceptT Failure (StateT τ Action) α) :=
  .lift hx.lift_layer

theorem get_layer : Work.Heedless (get : ExceptT Failure (StateT τ Action) τ) :=
  .lift .get_layer

/-- What the layer is may bear on the steps behind the look at it. -/
theorem get_layer_bind {f : τ → ExceptT Failure (StateT τ Action) α}
    (h : ∀ {s t : τ × Workspace}, Akin s t → Agree Akin (f s.1).run (f s.1).run s t) :
    Work.Heedless (get >>= f) := by
  refine ⟨fun {s t} hst => .work_get_layer ?_⟩
  rw [hst.1]
  exact h hst

theorem modify_layer {f : τ → τ} :
    Work.Heedless (modify f : ExceptT Failure (StateT τ Action) PUnit) :=
  .lift .modify_layer

theorem modifyGet_layer {f : τ → α × τ} :
    Work.Heedless (modifyGet f : ExceptT Failure (StateT τ Action) α) :=
  .lift .modifyGet_layer

/-- What comes of the layer may itself be a step. -/
theorem modifyGet_bind {f : τ → α × τ} {g : α → ExceptT Failure (StateT τ Action) β}
    (h : ∀ a, Work.Heedless (g (f a).1)) : Work.Heedless (modifyGet f >>= g) := by
  refine ⟨fun {s t} hst => ?_⟩
  obtain ⟨a, w⟩ := s
  obtain ⟨b, v⟩ := t
  obtain rfl : b = a := hst.1
  exact (h b).agree (s := ((f b).2, w)) (t := ((f b).2, v)) ⟨rfl, hst.2⟩

theorem rescue_layer {x : ExceptT Failure (StateT τ Action) α} {cleanup : Action Unit}
    (hx : Work.Heedless x) (hc : SpillSort.Heedless cleanup) :
    Work.Heedless (Work.rescue x cleanup) :=
  hx.rescue hc.lift_layer

theorem inMerge {x : Work α} (hx : Work.Heedless x) : Work.Heedless x.inMerge :=
  .mk hx.run.lift_layer

theorem inOperator {x : Work α} (hx : Work.Heedless x) : Work.Heedless x.inOperator :=
  .mk hx.run.lift_layer

end Work.Heedless

end Layers

/-! ## Workspaces -/

/-- An action heeds no journal if another journal changes nothing but the journal it leaves. -/
theorem Heedless.of_journal {α : Type} {x : Action α}
    (h : ∀ (w : Workspace) (journal : Array Notice), (x { w with journal }).1 = (x w).1 ∧
      ∃ journal', (x { w with journal }).2 = { (x w).2 with journal := journal' }) :
    Heedless x := by
  refine ⟨fun {w v} hv => ?_⟩
  obtain ⟨journal, rfl⟩ := hv
  exact h w journal

namespace Workspace

theorem onLedger_heedless (f : Memory.Ledger → Memory.Ledger) : Heedless (onLedger f) :=
  .of_journal fun _ journal => ⟨rfl, journal, rfl⟩

theorem withLedger_heedless {α : Type} (f : Memory.Ledger → α × Memory.Ledger) :
    Heedless (withLedger f) :=
  .of_journal fun _ journal => ⟨rfl, journal, rfl⟩

theorem onDisk_heedless (f : Disk → Disk) : Heedless (onDisk f) :=
  .of_journal fun _ journal => ⟨rfl, journal, rfl⟩

theorem note_heedless (n : Notice) : Heedless (note n) :=
  .of_journal fun _ journal => ⟨rfl, journal.push n, rfl⟩

theorem count_heedless (path : List String) (k : String) (f : Counter → Counter) :
    Heedless (count path k f) :=
  .of_journal fun _ journal => ⟨rfl, journal, rfl⟩

theorem cancelled_heedless : Heedless cancelled :=
  .of_journal fun _ journal => ⟨rfl, journal, rfl⟩

theorem raiseCancel_heedless : Heedless raiseCancel :=
  .of_journal fun _ journal => ⟨rfl, journal, rfl⟩

theorem nextSpillPath_heedless : Heedless nextSpillPath :=
  .of_journal fun _ journal => ⟨rfl, journal, rfl⟩

theorem dropAll_heedless (cs : List Memory.ChargeId) : Heedless (dropAll cs) := onLedger_heedless _

theorem removeFile_heedless (path : String) : Heedless (removeFile path) := by
  unfold removeFile
  refine .get_bind (fun _ _ => rfl) fun w => ?_
  split
  · exact onDisk_heedless _
  · exact .pure
  · exact note_heedless _

end Workspace

open Workspace

namespace Work

theorem brace_heedless (context : String) : Work.Heedless (brace context) := by
  unfold brace
  refine .get_bind (fun _ _ => rfl) fun w => ?_
  split
  · exact .bind (.lift (onDisk_heedless _)) fun _ => .throw
  · exact .lift (onDisk_heedless _)

theorem ofDisk_heedless {α : Type} (context : String) (x : Except DiskFault α) :
    Work.Heedless (ofDisk context x) := by
  unfold ofDisk
  split
  · exact .pure
  · exact .throw

end Work

/-! ## Spill files -/

namespace Spill

theorem SpillFile.drop_heedless (f : SpillFile) : Heedless f.drop := removeFile_heedless f.path

namespace Writer

theorem abandon_heedless (x : Writer) : Heedless x.abandon := removeFile_heedless x.path

theorem create_heedless (schema : Schema) : Work.Heedless (create schema) := by
  unfold create
  refine .bind (.lift nextSpillPath_heedless) fun path => ?_
  refine .bind (Work.brace_heedless _) fun _ => ?_
  refine .get_bind (fun _ _ => rfl) fun w => ?_
  refine .bind (Work.ofDisk_heedless _ _) fun made => ?_
  refine .bind (.lift (onDisk_heedless _)) fun _ => ?_
  refine .get_bind (fun _ _ => rfl) fun w => ?_
  exact .bind (.rescue (Work.brace_heedless _) (removeFile_heedless path)) fun _ => .pure

theorem append_heedless [MessageFormat] (x : Writer) (b : Batch) : Work.Heedless (x.append b) := by
  unfold append
  extract_lets context message length last rest
  have hrest : Work.Heedless (rest ⟨⟩) := by
    refine .bind (Work.brace_heedless _) fun _ => ?_
    split
    · exact .bind .throw fun _ => .pure
    · exact .pure
  split
  · exact .bind .throw fun _ => hrest
  · exact hrest

theorem writeOut_heedless (x : Writer) : Work.Heedless x.writeOut := by
  unfold writeOut
  refine .bind (Work.brace_heedless _) fun _ => ?_
  refine .bind (Work.brace_heedless _) fun _ => ?_
  refine .bind (.lift (onDisk_heedless _)) fun _ => ?_
  refine .bind (Work.brace_heedless _) fun _ => ?_
  exact .bind (Work.brace_heedless _) fun _ => .lift (onDisk_heedless _)

theorem finish_heedless (x : Writer) : Work.Heedless x.finish := by
  unfold finish
  refine .bind (.rescue x.writeOut_heedless x.abandon_heedless) fun _ => ?_
  exact .bind (.lift (note_heedless _)) fun _ => .pure

end Writer

namespace Reader

theorem open_heedless (path : String) (schema : Schema) :
    Work.Heedless (Reader.open path schema) := by
  unfold Reader.open
  refine .bind (Work.brace_heedless _) fun _ => ?_
  refine .get_bind (fun _ _ => rfl) fun w => ?_
  refine .bind (Work.ofDisk_heedless _ _) fun node => ?_
  refine .bind (Work.brace_heedless _) fun _ => ?_
  refine .get_bind (fun _ _ => rfl) fun w => ?_
  refine .bind (Work.ofDisk_heedless _ _) fun content => ?_
  refine .bind .except fun header => ?_
  extract_lets rest
  have hrest : Work.Heedless (rest ⟨⟩) :=
    .bind (Work.brace_heedless _) fun _ => .bind .except fun _ => .pure
  split
  · exact .bind .throw fun _ => hrest
  · exact hrest

theorem messageAt_heedless (x : Reader) (e : Entry) : Work.Heedless (x.messageAt e) := by
  unfold messageAt
  refine .bind (Work.brace_heedless _) fun _ => ?_
  refine .get_bind (fun _ _ => rfl) fun w => ?_
  refine .bind (Work.ofDisk_heedless _ _) fun content => ?_
  extract_lets rest
  have hrest : Work.Heedless (rest ⟨⟩) := by
    simp only [rest]
    split
    · exact .pure
    · exact .throw
  split
  · exact .bind .throw fun _ => hrest
  · exact hrest

theorem batchAt_heedless (x : Reader) (e : Entry) : Work.Heedless (x.batchAt e) := by
  unfold batchAt
  refine .bind (x.messageAt_heedless e) fun bytes => ?_
  refine .bind .except fun batch => ?_
  extract_lets last rest
  have hrest : Work.Heedless (rest ⟨⟩) := by
    simp only [rest]
    split
    · exact .bind .throw fun _ => .pure
    · exact .pure
  split
  · exact .bind .throw fun _ => hrest
  · exact hrest

end Reader

end Spill

/-! ## Runs and groups -/

theorem Chunk.drop_heedless (chunk : Chunk) : Heedless (onLedger chunk.drop) := onLedger_heedless _

namespace SortedRun

theorem ofKeys_heedless (chunk : Chunk) (keys : EncodedKeys) (selection? : Option RowSelection)
    (tracker : Memory.TrackerId) : Heedless (ofKeys chunk keys selection? tracker) :=
  .bind (withLedger_heedless _) fun _ => .pure

theorem drop_heedless (run : SortedRun) : Heedless run.drop := dropAll_heedless run.charges

theorem sort_heedless (order : RowOrder) (chunk : Chunk) (selection : RowSelection)
    (tracker : Memory.TrackerId) : Work.Heedless (sort order chunk selection tracker) := by
  unfold sort
  extract_lets rest
  have hrest : Work.Heedless (rest ⟨⟩) :=
    .bind .except fun keys => .lift (ofKeys_heedless ..)
  split
  · exact .bind .throw fun _ => hrest
  · exact hrest

end SortedRun

namespace SortedGroup

theorem drop_heedless (g : SortedGroup) : Heedless g.drop := by
  unfold drop
  refine .bind (Workspace.dropAll_heedless _) fun _ => ?_
  split
  · exact SpillFile.drop_heedless _
  · exact .pure

theorem dropAll_heedless (gs : List SortedGroup) : Heedless (dropAll gs) := by
  induction gs with
  | nil => exact .pure
  | cons g gs ih => exact .bind g.drop_heedless fun _ => ih

section Restoring

variable (order : RowOrder) (tracker : Memory.TrackerId)

theorem restore_heedless (batch : Batch) : Work.Heedless (restore order tracker batch) := by
  unfold restore
  refine .bind (.lift (count_heedless ..)) fun _ => ?_
  refine .bind .except fun keys => ?_
  refine .bind (.lift (withLedger_heedless _)) fun chunk => ?_
  exact .lift (SortedRun.ofKeys_heedless ..)

theorem restoreNext_heedless (es : List Entry) (x : Reader) :
    Heedless (restoreNext order tracker es x) := by
  induction es generalizing x with
  | nil => exact .pure
  | cons e es ih =>
    have hrestored : Work.Heedless (x.batchAt e >>= restore order tracker : Work SortedRun) :=
      .bind (x.batchAt_heedless e) (restore_heedless order tracker)
    unfold restoreNext
    refine .bind hrestored.run fun restored => ?_
    split
    · exact .pure
    · split
      · exact .bind (SortedRun.drop_heedless _) fun _ => ih _
      · exact .pure

theorem nextSpilled_heedless (g : SortedGroup) : Heedless (g.nextSpilled order tracker) := by
  unfold nextSpilled
  split
  · exact .pure
  · split
    · refine .bind .pure fun opened => ?_
      cases opened with
      | error e => exact .pure
      | ok r => exact .bind (restoreNext_heedless ..) fun _ => .pure
    · refine .bind (Reader.open_heedless ..).run fun opened => ?_
      cases opened with
      | error e => exact .pure
      | ok r => exact .bind (restoreNext_heedless ..) fun _ => .pure

theorem nextRun_heedless (g : SortedGroup) : Heedless (g.nextRun order tracker) := by
  unfold nextRun
  split
  · exact nextSpilled_heedless ..
  · split
    · exact .bind (SortedRun.drop_heedless _) fun _ => nextSpilled_heedless ..
    · exact .pure

end Restoring

end SortedGroup

/-! ## Merges -/

namespace Merger

theorem drop_heedless (m : Merger) : Heedless m.drop :=
  .bind (SortedGroup.dropAll_heedless _) fun _ => Workspace.dropAll_heedless _

theorem load_heedless (source : Nat) : Work.Heedless (load source) := by
  unfold load
  refine .bind .get_layer fun m => ?_
  split
  · refine .bind (.lift_layer (Workspace.dropAll_heedless _)) fun _ => ?_
    refine .bind .modify_layer fun _ => ?_
    refine .bind (.lift_layer (SortedGroup.nextRun_heedless ..)) fun loaded => ?_
    refine .bind .modify_layer fun _ => ?_
    split
    · exact .throw
    · exact .pure
    · exact .modify_layer
  · exact .pure

theorem loadAll_heedless (count source : Nat) : Work.Heedless (loadAll count source) := by
  induction count generalizing source with
  | zero => exact .pure
  | succ count ih => exact .bind (load_heedless source) fun _ => ih _

theorem ofGroups_heedless (order : RowOrder) (tracker : Memory.TrackerId)
    (groups : List SortedGroup) : Work.Heedless (ofGroups order tracker groups) := by
  refine .mk (.bind ((loadAll_heedless groups.length 0).run.run_layer _) fun loaded => ?_)
  split
  · exact .pure
  · exact .bind (drop_heedless _) fun _ => .pure

theorem pick_heedless (count : Nat) (picked : Array (Nat × Nat)) :
    Work.Heedless (pick count picked) := by
  induction count generalizing picked with
  | zero => exact .pure
  | succ count ih =>
    unfold pick
    refine .bind .modifyGet_layer fun candidate? => ?_
    split
    · exact .pure
    · refine .bind .modifyGet_layer fun row? => ?_
      split
      · exact ih _
      · exact ih _
      · exact .bind (load_heedless _) fun _ => ih _

theorem nextChunk_heedless (maxRows : Nat) : Work.Heedless (nextChunk maxRows) := by
  unfold nextChunk
  refine .bind (pick_heedless ..) fun picked => ?_
  split
  · exact .bind .modify_layer fun _ => .pure
  · refine .bind .get_layer fun m => ?_
    have hrest : ∀ b, Work.Heedless (do
        modify (settle picked.size)
        let tracker := m.tracker
        some <$> (Workspace.withLedger (Chunk.tracked b tracker) : Action Chunk) :
          MergeWork (Option Chunk)) := fun b =>
      .bind .modify_layer fun _ => .map (.lift_layer (withLedger_heedless _))
    split
    · exact .bind .pure hrest
    · exact .bind .throw hrest

end Merger

/-! ## Spills and merges in memory -/

namespace SpillOutcome

theorem appendChunks_heedless (chunkRows count : Nat) (x : Writer) :
    Work.Heedless (appendChunks chunkRows count x) := by
  induction count generalizing x with
  | zero => exact .pure
  | succ count ih =>
    unfold appendChunks
    refine .bind (.rescue_layer (Merger.nextChunk_heedless _) x.abandon_heedless) fun chunk? => ?_
    split
    · exact .pure
    · next chunk =>
      have hdone : Heedless (onLedger chunk.drop) := chunk.drop_heedless
      refine .bind (.lift_layer cancelled_heedless) fun raised => ?_
      split
      · refine .bind (.lift_layer hdone) fun _ => ?_
        exact .bind (.lift_layer x.abandon_heedless) fun _ => .throw
      · refine .bind (.rescue_layer (x.append_heedless _).inMerge ?_) fun y => ?_
        · exact hdone.bind fun _ => x.abandon_heedless
        · exact .bind (.lift_layer hdone) fun _ => ih y

theorem writeChunks_heedless (schema : Schema) (chunkRows : Nat) :
    Work.Heedless (writeChunks schema chunkRows) := by
  unfold writeChunks
  refine .bind (Merger.nextChunk_heedless _) fun first? => ?_
  split
  · exact .pure
  · next first =>
    refine .rescue_layer ?_ first.drop_heedless
    refine .bind (Writer.create_heedless _).inMerge fun x => ?_
    refine .bind .get_layer fun m => ?_
    refine .bind (appendChunks_heedless ..) fun x => ?_
    exact .bind x.finish_heedless.inMerge fun _ => .pure

theorem ofFile_heedless (order : RowOrder) (tracker : Memory.TrackerId)
    (mergedGroups releasedBytes : Nat) (first : Chunk) (file : SpillFile) :
    Work.Heedless (ofFile order tracker mergedGroups releasedBytes first file) := by
  unfold ofFile
  refine .bind (.rescue .except ?_) fun keys => ?_
  · exact Heedless.bind file.drop_heedless fun _ => first.drop_heedless
  · refine .bind (.lift (SortedRun.ofKeys_heedless ..)) fun head => ?_
    refine .bind (.lift (count_heedless ..)) fun _ => ?_
    refine .bind (.lift (count_heedless ..)) fun _ => ?_
    refine .bind (.lift (count_heedless ..)) fun _ => ?_
    exact .bind (.lift (note_heedless _)) fun _ => .pure

end SpillOutcome

theorem mergeAndSpill_heedless (order : RowOrder) (tracker : Memory.TrackerId) (chunkRows : Nat)
    (groups : List SortedGroup) :
    Work.Heedless (mergeAndSpill order tracker chunkRows groups) := by
  unfold mergeAndSpill
  split
  · exact .pure
  · refine .bind (Merger.ofGroups_heedless ..) fun merger => ?_
    have hwritten := (SpillOutcome.writeChunks_heedless order.schema chunkRows).run.run_layer merger
    refine .bind (.lift hwritten) fun written => ?_
    refine .bind (.lift (Merger.drop_heedless _)) fun _ => ?_
    refine .bind .except fun made? => ?_
    split
    · exact .pure
    · exact .map (SpillOutcome.ofFile_heedless ..)

namespace MemoryMerge

theorem build_heedless (order : RowOrder) (tracker : Memory.TrackerId) (maxBytes : Nat)
    (groups : List SortedGroup) : Work.Heedless (build order tracker maxBytes groups) := by
  unfold build
  extract_lets bytes
  split
  · exact .pure
  split
  · exact .pure
  split
  · exact .pure
  refine .bind (.lift (withLedger_heedless _)) fun allocated => ?_
  split
  · exact .pure
  · refine .bind (.lift (dropAll_heedless _)) fun _ => ?_
    split
    · exact .bind (.lift (dropAll_heedless _)) fun _ => .throw
    · exact .bind (.lift (withLedger_heedless _)) fun _ => .pure

theorem drop_heedless (m : MemoryMerge) : Heedless m.drop := onLedger_heedless _

theorem nextWindow_heedless (m : MemoryMerge) (maxRows : Nat) :
    Heedless (m.nextWindow maxRows) := by
  unfold nextWindow
  split
  · exact .pure
  · exact .bind (onLedger_heedless _) fun _ => .pure

end MemoryMerge

theorem Stage.drop_heedless (stage : Stage) : Heedless stage.drop := by
  unfold Stage.drop
  split
  · exact MemoryMerge.drop_heedless _
  · exact Merger.drop_heedless _
  · exact .pure

theorem Output.drop_heedless (o : Output) : Heedless o.drop := by
  unfold Output.drop
  split
  · exact .pure
  · exact onLedger_heedless _

theorem Output.forM_drop_heedless (os : List Output) :
    Heedless (os.forM fun o => o.drop : Action Unit) := by
  induction os with
  | nil => exact .pure
  | cons o os ih => exact .bind o.drop_heedless fun _ => ih

end SpillSort
