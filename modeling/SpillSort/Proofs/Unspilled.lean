import SpillSort.Proofs.Moments
import SpillSort.Proofs.Resident

/-!
# Before the first spill

As long as an operator has not spilled, it is known exactly what a step of taking in does to its
ledger: keeping a slice opens a charge for the selection and one for the keys, and nothing else.

* `Operator.Unmoved` says that groups, ledger and history stay. `Operator.spill_eases` and its
  companions say that relieving memory either does just that or spills.
* `Operator.keepSlice_adds` says what keeping a slice does.
-/

namespace SpillSort

open Memory Spill

namespace Operator

variable {op : Operator} {w : Workspace} {s t u : Operator × Workspace} {order : RowOrder}

/-! ## Relieving memory -/

/-- Groups and ledger stay, and so does what the policy knows of rows and spills. -/
structure Unmoved (s t : Operator × Workspace) : Prop where
  monitor : ∃ monitor, t.1 = { s.1 with monitor }
  spillCount : t.1.monitor.spillCount = s.1.monitor.spillCount
  totalRows : t.1.monitor.totalRows = s.1.monitor.totalRows
  maxAllocation : t.1.monitor.maxAllocation = s.1.monitor.maxAllocation
  ledger : t.2.ledger = s.2.ledger

namespace Unmoved

theorem refl (s : Operator × Workspace) : Unmoved s s := ⟨⟨_, rfl⟩, rfl, rfl, rfl, rfl⟩

theorem trans (h : Unmoved s t) (h' : Unmoved t u) : Unmoved s u := by
  obtain ⟨m, hm⟩ := h.monitor
  obtain ⟨m', hm'⟩ := h'.monitor
  refine ⟨⟨m', ?_⟩, h'.spillCount.trans h.spillCount, h'.totalRows.trans h.totalRows,
    h'.maxAllocation.trans h.maxAllocation, h'.ledger.trans h.ledger⟩
  rw [hm', hm]

theorem bare (h : Unmoved s t) : t.1.bare = s.1.bare := by
  obtain ⟨m, hm⟩ := h.monitor
  rw [hm]
  rfl

theorem resident (h : Unmoved s t) : t.1.resident = s.1.resident := by
  obtain ⟨m, hm⟩ := h.monitor
  rw [hm]

theorem spilled (h : Unmoved s t) : t.1.spilled = s.1.spilled := by
  obtain ⟨m, hm⟩ := h.monitor
  rw [hm]

end Unmoved

/-- What may come of relieving memory: a spill, or nothing at all. -/
structure Eases (s t : Operator × Workspace) : Prop where
  bare : t.1.bare = s.1.bare
  sorted : t.1.Sorted
  unmoved : t.1.monitor.spillCount ≠ 0 ∨ Unmoved s t

theorem Unmoved.eases (h : Unmoved s t) (hs : s.1.Sorted) : Eases s t := by
  refine ⟨h.bare, fun g hg => ?_, .inr h⟩
  rw [show t.1.order? = s.1.order? from (congrArg Operator.order? h.bare :)]
  exact hs g (h.resident ▸ hg)

theorem Eases.trans (h : Eases s t) (h' : Eases t u) : Eases s u := by
  refine ⟨h'.bare.trans h.bare, h'.sorted, ?_⟩
  rcases h'.unmoved with hne | hu
  · exact .inl hne
  · exact h.unmoved.imp (fun hne => hu.spillCount ▸ hne) fun ht => ht.trans hu

/-- Sorted slices all have rows: if some of them are chosen, a group on disk comes of them. -/
theorem spill_eases (h : op.Sorted) (reason : SpillReason) :
    Gives (spill reason) (fun _ => Eases (op, w)) (fun _ _ => True) (op, w) := by
  refine gives_spill (fun _ => (Unmoved.refl _).eases h) (fun _ journal _ hempty => ?_)
    fun order journal ho hne => ?_
  · exact Unmoved.eases ⟨⟨_, h.spilledTo_none hempty⟩, rfl, rfl, rfl, rfl⟩ h
  · have hown := (Owns.nothing { w with journal }).careless_charges
      ((spillCandidates op.resident).1.flatMap SortedGroup.charges)
    refine (h.mergeAndSpill_spec ho hne hown _ _).mono (fun made? x hx => ?_) fun _ _ _ => trivial
    obtain ⟨made, _, rfl, -⟩ := hx
    exact ⟨rfl, h.withoutChosen, .inl (Nat.succ_ne_zero _)⟩

theorem relieveInput_eases (h : op.Sorted) :
    Gives relieveInput (fun _ => Eases (op, w)) (fun _ _ => True) (op, w) := by
  have hnoted : ∀ journal, Eases (op, w)
      ({ op with monitor := op.monitor.onOutOfMemory.2 }, { w with journal }) := fun _ =>
    Unmoved.eases ⟨⟨_, rfl⟩, rfl, rfl, rfl, rfl⟩ h
  refine gives_relieveInput (fun journal _ => ?_) hnoted
  exact (spill_eases (hnoted journal).sorted _).mono (fun _ _ ht => (hnoted journal).trans ht)
    fun _ _ _ => trivial

theorem relieve_eases (h : op.Sorted) :
    Gives relieve (fun _ => Eases (op, w)) (fun _ _ => True) (op, w) :=
  gives_relieve (fun _ => spill_eases h _) ((Unmoved.refl _).eases h)

/-! ## Selections -/

/-- A selection has the charge that was opened last, and nothing else happened. -/
structure Selected (rows : Nat) (v : RowSelection) (s t : Operator × Workspace) : Prop where
  offsets : v.offsets = RowSelection.identityOffsets rows
  charge : v.charge? = some s.2.ledger.charges.size
  operator : t.1 = s.1
  ledger : t.2.ledger =
    (s.2.ledger.charge s.1.tracker (clampBytes (RowSelection.bytesFor rows))).2

/-- A selection comes of it, and nothing else but what may come of relieving memory. -/
def Grants (rows : Nat) (v : RowSelection) (s t : Operator × Workspace) : Prop :=
  ∃ u, Eases s u ∧ Selected rows v u t

/-- Notes change nothing of it. -/
theorem eases_note (h : op.Sorted) (journal : Array Notice) :
    Eases (op, w) (op, { w with journal }) :=
  Unmoved.eases ⟨⟨_, rfl⟩, rfl, rfl, rfl, rfl⟩ h

/-- A request that is granted opens the charge. -/
theorem trySelection_selects (rows : Nat) (s : Operator × Workspace) (journal : Array Notice) :
    Ensures (trySelection rows) (fun r t => ∀ v, r = .ok v → Selected rows v s t)
      (s.1, { s.2 with journal }) := by
  unfold trySelection
  simp only [Ensures.bind_iff, Ensures.get_layer_iff, Ensures.lift_layer_iff, Workspace.withLedger,
    Ensures.modifyGet_iff, RowSelection.allocate, Ledger.tryCharge]
  split
  · exact fun _ hv => by cases hv
  · intro v hv
    obtain rfl := Except.ok.inj hv
    exact ⟨rfl, rfl, rfl, rfl⟩

theorem allocateSelection_grants (rows : Nat) (h : op.Sorted) :
    Gives (allocateSelection rows) (fun v => Grants rows v (op, w)) (fun _ _ => True) (op, w) := by
  refine (gives_allocateSelection (Q := Eases (op, w)) (E := fun _ _ => True)
    ((Unmoved.refl _).eases h) fun journal => ?_).mono (fun v t ht => ?_) fun _ _ _ => trivial
  · exact (spill_eases h _).mono (fun _ _ hu => (eases_note h journal).trans hu) fun _ _ _ => trivial
  · obtain ⟨u, hu, hgranted⟩ := ht
    exact ⟨u, hu, hgranted.holds (trySelection_selects rows u)⟩

/-! ## Keeping slices -/

/-- A run of the slice is added to the groups in memory, with a charge each for its selection and its
keys, which are opened one after the other. -/
structure Adds (slice : Chunk) (run : SortedRun) (s t : Operator × Workspace) : Prop where
  chunk : run.chunk = slice
  added : ∃ monitor, t.1 = { s.1 with resident := s.1.resident.push (.resident run), monitor }
  spillCount : t.1.monitor.spillCount = s.1.monitor.spillCount
  maxAllocation : t.1.monitor.maxAllocation = s.1.monitor.maxAllocation
  totalRows : t.1.monitor.totalRows = min maxCount (s.1.monitor.totalRows + run.length)
  charges : ∃ bytes bytes', t.2.ledger =
      ((s.2.ledger.charge s.1.tracker bytes).2.charge s.1.tracker bytes').2 ∧
    run.orderCharges = [((s.2.ledger.charge s.1.tracker bytes).2.charge s.1.tracker bytes').1,
      (s.2.ledger.charge s.1.tracker bytes).1]

/-- What comes of keeping a slice: it is added, unless memory was relieved by a spill. -/
structure AddsOrSpills (slice : Chunk) (s t : Operator × Workspace) : Prop where
  bare : t.1.bare = s.1.bare
  sorted : t.1.Sorted
  adds : t.1.monitor.spillCount ≠ 0 ∨ ∃ run, Adds slice run s t

theorem keepSlice_adds {slice : Chunk} (ho : op.order? = some order) (h : op.Sorted)
    (hpos : 0 < slice.length) (hsmall : slice.length ≤ maxSelectionRows) :
    Gives (keepSlice order slice) (fun _ => AddsOrSpills slice (op, w)) (fun _ _ => True)
      (op, w) := by
  refine gives_keepSlice (allocateSelection_grants slice.length h) (fun v t ht => ?_)
    fun _ _ _ => .of_forall fun _ _ => trivial
  obtain ⟨u, hu, hoffsets, hcharge, hop, hledger⟩ := ht
  obtain ⟨op', x⟩ := t
  obtain rfl : op' = u.1 := hop
  have hown : Owns (.careless x.disk) x (v.held + (slice.held + 0)) :=
    ((Owns.nothing x).careless_charges _).careless_charges _
  refine Gives.mono ((SortedRun.sort_spec hoffsets hpos hsmall hown u.1.tracker).and
    (SortedRun.sort_charges order slice v u.1.tracker)) (fun run y hy => ?_) fun _ _ _ =>
      .of_forall fun _ _ => .of_forall fun _ _ => trivial
  obtain ⟨⟨hsorts, -⟩, hchunk, ⟨offsets, -, hselection⟩, -, hkey, hledger', -⟩ := hy
  have hcount : Ensures (countKept u.1 run) (fun _ z => z.ledger = y.ledger) y := rfl
  refine hcount.mono fun _ z hsame => ?_
  have ho' : u.1.order? = some order :=
    (show u.1.order? = op.order? from (congrArg Operator.order? hu.bare :)).trans ho
  refine ⟨hu.bare, fun g hg => ?_, hu.unmoved.imp id fun hmoved => ⟨run, hchunk, ?_, ?_, ?_, ?_, ?_⟩⟩
  · rcases Array.mem_push.mp hg with hg | rfl
    · exact hu.sorted g hg
    · exact ⟨order, ho', run, slice.batch, rfl, hsorts⟩
  · obtain ⟨m, hm⟩ := hmoved.monitor
    rw [hm]
    exact ⟨_, rfl⟩
  · exact hmoved.spillCount
  · exact hmoved.maxAllocation
  · show min maxCount (u.1.monitor.totalRows + run.length) = _
    rw [hmoved.totalRows]
  · obtain ⟨m, hm⟩ := hmoved.monitor
    have htracker : u.1.tracker = op.tracker := by rw [hm]
    rw [htracker, hmoved.ledger] at hledger
    rw [htracker, hledger] at hkey hledger'
    refine ⟨_, _, hsame.trans hledger', ?_⟩
    rw [hmoved.ledger] at hcharge
    rw [SortedRun.orderCharges, hkey, hselection, Option.bind_some, hcharge]
    rfl

end Operator

end SpillSort
