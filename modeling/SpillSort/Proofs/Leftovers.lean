import Mathlib.Data.List.Flatten
import SpillSort.Proofs.Sessions

/-!
# What is left behind

The spill files of a sort on the disk are at all times those of the groups it holds, one for each.
When it is over, drained, stopped, failed or ended by its consumer, it holds no groups and no merge,
there are none of its files, and its tracker shows nothing once the outputs are gone.

* `Operator.Filed` says which files there are; it holds while an operator takes in and between any
  two calls.
* `Session.leaves_nothing_behind` is about any calls, whatever the disk and the flag do meanwhile.
-/

namespace SpillSort

open Memory Spill

variable {E : Surroundings} {w : Workspace} {R S X : Resources} {script : List Pull}
  {order : RowOrder} {all staged : List Batch} {given : List Row}

/-! ## Files and groups -/

/-- The path of the file of a group on disk. -/
def SortedGroup.path? (g : SortedGroup) : Option String := g.spilled?.map fun s => s.file.path

/-- The groups of a final merge. -/
def Stage.groups : Stage → List SortedGroup
  | .finalMerge m _ => m.groups.toList
  | _ => []

/-- The paths of the files of all groups that an operator holds. -/
def Operator.paths (op : Operator) : List String :=
  (op.spilled.toList ++ op.stage.groups).filterMap SortedGroup.path?

/-- The paths of the files among resources. -/
def Resources.paths (R : Resources) : Multiset String := R.files.map HeldFile.path

namespace Resources

@[simp] theorem paths_add (R S : Resources) : paths (R + S) = paths R + paths S := by simp [paths]

@[simp] theorem paths_charges (cs : List ChargeId) : paths (charges cs) = 0 := by simp [paths]

end Resources

theorem SortedGroup.Keeps.paths_eq {g : SortedGroup} (h : g.Keeps R) :
    R.paths = (g.path?.toList : Multiset String) := by
  unfold SortedGroup.Keeps at h
  unfold SortedGroup.path?
  split at h
  · next hs => simp [hs, h]
  · next s hs =>
    obtain ⟨f, hf, rfl⟩ := h
    simp [hs, hf, Resources.paths]

theorem Source.Keeps.paths_eq {x : Source} (h : x.Keeps R) :
    R.paths = (x.group.path?.toList : Multiset String) := by
  obtain ⟨T, hT, rfl⟩ := h
  rw [Resources.paths_add, Resources.paths_charges, zero_add, hT.paths_eq]

/-- The files of many owners are those of each. -/
theorem Shared.paths_eq {α : Type} {P : α → Resources → Prop} {path? : α → Option String}
    {xs : List α} (hP : ∀ x S, P x S → S.paths = ((path? x).toList : Multiset String))
    (h : Shared P xs R) : R.paths = (xs.filterMap path? : Multiset String) := by
  induction h with
  | nil => rfl
  | @cons x xs S T hx _ ih =>
    rw [Resources.paths_add, hP x S hx, ih, Multiset.coe_add]
    cases hp : path? x with
    | none => simp [hp]
    | some p => simp [hp]

theorem Stage.Keeps.paths_eq {stage : Stage} (h : stage.Keeps R) :
    R.paths = (stage.groups.filterMap SortedGroup.path? : Multiset String) := by
  cases stage with
  | finalMemory m =>
    obtain rfl : R = {.lease m.lease} := h
    rfl
  | finalMerge m rows =>
    obtain ⟨xs, hxs, hshared⟩ : m.Keeps R := h
    have hpaths := hshared.paths_eq fun x S hx => hx.paths_eq
    rw [hpaths, Stage.groups, hxs.groups, List.filterMap_map]
    rfl
  | _ =>
    obtain rfl : R = 0 := h
    rfl

namespace Operator

variable {op first : Operator} {s : Operator × Workspace} {taken : List ChargeId}

/-- The files of an operator on the disk, above a base that has all other things: one for each group
on disk that the operator holds. -/
structure Filed (base : Disk) (s : Operator × Workspace) : Prop where
  resident : ∀ g ∈ s.1.resident, g.path? = none
  spilled : ∀ g ∈ s.1.spilled, g.path?.isSome
  files : ∃ fs : List Disk.Placed, base.Keeps s.2.disk fs ∧ (fs.map fun f => f.2.path).Perm s.1.paths

theorem Live.filed (h : Live E script S s) (hS : S.paths = 0)
    (hresident : ∀ g ∈ s.1.resident, g.path? = none)
    (hspilled : ∀ g ∈ s.1.spilled, g.path?.isSome) : Filed E.base s := by
  obtain ⟨taken, R, U, ⟨V, T, hV, hT, rfl⟩, hk, -, hw⟩ := h
  obtain ⟨fs, hfs, hkeeps⟩ := hw.disk
  refine ⟨hresident, hspilled, fs, hkeeps, ?_⟩
  have hnone : V.paths = 0 := by
    rw [hV.paths_eq fun g _ hg => hg.paths_eq, List.filterMap_eq_nil_iff.mpr]
    · rfl
    · exact fun g hg => hresident g (Array.mem_toList_iff.mp hg)
  rw [← Multiset.coe_eq_coe]
  have hall : ((fs.map (·.2) : List HeldFile) : Multiset HeldFile).map HeldFile.path = _ :=
    congrArg _ hfs
  rw [Multiset.map_coe, List.map_map] at hall
  refine hall.trans ?_
  show Resources.paths _ = _
  simp only [Resources.paths_add, Resources.paths_charges, hnone, hS, zero_add, add_zero]
  rw [hT.paths_eq fun g _ hg => hg.paths_eq, hk.paths_eq, Multiset.coe_add, paths,
    List.filterMap_append]

/-- Groups in memory have no files, and groups on disk have. -/
theorem Has.filed (h : op.Has staged R) :
    (∀ g ∈ op.resident, g.path? = none) ∧ ∀ g ∈ op.spilled, g.path?.isSome := by
  unfold Has at h
  split at h
  · obtain ⟨old, new, U, V, hold, hnew, -, hU, hV, -⟩ := h.groups
    refine ⟨fun g hg => ?_, fun g hg => ?_⟩
    · rw [← Array.mem_toList_iff, hnew] at hg
      obtain ⟨p, hp, rfl⟩ := List.mem_map.mp hg
      obtain ⟨_, _, -, hpart⟩ := hU.exists_part hp
      rw [SortedGroup.path?, hpart.not_spilled]
      rfl
    · rw [← Array.mem_toList_iff, hold] at hg
      obtain ⟨p, hp, rfl⟩ := List.mem_map.mp hg
      obtain ⟨_, _, -, hpart⟩ := hV.exists_part hp
      obtain ⟨head, file, hspilled⟩ := hpart.spilled
      rw [hspilled]
      rfl
  · obtain ⟨hr, hs, -⟩ := h
    rw [hr, hs]
    exact ⟨by simp, by simp⟩

theorem Over.filed (h : Over E script S s) (hS : S.paths = 0) : Filed E.base s := by
  refine h.live.filed hS ?_ ?_
  · rw [h.resident]
    simp
  · rw [h.spilled]
    simp

theorem Working.filed (h : Working E script S first all given s) (hfresh : Fresh first)
    (hS : S.paths = 0) : Filed E.base s := by
  have hlive := (h.broken hfresh).live
  cases h with
  | taking h =>
    obtain ⟨staged, taken, R, htakes, -⟩ := h.takes
    obtain ⟨hresident, hspilled⟩ := htakes.has.filed
    exact hlive.filed hS hresident hspilled
  | serving h =>
    refine hlive.filed hS ?_ ?_
    · rw [h.resident]
      simp
    · rw [h.spilled]
      simp
  | finished h => exact h.isOver.filed hS

/-- All that an operator takes in leaves its files in order. -/
theorem Taking.filed_ingest (h : Taking E script S first all s)
    (hscript : ∀ p ∈ script, LeavesFiles p.onDisk)
    (hE : ∀ b ∈ E.books?, b.tracker = first.tracker) (hfresh : Fresh first) (hS : S.paths = 0)
    (count : Nat) : Gives (ingest count) (fun _ t => Filed E.base t) (fun _ _ => True) s := by
  obtain ⟨op, w⟩ := s
  obtain ⟨staged, taken, R, htakes, -⟩ := h.takes
  have htracker : op.tracker = first.tracker := (congrArg Operator.tracker h.frame :)
  refine (ingest_spec hscript hE count htracker htakes).mono (fun ended t ht => ?_) fun _ _ _ => trivial
  obtain ⟨staged', taken', R', hf, ht, -⟩ := ht
  have hstage : t.1.stage = .uninitialized :=
    (congrArg Operator.stage (hf.trans h.frame) :).trans hfresh.stage
  obtain ⟨hresident, hspilled⟩ := ht.has.filed
  exact (ht.live (by rw [hstage]; exact rfl)).filed hS hresident hspilled

/-- A sort that is over has no files, and no merge. -/
theorem Over.swept (h : Over E script S s) (hS : S.paths = 0) :
    s.1.stage.groups = [] ∧ s.2.disk.tree = E.base.tree := by
  have hgroups : s.1.stage.groups = [] := by
    rcases h.stage with hd | ⟨hf, -⟩
    · rw [hd]
      rfl
    · rw [hf]
      rfl
  obtain ⟨fs, hkeeps, hperm⟩ := (h.filed hS).files
  have hpaths : s.1.paths = [] := by
    rw [paths, hgroups, h.spilled]
    rfl
  rw [hpaths, List.perm_nil, List.map_eq_nil_iff] at hperm
  subst hperm
  exact ⟨hgroups, hkeeps.tree⟩

/-- The charges that wait in the input of a sort that is over are charges of its script. -/
theorem Over.charges_sub {U : Resources} (h : Over E script U s) :
    ∀ c ∈ s.1.input.charges, c ∈ script.flatMap Pull.charges := by
  intro c hc
  obtain ⟨taken, hd, -⟩ := h.rest
  rw [Input.charges, hd.script_eq] at hc
  exact ((List.drop_sublist ..).flatMap Pull.charges).subset hc

/-- Nothing is on the tracker of a sort that is over, unless someone else holds a charge that was
taken in. -/
theorem Over.current_eq {b : Books} {cs : List ChargeId} (h : Over E script (.charges cs) s)
    (hE : E.books? = some b) (hfree : b.taken = [])
    (hopened : ∀ c ∈ script.flatMap Pull.charges ++ cs, c < b.opened)
    (hothers : ∀ c ∈ s.1.input.charges ++ cs, s.2.ledger.trackerOf? c ≠ some b.tracker) :
    s.2.ledger.current b.tracker = b.idle := by
  obtain ⟨taken, hd, hw⟩ := h.rest
  have haccounts : Accounts { b with taken := taken } s.2.ledger
      (.charges s.1.pendingCharges + (.charges s.1.input.charges + .charges cs)) := by
    have hbooks := hw.accounts { b with taken := b.taken ++ taken } (by
      rw [Surroundings.take, hE]
      rfl)
    rwa [hfree] at hbooks
  refine haccounts.current_eq fun r hr => ?_
  have hpulled : ∀ c ∈ s.1.pendingCharges, c < b.opened := by
    intro c hc
    refine hopened c (List.mem_append_left _ ?_)
    exact ((List.take_sublist ..).flatMap Pull.charges).subset (hd.pending_sub c hc)
  rw [← Resources.charges_append, ← Resources.charges_append] at hr
  obtain ⟨c, hc, rfl⟩ := List.mem_map.mp (Multiset.mem_coe.mp hr)
  rcases List.mem_append.mp hc with hc | hc
  · -- an event was pulled ahead, so nothing was taken over
    have hsome : s.1.pending?.isSome := by
      by_contra hnone
      rw [Option.not_isSome_iff_eq_none] at hnone
      rw [pendingCharges, hnone] at hc
      cases hc
    have htaken : taken = [] := hd.untaken (.inr hsome)
    refine ⟨c, hpulled c hc, rfl, fun ht => ?_⟩
    obtain ⟨x, hx, hxt⟩ := Option.map_eq_some_iff.mp ht
    rcases haccounts.foreign c x (hpulled c hc) hx with ⟨-, hm⟩ | hm
    · rw [htaken] at hm
      cases hm
    · apply hm
      show b.tracker ∈ x.tracker :: _
      rw [hxt]
      exact List.mem_cons_self
  · refine ⟨c, hopened c ?_, rfl, hothers c hc⟩
    rcases List.mem_append.mp hc with hc | hc
    · exact List.mem_append_left _ (h.charges_sub c hc)
    · exact List.mem_append_right _ hc

end Operator

namespace Session

variable {name : String} {options : SortOptions} {makeOrder : OrderMaker} {pressure : Bool}
  {stem : String} {fragment : Fragment} {ledger : Ledger} {disk : Disk} {s : Operator × Workspace}
  {others : List ChargeId}

theorem paths_kept (s : Session) : s.kept.paths = 0 := by
  unfold kept
  induction s.held with
  | nil => rfl
  | cons o os ih =>
    rw [List.map_cons, List.sum_cons, Resources.paths_add, ih]
    cases o <;> rfl

/-- What the books of a new tracker are kept for. -/
def books (s : Operator × Workspace) (ledger : Ledger) : Surroundings :=
  ⟨some ⟨s.1.tracker, 0, ledger.charges.size, []⟩, s.2.disk, fun _ => True, fun _ _ => trivial,
    trivial⟩

theorem begin_owns (hs : Operator.create name options makeOrder { script, pressure } stem fragment
      ledger disk = .ok s) (hledger : ledger.Balanced (script.flatMap Pull.charges ++ others))
    (flag : CancelFlag) :
    Owns (books s ledger) (begin s flag).workspace
      (.charges (script.flatMap Pull.charges) + .charges others) := by
  obtain ⟨-, v, -, hop, hw⟩ := Operator.create_ok hs
  rw [← Resources.charges_append]
  refine ⟨fun b hb => ?_, ⟨[], ?_, .nil _⟩, trivial⟩
  · obtain rfl := Option.some.inj hb
    have hbooks := Accounts.addChild hledger name options.maxAllocation fragment.tracker
    show Accounts ⟨s.1.tracker, 0, ledger.charges.size, []⟩ s.2.ledger _
    rw [hop, hw]
    exact hbooks
  · simp

/-- **A sort leaves nothing behind.** While it takes in and between any two calls, the files of a sort
are those of the groups on disk that it holds, one for each. Once a pull found it drained, stopped or
failed, or its consumer ended it, there is no group, no merge and no file left; and when the outputs
are gone as well, its tracker shows nothing, unless others still hold a charge that was moved to it. -/
theorem leaves_nothing_behind (hs : Operator.create name options makeOrder { script, pressure } stem
      fragment ledger disk = .ok s) (hscript : ∀ p ∈ script, LeavesFiles p.onDisk)
    (hledger : ledger.Balanced (script.flatMap Pull.charges ++ others)) (flag : CancelFlag)
    (cs : List Call) (hcs : ∀ c ∈ cs, c.Quiet ∧ ∀ f, c = .memory f → Spares s.1.tracker f) :
    (∀ count, Gives (Operator.ingest count) (fun _ u => Operator.Filed s.2.disk u) (fun _ _ => True)
      (begin s flag).state) ∧
    Operator.Filed s.2.disk ((begin s flag).run cs).2.state ∧
    ((∃ c ∈ cs, c.Ends) ∨ (∃ r ∈ ((begin s flag).run cs).1, r.Final) →
      let t := ((begin s flag).run cs).2
      t.operator.resident = #[] ∧ t.operator.spilled = #[] ∧
        (t.operator.stage = .done ∨ t.operator.stage = .failed) ∧
        t.workspace.disk.tree = s.2.disk.tree ∧
        (t.held = [] → (∀ c ∈ t.operator.input.charges ++ others,
            t.workspace.ledger.trackerOf? c ≠ some s.1.tracker) →
          t.workspace.ledger.current s.1.tracker = 0)) := by
  have hfresh := create_fresh hs
  have hown := begin_owns hs hledger flag
  have hgoes := begin_goes hs flag hown
  have hpaths : ∀ t : Session, (t.kept + Resources.charges others).paths = 0 := fun t => by
    rw [Resources.paths_add, Resources.paths_charges, paths_kept, add_zero]
  have hE : ∀ b ∈ (books s ledger).books?, b.tracker = s.1.tracker := by
    rintro b ⟨⟩
    rfl
  have hfair : ∀ c ∈ cs, c.Quiet ∧ c.Spares (books s ledger) := by
    refine fun c hc => ⟨(hcs c hc).1, ?_⟩
    cases c with
    | memory f =>
      rintro b ⟨⟩
      exact (hcs _ hc).2 f rfl
    | _ => trivial
  have hrun := run_spec hscript hE hfresh cs hfair hgoes
  refine ⟨fun count => ?_, ?_, fun hover => ?_⟩
  · exact (begin_taking hs flag hown).filed_ingest hscript hE hfresh (by simp) count
  · by_cases hover : (∃ c ∈ cs, c.Ends) ∨ ∃ r ∈ ((begin s flag).run cs).1, r.Final
    · exact (hrun.ended hover).isOver.filed (hpaths _)
    · simp only [not_or, not_exists, not_and] at hover
      obtain ⟨rows, -, hgoes⟩ := hrun.goes hover.1 fun r hr => by
        by_contra hnot
        exact hover.2 r hr (Reply.final_of_not_fine hnot)
      exact hgoes.filed hfresh (hpaths _)
  · have hended := hrun.ended hover
    have hswept := hended.isOver.swept (hpaths _)
    refine ⟨hended.isOver.resident, hended.isOver.spilled, hended.isOver.stage.imp_right And.left,
      hswept.2, fun hheld hothers => ?_⟩
    have hover : Operator.Over (books s ledger) script (.charges others)
        ((begin s flag).run cs).2.state := by
      have hkept := hended.isOver
      rwa [kept, hheld, List.map_nil, List.sum_nil, zero_add] at hkept
    exact hover.current_eq (b := ⟨s.1.tracker, 0, ledger.charges.size, []⟩) rfl rfl
      (fun c hc => hledger.lt_size hc) hothers

/-- Three batches, two of which were spilled: a kill after the first output leaves no file, and when
the output is gone the tracker shows nothing. -/
theorem leaves_nothing_behind_three_batches : ∃ s,
    Sample.operator Sample.options Sample.threeBatches = .ok s ∧
      let t := ((begin s {}).run [.next true, .kill, .letGo]).2
      t.operator.resident = #[] ∧ t.operator.spilled = #[] ∧
        (t.operator.stage = .done ∨ t.operator.stage = .failed) ∧
        t.workspace.disk.tree = s.2.disk.tree ∧ t.workspace.ledger.current s.1.tracker = 0 := by
  have hbalanced : (Fragment.start ⟨1, 2⟩ ⟨3, 4⟩ (-1)).2.Balanced
      (Sample.threeBatches.flatMap Pull.charges ++ []) :=
    ⟨by decide, by decide, fun _ => rfl, fun _ => rfl⟩
  obtain ⟨s, hs⟩ := Sample.exists_operator Sample.threeBatches
  have hcalls : ∀ c ∈ [Call.next true, .kill, .letGo],
      c.Quiet ∧ ∀ f, c = .memory f → Spares s.1.tracker f := by
    simp [Call.Quiet]
  have hkilled := (begin_run_spec hs Sample.threeBatches_quiet {} _ fun c hc => (hcalls c hc).1).ended
    (.inl ⟨.kill, by simp, trivial⟩)
  obtain ⟨hresident, hspilled, hstage, htree, hcurrent⟩ :=
    (leaves_nothing_behind hs Sample.threeBatches_quiet hbalanced {} _ hcalls).2.2
      (.inl ⟨.kill, by simp, trivial⟩)
  -- nobody is charged for these batches, so no charge waits in the input
  refine ⟨s, hs, hresident, hspilled, hstage, htree, hcurrent rfl fun c hc => ?_⟩
  rw [List.append_nil] at hc
  cases hkilled.isOver.charges_sub c hc

end Session

end SpillSort
