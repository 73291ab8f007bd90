import SpillSort.Proofs.Audits
import SpillSort.Proofs.ResidentBytes

/-!
# Counters and what happened

When a sort is done, its counters say what happened: how many rows came in and went out, which spill
files were made, and how much of them was read back.

* `Session.Waiting` is a session that was not asked for rows yet, `Session.Accounted` one whose input
  has ended.
* `Session.Waiting.run` takes the first to the second, `Session.Accounted.run` keeps the second.
* `Session.counters_of_drained` is about all calls.
-/

namespace SpillSort

open Memory Spill
open Workspace (Silent)
open Operator (Audited Booked EndsAs Fresh Keeping)

variable {base : Array ByteArray} {files : List Deposit} {u : Operator × Workspace}

/-- Whether a call asks the sort for rows. -/
def Call.Pulls : Call → Prop
  | .next _ | .drain => True
  | _ => False

namespace Session

variable {E : Surroundings} {script : List Pull} {X : Resources} {first : Operator}
  {all : List Batch} {given : List Row} {s : Session} {c : Call} {cs : List Call}

/-! ## Calls that ask for nothing -/

/-- What the consumer does with an output does not count. -/
theorem next_silent (s : Session) (keep : Bool) :
    Silent (s.act Operator.next).2.workspace (s.next keep).2.workspace := by
  unfold Session.next
  generalize s.act Operator.next = a
  obtain ⟨r, t⟩ := a
  dsimp only
  split
  · exact refl_of Silent t.workspace
  · next o _ =>
    split
    · exact refl_of Silent t.workspace
    · exact o.drop_moves (r := Silent) (w := t.workspace)

/-- Neither does anything that is not asked of the sort, which can only be short of memory then. -/
theorem perform_silent (hc : c.Idle) (hq : c.Quiet) (s : Session) :
    Silent s.workspace (s.perform c).2.workspace ∧
      ((s.perform c).2.operator = s.operator ∨ (s.perform c).2.operator = s.operator.pressed) := by
  cases c with
  | letGo =>
    rw [perform_letGo]
    exact ⟨Output.forM_drop_moves (r := Silent) (w := s.workspace) s.held, .inl rfl⟩
  | cancel => exact ⟨Workspace.raiseCancel_moves (r := Silent) (w := s.workspace), .inl rfl⟩
  | pressure => exact ⟨refl_of Silent s.workspace, .inr rfl⟩
  | memory f =>
    exact ⟨Workspace.onLedger_moves (r := Silent) (w := s.workspace) (·.onForest f), .inl rfl⟩
  | disk f =>
    exact ⟨⟨rfl, rfl, (hq s.workspace.disk).2⟩, .inl rfl⟩
  | _ => exact hc.elim

/-- What is asked for is found in the answers. -/
theorem mem_pulls {p : Except Failure Poll} {found : List (Except Failure Poll)} (hp : p ∈ found)
    (count : Nat) : p ∈ (s.pulls count found).1 := by
  induction count generalizing s found with
  | zero => exact List.mem_reverse.mpr hp
  | succ count ih =>
    rw [pulls_succ]
    split
    · exact ih (List.mem_cons_of_mem _ hp)
    · exact List.mem_reverse.mpr (List.mem_cons_of_mem _ hp)

/-! ## Before and after the end of the input -/

/-- A session that was not asked for rows yet. -/
structure Waiting (base : Array ByteArray) (s : Session) : Prop where
  keeping : Keeping base .waiting s.state
  stage : s.operator.stage = .uninitialized

/-- A session whose input ended in the state `u`, with all rows in its groups. -/
structure Accounted (base : Array ByteArray) (all : List Batch) (files : List Deposit)
    (u : Operator × Workspace) (s : Session) : Prop where
  rows : total (u.1.groups.map SortedGroup.rows) = total (all.map Batch.rows)
  audited : Audited base files u s.state

/-- The pull that comes to the end of the input, in the state `u`. -/
def EndsIn (u : Operator × Workspace) (s : Session) (c : Call) : Prop := c.Pulls ∧ EndsAs s.state u

/-- Nothing is counted, and memory may run short. -/
theorem Waiting.idle {t : Session} (h : Waiting base s) (hw : Silent s.workspace t.workspace)
    (hop : t.operator = s.operator ∨ t.operator = s.operator.pressed) : Waiting base t := by
  obtain ⟨op, v, held⟩ := t
  rcases hop with rfl | rfl
  · exact ⟨h.keeping.workspace hw trivial, h.stage⟩
  · exact ⟨h.keeping.onward rfl rfl rfl hw h.keeping.sorted trivial h.keeping.quiet, h.stage⟩

theorem Accounted.idle {t : Session} (h : Accounted base all files u s)
    (hw : Silent s.workspace t.workspace)
    (hop : t.operator = s.operator ∨ t.operator = s.operator.pressed) :
    Accounted base all files u t := by
  obtain ⟨op, v, held⟩ := t
  rcases hop with rfl | rfl
  · exact ⟨h.rows, h.audited.onward rfl rfl rfl h.audited.quiet hw⟩
  · exact ⟨h.rows, h.audited.onward rfl rfl rfl h.audited.quiet hw⟩

/-- The consumer has its output. -/
theorem Accounted.taken {keep : Bool} (h : Accounted base all files u (s.act Operator.next).2) :
    Accounted base all files u (s.next keep).2 :=
  h.idle (s.next_silent keep) (.inl (s.next_operator keep).2)

variable (hscript : ∀ p ∈ script, LeavesFiles p.onDisk)
  (hE : ∀ b ∈ E.books?, b.tracker = first.tracker) (hfresh : first.Fresh)
include hscript hE hfresh

/-- A pull that neither fails nor stops lets the sort go on. -/
theorem Goes.next (h : Goes E script X first all given s) {keep : Bool} (hfine : Fine (s.next keep).1) :
    ∃ rows, Goes E script X first all rows (s.next keep).2 := by
  cases next_spec hscript hE hfresh h keep with
  | goes _ _ hgoes => exact ⟨_, hgoes⟩
  | finished _ _ hfinished => exact ⟨_, .finished hfinished⟩
  | ended hnot _ => exact absurd (List.forall_mem_singleton.mpr hfine) hnot

/-- So does a call. -/
theorem Goes.perform (h : Goes E script X first all given s) (hc : c.Quiet ∧ c.Spares E)
    (hends : ¬c.Ends) (hfine : (s.perform c).1.Fine) :
    ∃ rows, Goes E script X first all rows (s.perform c).2 := by
  cases perform_spec hscript hE hfresh h c hc with
  | goes _ _ _ _ hgoes => exact ⟨_, hgoes⟩
  | ended hwhy _ => exact (hwhy.elim hends fun hnot => hnot hfine).elim

/-- The first pull comes to the end of the input. -/
theorem Waiting.next (h : Waiting base s) (hgoes : Goes E script X first all given s) {keep : Bool}
    (hfine : Fine (s.next keep).1) :
    ∃ files u, EndsAs s.state u ∧ Accounted base all files u (s.next keep).2 := by
  rw [(s.next_operator keep).1] at hfine
  cases hgoes with
  | taking htaking =>
    obtain ⟨files, u, hends, hrows, haudited⟩ :=
      (act_spec (Operator.next_ends hscript hE hfresh htaking h.keeping)).1 hfine
    exact ⟨files, u, hends, Accounted.taken ⟨hrows, haudited⟩⟩
  | serving hserving =>
    obtain ⟨_, _, _, -, -, hserves, -⟩ := hserving.serves
    rw [show s.state.1.stage = _ from h.stage] at hserves
    cases hserves
  | finished hfinished => cases (show s.operator.stage = .done from hfinished.done).symm.trans h.stage

omit hscript hE in
/-- Later ones serve. -/
theorem Accounted.next (h : Accounted base all files u s) (hgoes : Goes E script X first all given s)
    {keep : Bool} (hfine : Fine (s.next keep).1) : Accounted base all files u (s.next keep).2 := by
  rw [(s.next_operator keep).1] at hfine
  exact Accounted.taken ⟨h.rows,
    (act_spec (Operator.next_audited hfresh hgoes h.audited h.rows)).1 hfine⟩

theorem Accounted.pulls (h : Accounted base all files u s) (hgoes : Goes E script X first all given s)
    (count : Nat) (found : List (Except Failure Poll))
    (hfine : ∀ p ∈ (s.pulls count found).1, Fine p) :
    Accounted base all files u (s.pulls count found).2 := by
  induction count generalizing s given found with
  | zero => exact h
  | succ count ih =>
    have hhead : Fine (s.next false).1 := hfine _ <| by
      rw [pulls_succ]
      split
      · exact mem_pulls List.mem_cons_self count
      · exact List.mem_reverse.mpr List.mem_cons_self
    have hnext := h.next hfresh hgoes hhead
    obtain ⟨rows, hgoes⟩ := hgoes.next hscript hE hfresh hhead
    rw [pulls_succ] at hfine ⊢
    split
    · next hsome =>
      rw [if_pos hsome] at hfine
      exact ih hnext hgoes _ hfine
    · exact hnext

theorem Waiting.pulls (h : Waiting base s) (hgoes : Goes E script X first all given s) (count : Nat)
    (hfine : ∀ p ∈ (s.pulls (count + 1) []).1, Fine p) :
    ∃ files u, EndsAs s.state u ∧ Accounted base all files u (s.pulls (count + 1) []).2 := by
  have hhead : Fine (s.next false).1 := hfine _ <| by
    rw [pulls_succ]
    split
    · exact mem_pulls List.mem_cons_self count
    · exact List.mem_reverse.mpr List.mem_cons_self
  obtain ⟨files, u, hends, hnext⟩ := h.next hscript hE hfresh hgoes hhead
  obtain ⟨rows, hgoes⟩ := hgoes.next hscript hE hfresh hhead
  rw [pulls_succ] at hfine ⊢
  refine ⟨files, u, hends, ?_⟩
  split
  · next hsome =>
    rw [if_pos hsome] at hfine
    exact hnext.pulls hscript hE hfresh hgoes count _ hfine
  · exact hnext

/-! ## All calls -/

/-- One more call. -/
theorem Waiting.perform (h : Waiting base s) (hgoes : Goes E script X first all given s)
    (hc : c.Quiet) (hends : ¬c.Ends) (hfine : (s.perform c).1.Fine) :
    Waiting base (s.perform c).2 ∨
      ∃ files u, EndsIn u s c ∧ Accounted base all files u (s.perform c).2 := by
  have hidle : c.Idle → Waiting base (s.perform c).2 := fun hi => by
    obtain ⟨hw, hop⟩ := perform_silent hi hc s
    exact h.idle hw hop
  cases c with
  | buildSchema =>
    refine .inl ?_
    have hlearn := (act_spec h.keeping.learn).1
    unfold Session.perform at hfine ⊢
    generalize s.act Operator.buildSchema = a at hlearn hfine ⊢
    obtain ⟨e | schema?, t⟩ := a
    · cases hfine.2
    · obtain ⟨hkeeping, hstage⟩ := hlearn schema? rfl
      exact ⟨hkeeping, hstage.trans h.stage⟩
  | next keep =>
    obtain ⟨files, u, hended, hnext⟩ :=
      h.next hscript hE hfresh hgoes (hfine.1 _ List.mem_cons_self)
    exact .inr ⟨files, u, ⟨trivial, hended⟩, hnext⟩
  | drain =>
    obtain ⟨files, u, hended, hpulls⟩ := h.pulls hscript hE hfresh hgoes s.rowsLeft hfine.1
    exact .inr ⟨files, u, ⟨trivial, hended⟩, hpulls⟩
  | kill => exact (hends trivial).elim
  | close => exact (hends trivial).elim
  | letGo => exact .inl (hidle trivial)
  | cancel => exact .inl (hidle trivial)
  | pressure => exact .inl (hidle trivial)
  | memory f => exact .inl (hidle trivial)
  | disk f => exact .inl (hidle trivial)

theorem Accounted.perform (h : Accounted base all files u s)
    (hgoes : Goes E script X first all given s) (hc : c.Quiet) (hends : ¬c.Ends)
    (hfine : (s.perform c).1.Fine) : Accounted base all files u (s.perform c).2 := by
  have hidle : c.Idle → Accounted base all files u (s.perform c).2 := fun hi => by
    obtain ⟨hw, hop⟩ := perform_silent hi hc s
    exact h.idle hw hop
  cases c with
  | buildSchema =>
    have hlearn := (act_spec h.audited.learn).1
    unfold Session.perform at hfine ⊢
    generalize s.act Operator.buildSchema = a at hlearn hfine ⊢
    obtain ⟨e | schema?, t⟩ := a
    · cases hfine.2
    · exact ⟨h.rows, hlearn schema? rfl⟩
  | next keep => exact h.next hfresh hgoes (hfine.1 _ List.mem_cons_self)
  | drain => exact h.pulls hscript hE hfresh hgoes (s.rowsLeft + 1) [] hfine.1
  | kill => exact (hends trivial).elim
  | close => exact (hends trivial).elim
  | letGo => exact hidle trivial
  | cancel => exact hidle trivial
  | pressure => exact hidle trivial
  | memory f => exact hidle trivial
  | disk f => exact hidle trivial

theorem Accounted.run (h : Accounted base all files u s) (hgoes : Goes E script X first all given s)
    (hcs : ∀ c ∈ cs, (c.Quiet ∧ c.Spares E) ∧ ¬c.Ends) (hfine : ∀ r ∈ (s.run cs).1, r.Fine) :
    Accounted base all files u (s.run cs).2 := by
  induction cs generalizing s given with
  | nil => exact h
  | cons c cs ih =>
    obtain ⟨⟨hquiet, hends⟩, hcs⟩ := List.forall_mem_cons.mp hcs
    rw [run_cons] at hfine
    obtain ⟨hhead, hfine⟩ := List.forall_mem_cons.mp hfine
    obtain ⟨rows, hgoes'⟩ := hgoes.perform hscript hE hfresh hquiet hends hhead
    exact ih (h.perform hscript hE hfresh hgoes hquiet.1 hends hhead) hgoes' hcs hfine

/-- One of the calls comes to the end of the input, or none asks for rows. -/
theorem Waiting.run (h : Waiting base s) (hgoes : Goes E script X first all given s)
    (hcs : ∀ c ∈ cs, (c.Quiet ∧ c.Spares E) ∧ ¬c.Ends) (hfine : ∀ r ∈ (s.run cs).1, r.Fine) :
    Waiting base (s.run cs).2 ∨
      ∃ files u, Somewhere (EndsIn u) cs s ∧ Accounted base all files u (s.run cs).2 := by
  induction cs generalizing s given with
  | nil => exact .inl h
  | cons c cs ih =>
    obtain ⟨⟨hquiet, hends⟩, hcs⟩ := List.forall_mem_cons.mp hcs
    rw [run_cons] at hfine
    obtain ⟨hhead, hfine⟩ := List.forall_mem_cons.mp hfine
    obtain ⟨rows, hgoes'⟩ := hgoes.perform hscript hE hfresh hquiet hends hhead
    rcases h.perform hscript hE hfresh hgoes hquiet.1 hends hhead with hwaiting | ⟨files, u, hin, ha⟩
    · refine (ih hwaiting hgoes' hcs hfine).imp_right ?_
      rintro ⟨files, u, hin, ha⟩
      exact ⟨files, u, somewhere_cons.mpr (.inr hin), ha⟩
    · have hrun := ha.run hscript hE hfresh hgoes' hcs hfine
      exact .inr ⟨files, u, somewhere_cons.mpr (.inl hin), hrun⟩

omit hscript hE hfresh

/-! ## A sort that is done -/

/-- The counters of a session say that so many rows came in and went out, that these files were made
and that all of their rows were read back. Rows and bytes are counted in words, to which each file must
fit. The input ended in the state `u`, with one group on disk for each file. -/
structure Agrees (base : Array ByteArray) (rows : Nat) (files : List Deposit)
    (u : Operator × Workspace) (s : Session) : Prop where
  sortRows : s.workspace.counted? [] "SortRows" = some (Int64.ofNat rows)
  processed : s.operator.rowsProcessed = min maxCount rows
  returned : s.operator.rowsReturned = rows
  spillCount : s.workspace.counted? ["Spill"] "SpillCount" = some (Int64.ofNat files.length)
  spills : s.operator.monitor.spillCount = files.length
  contents : s.workspace.disk.contents.toList = base.toList ++ files.map Deposit.bytes
  spillRows : (∀ d ∈ files, (d.rows : Int) ≤ maxWord) →
    s.workspace.counted? ["Spill"] "SpillRows" = some (Int64.ofNat (total (files.map Deposit.rows)))
  restoreRows :
    s.workspace.counted? ["Spill"] "RestoreRows" = some (Int64.ofNat (total (files.map Deposit.rows)))
  spillBytes : (∀ d ∈ files, (d.size : Int) ≤ maxWord) →
    s.workspace.counted? ["Spill"] "SpillBytes" = some (Int64.ofNat (total (files.map Deposit.size)))
  onDisk : List.Forall₂ Deposit.In files u.1.spilled.toList
  rows : rows = total (files.map Deposit.rows) +
    total (u.1.spilled.toList.map SortedGroup.headRows) +
    total (u.1.resident.toList.map SortedGroup.rows)

theorem Accounted.agrees (h : Accounted base all files u s) (hdone : s.operator.stage = .done)
    {rows : Nat} (hrows : total (all.map Batch.rows) = rows) (hreturned : s.operator.rowsReturned = rows)
    (hprocessed : s.operator.rowsProcessed = min maxCount rows) : Agrees base rows files u s := by
  obtain ⟨n, hrestored, hshows⟩ := h.audited.restored
  unfold Operator.Restored at hrestored
  rw [show s.state.1.stage = _ from hdone] at hrestored
  obtain rfl : n = total (files.map Deposit.rows) := hrestored
  have hgroups : total (u.1.groups.map SortedGroup.rows) = rows := h.rows.trans hrows
  have hspilled := total_rows_spilled h.audited.booked.holds
  refine ⟨?_, hprocessed, hreturned, hshows.spillCount, h.audited.spillCount, hshows.contents,
    fun hfits => ?_, hshows.restoreRows, fun hfits => ?_, h.audited.booked.holds, ?_⟩
  · rw [← hgroups]
    exact hshows.sortRows
  · rw [← words_eq (List.forall_mem_map.mpr hfits)]
    exact hshows.spillRows
  · rw [← words_eq (List.forall_mem_map.mpr hfits)]
    exact hshows.spillBytes
  · rw [← hgroups, Operator.groups, List.map_append, total_append, hspilled, Nat.add_comm]

section Begin

variable {name : String} {options : SortOptions} {makeOrder : OrderMaker} {pressure : Bool}
  {stem : String} {fragment : Fragment} {ledger : Ledger} {disk : Disk} {s : Operator × Workspace}

/-- A sort that was just made and is alone at its profile node has counted nothing. -/
theorem begin_waiting (hs : Operator.create name options makeOrder { script, pressure } stem fragment
      ledger disk = .ok s) (hscript : ∀ p ∈ script, LeavesFiles p.onDisk)
    (halone : fragment.profile.child? name = none) (flag : CancelFlag) :
    Waiting s.2.disk.contents (begin s flag) := by
  obtain ⟨-, v, -, hop, hw⟩ := Operator.create_ok hs
  obtain ⟨op, w⟩ := s
  obtain rfl : op = _ := hop
  obtain rfl : w = _ := hw
  have hzero := Operator.value?_profileNode options halone
  refine ⟨⟨⟨[], ?_, .nil, rfl⟩, fun g hg => absurd hg (Array.not_mem_empty g), trivial, hscript⟩, rfl⟩
  exact ⟨(List.append_nil _).symm, hzero [] _, hzero ["Spill"] _, hzero ["Spill"] _,
    hzero ["Spill"] _, hzero ["Spill"] _⟩

/-- **The counters of a sort that is done.** Let a sort be alone at its profile node, and let a pull
answer that it is done, while nobody ended it and it neither stopped nor failed. One of the calls came
to the end of the input. The rows counted as kept, as taken in and as returned are those of the input.
The spill files that were made since the sort began are as many as are counted, at the node and by the
monitor, with their rows and their bytes, and all of their rows were read back. Each row was in one of
these files, in the run of a group on disk that was kept in memory, or in a group that was in memory at
the end of the input. -/
theorem counters_of_drained (hs : Operator.create name options makeOrder { script, pressure } stem
      fragment ledger disk = .ok s) (hscript : ∀ p ∈ script, LeavesFiles p.onDisk)
    (halone : fragment.profile.child? name = none) (flag : CancelFlag) (cs : List Call)
    (hcs : ∀ c ∈ cs, c.Quiet) (hdrained : Drained cs ((begin s flag).run cs).1) :
    ∃ files u, Somewhere (EndsIn u) cs (begin s flag) ∧
      Agrees s.2.disk.contents ((arriving script).flatMap Batch.table).length files u
        ((begin s flag).run cs).2 := by
  have hcalls : ∀ c ∈ cs, (c.Quiet ∧ c.Spares (.careless s.2.disk)) ∧ ¬c.Ends := fun c hc =>
    ⟨⟨hcs c hc, c.spares_careless _⟩, hdrained.unended c hc⟩
  have hbooks : ∀ b ∈ (Surroundings.careless s.2.disk).books?, b.tracker = s.1.tracker :=
    fun _ hb => by cases hb
  have hgoes : Goes (.careless s.2.disk) script 0 s.1 ((arriving script).flatMap Batch.slices) []
      (begin s flag) :=
    begin_goes hs flag (Owns.careless_iff.mpr ⟨[], by simp, .nil _⟩)
  have hrun := begin_run_spec hs hscript flag cs hcs
  obtain ⟨r, hr, hpoll⟩ := hdrained.done
  obtain ⟨rows, -, hworking⟩ := hrun.goes hdrained.unended hdrained.fine
  have hfinished := hworking.finished_of_over (create_fresh hs)
    (hrun.ended (.inr ⟨r, hr, .inl ⟨_, hpoll, rfl⟩⟩)).isOver
  have hdone : ((begin s flag).run cs).2.operator.stage = .done := hfinished.done
  rcases (begin_waiting hs hscript halone flag).run hscript hbooks (create_fresh hs) hgoes hcalls
    hdrained.fine with hwaiting | ⟨files, u, hin, haccounted⟩
  · cases hdone.symm.trans hwaiting.stage
  · obtain ⟨hreturned, hprocessed⟩ := counts_of_done hs hscript flag cs
      (fun c hc => ⟨hcs c hc, hdrained.unended c hc⟩) hdrained.fine hdrained.done
    exact ⟨files, u, hin,
      haccounted.agrees hdone (total_rows_slices _) hreturned (hreturned ▸ hprocessed)⟩

end Begin

end Session

namespace Session

/-- Three batches of five rows in all, two of which were spilled. -/
theorem counters_of_drained_three_batches : ∃ s files u,
    Sample.operator Sample.options Sample.threeBatches = .ok s ∧
      let t := ((begin s {}).run [.next true, .next true]).2
      Somewhere (EndsIn u) [.next true, .next true] (begin s {}) ∧
        Agrees s.2.disk.contents 5 files u t ∧ files.length = 2 := by
  obtain ⟨s, hs, hrun⟩ := Sample.exists_of_passes Sample.threeBatches_pulled
  obtain ⟨hglances, hspills⟩ := Bool.and_eq_true_iff.mp hrun
  obtain ⟨o, hpolls⟩ := Sample.exists_of_glances (beq_iff_eq.mp hglances)
  have halone : (Fragment.start ⟨1, 2⟩ ⟨3, 4⟩ (-1)).1.profile.child? "SORT" = none := by decide
  have hrows : ((arriving Sample.threeBatches).flatMap Batch.table).length = 5 := by decide
  have hdrained : Drained [.next true, .next true] ((begin s {}).run [.next true, .next true]).1 := by
    rw [hpolls]
    exact ⟨by simp [Call.Ends], by simp [Reply.Fine, Reply.pulls, Fine, Reply.schemaFailure?],
      .poll (.ok .done), by simp, List.mem_singleton_self _⟩
  obtain ⟨files, u, hin, hagrees⟩ := counters_of_drained hs Sample.threeBatches_quiet halone {}
    [.next true, .next true] (by simp [Call.Quiet]) hdrained
  rw [hrows] at hagrees
  exact ⟨s, files, u, hs, hin, hagrees, hagrees.spills.symm.trans (beq_iff_eq.mp hspills)⟩

/-- A sort of three rows that is closed after two of them: it answers that it is done, nothing failed and
nothing was cancelled, but a row that was counted was not returned. -/
theorem done_after_close : ∃ s,
    Sample.operator Sample.narrow [Sample.pull [(2, 1), (1, 2), (3, 0)]] = .ok s ∧
      let a := (begin s {}).run [.next true, .close, .next true]
      (∀ r ∈ a.1, r.Fine) ∧ (∃ r ∈ a.1, .ok .done ∈ r.pulls) ∧ a.2.operator.rowsProcessed = 3 ∧
        a.2.workspace.counted? [] "SortRows" = some 3 ∧ a.2.operator.rowsReturned = 2 := by
  have hpasses : Sample.passes Sample.narrow [Sample.pull [(2, 1), (1, 2), (3, 0)]] fun s =>
      let a := (begin s {}).run [.next true, .close]
      let b := a.2.perform (.next true)
      Sample.glance ((begin s {}).perform (.next true)).1 == .rows && Sample.glance b.1 == .done &&
        b.2.operator.rowsProcessed == 3 && b.2.workspace.counted? [] "SortRows" == some 3 &&
        b.2.operator.rowsReturned == 2 := by
    decide +kernel
  obtain ⟨s, hs, hrun⟩ := Sample.exists_of_passes hpasses
  simp only [Bool.and_eq_true, beq_iff_eq] at hrun
  obtain ⟨⟨⟨⟨hrows, hdone⟩, hprocessed⟩, hcounted⟩, hreturned⟩ := hrun
  obtain ⟨o, hrows⟩ := Sample.exists_of_glance hrows
  have hdone := Sample.eq_done_of_glance hdone
  have hreplies : ((begin s {}).run [.next true, .close, .next true]).1 =
      [.poll (.ok (.newSchema o)), .nothing, .poll (.ok .done)] :=
    List.cons_eq_cons.mpr ⟨hrows, congrArg (fun r => [.nothing, r]) hdone⟩
  refine ⟨s, hs, ?_, ?_, hprocessed, hcounted, hreturned⟩
  · rw [hreplies]
    simp [Reply.Fine, Reply.pulls, Fine, Reply.schemaFailure?]
  · rw [hreplies]
    exact ⟨.poll (.ok .done), by simp, List.mem_singleton_self _⟩

end Session

end SpillSort
