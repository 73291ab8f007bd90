import SpillSort.Proofs.Handouts
import SpillSort.Proofs.Tallying

/-!
# The tally of serving

Once the input has ended, the rows restored are those of the spill files, as far as they were handed
out: what was restored and what lay in memory at the end of the input is in memory still or was handed
out.

* `Operator.Audited` says so of a state, in terms of the one at the end of the input.
* `Operator.takeIn_audited` comes from taking in to serving, `Operator.serve_audited` is about serving.
-/

namespace SpillSort

open Memory Spill
open Workspace (Silent Restores)

variable {w : Workspace} {order : RowOrder} {base : Array ByteArray} {files : List Deposit}

/-! ## Rows in memory and on disk -/

/-- A group on disk has the rows of its file besides those in memory. -/
theorem Deposit.In.rows_eq {d : Deposit} {g : SortedGroup} (h : d.In g) :
    g.rows = d.rows + g.headRows := by
  obtain ⟨head, file, rfl, hrows, -⟩ := h
  show head.length + file.rows = d.rows + head.length
  omega

theorem total_rows_spilled {gs : List SortedGroup} (h : List.Forall₂ Deposit.In files gs) :
    total (gs.map SortedGroup.rows) =
      total (files.map Deposit.rows) + total (gs.map SortedGroup.headRows) := by
  induction h with
  | nil => rfl
  | cons hd _ ih =>
    simp only [List.map_cons, total_cons, hd.rows_eq, ih]
    omega

namespace Merger

variable {m : Merger} {xs : List Source} {U : Resources}

/-- A merge that has no rows left has none in memory. -/
theorem Holds.loaded_eq_zero (h : m.Holds order xs (fun _ => False) U)
    (hnil : Source.merged order xs = []) : m.loaded = 0 := by
  have hrows : ∀ x ∈ xs, x.rows = [] := by
    intro x hx
    have hperm : (Source.merged order xs).Perm (xs.flatMap Source.rows) := List.mergeSort_perm ..
    rw [hnil] at hperm
    exact List.flatMap_eq_nil_iff.mp (List.nil_perm.mp hperm) x hx
  have hsources : ∀ x ∈ xs, x.group.headRows = 0 ∧ leftOf x.cursor? = 0 := by
    intro x hx
    obtain ⟨hfront, hrest⟩ := List.append_eq_nil_iff.mp (hrows x hx)
    obtain ⟨_, _, -, hsource⟩ := h.parts.exists_part hx
    obtain ⟨T, hgroup, -⟩ := hsource.group
    have hcursor := hsource.cursor
    refine ⟨?_, ?_⟩
    · obtain ⟨front, bs, hparts, hhead, -⟩ := hgroup.parts
      rw [hrest] at hparts
      obtain ⟨rfl, -⟩ := List.append_eq_nil_iff.mp hparts.symm
      unfold SortedGroup.headRows
      cases hg : x.group.head? with
      | none => rfl
      | some run =>
        rw [hg] at hhead
        exact hhead.length_eq.symm
    · cases hc : x.cursor? with
      | none => rfl
      | some c =>
        rw [hc] at hcursor
        obtain ⟨z, tail, heq, -⟩ := MergeCursor.Reads.front_eq hcursor
        rw [hfront] at heq
        cases heq
  rw [loaded, h.has.groups, h.has.cursors, List.map_map, List.map_map]
  have hheads : total (xs.map (SortedGroup.headRows ∘ Source.group)) = 0 :=
    total_eq_zero fun n hn => by
      obtain ⟨x, hx, rfl⟩ := List.mem_map.mp hn
      exact (hsources x hx).1
  have hlefts : total (xs.map (leftOf ∘ Source.cursor?)) = 0 :=
    total_eq_zero fun n hn => by
      obtain ⟨x, hx, rfl⟩ := List.mem_map.mp hn
      exact (hsources x hx).2
  rw [hheads, hlefts]

end Merger

namespace Operator

variable {op : Operator} {s t u : Operator × Workspace} {staged : List Batch} {R : Resources}

/-! ## The audit -/

/-- The rows of the groups that are in memory. -/
def headRows (op : Operator) : Nat := total (op.groups.map SortedGroup.headRows)

/-- A sorted slice lies in memory as a whole. -/
theorem Sorted.total_rows (h : op.Sorted) : total (op.resident.toList.map SortedGroup.rows) =
    total (op.resident.toList.map SortedGroup.headRows) := by
  refine congrArg total (List.map_congr_left fun g hg => ?_)
  obtain ⟨_, -, run, _, rfl, -⟩ := h g (Array.mem_toList_iff.mp hg)
  rfl

/-- All rows are in a file or in memory. -/
theorem Booked.total_rows (h : Booked base files s) (hs : s.1.Sorted) :
    total (s.1.groups.map SortedGroup.rows) = total (files.map Deposit.rows) + s.1.headRows := by
  have hspilled := total_rows_spilled h.holds
  have hresident := hs.total_rows
  simp only [headRows, groups, List.map_append, total_append]
  omega

/-- The groups have the rows of the slices staged. -/
theorem Has.total_rows (h : op.Has staged R) :
    total (op.groups.map SortedGroup.rows) = total (staged.map Batch.rows) := by
  unfold Has at h
  split at h
  · next order ho =>
    obtain ⟨ps, hps, hsorted, hparts, -⟩ := h.parts
    have hrows := SortedGroup.total_rows hparts
    have hlength := congrArg List.length hsorted
    have hgroups := congrArg (fun gs => total (gs.map SortedGroup.rows)) hps
    simp only [List.map_append, total_append, List.map_map] at hgroups
    rw [List.length_mergeSort, RowOrder.length_sortedTables] at hlength
    simp only [groups, List.map_append, total_append]
    rw [← hlength, ← hrows, Nat.add_comm, hgroups]
    rfl
  · obtain ⟨hr, hs, -, rfl, -⟩ := h
    rw [groups, hr, hs]
    rfl

/-- So many rows were restored, if `held` rows were in memory at the end of the input. -/
def Restored (files : List Deposit) (held n : Nat) (op : Operator) : Prop :=
  match op.stage with
  | .finalMerge m _ => m.Sound ∧ n + held = m.loaded + op.rowsReturned
  | .finalMemory _ => files = [] ∧ n = 0
  | .done => n = total (files.map Deposit.rows)
  | _ => False

/-- What holds of an operator that was in the state `u` when its input had ended, and had spilled these
files by then. -/
structure Audited (base : Array ByteArray) (files : List Deposit) (u s : Operator × Workspace) :
    Prop where
  booked : Booked base files u
  sorted : u.1.Sorted
  quiet : s.1.Quiet
  spillCount : s.1.monitor.spillCount = files.length
  restored : ∃ n, s.1.Restored files u.1.headRows n ∧ s.2.Shows base
    { sorted := total (u.1.groups.map SortedGroup.rows), deposits := files, restored := n }

/-- What neither counts nor serves. -/
theorem Audited.onward (h : Audited base files u s) (hstage : t.1.stage = s.1.stage)
    (hreturned : t.1.rowsReturned = s.1.rowsReturned) (hmonitor : t.1.monitor = s.1.monitor)
    (hq : t.1.Quiet) (hw : Silent s.2 t.2) : Audited base files u t := by
  obtain ⟨n, hn, hshows⟩ := h.restored
  refine ⟨h.booked, h.sorted, hq, hmonitor ▸ h.spillCount, n, ?_, hshows.silent hw⟩
  unfold Restored at hn ⊢
  rw [hstage, hreturned]
  exact hn

/-! ## The end of the input -/

/-- Merging streams restores the first rows of the files that have no rows in memory. -/
theorem mergeStreams_restores (groups : List SortedGroup) :
    Gives (mergeStreams order groups)
      (fun _ t => ∃ m rows n, t.1 = { op with stage := .finalMerge m rows } ∧ m.Sound ∧
        Restores n w t.2 ∧ n + total (groups.map SortedGroup.headRows) = m.loaded)
      (fun _ _ => True) (op, w) := by
  refine gives_mergeStreams fun journal =>
    (Merger.ofGroups_restores op.tracker groups).mono (fun m x hx => ?_) fun _ _ _ => trivial
  obtain ⟨hsound, ⟨n, hn, hloaded⟩, -⟩ := hx
  have hnoted : Silent w { w with journal } := Workspace.Modest.journal ..
  refine (enter_moves (r := Silent) _).mono fun _ t ht => ⟨m, _, n, ht.1, hsound, ?_, hloaded⟩
  have hall := hnoted.restores.trans (hn.silent ht.2)
  rwa [Nat.zero_add] at hall

/-- What the input has left in groups is served from now on. -/
theorem finalize_audited (h : Booked base files u) (hs : u.1.Sorted) (hq : u.1.Quiet)
    (hhas : u.1.Has staged R) (hreturned : u.1.rowsReturned = 0) :
    Gives finalize (fun _ t => Audited base files u t) (fun _ _ => True) u := by
  have haudited : ∀ {stage : Stage} {v : Workspace} {n : Nat},
      (u.1.servingAt stage).Restored files u.1.headRows n → Restores n u.2 v →
      Audited base files u (u.1.servingAt stage, v) := fun hn hv =>
    ⟨h, hs, hq, h.spillCount, _, hn, by
      have hshows := hv _ _ h.shows
      rwa [Nat.zero_add] at hshows⟩
  have hnofiles : u.1.spilled = #[] → files = [] := fun hnil => by
    have hholds := h.holds
    rw [hnil] at hholds
    exact List.forall₂_nil_right_iff.mp hholds
  have hstreams : ∀ {order : RowOrder} {v : Workspace}, Silent u.2 v → Gives
      (mergeStreams order (u.1.spilled.toList ++ u.1.resident.toList))
      (fun _ t => Audited base files u t) (fun _ _ => True)
      ({ u.1 with resident := #[], spilled := #[] }, v) := by
    intro order v hv
    have hheld : total ((u.1.spilled.toList ++ u.1.resident.toList).map SortedGroup.headRows) =
        u.1.headRows := by
      simp only [headRows, groups, List.map_append, total_append]
      omega
    refine (mergeStreams_restores _).mono (fun _ t ht => ?_) fun _ _ _ => trivial
    obtain ⟨m, rows, n, hop, hsound, hn, hloaded⟩ := ht
    obtain ⟨op, x⟩ := t
    obtain rfl : op = _ := hop
    have hall := hv.restores.trans hn
    rw [Nat.zero_add] at hall
    refine haudited (n := n) ⟨hsound, ?_⟩ hall
    show n + u.1.headRows = m.loaded + u.1.rowsReturned
    omega
  refine gives_finalize (fun hzero => ?_) (fun _ _ => trivial) (fun order _ _ hempty => ?_)
    fun order _ _ _ => hstreams (refl_of Silent u.2)
  · obtain ⟨hresident, hspilled, -, -⟩ := hhas.eq_nil hzero
    refine (enter_moves (r := Silent) _).mono fun _ t ht => ?_
    obtain ⟨op, v⟩ := t
    have hat : { u.1 with stage := .done } = u.1.servingAt .done := by
      simp only [servingAt, hresident, hspilled]
    obtain rfl : op = u.1.servingAt .done := ht.1.trans hat
    refine haudited (n := 0) ?_ ht.2.restores
    show 0 = total (files.map Deposit.rows)
    rw [hnofiles hspilled]
    rfl
  · refine Gives.mono (MemoryMerge.build_tries (r := Silent) ..) (fun attempt v hv journal => ?_)
      fun _ _ _ => trivial
    have hnoted : Silent u.2 { v with journal } := trans_of Silent hv (Workspace.Modest.journal ..)
    cases attempt with
    | merged m =>
      refine (enter_moves (r := Silent) _).mono fun _ t ht => ?_
      obtain ⟨op, y⟩ := t
      obtain rfl : op = _ := ht.1
      exact haudited (n := 0) ⟨hnofiles hempty, rfl⟩ (trans_of Silent hnoted ht.2).restores
    | refused reason => exact hstreams hnoted

/-- If an operator that was not asked for anything yet is pulled, it is in the state `u` once its input
has ended. -/
structure EndsAs (s u : Operator × Workspace) : Prop where
  stage : s.1.stage = .uninitialized
  ingest : Stateful.outcome (ingest (s.1.input.script.length + 2)).run
    ({ s.1 with stage := .ingesting }, { s.2 with cancel := s.2.cancel.look.2 }) = (.ok true, u)

variable {E : Surroundings} {S : Resources} {script : List Pull} {first : Operator}
  {all : List Batch} {given left : List Row}

/-- Taking in comes to the state at the end of the input, and goes on from there. -/
theorem takeIn_audited (hscript : ∀ p ∈ script, LeavesFiles p.onDisk)
    (hE : ∀ b ∈ E.books?, b.tracker = first.tracker) (hfresh : Fresh first)
    (h : Taking E script S first all s) (hk : Keeping base .waiting s) :
    Gives takeIn (fun goesOn t => goesOn → ∃ files u,
        Stateful.outcome (Operator.ingest (s.1.input.script.length + 2)).run
          ({ s.1 with stage := .ingesting }, s.2) = (.ok true, u) ∧
        total (u.1.groups.map SortedGroup.rows) = total (all.map Batch.rows) ∧
        Audited base files u t)
      (fun _ _ => True) s := by
  have hk : Keeping base .waiting ({ s.1 with stage := .ingesting }, s.2) :=
    hk.onward rfl rfl rfl (refl_of Silent s.2) hk.sorted trivial hk.quiet
  refine gives_takeIn (h.stage hfresh) (((Gives.of_outcome.and
    ((keeping_carried base).takeAll hk)).and (ingest_all h.ingesting hscript hE)).mono
      (fun goesOn u hu => ?_) fun _ _ _ => trivial)
  obtain ⟨⟨hout, hkept⟩, hframe, staged, taken, R, htakes, hended⟩ := hu
  split
  · next hyes =>
    subst hyes
    obtain ⟨files, hbooked⟩ := hkept.counted
    have hreturned : u.1.rowsReturned = 0 :=
      (congrArg Operator.rowsReturned hframe :).trans hfresh.returned
    refine (finalize_audited hbooked hkept.sorted hkept.quiet htakes.has hreturned).mono
      (fun _ t ht _ => ?_) fun _ _ _ => trivial
    refine ⟨files, u, hout, ?_, ht⟩
    rw [htakes.has.total_rows, hended rfl]
  · exact .of_forall fun _ _ => .of_forall fun _ _ hno => by cases hno

/-! ## Serving -/

/-- An output is handed out, after which there are so many rows fewer; without one nothing is counted. -/
theorem output_audited (h : Audited base files u s) :
    Gives output (fun o? t => (∃ stage, t.1 = { s.1 with stage }) ∧ (o? = none → Silent s.2 t.2) ∧
        ∀ o ∈ o?, Audited base files u
          ({ t.1 with rowsReturned := t.1.rowsReturned + o.length, schemaEmitted := true }, t.2))
      (fun _ _ => True) s := by
  obtain ⟨n, hn, hshows⟩ := h.restored
  obtain ⟨op, w⟩ := s
  refine gives_output (fun m hs => ?_) (fun m rows hs => ?_) (fun hs => ?_) fun _ => trivial
  · unfold Restored at hn
    rw [hs] at hn
    refine (m.nextWindow_moves (r := Silent) _).mono fun a v hv => ?_
    exact ⟨⟨_, rfl⟩, fun _ => hv, fun o _ => ⟨h.booked, h.sorted, h.quiet, h.spillCount, n, hn,
      hshows.silent hv⟩⟩
  · unfold Restored at hn
    rw [hs] at hn
    obtain ⟨hsound, hn⟩ := hn
    refine (Merger.nextChunk_restores rows (s := (m, w)) hsound).mono (fun chunk? t ht => ?_)
      fun _ _ _ => trivial
    obtain ⟨count, ⟨hsound', ⟨k, hk, hloaded⟩, -⟩, hrows, hnone⟩ := ht
    cases chunk? with
    | none => exact ⟨⟨_, rfl⟩, fun _ => (hnone rfl).2, fun o ho => absurd ho (Option.not_mem_none o)⟩
    | some chunk =>
      refine (chunk.drop_moves (r := Silent)).mono fun _ v hv => ?_
      refine ⟨⟨_, rfl⟩, (fun hno => by cases hno), fun o ho => ?_⟩
      obtain rfl := Option.mem_some.mp ho
      refine ⟨h.booked, h.sorted, h.quiet, h.spillCount, n + k, ⟨hsound', ?_⟩,
        (hk _ _ hshows).silent hv⟩
      have hlength : (Output.rows chunk.batch).length = count := hrows chunk rfl
      show n + k + u.1.headRows = t.1.loaded + (op.rowsReturned + (Output.rows chunk.batch).length)
      have hn : n + u.1.headRows = m.loaded + op.rowsReturned := hn
      have hloaded : k + m.loaded = t.1.loaded + count := hloaded
      omega
  · exact ⟨⟨op.stage, rfl⟩, fun _ => refl_of Silent w, fun o ho => absurd ho (Option.not_mem_none o)⟩

/-- Once all rows are handed out, those of the files were restored, each of them once. -/
theorem Audited.drained (h : Audited base files u s) (hserving : Serving E script S first all given [] s)
    (htotal : total (u.1.groups.map SortedGroup.rows) = total (all.map Batch.rows)) {v : Workspace}
    (hv : Silent s.2 v) : Audited base files u ({ s.1 with stage := .done }, v) := by
  obtain ⟨n, hn, hshows⟩ := h.restored
  obtain ⟨order, U, taken, -, -, hserves, -⟩ := hserving.serves
  have hleft := hserving.rows_left
  have hrows := h.booked.total_rows h.sorted
  refine ⟨h.booked, h.sorted, h.quiet, h.spillCount, n, ?_, hshows.silent hv⟩
  show n = total (files.map Deposit.rows)
  unfold Restored at hn
  generalize s.1.stage = stage at hn hserves
  cases stage with
  | finalMemory m => rw [hn.1, hn.2]; rfl
  | finalMerge m rows =>
    have hloaded : m.loaded = 0 := by
      generalize hnil : ([] : List Row) = left at hserves
      cases hserves with
      | merge rows hm => exact hm.loaded_eq_zero hnil.symm
    have hn := hn.2
    rw [List.length_nil] at hleft
    omega
  | done => exact hn
  | uninitialized => exact hn.elim
  | ingesting => exact hn.elim
  | failed => exact hn.elim

theorem serve_audited (h : Audited base files u s) (hserving : Serving E script S first all given left s)
    (htotal : total (u.1.groups.map SortedGroup.rows) = total (all.map Batch.rows)) :
    Gives serve (fun _ t => Audited base files u t) (fun _ _ => True) s := by
  obtain ⟨order, U, taken, -, -, hserves, -, hw⟩ := hserving.serves
  refine gives_serve (((output_audited h).and (output_spec hserves hw)).mono (fun o? t ht => ?_)
    fun _ _ _ => trivial)
  obtain ⟨⟨⟨stage, hop⟩, hsilent, hsome⟩, hserved⟩ := ht
  obtain ⟨op, v⟩ := t
  obtain rfl : op = { s.1 with stage } := hop
  cases o? with
  | some o => exact hsome o rfl
  | none =>
    obtain ⟨_, -, rfl, -⟩ := hserved
    intro journal _
    have hnoted : Silent s.2 { v with journal } :=
      trans_of Silent (hsilent rfl) (Workspace.Modest.journal ..)
    refine (enter_moves (r := Silent) _).mono fun _ t ht => ?_
    obtain ⟨op, y⟩ := t
    obtain rfl : op = { s.1 with stage := .done } := ht.1
    exact h.drained hserving htotal (trans_of Silent hnoted ht.2)

/-! ## Pulls -/

/-- Whatever a pull finds, if it is fine it is what a step finds. -/
theorem next_of_step {Q : Operator × Workspace → Prop} (hf : s.1.failure? = none)
    (h : Gives step (fun p t => Fine (.ok p) → Q t) (fun _ _ => True)
      (s.1, { s.2 with cancel := s.2.cancel.look.2 })) :
    Ensures next (fun r t => Fine r → Q t) s := by
  have hlook : Ensures Workspace.cancelled
      (fun _ v => v = { s.2 with cancel := s.2.cancel.look.2 }) s.2 := rfl
  refine ensures_next (fun e he => absurd (hf.symm.trans he) nofun) fun _ => ?_
  refine hlook.mono fun b v hv => ?_
  subst hv
  split
  · exact .of_forall fun _ _ => False.elim
  · refine h.mono (fun _ _ ht => ht) fun e t _ => ?_
    split
    · exact .of_forall fun _ _ => False.elim
    · exact .of_forall fun _ _ => False.elim

/-- The first pull comes to the end of the input, unless the sort stops or fails. -/
theorem next_ends (hscript : ∀ p ∈ script, LeavesFiles p.onDisk)
    (hE : ∀ b ∈ E.books?, b.tracker = first.tracker) (hfresh : Fresh first)
    (h : Taking E script S first all s) (hk : Keeping base .waiting s) :
    Ensures next (fun r t => Fine r → ∃ files u, EndsAs s u ∧
      total (u.1.groups.map SortedGroup.rows) = total (all.map Batch.rows) ∧
      Audited base files u t) s := by
  have hstage : s.1.stage = .uninitialized :=
    (congrArg Operator.stage h.frame :).trans hfresh.stage
  refine next_of_step ((Working.taking h).broken hfresh).failure ?_
  have hk : Keeping base .waiting (s.1, { s.2 with cancel := s.2.cancel.look.2 }) :=
    hk.workspace (Workspace.cancelled_moves (r := Silent)) trivial
  have hworking : Working E script S first all [] (s.1, { s.2 with cancel := s.2.cancel.look.2 }) :=
    (Working.taking h).frame frames_cancelled
  cases hworking with
  | serving h =>
    obtain ⟨_, _, _, -, -, hserves, -⟩ := h.serves
    rw [show s.1.stage = _ from hstage] at hserves
    cases hserves
  | finished h => cases hstage.symm.trans h.done
  | taking h =>
    refine gives_step (((takeIn_audited hscript hE hfresh h hk).and
      (takeIn_spec hscript hE hfresh h)).mono (fun goesOn t ht => ?_) fun _ _ _ => trivial)
    obtain ⟨haudited, htaken⟩ := ht
    unfold TakenIn at htaken
    split at htaken
    · next hyes =>
      obtain ⟨files, u, hout, htotal, ht⟩ := haudited hyes
      rw [if_pos hyes]
      rcases htaken with hfinished | ⟨left, hserving⟩
      · refine (serve_done hfinished.done).mono (fun p v hv _ => ?_) fun _ _ _ => trivial
        rw [hv.2]
        exact ⟨files, u, ⟨hstage, hout⟩, htotal, ht⟩
      · exact (serve_audited ht hserving htotal).mono
          (fun p v hv _ => ⟨files, u, ⟨hstage, hout⟩, htotal, hv⟩) fun _ _ _ => trivial
    · next hno =>
      rw [if_neg hno]
      exact False.elim

/-- Later pulls serve. -/
theorem next_audited (hfresh : Fresh first) (h : Working E script S first all given s)
    (ha : Audited base files u s)
    (htotal : total (u.1.groups.map SortedGroup.rows) = total (all.map Batch.rows)) :
    Ensures next (fun r t => Fine r → Audited base files u t) s := by
  refine next_of_step (h.broken hfresh).failure ?_
  have ha : Audited base files u (s.1, { s.2 with cancel := s.2.cancel.look.2 }) :=
    ha.onward rfl rfl rfl ha.quiet (Workspace.cancelled_moves (r := Silent))
  have hworking : Working E script S first all given (s.1, { s.2 with cancel := s.2.cancel.look.2 }) :=
    h.frame frames_cancelled
  cases hworking with
  | taking h =>
    have hstage : s.1.stage = .uninitialized :=
      (congrArg Operator.stage h.frame :).trans hfresh.stage
    obtain ⟨n, hn, -⟩ := ha.restored
    unfold Restored at hn
    rw [show s.1.stage = _ from hstage] at hn
    exact hn.elim
  | serving h =>
    obtain ⟨_, _, _, -, -, hserves, -⟩ := h.serves
    refine gives_step ((takeIn_serves hserves).mono (fun goesOn t ht => ?_) fun _ _ hf => hf.elim)
    obtain ⟨rfl, rfl⟩ := ht
    exact (serve_audited ha h htotal).mono (fun _ _ hv _ => hv) fun _ _ _ => trivial
  | finished h =>
    refine (step_done (s := (s.1, { s.2 with cancel := s.2.cancel.look.2 })) h.done).mono
      (fun p t ht _ => ?_) fun _ _ hf => hf.elim
    rw [ht.2]
    exact ha

/-! ## Looking at the schema -/

/-- An event is pulled ahead, and nothing is counted. -/
theorem prime_silent (hp : s.1.pending? = none) (hq : s.1.Quiet) :
    Gives prime (fun _ t => Silent s.2 t.2 ∧ t.1.Quiet ∧ ∃ order? ordersMade pending? input,
      t.1 = { s.1 with order?, ordersMade, pending?, input }) (fun _ _ => True) s := by
  refine gives_prime ((gives_nextEvent_iff hp).mp ((nextEvent_silent hq).mono
    (fun e t ht => ?_) fun _ _ _ => trivial))
  obtain ⟨op, v⟩ := t
  obtain ⟨hv, hq, input, rfl⟩ := ht
  cases e with
  | notYet => trivial
  | endOfInput | stop => exact ⟨hv, hq, _, _, _, _, rfl⟩
  | batch chunk =>
    refine ((orderFor_settles _ _).and (orderFor_silent _ _)).mono (fun order t ht => ?_) fun _ _ _ =>
      .of_forall fun _ _ => trivial
    obtain ⟨⟨-, -, hunordered, -⟩, ht⟩ := ht
    have hinput : t.1.input = input := (congrArg Operator.input hunordered :)
    refine ⟨trans_of Silent hv ht, ?_, t.1.order?, t.1.ordersMade, some (.batch chunk), input, ?_⟩
    · show ∀ p ∈ t.1.input.script, LeavesFiles p.onDisk
      rw [hinput]
      exact hq
    · have hsame := congrArg (fun op : Operator => ({ op with
        order? := t.1.order?, ordersMade := t.1.ordersMade, pending? := some (.batch chunk) } :
          Operator)) hunordered
      exact hsame

/-- A look at the schema counts nothing. -/
theorem buildSchema_silent (hq : s.1.Quiet) :
    Ensures buildSchema (fun r t => ∀ schema?, r = .ok schema? → Silent s.2 t.2 ∧ t.1.Quiet ∧
      (t.1 = s.1 ∨ s.1.order? = none ∧ ∃ order? ordersMade pending? input,
        t.1 = { s.1 with order?, ordersMade, pending?, input })) s := by
  refine ensures_buildSchema (fun _ _ _ hr => by cases hr)
    (fun _ _ _ _ => ⟨refl_of Silent s.2, hq, .inl rfl⟩) fun _ ho hp => ?_
  exact (prime_silent hp hq).mono (fun _ t ht _ _ => ⟨ht.1, ht.2.1, .inr ⟨ho, ht.2.2⟩⟩)
    fun _ _ _ => .of_forall fun _ _ _ hr => by cases hr

/-- Without an order there are no groups yet, whose order could change. -/
theorem Keeping.learn (h : Keeping base .waiting s) :
    Ensures buildSchema (fun r t => ∀ schema?, r = .ok schema? → Keeping base .waiting t ∧
      t.1.stage = s.1.stage) s := by
  refine (buildSchema_silent h.quiet).mono fun r t ht schema? hr => ?_
  obtain ⟨op, v⟩ := t
  obtain ⟨hv, hq, hop⟩ := ht schema? hr
  rcases hop with hop | ⟨ho, _, _, _, _, hop⟩
  · obtain rfl : op = s.1 := hop
    exact ⟨h.workspace hv trivial, rfl⟩
  · obtain rfl : op = _ := hop
    refine ⟨h.onward rfl rfl rfl hv (fun g hg => ?_) trivial hq, rfl⟩
    obtain ⟨order, horder, -⟩ := h.sorted g hg
    rw [ho] at horder
    cases horder

theorem Audited.learn (h : Audited base files u s) :
    Ensures buildSchema (fun r t => ∀ schema?, r = .ok schema? → Audited base files u t) s := by
  refine (buildSchema_silent h.quiet).mono fun r t ht schema? hr => ?_
  obtain ⟨op, v⟩ := t
  obtain ⟨hv, hq, hop⟩ := ht schema? hr
  rcases hop with hop | ⟨-, _, _, _, _, hop⟩
  · obtain rfl : op = s.1 := hop
    exact h.onward rfl rfl rfl hq hv
  · obtain rfl : op = _ := hop
    exact h.onward rfl rfl rfl hq hv

end Operator

end SpillSort
