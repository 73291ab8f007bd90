import SpillSort.Proofs.Outputs
import SpillSort.Proofs.Turns

/-!
# Cancellations

What a consumer sees of a cancellation. A pull turns it into a stop; a look at the schema does not and
fails with it. After a stop it is the cancel flag that decides what pulls answer: a sort that stopped
because its input did looks done from then on.

* `Session.cancelled_iff_surfaces` says when a call fails with a cancellation.
* `Session.pulls_of_resting` is about pulls after the flag was raised, and after a sort is over.
-/

namespace SpillSort

namespace Failure

/-- Whether a failure is a cancellation, at any depth. -/
def HasCancelled : Failure → Prop
  | cancelled => True
  | failed _ _ source => source.HasCancelled
  | _ => False

theorem hasCancelled_replay (e : Failure) : e.replay.HasCancelled ↔ e.HasCancelled := by
  induction e with
  | failed operator rows source ih => exact ih
  | _ => exact Iff.rfl

theorem hasCancelled_withOperator (operator : String) (rows : Nat) (e : Failure) :
    (e.withOperator operator rows).HasCancelled ↔ e.HasCancelled := by
  cases e <;> exact Iff.rfl

theorem Bare.eq_cancelled {e : Failure} (h : e.Bare) (hc : e.HasCancelled) : e = cancelled := by
  cases e with
  | cancelled => rfl
  | failed => exact h.elim
  | _ => exact hc.elim

end Failure

namespace Session

open Operator (Open Quit Faulty)

variable {T : Setting} {f : Failure} {s : Session} {c : Call} {cs : List Call}

/-! ## Cancellations as failures -/

/-- Whether a call looks for the schema and comes across a cancellation. -/
def Surfaces (s : Session) (c : Call) : Prop :=
  c = .buildSchema ∧ s.operator.failure? = none ∧ ¬s.operator.Primed ∧
    s.operator.primeFailure? = some .cancelled

/-- A sort that has not failed yet fails with a cancellation only while it learns its schema. -/
theorem Sound.surfaces_iff (h : Sound T s) (hT : ∀ e, T.kind e → e.Bare) (c : Call) :
    (∃ e ∈ (s.perform c).1.failures, e.HasCancelled) ↔ Surfaces s c := by
  constructor
  · rintro ⟨e, he, hcancelled⟩
    rcases h.perform c with ⟨hnone, -⟩ | ⟨cause, rows, hcause, hfails, -⟩
    · rw [hnone] at he
      cases he
    · rw [hfails, List.mem_singleton] at he
      rw [he, Failure.hasCancelled_withOperator] at hcancelled
      cases hcause with
      | pull hkind hnot =>
        rw [(hT _ hkind).eq_cancelled hcancelled] at hnot
        cases hnot
      | schema hkind hnot hprime =>
        rw [(hT _ hkind).eq_cancelled hcancelled] at hprime
        exact ⟨rfl, h.unfailed.failure, hnot, hprime⟩
  · rintro ⟨rfl, -, hnot, hprime⟩
    have hlooks := (act_spec h.unfailed.buildSchema).1
    show ∃ e ∈ (Reply.schema (s.act Operator.buildSchema).1).failures, e.HasCancelled
    generalize s.act Operator.buildSchema = a at hlooks
    obtain ⟨r, t⟩ := a
    generalize t.state = u at hlooks
    cases hlooks with
    | known hprimed => exact absurd hprimed hnot
    | learnt _ hnone =>
      rw [show s.operator.primeFailure? = none from hnone] at hprime
      cases hprime
    | failed _ hcause =>
      obtain rfl := Option.some.inj (hcause.symm.trans hprime)
      exact ⟨_, List.mem_singleton.mpr rfl, trivial⟩

theorem not_surfaces_of_faulty (h : Faulty T f s.state) : ¬Somewhere Surfaces cs s := by
  rintro ⟨pre, c, post, -, -, hnone, -⟩
  rw [show (s.run pre).2.operator.failure? = _ from (run_faulty h pre).2.failure] at hnone
  cases hnone

/-- A run fails with a cancellation, and reports one, if one of its calls comes across it. -/
theorem Sound.cancelled_run (h : Sound T s) (hT : ∀ e, T.kind e → e.Bare) (cs : List Call) :
    ((∃ r ∈ (s.run cs).1, ∃ e ∈ r.failures, e.HasCancelled) ↔ Somewhere Surfaces cs s) ∧
    ((s.run cs).2.workspace.fragment.error = T.reported? ∨
      ∃ e : Failure, (s.run cs).2.operator.failure? = some e.replay ∧
        (s.run cs).2.workspace.fragment.error = T.reported?.or (some e.message) ∧
        (e.HasCancelled ↔ Somewhere Surfaces cs s)) := by
  induction cs generalizing s with
  | nil =>
    refine ⟨⟨?_, fun hs => absurd hs not_somewhere_nil⟩, .inl h.unfailed.error⟩
    rintro ⟨r, hr, -⟩
    cases hr
  | cons c cs ih =>
    have hfirst := h.surfaces_iff hT c
    rw [run_cons, somewhere_cons, List.exists_mem_cons_iff]
    rcases h.perform c with ⟨hnone, hsound, -⟩ | ⟨cause, rows, -, hfails, hfaulty, -⟩
    · have hnot : ¬Surfaces s c := fun hs => by
        obtain ⟨e, he, -⟩ := hfirst.mpr hs
        rw [hnone] at he
        cases he
      obtain ⟨hrest, herror⟩ := ih hsound
      rw [hfirst, or_iff_right hnot, or_iff_right hnot]
      exact ⟨hrest, herror⟩
    · have hnowhere : ¬Somewhere Surfaces cs (s.perform c).2 := not_surfaces_of_faulty hfaulty
      obtain ⟨hreplies, hlast⟩ := run_faulty hfaulty cs
      have hcancelled : (cause.withOperator T.name rows).HasCancelled ↔ Surfaces s c := by
        rw [← hfirst, hfails]
        exact ⟨fun hc => ⟨_, List.mem_singleton.mpr rfl, hc⟩,
          fun ⟨e, he, hc⟩ => List.mem_singleton.mp he ▸ hc⟩
      rw [or_iff_left hnowhere, hfirst]
      refine ⟨or_iff_left_of_imp ?_, .inr ⟨_, hlast.failure, hlast.error, hcancelled⟩⟩
      -- later calls repeat the failure of this one
      rw [hreplies]
      rintro ⟨r, hr, e, he, hc⟩
      obtain ⟨d, -, rfl⟩ := List.mem_map.mp hr
      rw [Call.eq_of_mem_failing he, Failure.hasCancelled_replay, Failure.hasCancelled_replay] at hc
      exact hcancelled.mp hc

section Begin

variable {name : String} {options : SortOptions} {makeOrder : OrderMaker} {script : List Pull}
  {pressure : Bool} {stem : String} {fragment : Fragment} {ledger : Memory.Ledger} {disk : Spill.Disk}
  {s : Operator × Workspace}

/-- **Only a look at the schema fails with a cancellation.** If neither the input nor the maker of the
order fails with a wrapped failure, then, whenever the cancel flag is raised and whatever is called, a
call fails with a cancellation, plain or wrapped, if and only if there was a look at a schema not yet
known that found the input cancelled. Otherwise what the fragment is told is the text of another
failure, or nothing. -/
theorem cancelled_iff_surfaces (hs : Operator.create name options makeOrder { script, pressure } stem
      fragment ledger disk = .ok s) (flag : CancelFlag)
    (hinput : ∀ q ∈ script, ∀ e, q.outcome = .error e → e.Bare)
    (horder : ∀ schema keys e, makeOrder schema keys = .error e → e.Bare) (cs : List Call) :
    let a := (begin s flag).run cs
    ((∃ r ∈ a.1, ∃ e ∈ r.failures, e.HasCancelled) ↔ Somewhere Surfaces cs (begin s flag)) ∧
    (a.2.workspace.fragment.error = fragment.error ∨
      ∃ e : Failure, a.2.operator.failure? = some e.replay ∧
        a.2.workspace.fragment.error = fragment.error.or (some e.message) ∧
        (e.HasCancelled ↔ Somewhere Surfaces cs (begin s flag))) :=
  Sound.cancelled_run (.inl (begin_open hs flag (fun _ he => he) hinput horder)) (fun _ he => he) cs

end Begin

/-- A cancelled input: pulls do not fail with it. -/
theorem cancelled_iff_surfaces_pulls : ∃ s,
    Sample.operator Sample.options [{ outcome := .error .cancelled }] = .ok s ∧
      ¬∃ r ∈ ((begin s {}).run [.next true, .kill, .next true]).1, ∃ e ∈ r.failures, e.HasCancelled := by
  have hinput : ∀ q ∈ ([{ outcome := .error .cancelled }] : List Pull), ∀ e,
      q.outcome = .error e → e.Bare := by
    intro q hq e he
    obtain rfl := List.mem_singleton.mp hq
    cases he
    trivial
  have horder : ∀ schema keys e, OrderMaker.byColumns schema keys = .error e → e.Bare :=
    fun _ _ _ he => Failure.of_mapError Failure.bare_keyFault he
  obtain ⟨s, hs⟩ := Sample.exists_operator [{ outcome := .error .cancelled }]
  refine ⟨s, hs, (cancelled_iff_surfaces hs {} hinput horder _).1.not.mpr ?_⟩
  rintro ⟨pre, c, post, hcs, rfl, -⟩
  have hmem : Call.buildSchema ∈ [Call.next true, .kill, .next true] :=
    hcs ▸ List.mem_append_right _ List.mem_cons_self
  simp at hmem

/-- A cancelled input: a look at the schema fails with it, and the fragment is told so. -/
theorem cancellation_surfaces : ∃ s r,
    Sample.operator Sample.options [{ outcome := .error .cancelled }] = .ok s ∧
      ((begin s {}).run [.buildSchema]).1 = [r] ∧ (∃ e ∈ r.failures, e.HasCancelled) ∧
      ((begin s {}).run [.buildSchema]).2.workspace.fragment.error =
        some "SORT failed after 0 rows: operator cancelled" := by
  have hpasses : Sample.passes Sample.options [{ outcome := .error .cancelled }] fun s =>
      let a := (begin s {}).perform .buildSchema
      a.1.failures == [.failed "SORT" 0 .cancelled] &&
        a.2.workspace.fragment.error == some "SORT failed after 0 rows: operator cancelled" := by
    decide +kernel
  obtain ⟨s, hs, hrun⟩ := Sample.exists_of_passes hpasses
  rw [Bool.and_eq_true, beq_iff_eq, beq_iff_eq] at hrun
  have hmem : .failed "SORT" 0 .cancelled ∈ ((begin s {}).perform .buildSchema).1.failures := by
    rw [hrun.1]
    exact List.mem_singleton.mpr rfl
  exact ⟨s, _, hs, rfl, ⟨_, hmem, trivial⟩, hrun.2⟩

/-! ## Pulls after a cancellation or an end -/

/-- A raised flag stops every pull of a sort that has not failed. -/
theorem next_raised (hr : s.workspace.cancel.raised) (hf : s.operator.failure? = none) (keep : Bool) :
    (s.next keep).1 = .ok .stopped := by
  have hnext : Ensures Operator.next (fun r _ => r = .ok .stopped) s.state := by
    refine Operator.ensures_next (fun e he => absurd (hf.symm.trans he) nofun) fun _ => ?_
    refine Operator.cancelled_gives.mono fun b w hw => ?_
    rw [if_pos (hw.1 ▸ hw.2.raised hr)]
    exact .of_forall fun _ _ => rfl
  have hact : (s.act Operator.next).1 = .ok .stopped := (act_spec hnext).1
  rw [next_of_none, hact]
  rw [hact]
  rfl

/-- A kill raises the flag, and so does everyone else who holds it. -/
theorem Phase.raised_perform (h : Phase T s) (hc : c = .kill ∨ c = .cancel) :
    (s.perform c).2.workspace.cancel.raised := by
  rcases hc with rfl | rfl
  · cases h with
    | sound h =>
      rcases h with h | h
      · exact (act_spec h.kill).1.1
      · exact (act_spec h.kill).1.1
    | faulty h => exact (act_spec h.kill).1.1
  · rfl

/-- Pulls of a sort that has quit find it done as long as the flag is down, and stopped once it is
up. -/
theorem run_pulls_quit (h : Quit T s.state) (hcs : ∀ c ∈ cs, ∃ keep, c = .next keep) :
    (¬(s.run cs).2.workspace.cancel.raised → ∀ r ∈ (s.run cs).1, r = .poll (.ok .done)) ∧
    (s.workspace.cancel.raised → ∀ r ∈ (s.run cs).1, r = .poll (.ok .stopped)) := by
  induction cs generalizing s with
  | nil => exact ⟨fun _ => nofun, fun _ => nofun⟩
  | cons c cs ih =>
    obtain ⟨keep, rfl⟩ := hcs c List.mem_cons_self
    obtain ⟨hr, hquit, -, hraised⟩ := next_quit h keep
    obtain ⟨hdone, hstopped⟩ := ih hquit fun d hd => hcs d (List.mem_cons_of_mem _ hd)
    have hphase : Phase T (s.next keep).2 := .sound (.inr hquit)
    rw [run_cons]
    show (¬((s.next keep).2.run cs).2.workspace.cancel.raised →
        ∀ r ∈ .poll (s.next keep).1 :: ((s.next keep).2.run cs).1, r = .poll (.ok .done)) ∧
      (s.workspace.cancel.raised →
        ∀ r ∈ .poll (s.next keep).1 :: ((s.next keep).2.run cs).1, r = .poll (.ok .stopped))
    rw [hr, restingPoll]
    refine ⟨fun hdown => List.forall_mem_cons.mpr ⟨?_, hdone hdown⟩,
      fun hup => List.forall_mem_cons.mpr ⟨?_, hstopped (hraised hup)⟩⟩
    · rw [if_neg fun hup => hdown (hphase.raised cs hup)]
    · rw [if_pos (hraised hup)]

section Begin

variable {name : String} {options : SortOptions} {makeOrder : OrderMaker} {script : List Pull}
  {pressure : Bool} {stem : String} {fragment : Fragment} {ledger : Memory.Ledger} {disk : Spill.Disk}
  {s : Operator × Workspace}

/-- A sort that answers that it is done has handed out as many rows as arrived, and has counted them
as far as it can count. -/
theorem counts_of_done (hs : Operator.create name options makeOrder { script, pressure } stem
      fragment ledger disk = .ok s) (hscript : ∀ p ∈ script, LeavesFiles p.onDisk) (flag : CancelFlag)
    (cs : List Call) (hcs : ∀ c ∈ cs, c.Quiet ∧ ¬c.Ends) (hfine : ∀ r ∈ ((begin s flag).run cs).1, r.Fine)
    (hdone : ∃ r ∈ ((begin s flag).run cs).1, .ok .done ∈ r.pulls) :
    let t := ((begin s flag).run cs).2
    t.operator.rowsReturned = ((arriving script).flatMap Batch.table).length ∧
      t.operator.rowsProcessed = min maxCount t.operator.rowsReturned := by
  have hrun := begin_run_spec hs hscript flag cs fun c hc => (hcs c hc).1
  obtain ⟨rows, -, hworking⟩ := hrun.goes (fun c hc => (hcs c hc).2) hfine
  obtain ⟨r, hr, hpoll⟩ := hdone
  have hended := hrun.ended (.inr ⟨r, hr, .inl ⟨_, hpoll, rfl⟩⟩)
  have hfinished := hworking.finished_of_over (create_fresh hs) hended.isOver
  have hreturned := hfinished.returned
  have hcomplete := hfinished.complete
  rw [List.nil_append] at hreturned hcomplete
  refine ⟨hreturned.trans ?_, hreturned ▸ hfinished.processed⟩
  unfold Operator.Complete at hcomplete
  split at hcomplete
  · next o _ =>
    rw [hcomplete, (o.sortedTables_perm _).length_eq, tables_flatMap_slices]
  · rw [hcomplete.1, ← tables_flatMap_slices, hcomplete.2]
    rfl

/-- **Stopped and done.** Once the flag is raised every pull finds the sort stopped, unless it has failed.
The first pull that answers that the sort is done has all rows behind it. But whether a first pull
without an output answered done or stopped, later pulls answer done as long as the flag is down, and
stopped if it was up before. -/
theorem pulls_of_resting (hs : Operator.create name options makeOrder { script, pressure } stem
      fragment ledger disk = .ok s) (flag : CancelFlag) :
    (∀ (pre mid : List Call) (c : Call) (keep : Bool), c = .kill ∨ c = .cancel →
      let t := ((begin s flag).run (pre ++ c :: mid)).2
      t.operator.failure? = none → (t.perform (.next keep)).1 = .poll (.ok .stopped)) ∧
    ∀ (pre : List Call) (keep : Bool), (∀ d ∈ pre, ¬d.Ends) →
      (∀ r ∈ ((begin s flag).run pre).1, ¬r.Final) →
      let a := ((begin s flag).run pre).2.perform (.next keep)
      (a.1 = .poll (.ok .done) → (∀ d ∈ pre, d.Quiet) → (∀ p ∈ script, LeavesFiles p.onDisk) →
        a.2.operator.rowsReturned = ((arriving script).flatMap Batch.table).length ∧
          a.2.operator.rowsProcessed = min maxCount a.2.operator.rowsReturned) ∧
      (a.1 = .poll (.ok .done) ∨ a.1 = .poll (.ok .stopped) →
        ∀ post : List Call, (∀ d ∈ post, ∃ k, d = .next k) →
          let u := a.2.run post
          (¬u.2.workspace.cancel.raised → ∀ r ∈ u.1, r = .poll (.ok .done)) ∧
          (a.2.workspace.cancel.raised → ∀ r ∈ u.1, r = .poll (.ok .stopped))) := by
  have hopen := begin_open (p := fun _ => True) hs flag (fun _ _ => trivial)
    (fun _ _ _ _ => trivial) fun _ _ _ _ => trivial
  have hbegin : Phase _ (begin s flag) := .sound (.inl hopen)
  refine ⟨?_, fun pre keep hpre hrs => ?_⟩
  · intro pre mid c keep hc t hf
    have hraised : t.workspace.cancel.raised := by
      show ((begin s flag).run (pre ++ c :: mid)).2.workspace.cancel.raised
      rw [run_append, run_cons]
      exact ((hbegin.run pre).perform c).raised mid ((hbegin.run pre).raised_perform hc)
    exact congrArg Reply.poll (next_raised hraised hf keep)
  · have hturn := (perform_open (run_open hopen hpre hrs) (.next keep)).1
    have hrun := run_append pre [.next keep] (begin s flag)
    rw [run_cons] at hrun
    generalize ((begin s flag).run pre).2.perform (.next keep) = a at hturn hrun ⊢
    obtain ⟨r, t⟩ := a
    refine ⟨fun hr hquiet hscript => ?_, fun hr post hpost => ?_⟩
    · obtain rfl : r = .poll (.ok .done) := hr
      have hcounts := counts_of_done hs hscript flag (pre ++ [.next keep])
      rw [hrun] at hcounts
      refine hcounts (fun d hd => ?_) (fun q hq => ?_) ⟨.poll (.ok .done), ?_, List.mem_singleton.mpr rfl⟩
      · rcases List.mem_append.mp hd with hd | hd
        · exact ⟨hquiet d hd, hpre d hd⟩
        · obtain rfl := List.mem_singleton.mp hd
          exact ⟨trivial, id⟩
      · rcases List.mem_append.mp hq with hq | hq
        · by_contra hnot
          exact hrs q hq (Reply.final_of_not_fine hnot)
        · obtain rfl := List.mem_singleton.mp hq
          exact ⟨List.forall_mem_singleton.mpr trivial, rfl⟩
      · exact List.mem_append_right _ (List.mem_singleton.mpr rfl)
    · have hr : r = .poll (.ok .done) ∨ r = .poll (.ok .stopped) := hr
      cases hturn with
      | goes _ hfinal =>
        refine absurd (.inl ?_) hfinal
        rcases hr with rfl | rfl
        · exact ⟨_, List.mem_singleton.mpr rfl, rfl⟩
        · exact ⟨_, List.mem_singleton.mpr rfl, rfl⟩
      | quits _ _ _ hquit => exact run_pulls_quit hquit hpost
      | fails hfails =>
        rcases hr with rfl | rfl
        · cases hfails
        · cases hfails

end Begin

/-- One batch: done when its two rows are out, and done from then on; stopped if it was killed. -/
theorem pulls_of_resting_one_batch : ∃ s,
    Sample.operator Sample.options [Sample.pull [(2, 1), (1, 2)]] = .ok s ∧
      let t := (((begin s {}).run [.next true]).2.perform (.next true)).2
      t.operator.rowsReturned = 2 ∧ t.operator.rowsProcessed = 2 ∧
        (∀ q ∈ (t.run [.next true, .next false]).1, q = .poll (.ok .done)) ∧
        (((begin s {}).run [.next true, .kill, .close]).2.perform (.next true)).1 =
          .poll (.ok .stopped) := by
  have hpasses : Sample.passes Sample.options [Sample.pull [(2, 1), (1, 2)]] fun s =>
      let t := ((begin s {}).run [.next true, .next true]).2
      ((begin s {}).run [.next true, .next true]).1.map Sample.glance == [.rows, .done] &&
        !(t.run [.next true, .next false]).2.workspace.cancel.raised &&
        ((begin s {}).run [.next true, .kill, .close]).2.operator.failure?.isNone := by
    decide +kernel
  obtain ⟨s, hs, hrun⟩ := Sample.exists_of_passes hpasses
  simp only [Bool.and_eq_true, beq_iff_eq, Bool.not_eq_true', Option.isNone_iff_eq_none] at hrun
  obtain ⟨⟨hglances, hdown⟩, hfailure⟩ := hrun
  obtain ⟨o, hrs⟩ := Sample.exists_of_glances hglances
  have hrs : [((begin s {}).perform (.next true)).1,
      (((begin s {}).run [.next true]).2.perform (.next true)).1] =
        [.poll (.ok (.newSchema o)), .poll (.ok .done)] := hrs
  obtain ⟨hrows, hdone⟩ := List.cons_eq_cons.mp hrs
  have hdone := (List.cons_eq_cons.mp hdone).1
  obtain ⟨hraised, hover⟩ := pulls_of_resting hs {}
  have hfinal : ∀ r ∈ ((begin s {}).run [.next true]).1, ¬r.Final := by
    rw [show ((begin s {}).run [.next true]).1 = _ from congrArg (fun r => [r]) hrows]
    simp [Reply.Final, Reply.pulls, outputOf?, Except.toOption, Poll.output?, Reply.schemaFailure?]
  obtain ⟨hcounts, hrest⟩ := hover [.next true] true (by simp [Call.Ends]) hfinal
  obtain ⟨hreturned, hprocessed⟩ := hcounts hdone (by simp [Call.Quiet])
    (by simp [Sample.pull, LeavesFiles])
  refine ⟨s, hs, hreturned, ?_, ?_, hraised [.next true] [.close] .kill true (.inl rfl) hfailure⟩
  · rw [hprocessed, hreturned]
    rfl
  · refine (hrest (.inl hdone) [.next true, .next false] (by simp)).1 ?_
    exact Bool.eq_false_iff.mp hdown

/-- An input that stops after a batch: the first pull answers stopped, the second one done, although
both rows were taken in and none was handed out. -/
theorem stopped_then_done : ∃ s,
    Sample.operator Sample.options [Sample.pull [(2, 1), (1, 2)], { outcome := .ok .stop }] = .ok s ∧
      let a := (begin s {}).run [.next true, .next true]
      a.1 = [.poll (.ok .stopped), .poll (.ok .done)] ∧ a.2.operator.rowsProcessed = 2 ∧
        a.2.operator.rowsReturned = 0 := by
  have hpasses : Sample.passes Sample.options
      [Sample.pull [(2, 1), (1, 2)], { outcome := .ok .stop }] fun s =>
        let a := (begin s {}).perform (.next true)
        let b := a.2.perform (.next true)
        Sample.glance a.1 == .stopped && Sample.glance b.1 == .done &&
          b.2.operator.rowsProcessed == 2 && b.2.operator.rowsReturned == 0 := by
    decide +kernel
  obtain ⟨s, hs, hrun⟩ := Sample.exists_of_passes hpasses
  simp only [Bool.and_eq_true, beq_iff_eq] at hrun
  obtain ⟨⟨⟨hstopped, hdone⟩, hprocessed⟩, hreturned⟩ := hrun
  refine ⟨s, hs, ?_, hprocessed, hreturned⟩
  exact congrArg₂ (fun r r' => [r, r']) (Sample.eq_stopped_of_glance hstopped)
    (Sample.eq_done_of_glance hdone)

end Session

end SpillSort
