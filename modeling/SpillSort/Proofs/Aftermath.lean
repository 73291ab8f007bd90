import SpillSort.Proofs.Turns

/-!
# After the end of a sort

Once a sort is over its input is left alone, with one way around that: a look at the schema pulls
again if no schema was ever established. The stages only go forward, with one step back: killing a
failed sort makes it look done.

* `Session.upstream_left_alone` follows the pulls, the kills and the event that waits.
* `Session.failed_iff_recorded` ties the stage to the recorded failure.
-/

namespace SpillSort

namespace Session

open Operator (Open Quit Faulty Rests)

variable {T : Setting} {f : Failure} {s : Session} {c : Call} {cs : List Call}

/-! ## The input -/

/-- Nothing is pulled any more, and no event waits. -/
def LeftAlone (s t : Session) : Prop :=
  t.operator.input.pulls = s.operator.input.pulls ∧ t.operator.pending? = none

theorem LeftAlone.of_rests {t : Session} (h : Rests s.state t.state) (hp : s.operator.pending? = none) :
    LeftAlone s t :=
  ⟨h.pulls, h.pending.elim (fun he => he.trans hp) id⟩

theorem LeftAlone.trans {t u : Session} (h : LeftAlone s t) (h' : LeftAlone t u) : LeftAlone s u :=
  ⟨h'.1.trans h.1, h'.2⟩

theorem run_faulty_alone (h : Faulty T f s.state) (cs : List Call) : LeftAlone s (s.run cs).2 := by
  induction cs generalizing s with
  | nil => exact ⟨rfl, h.pending⟩
  | cons c cs ih =>
    have hturn := perform_faulty h c
    exact (LeftAlone.of_rests hturn.rests h.pending).trans (ih hturn.faulty)

/-- With a schema, or if nobody looks at it, a sort that has quit leaves its input alone. -/
theorem run_quit_alone (h : Quit T s.state) (hp : s.operator.pending? = none)
    (hcs : s.operator.order?.isSome ∨ Call.buildSchema ∉ cs) : LeftAlone s (s.run cs).2 := by
  induction cs generalizing s with
  | nil => exact ⟨rfl, hp⟩
  | cons c cs ih =>
    have hprimes : c = .buildSchema → ¬s.operator.Primed → False := by
      rintro rfl hnot
      exact hcs.elim (fun ho => hnot (.inl ho)) fun hmem => hmem List.mem_cons_self
    have hturn := (perform_quit h c).1
    rw [run_cons]
    generalize s.perform c = a at hturn
    obtain ⟨r, t⟩ := a
    cases hturn with
    | rests _ _ _ hrests hquit =>
      have halone := LeftAlone.of_rests hrests hp
      refine halone.trans (ih hquit halone.2 (hcs.imp (fun ho => ?_) fun hmem => ?_))
      · rwa [show t.operator.order? = s.operator.order? from hrests.order]
      · exact fun h => hmem (List.mem_cons_of_mem _ h)
    | learns hnot => exact (hprimes rfl hnot).elim
    | fails hnot => exact (hprimes rfl hnot).elim

/-- A sort that is over never takes a pull back. -/
theorem run_quit_le (h : Quit T s.state) (cs : List Call) :
    s.operator.input.pulls ≤ (s.run cs).2.operator.input.pulls := by
  induction cs generalizing s with
  | nil => exact Nat.le_refl _
  | cons c cs ih =>
    have hturn := (perform_quit h c).1
    rw [run_cons]
    generalize s.perform c = a at hturn
    obtain ⟨r, t⟩ := a
    cases hturn with
    | rests _ _ _ hrests hquit => exact hrests.pulls.ge.trans (ih hquit)
    | learns _ hpulls hquit => exact (Nat.le_of_lt hpulls.ge).trans (ih hquit)
    | fails _ _ _ hpulls hfaulty =>
      exact (Nat.le_of_lt hpulls.ge).trans (run_faulty_alone hfaulty cs).1.ge

/-- Without a schema a look at it pulls once more, although the sort is over. -/
theorem run_quit_lt (h : Quit T s.state) (hp : s.operator.pending? = none)
    (ho : s.operator.order? = none) (hcs : Call.buildSchema ∈ cs) :
    s.operator.input.pulls < (s.run cs).2.operator.input.pulls := by
  induction cs generalizing s with
  | nil => cases hcs
  | cons c cs ih =>
    have hnot : ¬s.operator.Primed := by
      rw [Operator.Primed, ho, hp]
      nofun
    have hturn := (perform_quit h c).1
    rw [run_cons]
    generalize s.perform c = a at hturn
    obtain ⟨r, t⟩ := a
    cases hturn with
    | rests hknown _ _ hrests hquit =>
      have hrest : Call.buildSchema ∈ cs :=
        (List.mem_cons.mp hcs).resolve_left fun he => hnot (hknown he.symm)
      have halone := LeftAlone.of_rests hrests hp
      exact halone.1.ge.trans_lt (ih hquit halone.2 (hrests.order.trans ho) hrest)
    | learns _ hpulls hquit => exact (Nat.lt_of_succ_le hpulls.ge).trans_le (run_quit_le hquit cs)
    | fails _ _ _ hpulls hfaulty =>
      exact (Nat.lt_of_succ_le hpulls.ge).trans_le (run_faulty_alone hfaulty cs).1.ge

theorem Phase.kills_le (h : Phase T s) : s.operator.input.kills ≤ 1 := by
  have hkills : s.operator.input.kills = s.operator.released.toNat := by
    cases h with
    | sound h => exact h.unfailed.kills
    | faulty h => exact h.kills
  rw [hkills]
  exact Bool.toNat_le _

section Begin

variable {name : String} {options : SortOptions} {makeOrder : OrderMaker} {script : List Pull}
  {pressure : Bool} {stem : String} {fragment : Fragment} {ledger : Memory.Ledger} {disk : Spill.Disk}
  {s : Operator × Workspace}

/-- **A sort that is over leaves its input alone, unless someone looks for a schema that was never
established.** The input is killed at most once. When a call first finds the sort over, or ends it, no
event waits. From then on nothing is pulled and no event begins to wait if the schema was established, a
failure was recorded, or nobody looks at the schema; otherwise the input is pulled again. -/
theorem upstream_left_alone (hs : Operator.create name options makeOrder { script, pressure } stem
      fragment ledger disk = .ok s) (flag : CancelFlag) :
    (∀ cs, ((begin s flag).run cs).2.operator.input.kills ≤ 1) ∧
    ∀ (pre : List Call) (c : Call), (∀ d ∈ pre, ¬d.Ends) →
      (∀ r ∈ ((begin s flag).run pre).1, ¬r.Final) →
      let a := ((begin s flag).run pre).2.perform c
      c.Ends ∨ a.1.Final → a.2.operator.pending? = none ∧ ∀ post : List Call,
        (a.2.operator.order?.isSome ∨ a.2.operator.failure?.isSome ∨ .buildSchema ∉ post →
          LeftAlone a.2 (a.2.run post).2) ∧
        (a.2.operator.order? = none → a.2.operator.failure? = none → .buildSchema ∈ post →
          a.2.operator.input.pulls < (a.2.run post).2.operator.input.pulls) := by
  have hopen := begin_open (p := fun _ => True) hs flag (fun _ _ => trivial)
    (fun _ _ _ _ => trivial) fun _ _ _ _ => trivial
  refine ⟨fun cs => ((Phase.sound (.inl hopen)).run cs).kills_le, fun pre c hpre hrs => ?_⟩
  have hturn := (perform_open (run_open hopen hpre hrs) c).1
  generalize ((begin s flag).run pre).2.perform c = a at hturn ⊢
  obtain ⟨r, t⟩ := a
  intro a hover
  cases hturn with
  | goes hends hfinal => exact (hover.elim hends hfinal).elim
  | quits _ _ hp hquit =>
    refine ⟨hp, fun post => ⟨fun hwhy => run_quit_alone hquit hp ?_, fun ho _ hmem =>
      run_quit_lt hquit hp ho hmem⟩⟩
    refine hwhy.imp_right fun hwhy => hwhy.resolve_left fun hf => ?_
    rw [show t.operator.failure? = none from hquit.failure] at hf
    cases hf
  | fails _ _ hfaulty =>
    refine ⟨hfaulty.pending, fun post => ⟨fun _ => run_faulty_alone hfaulty post, fun _ hf => ?_⟩⟩
    rw [show t.operator.failure? = _ from hfaulty.failure] at hf
    cases hf

end Begin

/-- Three batches: after a kill pulls, closing and more kills leave the input alone. -/
theorem upstream_left_alone_three_batches : ∃ s,
    Sample.operator Sample.options Sample.threeBatches = .ok s ∧
      let t := ((begin s {}).perform .kill).2
      t.operator.input.kills ≤ 1 ∧ t.operator.pending? = none ∧
        LeftAlone t (t.run [.next true, .close, .kill, .next true]).2 := by
  obtain ⟨s, hs⟩ := Sample.exists_operator Sample.threeBatches
  obtain ⟨hkills, halone⟩ := upstream_left_alone hs {}
  obtain ⟨hpending, hafter⟩ := halone [] .kill nofun nofun (.inl trivial)
  exact ⟨s, hs, hkills [.kill], hpending, (hafter _).1 (.inr (.inr (by simp)))⟩

/-- A look at the schema after a kill pulls the first batch, and keeps it. -/
theorem upstream_pulled_after_kill : ∃ s,
    Sample.operator Sample.options [Sample.pull [(2, 1), (1, 2)]] = .ok s ∧
      let t := ((begin s {}).perform .kill).2
      t.operator.input.pulls = 0 ∧ (t.perform .buildSchema).2.operator.input.pulls = 1 ∧
        (t.perform .buildSchema).2.operator.pending?.isSome := by
  have hpasses : Sample.passes Sample.options [Sample.pull [(2, 1), (1, 2)]] fun s =>
      let t := ((begin s {}).perform .kill).2
      t.operator.input.pulls == 0 && (t.perform .buildSchema).2.operator.input.pulls == 1 &&
        (t.perform .buildSchema).2.operator.pending?.isSome := by
    decide +kernel
  obtain ⟨s, hs, hrun⟩ := Sample.exists_of_passes hpasses
  simp only [Bool.and_eq_true, beq_iff_eq] at hrun
  exact ⟨s, hs, hrun.1.1, hrun.1.2, hrun.2⟩

/-! ## Stages -/

/-- Whether a call is the first kill of a failed sort. It makes the sort look done. -/
def Buries (s : Session) (c : Call) : Prop :=
  c = .kill ∧ s.operator.failure?.isSome ∧ s.operator.released = false

/-- A stage goes forward with every call that does not bury a failure. -/
theorem Phase.leads_perform (h : Phase T s) (hc : ¬Buries s c) :
    s.operator.stage.Leads (s.perform c).2.operator.stage := by
  cases h with
  | sound h =>
    rcases h.perform c with ⟨-, -, hleads⟩ | ⟨_, _, -, -, -, hstage⟩
    · exact hleads
    · exact .of_lt (hstage ▸ h.rank_lt)
  | faulty h =>
    have hturn := perform_faulty h c
    rcases h.stage with hs | ⟨hs, -⟩
    · refine .of_eq ((hturn.stage.mpr ⟨hs, fun hkill => ?_⟩).trans hs.symm)
      by_contra hr
      exact hc ⟨hkill, Option.isSome_iff_exists.mpr ⟨_, h.failure⟩, Bool.eq_false_iff.mpr hr⟩
    · have hnot : (s.perform c).2.operator.stage ≠ .failed := fun hf => by
        have hfailed := (hturn.stage.mp hf).1
        rw [show s.operator.stage = .done from hs] at hfailed
        cases hfailed
      have hdone := (hturn.faulty.stage.resolve_left hnot).1
      exact .of_eq (hdone.trans hs.symm)

theorem Phase.leads_run (h : Phase T s) (hcs : ¬Somewhere Buries cs s) :
    s.operator.stage.Leads (s.run cs).2.operator.stage := by
  induction cs generalizing s with
  | nil => exact .rfl
  | cons c cs ih =>
    rw [somewhere_cons, not_or] at hcs
    exact (h.leads_perform hcs.1).trans (ih (h.perform c) hcs.2)

/-- Nothing comes after a failure. -/
theorem eq_failed_of_leads {stage : Stage} (h : Stage.failed.Leads stage) : stage = .failed := by
  cases stage with
  | failed => rfl
  | _ => exact absurd h.rank (by simp [Stage.rank])

/-- A sort fails by recording a failure. -/
theorem Phase.recorded (h : Phase T s) (hs : s.operator.stage = .failed) :
    s.operator.failure?.isSome := by
  cases h with
  | sound h => exact absurd (congrArg Stage.rank hs) h.rank_lt.ne
  | faulty h => exact Option.isSome_iff_exists.mpr ⟨_, h.failure⟩

/-- A failure is recorded at the moment of failing. -/
theorem Phase.failed_perform (h : Phase T s)
    (hs : s.operator.failure?.isSome → s.operator.stage = .failed)
    (hc : ¬Buries s c) (ht : (s.perform c).2.operator.failure?.isSome) :
    (s.perform c).2.operator.stage = .failed := by
  have hleads := h.leads_perform hc
  cases h with
  | sound h =>
    rcases h.perform c with ⟨-, hsound, -⟩ | ⟨_, _, -, -, -, hstage⟩
    · rw [show (s.perform c).2.operator.failure? = none from hsound.unfailed.failure] at ht
      cases ht
    · exact hstage
  | faulty h =>
    rw [hs (Option.isSome_iff_exists.mpr ⟨_, h.failure⟩)] at hleads
    exact eq_failed_of_leads hleads

/-- A recorded failure stays. -/
theorem Phase.failure_run (h : Phase T s) (hs : s.operator.failure?.isSome) (cs : List Call) :
    (s.run cs).2.operator.failure? = s.operator.failure? := by
  cases h with
  | sound h =>
    rw [show s.operator.failure? = none from h.unfailed.failure] at hs
    cases hs
  | faulty h => exact (run_faulty h cs).2.failure.trans h.failure.symm

/-- A failed sort that looks done goes on to look done. -/
theorem run_buried (h : Faulty T f s.state) (hs : s.operator.stage = .done) (cs : List Call) :
    (s.run cs).2.operator.stage = .done := by
  induction cs generalizing s with
  | nil => exact hs
  | cons c cs ih =>
    have hturn := perform_faulty h c
    refine ih hturn.faulty (hturn.faulty.stage.resolve_left fun hf => ?_).1
    have hfailed := (hturn.stage.mp hf).1
    rw [hs] at hfailed
    cases hfailed

theorem Phase.done_of_buries (h : Phase T s) (hc : Buries s c) (cs : List Call) :
    ((s.perform c).2.run cs).2.operator.stage = .done := by
  obtain ⟨rfl, hsome, hreleased⟩ := hc
  cases h with
  | sound h =>
    rw [show s.operator.failure? = none from h.unfailed.failure] at hsome
    cases hsome
  | faulty h =>
    have hturn := perform_faulty h .kill
    refine run_buried hturn.faulty (hturn.faulty.stage.resolve_left fun hf => ?_).1 cs
    have hr := (hturn.stage.mp hf).2 rfl
    rw [hreleased] at hr
    cases hr

/-- The stage and the recorded failure agree after a run if they did before, unless a failure was
buried. -/
theorem Phase.failed_iff_run (h : Phase T s)
    (hs : s.operator.failure?.isSome → s.operator.stage = .failed) (cs : List Call) :
    ((s.run cs).2.operator.stage = .failed ↔
      (s.run cs).2.operator.failure?.isSome ∧ ¬Somewhere Buries cs s) ∧
    (Somewhere Buries cs s → (s.run cs).2.operator.stage = .done) := by
  induction cs generalizing s with
  | nil =>
    have hnowhere : ¬Somewhere Buries [] s := not_somewhere_nil
    exact ⟨⟨fun hf => ⟨h.recorded hf, hnowhere⟩, fun hr => hs hr.1⟩, fun hb => absurd hb hnowhere⟩
  | cons c cs ih =>
    rw [run_cons, somewhere_cons]
    by_cases hc : Buries s c
    · have hdone := h.done_of_buries hc cs
      refine ⟨⟨fun hf => ?_, fun hr => absurd (.inl hc) hr.2⟩, fun _ => hdone⟩
      rw [hdone] at hf
      cases hf
    · obtain ⟨hiff, hdone⟩ := ih (h.perform c) (h.failed_perform hs hc)
      exact ⟨hiff.trans (and_congr_right fun _ => by rw [or_iff_right hc]),
        fun hb => hdone (hb.resolve_left hc)⟩

section Begin

variable {name : String} {options : SortOptions} {makeOrder : OrderMaker} {script : List Pull}
  {pressure : Bool} {stem : String} {fragment : Fragment} {ledger : Memory.Ledger} {disk : Spill.Disk}
  {s : Operator × Workspace}

/-- **A sort has failed if a failure is recorded, unless it was killed after that.** The stage is that
of a failed sort if and only if a failure is recorded and no kill has buried it; a kill that is the
first one buries it, and then the sort looks done for good. A recorded failure never changes, and
otherwise the stages only go forward. -/
theorem failed_iff_recorded (hs : Operator.create name options makeOrder { script, pressure } stem
      fragment ledger disk = .ok s) (flag : CancelFlag) (pre post : List Call) :
    let t := ((begin s flag).run pre).2
    let u := (t.run post).2
    (t.operator.stage = .failed ↔
      t.operator.failure?.isSome ∧ ¬Somewhere Buries pre (begin s flag)) ∧
    (Somewhere Buries pre (begin s flag) → t.operator.stage = .done) ∧
    (t.operator.failure?.isSome → u.operator.failure? = t.operator.failure?) ∧
    (¬Somewhere Buries post t → t.operator.stage.Leads u.operator.stage) := by
  have hopen := begin_open (p := fun _ => True) hs flag (fun _ _ => trivial)
    (fun _ _ _ _ => trivial) fun _ _ _ _ => trivial
  have hrun := (Phase.sound (.inl hopen)).run pre
  have hfresh : (begin s flag).operator.failure?.isSome → (begin s flag).operator.stage = .failed := by
    rw [show (begin s flag).operator.failure? = none from hopen.failure]
    nofun
  obtain ⟨hiff, hdone⟩ := (Phase.sound (.inl hopen)).failed_iff_run hfresh pre
  exact ⟨hiff, hdone, fun hf => hrun.failure_run hf post, hrun.leads_run⟩

end Begin

/-- An input that fails: without a kill the sort has failed when a failure is recorded, and closing it
and pulling again do not take that back. -/
theorem failed_iff_recorded_unsupported : ∃ s,
    Sample.operator Sample.options [{ outcome := .error (.unsupported "x") }] = .ok s ∧
      let t := ((begin s {}).run [.next true]).2
      let u := (t.run [.close, .next true, .cancel]).2
      (t.operator.stage = .failed ↔ t.operator.failure?.isSome) ∧
        t.operator.stage.Leads u.operator.stage := by
  have hnever : ∀ {cs : List Call} {s : Session}, .kill ∉ cs → ¬Somewhere Buries cs s := by
    rintro cs s hcs ⟨pre, c, post, rfl, rfl, -⟩
    exact hcs (List.mem_append_right _ List.mem_cons_self)
  obtain ⟨s, hs⟩ := Sample.exists_operator [{ outcome := .error (.unsupported "x") }]
  obtain ⟨hiff, -, -, hleads⟩ := failed_iff_recorded hs {} [.next true] [.close, .next true, .cancel]
  exact ⟨s, hs, hiff.trans (and_iff_left (hnever (by simp))), hleads (hnever (by simp))⟩

/-- A kill makes a failed sort look done, although its failure is still recorded. -/
theorem failed_buried_by_kill : ∃ s,
    Sample.operator Sample.options [{ outcome := .error (.unsupported "x") }] = .ok s ∧
      ((begin s {}).run [.next true]).2.operator.stage = .failed ∧
      let t := ((begin s {}).run [.next true, .kill]).2
      t.operator.stage = .done ∧ t.operator.failure?.isSome := by
  have hpasses : Sample.passes Sample.options [{ outcome := .error (.unsupported "x") }] fun s =>
      let t := ((begin s {}).run [.next true, .kill]).2
      ((begin s {}).run [.next true]).2.operator.stage.label == "failed" &&
        t.operator.stage.label == "done" && t.operator.failure?.isSome := by
    decide +kernel
  obtain ⟨s, hs, hrun⟩ := Sample.exists_of_passes hpasses
  simp only [Bool.and_eq_true, beq_iff_eq] at hrun
  exact ⟨s, hs, Stage.eq_failed_of_label hrun.1.1, Stage.eq_done_of_label hrun.1.2, hrun.2⟩

end Session

end SpillSort
