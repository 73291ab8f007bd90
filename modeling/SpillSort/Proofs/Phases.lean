import SpillSort.Proofs.Progress
import SpillSort.Proofs.Sessions

/-!
# The phases of a sort

Between two calls a sort is open, has quit without a failure, or has failed for good.

* `Operator.Open`, `Operator.Quit` and `Operator.Faulty` are the phases.
* `Operator.Open.next`, `Operator.Quit.next` and `Operator.Faulty.next` are a pull in each of them;
  killing, closing and looking at the schema follow.
-/

namespace SpillSort

open Workspace (Calm)

/-- What is fixed while a sort runs: the kind of failures that can come up, what the fragment was told
before, and the name of the sort. -/
structure Setting where
  kind : Failure → Prop
  reported? : Option String
  name : String

variable {T : Setting} {f : Failure}

/-- The stage that closing leaves. -/
def Stage.closed : Stage → Stage
  | failed => failed
  | _ => done

theorem Stage.closed_ended (stage : Stage) : stage.ended.closed = stage.closed := by
  cases stage <;> rfl

namespace Operator

variable {s t : Operator × Workspace} {op : Operator} {w v : Workspace}

/-! ## Ends -/

/-- What is left of a failure: the operator has let go of everything, keeps the copy for later pulls,
and has reported the text to the fragment, unless one was there already. -/
theorem fail_gives (cause : Failure) : Ensures (fail cause)
    (fun f t => f = cause.withOperator s.1.name s.1.rowsProcessed ∧
      t.1 = { s.1.emptied with stage := .failed, failure? := some f.replay } ∧
      t.2.fragment.error = s.2.fragment.error.or (some f.message) ∧
      (s.2.cancel.raised → t.2.cancel.raised)) s := by
  unfold fail
  simp only [Ensures.bind_iff, Ensures.get_layer_iff, Ensures.lift_layer_iff]
  refine (Workspace.note_moves (r := Workspace.Calm) _).mono fun _ w hw => ?_
  rw [Ensures.modify_iff]
  refine releaseGroups_gives.mono fun _ t ht => ?_
  refine (enter_moves (r := Calm) _).mono fun _ u hu => ?_
  rw [Ensures.modify_layer_iff, Ensures.pure_iff]
  refine ⟨rfl, ?_, ?_, fun hr => hu.2.raised (ht.2.raised (hw.raised hr))⟩
  · rw [hu.1, ht.1]
  · rw [hu.2.error, ht.2.error]
    show w.fragment.error.or _ = _
    rw [hw.error]

/-- A release lets go of everything and stops the input, but only the first one. -/
theorem releaseOnCancel_gives : Ensures releaseOnCancel
    (fun _ t => Calm s.2 t.2 ∧ t.1 =
      if s.1.released then s.1
      else { s.1.emptied with stage := .done, input := s.1.input.kill, released := true }) s := by
  unfold releaseOnCancel
  rw [Ensures.bind_iff, Ensures.get_layer_iff]
  split
  · exact Ensures.pure_iff.mpr ⟨refl_of Calm s.2, rfl⟩
  · unfold Operator.note
    simp only [Ensures.bind_iff, Ensures.get_layer_iff, Ensures.lift_layer_iff]
    refine (Workspace.note_moves (r := Workspace.Calm) _).mono fun _ w hw => ?_
    refine releaseGroups_gives.mono fun _ t ht => ?_
    refine (enter_moves (r := Calm) _).mono fun _ u hu => ?_
    rw [Ensures.modify_layer_iff]
    refine ⟨trans_of Calm hw (trans_of Calm ht.2 hu.2), ?_⟩
    rw [hu.1, ht.1]
    rfl

theorem close_gives : Ensures close
    (fun _ t => Calm s.2 t.2 ∧ t.1 = { s.1.emptied with stage := s.1.stage.closed }) s := by
  have hclosed : ∀ {op : Operator} {w : Workspace}, Calm s.2 w → Ensures (do
        match (← get).stage with
        | .failed => pure ()
        | _ => enter .done : OperatorAction Unit)
      (fun _ u => Calm s.2 u.2 ∧ u.1 = { op with stage := op.stage.closed }) (op, w) := by
    intro op w hw
    rw [Ensures.bind_iff, Ensures.get_layer_iff]
    split
    · next hs =>
      have hclosed : op.stage.closed = op.stage := by
        rw [show op.stage = .failed from hs]
        rfl
      rw [hclosed]
      exact Ensures.pure_iff.mpr ⟨hw, rfl⟩
    · next hs =>
      have hclosed : op.stage.closed = .done := by
        unfold Stage.closed
        split
        · exact absurd ‹_› hs
        · rfl
      rw [hclosed]
      exact (enter_moves (r := Calm) .done).mono fun _ u hu => ⟨trans_of Calm hw hu.2, hu.1⟩
  unfold close
  rw [Ensures.bind_iff, Ensures.get_layer_iff, Ensures.bind_iff, Ensures.lift_layer_iff,
    Ensures.modify_iff, Ensures.bind_iff]
  refine releaseGroups_gives.mono fun _ t ht => ?_
  obtain ⟨op, w⟩ := t
  obtain rfl : op = s.1.emptied := ht.1
  rw [← s.1.stage.closed_ended]
  exact hclosed ⟨ht.2.error, ht.2.raised⟩

/-! ## Phases -/

/-- An operator that has not failed; the fragment was told nothing by it. -/
structure Unfailed (T : Setting) (s : Operator × Workspace) : Prop where
  name : s.1.name = T.name
  meets : s.1.Meets T.kind
  failure : s.1.failure? = none
  kills : s.1.input.kills = s.1.released.toNat
  error : s.2.fragment.error = T.reported?

/-- An operator that goes on. -/
structure Open (T : Setting) (s : Operator × Workspace) : Prop
    extends Unfailed T s where
  released : s.1.released = false
  stage : s.1.stage = .uninitialized ∨ s.1.Merging

/-- An operator that is done, stopped or ended, and has not failed. -/
structure Quit (T : Setting) (s : Operator × Workspace) : Prop
    extends Unfailed T s where
  stage : s.1.stage = .done

/-- An operator that has failed with `f`; a release after that makes it look done. -/
structure Faulty (T : Setting) (f : Failure) (s : Operator × Workspace) : Prop where
  failure : s.1.failure? = some f.replay
  kills : s.1.input.kills = s.1.released.toNat
  error : s.2.fragment.error = T.reported?.or (some f.message)
  pending : s.1.pending? = none
  stage : s.1.stage = .failed ∨ s.1.stage = .done ∧ s.1.released

/-- What never comes back: nothing is pulled, no order is made, and no event begins to wait. -/
structure Rests (s t : Operator × Workspace) : Prop where
  pulls : t.1.input.pulls = s.1.input.pulls
  order : t.1.order? = s.1.order?
  pending : t.1.pending? = s.1.pending? ∨ t.1.pending? = none

theorem Rests.rfl : Rests s s := ⟨Eq.refl _, Eq.refl _, .inl (Eq.refl _)⟩

/-- An operator without the shortage of memory that nobody asked about yet. -/
def unpressed (op : Operator) : Operator := { op with input := { op.input with pressure := false } }

/-- What happens to a sort that is not asked for anything. -/
structure Idles (s t : Operator × Workspace) : Prop where
  operator : t.1.unpressed = s.1.unpressed
  calm : Calm s.2 t.2

theorem Idles.of_calm {w : Workspace} (h : Calm s.2 w) : Idles s (s.1, w) := ⟨rfl, h⟩

theorem Idles.input (h : Idles s t) : t.1.input.script = s.1.input.script ∧
    t.1.input.kills = s.1.input.kills ∧ t.1.input.pulls = s.1.input.pulls :=
  ⟨(congrArg (fun op => op.input.script) h.operator :),
    (congrArg (fun op => op.input.kills) h.operator :),
    (congrArg (fun op => op.input.pulls) h.operator :)⟩

theorem Idles.stage (h : Idles s t) : t.1.stage = s.1.stage := (congrArg Operator.stage h.operator :)

theorem Idles.released (h : Idles s t) : t.1.released = s.1.released :=
  (congrArg Operator.released h.operator :)

theorem Idles.failure (h : Idles s t) : t.1.failure? = s.1.failure? :=
  (congrArg Operator.failure? h.operator :)

theorem Idles.rests (h : Idles s t) : Rests s t :=
  ⟨h.input.2.2, (congrArg Operator.order? h.operator :), .inl (congrArg Operator.pending? h.operator :)⟩

theorem Idles.unfailed (h : Idles s t) (hs : Unfailed T s) : Unfailed T t where
  name := (congrArg Operator.name h.operator :).trans hs.name
  meets := by
    have hmake : t.1.makeOrder = s.1.makeOrder := (congrArg makeOrder h.operator :)
    exact ⟨hs.meets.own, fun q hq => hs.meets.input q (h.input.1 ▸ hq),
      fun schema keys cause hc => hs.meets.order schema keys cause (hmake ▸ hc)⟩
  failure := h.failure.trans hs.failure
  kills := by rw [h.input.2.1, h.released, hs.kills]
  error := h.calm.error.trans hs.error

theorem Idles.merging (h : Idles s t) (hs : s.1.Merging) : t.1.Merging where
  stage := h.stage ▸ hs.stage
  pending := (congrArg Operator.pending? h.operator :).trans hs.pending
  order := by rw [h.rests.order]; exact hs.order

theorem Idles.goes (h : Idles s t) (hs : Open T s) : Open T t :=
  ⟨h.unfailed hs.toUnfailed, h.released.trans hs.released,
    hs.stage.imp h.stage.trans h.merging⟩

theorem Idles.quit (h : Idles s t) (hs : Quit T s) : Quit T t :=
  ⟨h.unfailed hs.toUnfailed, h.stage.trans hs.stage⟩

theorem Idles.faulty (h : Idles s t) (hs : Faulty T f s) : Faulty T f t where
  failure := h.failure.trans hs.failure
  kills := by rw [h.input.2.1, h.released, hs.kills]
  error := h.calm.error.trans hs.error
  pending := (congrArg Operator.pending? h.operator :).trans hs.pending
  stage := by rw [h.stage, h.released]; exact hs.stage

theorem Unfailed.advances (h : Unfailed T s) (ht : Advances s t) : Unfailed T t where
  name := ht.name.trans h.name
  meets := ht.meets h.meets
  failure := ht.failure.trans h.failure
  kills := by rw [ht.kills, ht.released, h.kills]
  error := ht.calm.error.trans h.error

theorem Unfailed.fail (h : Unfailed T s) (cause : Failure) : Ensures (fail cause)
    (fun f t => f = cause.withOperator T.name s.1.rowsProcessed ∧ Faulty T f t ∧
      t.1.stage = .failed ∧ t.1.input = s.1.input ∧ (s.2.cancel.raised → t.2.cancel.raised)) s := by
  refine (fail_gives cause).mono fun f t ht => ?_
  obtain ⟨rfl, hop, herror, hraised⟩ := ht
  obtain ⟨op, w⟩ := t
  obtain rfl : op = _ := hop
  refine ⟨?_, ⟨rfl, h.kills, by rw [herror, h.error], rfl, .inl rfl⟩, rfl, rfl, hraised⟩
  rw [h.name]

/-- The first release kills the input, which was not killed before. -/
theorem kills_release (h : op.input.kills = op.released.toNat) (hr : ¬op.released) :
    op.input.kill.kills = 1 := by
  show op.input.kills + 1 = 1
  rw [h, Bool.eq_false_iff.mpr hr]
  rfl

/-- The first release ends the sort. -/
theorem Unfailed.release (h : Unfailed T s) (hr : ¬s.1.released) : Ensures releaseOnCancel
    (fun _ t => Calm s.2 t.2 ∧ Quit T t ∧ Rests s t ∧ t.1.pending? = none) s := by
  refine releaseOnCancel_gives.mono fun _ t ht => ?_
  obtain ⟨hcalm, hop⟩ := ht
  rw [if_neg hr] at hop
  obtain ⟨op, w⟩ := t
  obtain rfl : op = _ := hop
  exact ⟨hcalm, ⟨⟨h.name, ⟨h.meets.own, h.meets.input, h.meets.order⟩, h.failure,
    kills_release h.kills hr, hcalm.error.trans h.error⟩, rfl⟩, ⟨rfl, rfl, .inr rfl⟩, rfl⟩

/-- A look at the cancel flag finds it as it is from then on. -/
theorem cancelled_gives : Ensures Workspace.cancelled (fun b v => b = v.cancel.raised ∧ Calm w v) w := by
  refine (Workspace.cancelled_moves.and ?_).mono fun b v hv => ⟨hv.2, hv.1⟩
  show w.cancel.look.1 = w.cancel.look.2.raised
  unfold CancelFlag.look
  split
  · rfl
  · rfl
  · next hr _ => exact hr.symm
  · next hr _ => exact hr.symm

theorem Open.rank_le (h : Open T s) : s.1.stage.rank ≤ 2 := by
  rcases h.stage with hs | hm
  · rw [hs]
    exact Nat.zero_le 2
  · exact (Stage.rank_of_merges hm.stage).le

theorem Open.leads_done (h : Open T s) (ht : t.1.stage = .done) : s.1.stage.Leads t.1.stage :=
  .of_lt (h.rank_le.trans_lt (ht ▸ (by decide : 2 < Stage.rank .done)))

theorem Open.leads_failed (h : Open T s) (ht : t.1.stage = .failed) : s.1.stage.Leads t.1.stage :=
  .of_lt (h.rank_le.trans_lt (ht ▸ (by decide : 2 < Stage.rank .failed)))

/-- What a pull of an open sort answers, and what it leaves. -/
inductive Answers (T : Setting) :
    Except Failure Poll → Operator × Workspace → Prop where
  | output {poll : Poll} {t : Operator × Workspace} :
    poll.output?.isSome → t.1.Merging → Open T t → Answers T (.ok poll) t
  | quit {poll : Poll} {t : Operator × Workspace} :
    poll.output? = none → t.1.pending? = none → Quit T t → Answers T (.ok poll) t
  | failed {cause : Failure} {rows : Nat} {t : Operator × Workspace} :
    T.kind cause → cause.isCancelled = false → Faulty T (cause.withOperator T.name rows) t →
    t.1.stage = .failed → Answers T (.error (cause.withOperator T.name rows)) t

theorem Open.next (h : Open T s) : Ensures next
    (fun r t => Answers T r t ∧ s.1.stage.Leads t.1.stage ∧
      (s.2.cancel.raised → t.2.cancel.raised)) s := by
  have hstopped : ∀ {t : Operator × Workspace}, Advances s t → Ensures releaseOnCancel
      (fun _ u => Answers T (.ok .stopped) u ∧ s.1.stage.Leads u.1.stage ∧
        (s.2.cancel.raised → u.2.cancel.raised)) t := by
    intro t ht
    have hreleased : ¬t.1.released := Bool.eq_false_iff.mp (ht.released.trans h.released)
    refine ((h.toUnfailed.advances ht).release hreleased).mono fun _ u hu => ?_
    obtain ⟨hcalm, hquit, -, hp⟩ := hu
    exact ⟨.quit rfl hp hquit, h.leads_done hquit.stage, fun hr => hcalm.raised (ht.calm.raised hr)⟩
  refine ensures_next (fun e he => absurd (h.failure.symm.trans he) nofun) fun _ => ?_
  refine cancelled_gives.mono fun b w hw => ?_
  have hlook : Advances s (s.1, w) := (Stays.of_bare rfl hw.2).toAdvances
  split
  · exact hstopped hlook
  · refine Gives.mono (Brings.behind hlook (step_advances (hlook.meets h.meets) h.stage))
      (fun poll t ht => ?_) fun cause t ht => ?_
    · obtain ⟨ht, hleaves⟩ := ht
      have hunfailed := h.toUnfailed.advances ht
      unfold Leaves at hleaves
      split at hleaves
      · next hsome =>
        obtain ⟨hm, hleads⟩ := hleaves
        exact ⟨.output hsome hm ⟨hunfailed, ht.released.trans h.released, .inr hm⟩, hleads,
          ht.calm.raised⟩
      · next hnone =>
        obtain ⟨hp, hdone⟩ := hleaves
        exact ⟨.quit (Option.not_isSome_iff_eq_none.mp hnone) hp ⟨hunfailed, hdone⟩,
          h.leads_done hdone, ht.calm.raised⟩
    · obtain ⟨ht, hp⟩ := ht
      split
      · exact hstopped ht
      · next hcancelled =>
        refine ((h.toUnfailed.advances ht).fail cause).mono fun f u hu => ?_
        obtain ⟨rfl, hfaulty, hstage, -, hraised⟩ := hu
        exact ⟨.failed hp (Bool.eq_false_iff.mpr hcancelled) hfaulty hstage, h.leads_failed hstage,
          fun hr => hraised (ht.calm.raised hr)⟩

theorem Quit.release (h : Quit T s) :
    Ensures releaseOnCancel (fun _ t => Calm s.2 t.2 ∧ Quit T t ∧ Rests s t) s := by
  by_cases hr : s.1.released
  · refine releaseOnCancel_gives.mono fun _ t ht => ?_
    obtain ⟨hcalm, hop⟩ := ht
    rw [if_pos hr] at hop
    obtain ⟨op, w⟩ := t
    obtain rfl : op = _ := hop
    have hidle := Idles.of_calm hcalm
    exact ⟨hcalm, hidle.quit h, hidle.rests⟩
  · exact (h.toUnfailed.release hr).mono fun _ t ht => ⟨ht.1, ht.2.1, ht.2.2.1⟩

/-- Pulls of a sort that has quit find it stopped if the flag is up, and done otherwise. -/
theorem Quit.next (h : Quit T s) : Ensures next
    (fun r t => r = .ok (if t.2.cancel.raised then .stopped else .done) ∧ Quit T t ∧ Rests s t ∧
      (s.2.cancel.raised → t.2.cancel.raised)) s := by
  refine ensures_next (fun e he => absurd (h.failure.symm.trans he) nofun) fun _ => ?_
  refine cancelled_gives.mono fun b w hw => ?_
  obtain ⟨rfl, hw⟩ := hw
  have hquit : Quit T (s.1, w) := (Idles.of_calm hw).quit h
  split
  · next hraised =>
    refine hquit.release.mono fun _ t ht => ?_
    obtain ⟨hcalm, ht, hrests⟩ := ht
    rw [if_pos (hcalm.raised hraised)]
    exact ⟨rfl, ht, ⟨hrests.pulls, hrests.order, hrests.pending⟩, fun _ => hcalm.raised hraised⟩
  · next hraised =>
    refine (step_done hquit.stage).mono (fun poll t ht => ?_) fun _ _ hf => hf.elim
    obtain ⟨rfl, rfl⟩ := ht
    rw [if_neg hraised]
    exact ⟨rfl, hquit, ⟨rfl, rfl, .inl rfl⟩, hw.raised⟩

/-- A failed sort repeats its failure. -/
theorem Faulty.next (h : Faulty T f s) :
    Ensures next (fun r t => r = .error f.replay.replay ∧ t = s) s := by
  refine ensures_next (fun e he => ⟨?_, rfl⟩) fun hnone => absurd (h.failure.symm.trans hnone) nofun
  rw [Option.some.inj (he.symm.trans h.failure)]

/-- A release changes a failed sort only if it is the first one. -/
theorem Faulty.release (h : Faulty T f s) : Ensures releaseOnCancel
    (fun _ t => Calm s.2 t.2 ∧ Faulty T f t ∧ Rests s t ∧ t.1.released ∧
      (t.1.stage = .failed ↔ s.1.stage = .failed ∧ s.1.released)) s := by
  refine releaseOnCancel_gives.mono fun _ t ht => ?_
  obtain ⟨hcalm, hop⟩ := ht
  refine ⟨hcalm, ?_⟩
  obtain ⟨op, w⟩ := t
  split at hop
  · next hr =>
    obtain rfl : op = _ := hop
    have hidle := Idles.of_calm hcalm
    exact ⟨hidle.faulty h, hidle.rests, hr, (and_iff_left hr).symm⟩
  · next hr =>
    obtain rfl : op = _ := hop
    exact ⟨⟨h.failure, kills_release h.kills hr, hcalm.error.trans h.error, rfl, .inr ⟨rfl, rfl⟩⟩,
      ⟨rfl, rfl, .inr rfl⟩, rfl, nofun, fun hf => absurd hf.2 hr⟩

/-! ## Killing and closing -/

/-- A kill is a release with the flag up. -/
theorem kill_gives {Q : Operator × Workspace → Prop}
    (h : Ensures releaseOnCancel (fun _ t => Calm { s.2 with cancel := { raised := true } } t.2 ∧ Q t)
      (s.1, { s.2 with cancel := { raised := true } })) :
    Ensures kill (fun _ t => t.2.cancel.raised ∧ Q t) s := by
  have hup : Ensures releaseOnCancel (fun _ t => t.2.cancel.raised ∧ Q t)
      (s.1, { s.2 with cancel := { raised := true } }) :=
    h.mono fun _ t ht => ⟨ht.1.raised rfl, ht.2⟩
  unfold kill
  rw [Ensures.bind_iff]
  exact hup

theorem Open.kill (h : Open T s) :
    Ensures kill (fun _ t => t.2.cancel.raised ∧ Quit T t ∧ t.1.pending? = none) s := by
  have hup : Advances s (s.1, { s.2 with cancel := { raised := true } }) :=
    (Stays.of_bare rfl Workspace.raiseCancel_moves).toAdvances
  refine kill_gives (((h.toUnfailed.advances hup).release (Bool.eq_false_iff.mp h.released)).mono ?_)
  exact fun _ t ht => ⟨ht.1, ht.2.1, ht.2.2.2⟩

theorem Quit.kill (h : Quit T s) :
    Ensures kill (fun _ t => t.2.cancel.raised ∧ Quit T t ∧ Rests s t) s := by
  have hup : Quit T (s.1, { s.2 with cancel := { raised := true } }) :=
    (Idles.of_calm Workspace.raiseCancel_moves).quit h
  exact kill_gives (hup.release.mono fun _ t ht =>
    ⟨ht.1, ht.2.1, ht.2.2.pulls, ht.2.2.order, ht.2.2.pending⟩)

theorem Faulty.kill (h : Faulty T f s) : Ensures kill
    (fun _ t => t.2.cancel.raised ∧ Faulty T f t ∧ Rests s t ∧ t.1.released ∧
      (t.1.stage = .failed ↔ s.1.stage = .failed ∧ s.1.released)) s := by
  have hup : Faulty T f (s.1, { s.2 with cancel := { raised := true } }) :=
    (Idles.of_calm Workspace.raiseCancel_moves).faulty h
  refine kill_gives (hup.release.mono fun _ t ht => ?_)
  obtain ⟨hcalm, hfaulty, hrests, hreleased, hstage⟩ := ht
  exact ⟨hcalm, hfaulty, ⟨hrests.pulls, hrests.order, hrests.pending⟩, hreleased, hstage⟩

theorem Unfailed.close (h : Unfailed T s) (hs : s.1.stage ≠ .failed) : Ensures close
    (fun _ t => Calm s.2 t.2 ∧ Quit T t ∧ Rests s t ∧ t.1.pending? = none) s := by
  refine close_gives.mono fun _ t ht => ?_
  obtain ⟨hcalm, hop⟩ := ht
  obtain ⟨op, w⟩ := t
  obtain rfl : op = _ := hop
  refine ⟨hcalm, ⟨⟨h.name, ⟨h.meets.own, h.meets.input, h.meets.order⟩, h.failure, h.kills,
    hcalm.error.trans h.error⟩, ?_⟩, ⟨rfl, rfl, .inr rfl⟩, rfl⟩
  show s.1.stage.closed = .done
  unfold Stage.closed
  split
  · exact absurd ‹_› hs
  · rfl

theorem Faulty.close (h : Faulty T f s) : Ensures close
    (fun _ t => Calm s.2 t.2 ∧ Faulty T f t ∧ Rests s t ∧ t.1.stage = s.1.stage ∧
      t.1.released = s.1.released) s := by
  refine close_gives.mono fun _ t ht => ?_
  obtain ⟨hcalm, hop⟩ := ht
  obtain ⟨op, w⟩ := t
  obtain rfl : op = _ := hop
  have hstage : s.1.stage.closed = s.1.stage := by
    rcases h.stage with hs | ⟨hs, -⟩
    · rw [hs]
      rfl
    · rw [hs]
      rfl
  rw [hstage]
  exact ⟨hcalm, ⟨h.failure, h.kills, hcalm.error.trans h.error, rfl, h.stage⟩, ⟨rfl, rfl, .inr rfl⟩,
    rfl, rfl⟩

/-! ## Looking at the schema -/

/-- Whether the schema is known or an event waits, so that nothing is pulled to learn the schema. -/
def Primed (op : Operator) : Prop := op.order?.isSome ∨ op.pending?.isSome

/-- The failure of learning the schema from the next event, if it fails. -/
def primeFailure? (op : Operator) : Option Failure :=
  match op.input.next.1.outcome with
  | .error e => some e
  | .ok .notYet => some notYetFailure
  | .ok (.batch chunk) =>
    match op.makeOrder chunk.batch.schema op.options.keys with
    | .error e => some e
    | .ok _ => none
  | .ok _ => none

theorem kind_of_primeFailure {cause : Failure} (h : op.primeFailure? = some cause)
    (hop : op.Meets T.kind) : T.kind cause := by
  unfold primeFailure? at h
  split at h
  · next e he =>
    obtain rfl := Option.some.inj h
    exact hop.input _ (Input.next_mem he) _ he
  · obtain rfl := Option.some.inj h
    exact hop.own _ trivial
  · split at h
    · next e he =>
      obtain rfl := Option.some.inj h
      exact hop.order _ _ _ he
    · cases h
  · cases h

/-- What priming does to an operator: one pull, and an order or an event that waits. -/
structure Primes (s t : Operator × Workspace) : Prop where
  frame : t.1.frame = s.1.frame
  input : t.1.input = s.1.input.next.2
  calm : Calm s.2 t.2

theorem Primes.unfailed (h : Primes s t) (hs : Unfailed T s) : Unfailed T t where
  name := (congrArg Operator.name h.frame :).trans hs.name
  meets := by
    have hmake : t.1.makeOrder = s.1.makeOrder := (congrArg makeOrder h.frame :)
    have hrest : t.1.input.script ⊆ s.1.input.script := by
      rw [h.input, s.1.input.next_script]
      exact (List.drop_suffix 1 _).subset
    exact ⟨hs.meets.own, fun q hq => hs.meets.input q (hrest hq),
      fun schema keys cause hc => hs.meets.order schema keys cause (hmake ▸ hc)⟩
  failure := (congrArg failure? h.frame :).trans hs.failure
  kills := by
    rw [h.input, Input.next_kills, show t.1.released = s.1.released from (congrArg released h.frame :)]
    exact hs.kills
  error := h.calm.error.trans hs.error

theorem prime_gives (ho : s.1.order? = none) :
    Gives prime (fun _ t => Primes s t ∧ s.1.primeFailure? = none)
      (fun cause t => Primes s t ∧ s.1.primeFailure? = some cause) s := by
  refine gives_prime (pull_gives.mono (fun ev t ht => ?_) fun cause t ht => ?_)
  · obtain ⟨hop, hcalm, hout⟩ := ht
    obtain ⟨op, w⟩ := t
    obtain rfl : op = _ := hop
    unfold primeFailure?
    rw [hout]
    cases ev with
    | notYet => exact ⟨⟨rfl, rfl, hcalm⟩, rfl⟩
    | endOfInput => exact ⟨⟨rfl, rfl, hcalm⟩, rfl⟩
    | stop => exact ⟨⟨rfl, rfl, hcalm⟩, rfl⟩
    | batch chunk =>
      have hprimes : ∀ {t : Operator × Workspace},
          t.1.unordered = ({ s.1 with input := s.1.input.next.2 } : Operator).unordered → Calm w t.2 →
          Primes s t := fun hu ht =>
        ⟨(frame_of_shell (shell_of_unordered hu) :), (congrArg Operator.input hu :),
          trans_of Calm hcalm ht⟩
      refine (orderFor_gives chunk.batch.schema).mono (fun order t ht => ?_) fun cause t ht => ?_
      · obtain ⟨hu, -, hw, hmade⟩ := ht
        obtain ⟨order, hmade⟩ := hmade ho
        have hmade : s.1.makeOrder chunk.batch.schema s.1.options.keys = .ok order := hmade
        have h := hprimes hu hw
        exact ⟨⟨h.frame, h.input, h.calm⟩, by simp only [hmade]⟩
      · obtain ⟨hu, -, hw, hcause⟩ := ht
        refine (Workspace.onLedger_moves (r := Calm) _).mono fun _ v hv => ?_
        have h := hprimes (t := (t.1, v)) hu (trans_of Calm hw hv)
        refine ⟨h, ?_⟩
        rcases hcause with ⟨hsome, -⟩ | hmade
        · rw [show ({ s.1 with input := s.1.input.next.2 } : Operator).order? = none from ho] at hsome
          cases hsome
        · have hmade : s.1.makeOrder chunk.batch.schema s.1.options.keys = .error cause := hmade
          simp only [hmade]
  · obtain ⟨hop, hcalm, hout⟩ := ht
    obtain ⟨op, w⟩ := t
    obtain rfl : op = _ := hop
    refine ⟨⟨rfl, rfl, hcalm⟩, ?_⟩
    rw [primeFailure?, hout]

/-- What a look at the schema of a sort that has not failed answers, and what it leaves. -/
inductive Looks (T : Setting) (s : Operator × Workspace) :
    Except Failure (Option Schema) → Operator × Workspace → Prop where
  | known {schema : Option Schema} : s.1.Primed → Looks T s (.ok schema) s
  | learnt {schema : Option Schema} {t : Operator × Workspace} :
    ¬s.1.Primed → s.1.primeFailure? = none → Primes s t → Looks T s (.ok schema) t
  | failed {cause : Failure} {rows : Nat} {t : Operator × Workspace} :
    ¬s.1.Primed → s.1.primeFailure? = some cause → t.1.input = s.1.input.next.2 →
    (s.2.cancel.raised → t.2.cancel.raised) → Faulty T (cause.withOperator T.name rows) t →
    t.1.stage = .failed → Looks T s (.error (cause.withOperator T.name rows)) t

theorem Unfailed.buildSchema (h : Unfailed T s) : Ensures buildSchema (Looks T s) s := by
  refine ensures_buildSchema (fun e he => absurd (h.failure.symm.trans he) nofun)
    (fun _ hprimed => .known hprimed) fun _ ho hp => ?_
  have hnot : ¬s.1.Primed := by
    rintro (hsome | hsome)
    · rw [ho] at hsome
      cases hsome
    · rw [hp] at hsome
      cases hsome
  refine (prime_gives ho).mono (fun schema t ht => .learnt hnot ht.2 ht.1) fun cause t ht => ?_
  obtain ⟨ht, hcause⟩ := ht
  refine ((ht.unfailed h).fail cause).mono fun f u hu => ?_
  obtain ⟨rfl, hfaulty, hstage, hinput, hraised⟩ := hu
  exact .failed hnot hcause (hinput.trans ht.input) (fun hr => hraised (ht.calm.raised hr)) hfaulty
    hstage

theorem Faulty.buildSchema (h : Faulty T f s) :
    Ensures buildSchema (fun r t => r = .error f.replay.replay ∧ t = s) s := by
  refine ensures_buildSchema (fun e he => ⟨?_, rfl⟩)
    (fun hnone => absurd (h.failure.symm.trans hnone) nofun)
    fun hnone => absurd (h.failure.symm.trans hnone) nofun
  rw [Option.some.inj (he.symm.trans h.failure)]

end Operator

end SpillSort
