import SpillSort.Proofs.Phases

/-!
# Calls and phases

What each call makes of the phase of a sort, and what it answers.

* `Session.perform_open`, `Session.perform_quit` and `Session.perform_faulty` are one call in each of
  the phases.
* `Session.Phase` is kept by all calls; `Session.Phase.raised` follows the cancel flag.
-/

namespace SpillSort

open Workspace (Calm)

variable {T : Setting} {f : Failure}

/-! ## Replies -/

/-- The failure of a pull. -/
def failureOf? : Except Failure Poll → Option Failure
  | .error f => some f
  | .ok _ => none

theorem filterMap_failureOf? {ps : List (Except Failure Poll)} (h : ∀ q ∈ ps, (outputOf? q).isSome) :
    ps.filterMap failureOf? = [] := by
  refine List.filterMap_eq_nil_iff.mpr fun q hq => ?_
  cases q with
  | ok poll => rfl
  | error f => exact absurd (h _ hq) nofun

/-- The failures a call answers with. -/
def Reply.failures (r : Reply) : List Failure :=
  r.pulls.filterMap failureOf? ++ r.schemaFailure?.toList

/-- A call that does not find the sort over has not failed. -/
theorem Reply.failures_of_not_final {r : Reply} (h : ¬r.Final) : r.failures = [] := by
  simp only [Final, not_or, not_exists, not_and, Option.not_isSome_iff_eq_none] at h
  rw [failures, h.2, filterMap_failureOf? fun q hq => Option.isSome_iff_ne_none.mpr (h.1 q hq)]
  rfl

/-- What a call answers if it only finds that the sort has failed. -/
def Call.failing (g : Failure) : Call → Reply
  | .buildSchema => .schema (.error g)
  | .next _ => .poll (.error g)
  | .drain => .polls [.error g]
  | _ => .nothing

theorem Call.eq_of_mem_failing {c : Call} {e g : Failure} (h : e ∈ (c.failing g).failures) :
    e = g := by
  cases c with
  | buildSchema => exact List.mem_singleton.mp h
  | next => exact List.mem_singleton.mp h
  | drain => exact List.mem_singleton.mp h
  | _ => cases h

theorem Call.outputs_failing (c : Call) (g : Failure) : (c.failing g).outputs = [] := by
  cases c <;> rfl

/-- Whether a call does not ask the sort for anything. -/
def Call.Idle : Call → Prop
  | .letGo | .cancel | .pressure | .memory _ | .disk _ => True
  | _ => False

namespace Operator

variable {s t : Operator × Workspace}

/-- An answer to a pull stays right if nothing else happens. -/
theorem Answers.idle {r : Except Failure Poll} (h : Answers T r s)
    (ht : Idles s t) : Answers T r t := by
  cases h with
  | output hsome hm hgoes => exact .output hsome (ht.merging hm) (ht.goes hgoes)
  | quit hnone hp hquit =>
    exact .quit hnone ((congrArg Operator.pending? ht.operator :).trans hp) (ht.quit hquit)
  | failed hp hc hfaulty hstage =>
    exact .failed hp hc (ht.faulty hfaulty) (ht.stage.trans hstage)

/-- An output comes from an open sort in its final merge. -/
theorem Answers.of_output {q : Except Failure Poll} {u : Operator × Workspace} (h : Answers T q u)
    (hq : (outputOf? q).isSome) : u.1.Merging ∧ Open T u := by
  cases h with
  | output _ hm hgoes => exact ⟨hm, hgoes⟩
  | quit hnone => exact absurd hq (by simp [outputOf?, Except.toOption, hnone])
  | failed => cases hq

/-- An open sort stays open while it learns its schema: it cannot be in its final merge yet. -/
theorem Primes.goes (h : Primes s t) (hnot : ¬s.1.Primed) (hs : Open T s) : Open T t := by
  refine ⟨h.unfailed hs.toUnfailed, (congrArg Operator.released h.frame :).trans hs.released, ?_⟩
  refine .inl ((congrArg Operator.stage h.frame :).trans (hs.stage.resolve_right fun hm => ?_))
  exact hnot (.inl hm.order)

theorem Primes.stage (h : Primes s t) : t.1.stage = s.1.stage := (congrArg Operator.stage h.frame :)

theorem Open.ne_failed (h : Open T s) : s.1.stage ≠ .failed := by
  intro hfailed
  rcases h.stage with hs | hm
  · rw [hs] at hfailed
    cases hfailed
  · have hmerges := hm.stage
    rw [hfailed] at hmerges
    exact hmerges

end Operator

namespace Session

open Operator (Open Quit Faulty Idles Rests Answers)

variable {s t : Session} {c : Call}

/-! ## Calls that ask for nothing -/

theorem perform_idle (hc : c.Idle) (s : Session) :
    (s.perform c).1 = .nothing ∧ Idles s.state (s.perform c).2.state := by
  cases c with
  | letGo =>
    refine ⟨rfl, ?_⟩
    rw [perform_letGo]
    exact Idles.of_calm (s := s.state) (Output.forM_drop_moves (w := s.workspace) s.held)
  | cancel => exact ⟨rfl, .of_calm Workspace.raiseCancel_moves⟩
  | pressure => exact ⟨rfl, rfl, refl_of Calm s.workspace⟩
  | memory f => exact ⟨rfl, .of_calm (Workspace.onLedger_moves (w := s.workspace) (·.onForest f))⟩
  | disk f => exact ⟨rfl, rfl, rfl, id⟩
  | _ => exact hc.elim

/-- What a pull of the operator leads to, a pull of its session leads to, too: the consumer does with
the output what he likes. -/
theorem next_gives {Q : Except Failure Poll → Operator × Workspace → Prop}
    (h : Ensures Operator.next Q s.state) (hQ : ∀ {r u v}, Q r u → Idles u v → Q r v) (keep : Bool) :
    Q (s.next keep).1 (s.next keep).2.state := by
  have hnext : Q (s.act Operator.next).1 (s.act Operator.next).2.state := h
  unfold Session.next
  generalize s.act Operator.next = a at hnext
  obtain ⟨r, t⟩ := a
  dsimp only
  split
  · exact hnext
  · next o _ =>
    split
    · exact hnext
    · exact hQ hnext (.of_calm (s := t.state) (o.drop_moves (w := t.workspace)))

/-! ## Open sorts -/

/-- What pulls of an open sort answer one after the other, and what they leave. -/
inductive Pulled (T : Setting) : List (Except Failure Poll) → Session → Prop where
  | goes {ps : List (Except Failure Poll)} {t : Session} : (∀ q ∈ ps, (outputOf? q).isSome) →
    t.operator.Merging → Open T t.state → Pulled T ps t
  | quits {ps : List (Except Failure Poll)} {poll : Poll} {t : Session} :
    (∀ q ∈ ps, (outputOf? q).isSome) → poll.output? = none → t.operator.pending? = none →
    Quit T t.state → Pulled T (ps ++ [.ok poll]) t
  | fails {ps : List (Except Failure Poll)} {cause : Failure} {rows : Nat} {t : Session} :
    (∀ q ∈ ps, (outputOf? q).isSome) → T.kind cause → cause.isCancelled = false →
    Faulty T (cause.withOperator T.name rows) t.state → t.operator.stage = .failed →
    Pulled T (ps ++ [.error (cause.withOperator T.name rows)]) t

theorem Pulled.cons {q : Except Failure Poll} {ps : List (Except Failure Poll)}
    (hq : (outputOf? q).isSome) (h : Pulled T ps t) : Pulled T (q :: ps) t := by
  have hcons : ∀ {qs : List (Except Failure Poll)}, (∀ r ∈ qs, (outputOf? r).isSome) →
      ∀ r ∈ q :: qs, (outputOf? r).isSome := fun hqs => List.forall_mem_cons.mpr ⟨hq, hqs⟩
  cases h with
  | goes hps hm hgoes => exact .goes (hcons hps) hm hgoes
  | quits hps hnone hp hquit => exact .quits (hcons hps) hnone hp hquit
  | fails hps hp hc hfaulty hstage => exact .fails (hcons hps) hp hc hfaulty hstage

theorem Pulled.single {q : Except Failure Poll} (h : Answers T q t.state) : Pulled T [q] t := by
  generalize hu : t.state = u at h
  cases h with
  | output hsome hm hgoes =>
    subst hu
    exact .goes (List.forall_mem_singleton.mpr hsome) hm hgoes
  | quit hnone hp hquit =>
    subst hu
    exact Pulled.quits (List.forall_mem_nil _) hnone hp hquit
  | failed hp hc hfaulty hstage =>
    subst hu
    exact Pulled.fails (List.forall_mem_nil _) hp hc hfaulty hstage

theorem next_open (h : Open T s.state) (keep : Bool) :
    Answers T (s.next keep).1 (s.next keep).2.state ∧
      s.operator.stage.Leads (s.next keep).2.operator.stage ∧
      (s.workspace.cancel.raised → (s.next keep).2.workspace.cancel.raised) := by
  refine next_gives h.next (fun hr hv => ?_) keep
  obtain ⟨hanswers, hleads, hraised⟩ := hr
  exact ⟨hanswers.idle hv, hleads.trans (.of_eq hv.stage), fun hr => hv.calm.raised (hraised hr)⟩

/-- The pulls of an open sort: outputs first, and then at most one answer without an output. -/
theorem pulls_open (count : Nat) (found : List (Except Failure Poll)) (h : Open T s.state)
    (hcount : count = 0 → s.operator.Merging) :
    (s.workspace.cancel.raised → (s.pulls count found).2.workspace.cancel.raised) ∧
      s.operator.stage.Leads (s.pulls count found).2.operator.stage ∧
      ∃ ps, (s.pulls count found).1 = found.reverse ++ ps ∧ Pulled T ps (s.pulls count found).2 := by
  induction count generalizing s found with
  | zero => exact ⟨id, .rfl, [], (List.append_nil _).symm, .goes nofun (hcount rfl) h⟩
  | succ count ih =>
    obtain ⟨hanswers, hleads, hraised⟩ := next_open h false
    rw [pulls_succ]
    split
    · next hsome =>
      obtain ⟨hm, hgoes⟩ := hanswers.of_output hsome
      obtain ⟨hraised', hleads', ps, hps, hpulled⟩ := ih ((s.next false).1 :: found) hgoes fun _ => hm
      refine ⟨fun hr => hraised' (hraised hr), hleads.trans hleads', (s.next false).1 :: ps, ?_,
        hpulled.cons hsome⟩
      rw [hps, List.reverse_cons, List.append_assoc]
      rfl
    · exact ⟨hraised, hleads, [(s.next false).1], List.reverse_cons, .single hanswers⟩

/-- Why a call makes a sort fail: a pull never fails by a cancellation, a look at the schema fails by
whatever came up on the way to it. -/
inductive FailsBy (T : Setting) (s : Session) : Call → Failure → Prop where
  | pull {c : Call} {cause : Failure} :
    T.kind cause → cause.isCancelled = false → FailsBy T s c cause
  | schema {cause : Failure} :
    T.kind cause → ¬s.operator.Primed → s.operator.primeFailure? = some cause →
    FailsBy T s .buildSchema cause

/-- What a call makes of an open sort, and what it answers. -/
inductive OpenTurn (T : Setting) (s : Session) (c : Call) : Reply → Session → Prop where
  | goes {r : Reply} {t : Session} : ¬c.Ends → ¬r.Final →
    s.operator.stage.Leads t.operator.stage → Open T t.state → OpenTurn T s c r t
  | quits {r : Reply} {t : Session} : c.Ends ∨ r.Final → r.failures = [] →
    t.operator.pending? = none → Quit T t.state → OpenTurn T s c r t
  | fails {r : Reply} {t : Session} {cause : Failure} {rows : Nat} :
    r.failures = [cause.withOperator T.name rows] → FailsBy T s c cause →
    Faulty T (cause.withOperator T.name rows) t.state → t.operator.stage = .failed →
    OpenTurn T s c r t

theorem Pulled.turn {r : Reply} {ps : List (Except Failure Poll)} (hps : r.pulls = ps)
    (hschema : r.schemaFailure? = none) (hc : ¬c.Ends)
    (hleads : s.operator.stage.Leads t.operator.stage) (h : Pulled T ps t) : OpenTurn T s c r t := by
  have hfailures : r.failures = ps.filterMap failureOf? := by
    rw [Reply.failures, hps, hschema, Option.toList_none, List.append_nil]
  cases h with
  | goes hout hm hgoes =>
    refine .goes hc ?_ hleads hgoes
    rintro (⟨q, hq, hnone⟩ | hsome)
    · have hsome := hout q (hps ▸ hq)
      rw [hnone] at hsome
      cases hsome
    · rw [hschema] at hsome
      cases hsome
  | @quits qs poll _ hout hnone hp hquit =>
    refine .quits (.inr (.inl ⟨.ok poll, ?_, hnone⟩)) ?_ hp hquit
    · rw [hps]
      exact List.mem_append_right _ (List.mem_singleton.mpr rfl)
    · rw [hfailures, List.filterMap_append, filterMap_failureOf? hout]
      rfl
  | fails hout hp hcancelled hfaulty hstage =>
    refine .fails ?_ (.pull hp hcancelled) hfaulty hstage
    rw [hfailures, List.filterMap_append, filterMap_failureOf? hout]
    rfl

theorem not_final_schema (schema : Option Schema) : ¬(Reply.schema (.ok schema)).Final := by
  rintro (⟨q, hq, -⟩ | hsome)
  · cases hq
  · cases hsome

theorem perform_open (h : Open T s.state) (c : Call) :
    OpenTurn T s c (s.perform c).1 (s.perform c).2 ∧
      (s.workspace.cancel.raised → (s.perform c).2.workspace.cancel.raised) := by
  have hidle : ∀ c : Call, c.Idle → ¬c.Ends → OpenTurn T s c (s.perform c).1 (s.perform c).2 ∧
      (s.workspace.cancel.raised → (s.perform c).2.workspace.cancel.raised) := by
    intro c hc hends
    obtain ⟨hr, ht⟩ := perform_idle hc s
    refine ⟨.goes hends ?_ (.of_eq ht.stage) (ht.goes h), ht.calm.raised⟩
    rw [hr]
    rintro (⟨q, hq, -⟩ | hsome)
    · cases hq
    · cases hsome
  cases c with
  | buildSchema =>
    have hlooks := (act_spec h.toUnfailed.buildSchema).1
    show OpenTurn T s .buildSchema (.schema (s.act Operator.buildSchema).1)
      (s.act Operator.buildSchema).2 ∧ (_ → (s.act Operator.buildSchema).2.workspace.cancel.raised)
    generalize s.act Operator.buildSchema = a at hlooks
    obtain ⟨r, t⟩ := a
    generalize hu : t.state = u at hlooks
    cases hlooks with
    | known =>
      have hop : t.operator = s.operator := (congrArg Prod.fst hu :)
      have hw : t.workspace = s.workspace := (congrArg Prod.snd hu :)
      exact ⟨.goes id (not_final_schema _) (hop ▸ .rfl) (hu ▸ h), hw ▸ id⟩
    | learnt hnot _ ht =>
      subst hu
      exact ⟨.goes id (not_final_schema _) (.of_eq ht.stage) (ht.goes hnot h), ht.calm.raised⟩
    | failed hnot hcause hinput hraised hfaulty hstage =>
      subst hu
      have hkind := Operator.kind_of_primeFailure hcause h.meets
      exact ⟨.fails rfl (.schema hkind hnot hcause) hfaulty hstage, hraised⟩
  | next keep =>
    obtain ⟨hanswers, hleads, hraised⟩ := next_open h keep
    exact ⟨(Pulled.single hanswers).turn rfl rfl id hleads, hraised⟩
  | drain =>
    obtain ⟨hraised, hleads, ps, hps, hpulled⟩ := pulls_open (s.rowsLeft + 1) [] h nofun
    exact ⟨hpulled.turn hps rfl id hleads, hraised⟩
  | kill =>
    obtain ⟨hup, hquit, hp⟩ := (act_spec h.kill).1
    exact ⟨.quits (.inl trivial) rfl hp hquit, fun _ => hup⟩
  | close =>
    obtain ⟨hcalm, hquit, -, hp⟩ := (act_spec (h.toUnfailed.close h.ne_failed)).1
    exact ⟨.quits (.inl trivial) rfl hp hquit, hcalm.raised⟩
  | letGo => exact hidle _ trivial id
  | cancel => exact hidle _ trivial id
  | pressure => exact hidle _ trivial id
  | memory f => exact hidle _ trivial id
  | disk f => exact hidle _ trivial id

/-! ## Sorts that have quit -/

/-- The answer of a drained or stopped sort: the flag decides between the two. -/
def restingPoll (t : Session) : Except Failure Poll :=
  .ok (if t.workspace.cancel.raised then .stopped else .done)

theorem outputOf?_restingPoll (t : Session) : outputOf? t.restingPoll = none := by
  unfold restingPoll
  split <;> rfl

/-- What a call makes of a sort that has quit, and what it answers. -/
inductive QuitTurn (T : Setting) (s : Session) : Call → Reply → Session → Prop where
  | rests {c : Call} {r : Reply} {t : Session} : (c = .buildSchema → s.operator.Primed) →
    (∀ q ∈ r.pulls, q = t.restingPoll) → r.failures = [] → Rests s.state t.state → Quit T t.state →
    QuitTurn T s c r t
  | learns {schema : Option Schema} {t : Session} : ¬s.operator.Primed →
    t.operator.input.pulls = s.operator.input.pulls + 1 → Quit T t.state →
    QuitTurn T s .buildSchema (.schema (.ok schema)) t
  | fails {cause : Failure} {rows : Nat} {t : Session} : ¬s.operator.Primed → T.kind cause →
    s.operator.primeFailure? = some cause → t.operator.input.pulls = s.operator.input.pulls + 1 →
    Faulty T (cause.withOperator T.name rows) t.state → t.operator.stage = .failed →
    QuitTurn T s .buildSchema (.schema (.error (cause.withOperator T.name rows))) t

theorem next_quit (h : Quit T s.state) (keep : Bool) :
    (s.next keep).1 = (s.next keep).2.restingPoll ∧ Quit T (s.next keep).2.state ∧
      Rests s.state (s.next keep).2.state ∧
      (s.workspace.cancel.raised → (s.next keep).2.workspace.cancel.raised) := by
  have hnext := (act_spec h.next).1
  rw [next_of_none]
  · exact hnext
  · rw [show (s.act Operator.next).1 = (s.act Operator.next).2.restingPoll from hnext.1]
    exact outputOf?_restingPoll _

/-- Calls that are answered with pulls find a sort that has quit at rest. -/
theorem QuitTurn.of_pulls {r : Reply} (hr : ∀ q ∈ r.pulls, q = t.restingPoll)
    (hschema : r.schemaFailure? = none) (hc : c ≠ .buildSchema) (hrests : Rests s.state t.state)
    (hquit : Quit T t.state) : QuitTurn T s c r t := by
  refine .rests (fun he => absurd he hc) hr ?_ hrests hquit
  rw [Reply.failures, hschema, Option.toList_none, List.append_nil, List.filterMap_eq_nil_iff]
  intro q hq
  rw [hr q hq]
  rfl

theorem perform_quit (h : Quit T s.state) (c : Call) :
    QuitTurn T s c (s.perform c).1 (s.perform c).2 ∧
      (s.workspace.cancel.raised → (s.perform c).2.workspace.cancel.raised) := by
  have hidle : ∀ c : Call, c.Idle → c ≠ .buildSchema → QuitTurn T s c (s.perform c).1 (s.perform c).2 ∧
      (s.workspace.cancel.raised → (s.perform c).2.workspace.cancel.raised) := by
    intro c hc hne
    obtain ⟨hr, ht⟩ := perform_idle hc s
    rw [hr]
    exact ⟨.of_pulls nofun rfl hne ht.rests (ht.quit h), ht.calm.raised⟩
  cases c with
  | buildSchema =>
    have hlooks := (act_spec h.toUnfailed.buildSchema).1
    show QuitTurn T s .buildSchema (.schema (s.act Operator.buildSchema).1)
      (s.act Operator.buildSchema).2 ∧ (_ → (s.act Operator.buildSchema).2.workspace.cancel.raised)
    generalize s.act Operator.buildSchema = a at hlooks
    obtain ⟨r, t⟩ := a
    generalize hu : t.state = u at hlooks
    cases hlooks with
    | known hprimed =>
      have hw : t.workspace = s.workspace := (congrArg Prod.snd hu :)
      refine ⟨.rests (fun _ => hprimed) nofun rfl ?_ (hu ▸ h), hw ▸ id⟩
      rw [hu]
      exact .rfl
    | learnt hnot _ ht =>
      subst hu
      refine ⟨.learns hnot ?_ ⟨ht.unfailed h.toUnfailed, ht.stage.trans h.stage⟩, ht.calm.raised⟩
      rw [← Input.pulls_next]
      exact congrArg Input.pulls ht.input
    | failed hnot hcause hinput hraised hfaulty hstage =>
      subst hu
      have hkind := Operator.kind_of_primeFailure hcause h.meets
      refine ⟨.fails hnot hkind hcause ?_ hfaulty hstage, hraised⟩
      rw [← Input.pulls_next]
      exact congrArg Input.pulls hinput
  | next keep =>
    obtain ⟨hr, hquit, hrests, hraised⟩ := next_quit h keep
    refine ⟨.of_pulls (fun q hq => ?_) rfl nofun hrests hquit, hraised⟩
    exact (List.mem_singleton.mp hq).trans hr
  | drain =>
    obtain ⟨hr, hquit, hrests, hraised⟩ := next_quit h false
    have hdrain : s.drain = ([(s.next false).1], (s.next false).2) :=
      drain_of_none (by rw [hr]; exact outputOf?_restingPoll _)
    show QuitTurn T s .drain (.polls s.drain.1) s.drain.2 ∧ (_ → s.drain.2.workspace.cancel.raised)
    rw [hdrain]
    refine ⟨.of_pulls (fun q hq => ?_) rfl nofun hrests hquit, hraised⟩
    exact (List.mem_singleton.mp hq).trans hr
  | kill =>
    obtain ⟨hup, hquit, hrests⟩ := (act_spec h.kill).1
    exact ⟨.of_pulls nofun rfl nofun hrests hquit, fun _ => hup⟩
  | close =>
    have hne : s.operator.stage ≠ .failed := by
      rw [show s.operator.stage = .done from h.stage]
      nofun
    obtain ⟨hcalm, hquit, hrests, -⟩ := (act_spec (h.toUnfailed.close hne)).1
    exact ⟨.of_pulls nofun rfl nofun hrests hquit, hcalm.raised⟩
  | letGo => exact hidle _ trivial nofun
  | cancel => exact hidle _ trivial nofun
  | pressure => exact hidle _ trivial nofun
  | memory f => exact hidle _ trivial nofun
  | disk f => exact hidle _ trivial nofun

/-! ## Sorts that have failed -/

theorem next_faulty (h : Faulty T f s.state) (keep : Bool) :
    s.next keep = (.error f.replay.replay, s) := by
  obtain ⟨⟨hr, ht⟩, hheld⟩ := act_spec h.next
  have hact : s.act Operator.next = (.error f.replay.replay, s) := by
    generalize s.act Operator.next = a at hr ht hheld
    obtain ⟨r, operator, workspace, held⟩ := a
    obtain ⟨rfl, rfl⟩ := Prod.mk.inj ht
    obtain rfl : held = s.held := hheld
    exact congrArg (·, s) hr
  rw [next_of_none, hact]
  rw [hact]
  rfl

/-- What a call makes of a failed sort, and what it answers: it repeats the failure, and only a kill
can touch the stage. -/
structure FaultyTurn (T : Setting) (f : Failure) (s : Session) (c : Call) (r : Reply) (t : Session) :
    Prop where
  reply : r = c.failing f.replay.replay
  faulty : Faulty T f t.state
  rests : Rests s.state t.state
  stage : t.operator.stage = .failed ↔
    s.operator.stage = .failed ∧ (c = .kill → s.operator.released)
  raised : s.workspace.cancel.raised → t.workspace.cancel.raised

theorem FaultyTurn.of_stage {r : Reply} (hr : r = c.failing f.replay.replay)
    (hfaulty : Faulty T f t.state) (hrests : Rests s.state t.state)
    (hstage : t.operator.stage = s.operator.stage) (hc : c ≠ .kill)
    (hraised : s.workspace.cancel.raised → t.workspace.cancel.raised) : FaultyTurn T f s c r t := by
  refine ⟨hr, hfaulty, hrests, ?_, hraised⟩
  rw [hstage]
  exact (and_iff_left fun he => absurd he hc).symm

theorem perform_faulty (h : Faulty T f s.state) (c : Call) :
    FaultyTurn T f s c (s.perform c).1 (s.perform c).2 := by
  have hidle : ∀ c : Call, c.Idle → c ≠ .kill → c.failing f.replay.replay = .nothing →
      FaultyTurn T f s c (s.perform c).1 (s.perform c).2 := by
    intro c hc hne hnothing
    obtain ⟨hr, ht⟩ := perform_idle hc s
    exact .of_stage (hr.trans hnothing.symm) (ht.faulty h) ht.rests ht.stage hne ht.calm.raised
  cases c with
  | buildSchema =>
    obtain ⟨hr, ht⟩ := (act_spec h.buildSchema).1
    have hop : (s.act Operator.buildSchema).2.operator = s.operator := (congrArg Prod.fst ht :)
    have hw : (s.act Operator.buildSchema).2.workspace = s.workspace := (congrArg Prod.snd ht :)
    refine .of_stage (congrArg Reply.schema hr) ?_ ?_ (congrArg Operator.stage hop) nofun
      fun hraised => ?_
    · exact ht ▸ h
    · exact ht ▸ .rfl
    · exact hw ▸ hraised
  | next keep =>
    show FaultyTurn T f s _ (.poll (s.next keep).1) (s.next keep).2
    rw [next_faulty h]
    exact .of_stage rfl h .rfl rfl nofun id
  | drain =>
    have hdrain : s.drain = ([.error f.replay.replay], s) := by
      rw [drain_of_none (by rw [next_faulty h]; rfl), next_faulty h]
    show FaultyTurn T f s _ (.polls s.drain.1) s.drain.2
    rw [hdrain]
    exact .of_stage rfl h .rfl rfl nofun id
  | kill =>
    obtain ⟨hup, hfaulty, hrests, -, hstage⟩ := (act_spec h.kill).1
    refine ⟨rfl, hfaulty, hrests, hstage.trans ?_, fun _ => hup⟩
    exact and_congr_right fun _ => ⟨fun hr _ => hr, fun hr => hr rfl⟩
  | close =>
    obtain ⟨hcalm, hfaulty, hrests, hstage, -⟩ := (act_spec h.close).1
    exact .of_stage rfl hfaulty hrests hstage nofun hcalm.raised
  | letGo => exact hidle _ trivial nofun rfl
  | cancel => exact hidle _ trivial nofun rfl
  | pressure => exact hidle _ trivial nofun rfl
  | memory f => exact hidle _ trivial nofun rfl
  | disk f => exact hidle _ trivial nofun rfl

/-! ## Runs -/

theorem run_cons (c : Call) (cs : List Call) (s : Session) : s.run (c :: cs) =
    ((s.perform c).1 :: ((s.perform c).2.run cs).1, ((s.perform c).2.run cs).2) := rfl

theorem run_append (pre post : List Call) (s : Session) : s.run (pre ++ post) =
    ((s.run pre).1 ++ ((s.run pre).2.run post).1, ((s.run pre).2.run post).2) := by
  induction pre generalizing s with
  | nil => rfl
  | cons c pre ih => rw [List.cons_append, run_cons, run_cons, ih, List.cons_append]

/-- A sort is open until a call ends it or finds it over. -/
theorem run_open {cs : List Call} (h : Open T s.state) (hcs : ∀ c ∈ cs, ¬c.Ends)
    (hrs : ∀ r ∈ (s.run cs).1, ¬r.Final) : Open T (s.run cs).2.state := by
  induction cs generalizing s with
  | nil => exact h
  | cons c cs ih =>
    have hends := hcs c List.mem_cons_self
    have hfinal : ¬(s.perform c).1.Final := hrs _ List.mem_cons_self
    refine ih ?_ (fun d hd => hcs d (List.mem_cons_of_mem _ hd))
      fun r hr => hrs r (List.mem_cons_of_mem _ hr)
    cases (perform_open h c).1 with
    | goes _ _ _ hgoes => exact hgoes
    | quits hover => exact (hover.elim hends hfinal).elim
    | fails hfails =>
      rw [Reply.failures_of_not_final hfinal] at hfails
      cases hfails

/-- A session whose sort has failed only repeats that. -/
theorem run_faulty (h : Faulty T f s.state) (cs : List Call) :
    (s.run cs).1 = cs.map (Call.failing f.replay.replay) ∧ Faulty T f (s.run cs).2.state := by
  induction cs generalizing s with
  | nil => exact ⟨rfl, h⟩
  | cons c cs ih =>
    have hturn := perform_faulty h c
    obtain ⟨hreplies, hfaulty⟩ := ih hturn.faulty
    rw [run_cons, List.map_cons, hturn.reply, hreplies]
    exact ⟨rfl, hfaulty⟩

/-- A call of a run is made in a state with `P`. -/
def Somewhere (P : Session → Call → Prop) (cs : List Call) (s : Session) : Prop :=
  ∃ pre c post, cs = pre ++ c :: post ∧ P (s.run pre).2 c

theorem not_somewhere_nil {P : Session → Call → Prop} : ¬Somewhere P [] s := by
  rintro ⟨pre, c, post, hcs, -⟩
  cases pre <;> cases hcs

theorem somewhere_cons {P : Session → Call → Prop} {cs : List Call} :
    Somewhere P (c :: cs) s ↔ P s c ∨ Somewhere P cs (s.perform c).2 := by
  constructor
  · rintro ⟨pre, d, post, hcs, hP⟩
    cases pre with
    | nil =>
      obtain ⟨rfl, rfl⟩ := List.cons.inj hcs
      exact .inl hP
    | cons d' pre =>
      obtain ⟨rfl, rfl⟩ := List.cons.inj hcs
      exact .inr ⟨pre, d, post, rfl, hP⟩
  · rintro (hP | ⟨pre, d, post, rfl, hP⟩)
    · exact ⟨[], c, cs, rfl, hP⟩
    · exact ⟨c :: pre, d, post, rfl, hP⟩

/-- A sort that has not failed. -/
def Sound (T : Setting) (s : Session) : Prop := Open T s.state ∨ Quit T s.state

theorem Sound.rank_lt (h : Sound T s) : s.operator.stage.rank < Stage.failed.rank := by
  rcases h with h | h
  · exact h.rank_le.trans_lt (by decide)
  · rw [show s.operator.stage = .done from h.stage]
    decide

theorem Sound.unfailed (h : Sound T s) : Operator.Unfailed T s.state := by
  rcases h with h | h
  · exact h.toUnfailed
  · exact h.toUnfailed

/-- A call that does not fail leaves a sort that has not failed, and one that does answers with the
failure that it records, and names the operator in it. -/
theorem Sound.perform (h : Sound T s) (c : Call) :
    (s.perform c).1.failures = [] ∧ Sound T (s.perform c).2 ∧
      s.operator.stage.Leads (s.perform c).2.operator.stage ∨
    ∃ cause rows, FailsBy T s c cause ∧
      (s.perform c).1.failures = [cause.withOperator T.name rows] ∧
      Faulty T (cause.withOperator T.name rows) (s.perform c).2.state ∧
      (s.perform c).2.operator.stage = .failed := by
  rcases h with h | h
  · cases (perform_open h c).1 with
    | goes _ hfinal hleads hgoes =>
      exact .inl ⟨Reply.failures_of_not_final hfinal, .inl hgoes, hleads⟩
    | quits _ hnone _ hquit => exact .inl ⟨hnone, .inr hquit, h.leads_done hquit.stage⟩
    | fails hfails hcause hfaulty hstage => exact .inr ⟨_, _, hcause, hfails, hfaulty, hstage⟩
  · have hturn := (perform_quit h c).1
    have hs : s.operator.stage = .done := h.stage
    generalize s.perform c = a at hturn ⊢
    obtain ⟨r, t⟩ := a
    cases hturn with
    | rests _ _ hnone _ hquit => exact .inl ⟨hnone, .inr hquit, .of_eq (hquit.stage.trans hs.symm)⟩
    | learns _ _ hquit => exact .inl ⟨rfl, .inr hquit, .of_eq (hquit.stage.trans hs.symm)⟩
    | fails hnot hkind hcause _ hfaulty hstage =>
      exact .inr ⟨_, _, .schema hkind hnot hcause, rfl, hfaulty, hstage⟩

/-- The phase of a sort between two calls. -/
inductive Phase (T : Setting) (s : Session) : Prop where
  | sound : Sound T s → Phase T s
  | faulty {f : Failure} : Faulty T f s.state → Phase T s

theorem Phase.perform (h : Phase T s) (c : Call) : Phase T (s.perform c).2 := by
  cases h with
  | sound h =>
    rcases h.perform c with ⟨-, hsound, -⟩ | ⟨_, _, -, -, hfaulty, -⟩
    · exact .sound hsound
    · exact .faulty hfaulty
  | faulty h => exact .faulty (perform_faulty h c).faulty

theorem Phase.run (h : Phase T s) (cs : List Call) : Phase T (s.run cs).2 := by
  induction cs generalizing s with
  | nil => exact h
  | cons c cs ih => exact ih (h.perform c)

theorem Phase.raised (h : Phase T s) (cs : List Call) (hr : s.workspace.cancel.raised) :
    (s.run cs).2.workspace.cancel.raised := by
  induction cs generalizing s with
  | nil => exact hr
  | cons c cs ih =>
    refine ih (h.perform c) ?_
    cases h with
    | sound h =>
      rcases h with h | h
      · exact (perform_open h c).2 hr
      · exact (perform_quit h c).2 hr
    | faulty h => exact (perform_faulty h c).raised hr

/-- A session begins with an open sort. -/
theorem begin_open {name : String} {options : SortOptions} {makeOrder : OrderMaker}
    {script : List Pull} {pressure : Bool} {stem : String} {fragment : Fragment}
    {ledger : Memory.Ledger} {disk : Spill.Disk} {s : Operator × Workspace}
    (hs : Operator.create name options makeOrder { script, pressure } stem fragment ledger disk = .ok s)
    (flag : CancelFlag) {p : Failure → Prop} (hp : ∀ e, e.Bare → p e)
    (hinput : ∀ q ∈ script, ∀ e, q.outcome = .error e → p e)
    (horder : ∀ schema keys e, makeOrder schema keys = .error e → p e) :
    Open ⟨p, fragment.error, name⟩ (begin s flag).state := by
  obtain ⟨-, v, hv, hop, hw⟩ := Operator.create_ok hs
  obtain ⟨op, w⟩ := s
  obtain rfl : op = _ := hop
  obtain rfl : w = _ := hw
  exact ⟨⟨rfl, ⟨hp, hinput, horder⟩, rfl, rfl, rfl⟩, rfl, .inl rfl⟩

end Session

end SpillSort
