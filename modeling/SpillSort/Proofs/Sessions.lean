import SpillSort.Sort.Session
import SpillSort.Proofs.Pulls
import SpillSort.Proofs.StagingStates

/-!
# Sessions

What calls do to a session, whatever their order.

* `Session.Goes` is a session whose sort goes on, with the rows its consumer was given so far;
  `Session.Ended` is one whose sort is over.
* `Session.perform_spec` is one call, `Session.run_spec` any number of them.
-/

namespace SpillSort

open Memory Spill

variable {E : Surroundings} {w : Workspace} {R S X : Resources} {script : List Pull}
  {order : RowOrder} {given : List Row} {all : List Batch} {first : Operator}

/-! ## Calls and replies -/

/-- The outcomes of the pulls of a call. -/
def Reply.pulls : Reply → List (Except Failure Poll)
  | .poll p => [p]
  | .polls ps => ps
  | _ => []

/-- The output of a pull. -/
def outputOf? (p : Except Failure Poll) : Option Output := p.toOption.bind Poll.output?

/-- The outputs of a call. -/
def Reply.outputs (r : Reply) : List Output := r.pulls.filterMap outputOf?

/-- Whether a pull found the sort neither failed nor stopped. -/
def Fine : Except Failure Poll → Prop
  | .ok .stopped => False
  | .ok _ => True
  | .error _ => False

theorem fine_of_output {p : Except Failure Poll} (h : (outputOf? p).isSome) : Fine p := by
  rcases p with e | _ | _ | _ | _
  · cases h
  · trivial
  · trivial
  · trivial
  · cases h

/-- The failure of a look at the schema. -/
def Reply.schemaFailure? : Reply → Option Failure
  | .schema (.error e) => some e
  | _ => none

/-- Whether a call found the sort neither failed nor stopped. -/
def Reply.Fine (r : Reply) : Prop := (∀ p ∈ r.pulls, SpillSort.Fine p) ∧ r.schemaFailure? = none

/-- Whether a call found the sort over: drained, stopped or failed. -/
def Reply.Final (r : Reply) : Prop := (∃ p ∈ r.pulls, outputOf? p = none) ∨ r.schemaFailure?.isSome

theorem Reply.final_of_not_fine {r : Reply} (h : ¬r.Fine) : r.Final := by
  by_contra hf
  simp only [Reply.Final, not_or, not_exists, not_and, Option.not_isSome_iff_eq_none] at hf
  refine h ⟨fun p hp => fine_of_output ?_, hf.2⟩
  exact Option.isSome_iff_ne_none.mpr (hf.1 p hp)

/-- Whether a call ends the sort, whatever it finds. -/
def Call.Ends : Call → Prop
  | .kill | .close => True
  | _ => False

/-- Whether a call leaves the files of the sort alone. -/
def Call.Quiet : Call → Prop
  | .disk f => LeavesFiles f
  | _ => True

/-- Whether a call leaves alone what the books see. -/
def Call.Spares (E : Surroundings) : Call → Prop
  | .memory f => ∀ b ∈ E.books?, SpillSort.Spares b.tracker f
  | _ => True

/-- Without books there is nothing to leave alone. -/
theorem Call.spares_careless (base : Disk) (c : Call) : c.Spares (.careless base) := by
  cases c with
  | memory f => exact fun _ hb => by cases hb
  | _ => trivial

/-- An order that is made for a batch of the script. -/
def Operator.MadeFor (op : Operator) (script : List Pull) (order : RowOrder) : Prop :=
  ∃ p ∈ script, ∃ b, p.batch? = some b ∧ op.makeOrder b.schema op.options.keys = .ok order

theorem Operator.Draws.madeFor {op : Operator} {taken : List ChargeId} (h : op.Draws script taken)
    (hc : op.core = first.core) (ho : op.order? = some order) : first.MadeFor script order := by
  have hmake : op.makeOrder = first.makeOrder := (congrArg Operator.makeOrder hc :)
  have hoptions : op.options = first.options := (congrArg Operator.options hc :)
  have hmade := h.made order ho
  rwa [hmake, hoptions] at hmade

namespace Session

/-- The operator in its workspace. -/
def state (s : Session) : Operator × Workspace := (s.operator, s.workspace)

/-- What the outputs hold that the consumer keeps. -/
def kept (s : Session) : Resources := (s.held.map Output.held).sum

/-- The outputs have these rows, each of them some, under orders made for batches of the script. -/
def Shown (first : Operator) (script : List Pull) (outputs : List Output) (rows : List Row) : Prop :=
  ∃ fronts : List (List Row), rows = fronts.flatten ∧
    List.Forall₂ (fun o front => ∃ order, first.MadeFor script order ∧ o.Holds order front ∧
      front ≠ []) outputs fronts

theorem Shown.nil : Shown first script [] [] := ⟨[], rfl, .nil⟩

theorem Shown.append {os os' : List Output} {rows rows' : List Row}
    (h : Shown first script os rows) (h' : Shown first script os' rows') :
    Shown first script (os ++ os') (rows ++ rows') := by
  obtain ⟨fronts, rfl, hs⟩ := h
  obtain ⟨fronts', rfl, hs'⟩ := h'
  exact ⟨fronts ++ fronts', by simp, List.rel_append hs hs'⟩

variable {s t : Session}

theorem act_spec {α : Type} {x : OperatorAction α} {Q : α → Operator × Workspace → Prop}
    (h : Ensures x Q s.state) : Q (s.act x).1 (s.act x).2.state ∧ (s.act x).2.held = s.held :=
  ⟨h, rfl⟩

/-! ## Pulling -/

/-- A session whose sort goes on. -/
abbrev Goes (E : Surroundings) (script : List Pull) (X : Resources) (first : Operator)
    (all : List Batch) (given : List Row) (s : Session) : Prop :=
  Operator.Working E script (s.kept + X) first all given s.state

/-- A session whose sort is over. -/
structure Ended (E : Surroundings) (script : List Pull) (X : Resources) (first : Operator)
    (s : Session) : Prop where
  core : s.operator.core = first.core
  isOver : Operator.Over E script (s.kept + X) s.state

/-- What comes of pulls, after the rows `given`. -/
inductive After (E : Surroundings) (script : List Pull) (X : Resources) (first : Operator)
    (all : List Batch) (given : List Row) (ps : List (Except Failure Poll)) (s : Session) : Prop where
  | goes {rows : List Row} : (∀ p ∈ ps, (outputOf? p).isSome) →
    Shown first script (ps.filterMap outputOf?) rows →
    Goes E script X first all (given ++ rows) s → After E script X first all given ps s
  | finished {rows : List Row} : (∀ p ∈ ps, Fine p) →
    Shown first script (ps.filterMap outputOf?) rows →
    Operator.Finished E script (s.kept + X) first all (given ++ rows) s.state →
    After E script X first all given ps s
  | ended : ¬(∀ p ∈ ps, Fine p) → Ended E script X first s → After E script X first all given ps s

/-- What a pull leaves, once the consumer has the output. -/
theorem taken_spec {p : Except Failure Poll} {o : Output} {front left : List Row}
    (ho : outputOf? p = some o) (hfront : o.Holds order front) (hne : front ≠ [])
    (hmade : first.MadeFor script order) (hheld : t.held = s.held)
    (h : Operator.Serving E script (o.held + (s.kept + X)) first all (given ++ front) left t.state)
    (keep : Bool) :
    After E script X first all given [p]
      (if keep then { t with held := o :: t.held } else (t.act (o.drop : Action Unit)).2) := by
  have hshown : Shown first script ([p].filterMap outputOf?) front := by
    refine ⟨[front], by simp, ?_⟩
    rw [List.filterMap_cons_some ho]
    exact .cons ⟨order, hmade, hfront, hne⟩ .nil
  have hsome : ∀ q ∈ [p], (outputOf? q).isSome := by simp [ho]
  cases keep with
  | true =>
    show After E script X first all given [p] { t with held := o :: t.held }
    refine .goes hsome hshown ?_
    have hkept : kept { t with held := o :: t.held } + X = o.held + (s.kept + X) := by
      rw [kept, hheld, List.map_cons, List.sum_cons, kept, add_assoc]
    rw [Goes, hkept]
    exact .serving h
  | false =>
    show After E script X first all given [p] (t.act (o.drop : Action Unit)).2
    have hframes : Operator.Frames E o.drop t.state.2 (o.held + (s.kept + X)) (s.kept + X) :=
      fun taken R hw => Output.drop_spec (hw.cast (add_left_comm ..))
    have hdrop := (Operator.Working.serving h).frame hframes
    refine .goes hsome hshown ?_
    have hkept : (t.act (o.drop : Action Unit)).2.kept = s.kept := by
      show (t.held.map Output.held).sum = _
      rw [hheld, kept]
    rw [Goes, hkept]
    exact hdrop

theorem next_spec (hscript : ∀ p ∈ script, LeavesFiles p.onDisk)
    (hE : ∀ b ∈ E.books?, b.tracker = first.tracker) (hfresh : first.Fresh)
    (h : Goes E script X first all given s) (keep : Bool) :
    After E script X first all given [(s.next keep).1] (s.next keep).2 := by
  obtain ⟨hnext, hheld⟩ := act_spec (Operator.next_spec hscript hE hfresh h)
  generalize hr : s.act Operator.next = r at hnext hheld
  obtain ⟨p, t⟩ := r
  have hkept : t.kept = s.kept := by rw [kept, hheld, kept]
  have hended : ∀ {q : Except Failure Poll}, ¬Fine q → t.operator.core = first.core →
      Operator.Over E script (s.kept + X) t.state → After E script X first all given [q] t := by
    intro q hq hc ho
    refine .ended (fun hf => hq (hf q (by simp))) ⟨hc, ?_⟩
    rw [hkept]
    exact ho
  have htaken : ∀ {q : Except Failure Poll} {o : Output} {order : RowOrder} {front left : List Row},
      outputOf? q = some o → t.operator.order? = some order → o.Holds order front → front ≠ [] →
      Operator.Serving E script (o.held + (s.kept + X)) first all (given ++ front) left t.state →
      After E script X first all given [q]
        (if keep then { t with held := o :: t.held } else (t.act (o.drop : Action Unit)).2) := by
    intro q o order front left hq ho hfront hne hserving
    obtain ⟨-, -, taken, -, -, -, hd, -⟩ := hserving.serves
    exact taken_spec hq hfront hne (hd.madeFor hserving.core ho) hheld hserving keep
  unfold Session.next
  rw [hr]
  rcases p with e | o | o | _ | _
  · have hfailed : Operator.Failed E script (s.kept + X) first t.state := hnext
    exact hended id hfailed.core hfailed.isOver
  · obtain ⟨order, front, left, ho, hfront, hne, hserving⟩ := hnext
    have hafter := htaken (q := .ok (.newSchema o)) rfl ho hfront hne hserving
    cases keep <;> exact hafter
  · obtain ⟨order, front, left, ho, hfront, hne, hserving⟩ := hnext
    have hafter := htaken (q := .ok (.batch o)) rfl ho hfront hne hserving
    cases keep <;> exact hafter
  · have hfinished : Operator.Finished E script (s.kept + X) first all given t.state := hnext
    have hfine : ∀ p ∈ [(.ok .done : Except Failure Poll)], Fine p := by simp [Fine]
    have hgiven : Operator.Finished E script (t.kept + X) first all (given ++ []) t.state := by
      rw [List.append_nil, hkept]
      exact hfinished
    exact .finished hfine .nil hgiven
  · have hstopped : Operator.Stopped E script (s.kept + X) first t.state := hnext
    exact hended id hstopped.core hstopped.isOver

/-- What was handed out before pulls belongs to what was handed out in the end. -/
theorem After.cons {p : Except Failure Poll} {ps : List (Except Failure Poll)} {rows : List Row}
    (hp : (outputOf? p).isSome) (hshown : Shown first script ([p].filterMap outputOf?) rows)
    (h : After E script X first all (given ++ rows) ps s) :
    After E script X first all given (p :: ps) s := by
  have hfine : Fine p := fine_of_output hp
  have hmap : (p :: ps).filterMap outputOf? = [p].filterMap outputOf? ++ ps.filterMap outputOf? :=
    List.filterMap_append (l := [p])
  cases h with
  | goes hsome hs hgoes =>
    rw [List.append_assoc] at hgoes
    refine .goes ?_ (hmap ▸ hshown.append hs) hgoes
    simpa [hp] using hsome
  | finished hf hs hfinished =>
    rw [List.append_assoc] at hfinished
    refine .finished ?_ (hmap ▸ hshown.append hs) hfinished
    simpa [hfine] using hf
  | ended hf hended =>
    refine .ended (fun hall => hf fun q hq => hall q (List.mem_cons_of_mem _ hq)) hended

/-- Without an output there is nothing for the consumer to do. -/
theorem next_of_none (h : outputOf? (s.act Operator.next).1 = none) (keep : Bool) :
    s.next keep = s.act Operator.next := by
  unfold Session.next
  generalize s.act Operator.next = a at h
  obtain ⟨r, t⟩ := a
  dsimp only
  rw [show r.toOption.bind Poll.output? = none from h]

/-- Pulling goes on as long as there are outputs. -/
theorem pulls_succ (count : Nat) (found : List (Except Failure Poll)) (s : Session) :
    s.pulls (count + 1) found =
      if (outputOf? (s.next false).1).isSome then
        (s.next false).2.pulls count ((s.next false).1 :: found)
      else (((s.next false).1 :: found).reverse, (s.next false).2) := by
  rw [pulls]
  generalize s.next false = a
  obtain ⟨p, t⟩ := a
  dsimp only
  unfold outputOf?
  cases p.toOption.bind Poll.output? <;> rfl

theorem drain_of_none (h : outputOf? (s.next false).1 = none) :
    s.drain = ([(s.next false).1], (s.next false).2) := by
  rw [drain, pulls_succ, if_neg (by simp [h])]
  rfl

theorem pulls_spec (hscript : ∀ p ∈ script, LeavesFiles p.onDisk)
    (hE : ∀ b ∈ E.books?, b.tracker = first.tracker) (hfresh : first.Fresh) (count : Nat)
    (found : List (Except Failure Poll)) (h : Goes E script X first all given s) :
    ∃ ps, (s.pulls count found).1 = found.reverse ++ ps ∧
      After E script X first all given ps (s.pulls count found).2 := by
  induction count generalizing s given found with
  | zero =>
    have hgoes : Goes E script X first all (given ++ []) s := by
      rw [List.append_nil]
      exact h
    exact ⟨[], (List.append_nil _).symm, .goes (by simp) .nil hgoes⟩
  | succ count ih =>
    have hnext := next_spec hscript hE hfresh h false
    rw [pulls_succ]
    generalize s.next false = r at hnext
    obtain ⟨p, t⟩ := r
    split
    · next hsome =>
      cases hnext with
      | goes _ hshown hgoes =>
        obtain ⟨ps, hps, hafter⟩ := ih (p :: found) hgoes
        exact ⟨p :: ps, by simpa using hps, hafter.cons hsome hshown⟩
      | finished _ hshown hfinished =>
        obtain ⟨ps, hps, hafter⟩ := ih (p :: found) (.finished hfinished)
        exact ⟨p :: ps, by simpa using hps, hafter.cons hsome hshown⟩
      | ended hnot _ =>
        refine absurd (fun q hq => ?_) hnot
        obtain rfl : q = p := by simpa using hq
        exact fine_of_output hsome
    · exact ⟨[p], by simp, hnext⟩

/-! ## Calls -/

/-- What comes of a call, after the rows `given`. -/
inductive Performed (E : Surroundings) (script : List Pull) (X : Resources) (first : Operator)
    (all : List Batch) (given : List Row) (c : Call) (r : Reply) (s : Session) : Prop where
  | goes {rows : List Row} : ¬c.Ends → r.Fine → (r.Final → Ended E script X first s) →
    Shown first script r.outputs rows → Goes E script X first all (given ++ rows) s →
    Performed E script X first all given c r s
  | ended : c.Ends ∨ ¬r.Fine → Ended E script X first s →
    Performed E script X first all given c r s

/-- A call that is no pull and ends nothing. -/
theorem Performed.quiet {c : Call} {r : Reply} (hc : ¬c.Ends) (hr : r.pulls = [])
    (hr' : r.schemaFailure? = none) (h : Goes E script X first all given s) :
    Performed E script X first all given c r s := by
  have hshown : Shown first script r.outputs [] := by
    rw [Reply.outputs, hr]
    exact .nil
  have hgoes : Goes E script X first all (given ++ []) s := by
    rw [List.append_nil]
    exact h
  refine .goes hc ⟨by simp [hr], hr'⟩ ?_ hshown hgoes
  rintro (⟨p, hp, -⟩ | hs)
  · rw [hr] at hp
    cases hp
  · rw [hr'] at hs
    cases hs

theorem After.performed {c : Call} {r : Reply} {ps : List (Except Failure Poll)} (hc : ¬c.Ends)
    (hr : r.pulls = ps) (hr' : r.schemaFailure? = none)
    (h : After E script X first all given ps s) : Performed E script X first all given c r s := by
  subst hr
  cases h with
  | goes hsome hshown hgoes =>
    refine .goes hc ⟨fun p hp => fine_of_output (hsome p hp), hr'⟩ ?_ hshown hgoes
    rintro (⟨p, hp, ho⟩ | hs)
    · have hs := hsome p hp
      rw [ho] at hs
      cases hs
    · rw [hr'] at hs
      cases hs
  | finished hfine hshown hfinished =>
    exact .goes hc ⟨hfine, hr'⟩ (fun _ => ⟨hfinished.core, hfinished.isOver⟩) hshown
      (.finished hfinished)
  | ended hnot hended => exact .ended (.inr fun hf => hnot hf.1) hended

/-- Outputs are let go of. -/
theorem frames_letGo (os : List Output) :
    Operator.Frames E (os.forM fun o => (o.drop : Action Unit)) w ((os.map Output.held).sum + X) X := by
  intro taken R hw
  induction os generalizing w with
  | nil =>
    rw [List.map_nil, List.sum_nil, zero_add] at hw
    exact hw
  | cons o os ih =>
    rw [List.map_cons, List.sum_cons] at hw
    have hw : Owns (E.take taken) w (o.held + (R + ((os.map Output.held).sum + X))) :=
      hw.cast (by rw [add_assoc, add_left_comm])
    show Ensures (o.drop >>= fun _ => os.forM fun o => o.drop) _ w
    rw [Ensures.bind_iff]
    exact (Output.drop_spec hw).mono fun _ w hw => ih hw

/-- Letting go of outputs does not concern the operator. -/
theorem perform_letGo : (s.perform .letGo).2 = ({ s with held := [] }.act
    (s.held.forM fun o => o.drop : Action Unit)).2 := by
  have hlift : ∀ os : List Output, (os.forM fun o => (o.drop : Action Unit) : OperatorAction Unit) =
      ((os.forM fun o => o.drop : Action Unit) : OperatorAction Unit) := by
    intro os
    induction os with
    | nil => rfl
    | cons o os ih =>
      show ((o.drop : Action Unit) >>= fun _ => os.forM fun o => (o.drop : Action Unit) :
        OperatorAction Unit) = _
      rw [ih]
      rfl
  exact congrArg (fun x => (act x { s with held := [] }).2) (hlift s.held)

theorem frames_memory {f : Forest → Forest} (hf : ∀ b ∈ E.books?, SpillSort.Spares b.tracker f) :
    Operator.Frames E (Workspace.onLedger (·.onForest f)) w X X := by
  intro taken R hw
  refine hw.onForest fun b hb => ?_
  obtain ⟨b', hb', rfl⟩ := Option.map_eq_some_iff.mp hb
  exact hf b' hb'

theorem frames_disk {f : Disk → Disk} (hf : LeavesFiles f) :
    Operator.Frames E (Workspace.onDisk f) w X X := fun _ _ hw => hw.onDisk hf

theorem perform_spec (hscript : ∀ p ∈ script, LeavesFiles p.onDisk)
    (hE : ∀ b ∈ E.books?, b.tracker = first.tracker) (hfresh : first.Fresh)
    (h : Goes E script X first all given s) (c : Call) (hc : c.Quiet ∧ c.Spares E) :
    Performed E script X first all given c (s.perform c).1 (s.perform c).2 := by
  have hbroken := h.broken hfresh
  cases c with
  | buildSchema =>
    have hschema := (act_spec (Operator.buildSchema_spec hscript hfresh h)).1
    unfold perform
    generalize hr : s.act Operator.buildSchema = r at hschema
    have hheld : r.2.held = s.held := by rw [← hr]; rfl
    have hkept : r.2.kept = s.kept := by rw [kept, hheld, kept]
    obtain ⟨e | schema, t⟩ := r
    · have hfailed : Operator.Failed E script (s.kept + X) first t.state := hschema
      refine .ended (.inr fun hf => absurd hf.2 (by simp [Reply.schemaFailure?])) ⟨hfailed.core, ?_⟩
      rw [hkept]
      exact hfailed.isOver
    · refine .quiet id rfl rfl ?_
      rw [Goes, hkept]
      exact hschema
  | next keep => exact (next_spec hscript hE hfresh h keep).performed id rfl rfl
  | drain =>
    obtain ⟨ps, hps, hafter⟩ := pulls_spec hscript hE hfresh (s.rowsLeft + 1) [] h
    exact hafter.performed id hps rfl
  | letGo =>
    have hdropped := Operator.Working.frame h (frames_letGo (w := s.workspace) s.held)
    refine .quiet id rfl rfl ?_
    rw [perform_letGo]
    show Operator.Working E script (0 + X) first all given _
    rw [zero_add]
    exact hdropped
  | kill =>
    have hnot : s.operator.released → Operator.Over E script (s.kept + X) s.state := fun hr => by
      rw [show s.operator.released = false from hbroken.released] at hr
      cases hr
    have hkilled := (act_spec (Operator.kill_spec hbroken.live hnot)).1
    exact .ended (.inl trivial) ⟨hkilled.2.trans hbroken.core, hkilled.1⟩
  | close =>
    have hnot : s.operator.stage = .failed → s.operator.failure?.isSome := fun hs =>
      absurd hs (h.ne_failed hfresh)
    have hclosed := (act_spec (Operator.close_spec hbroken.live hnot)).1
    exact .ended (.inl trivial) ⟨hclosed.2.trans hbroken.core, hclosed.1⟩
  | cancel => exact .quiet id rfl rfl (h.frame Operator.frames_raiseCancel)
  | pressure => exact .quiet id rfl rfl h.press
  | memory f => exact .quiet id rfl rfl (h.frame (frames_memory hc.2))
  | disk f => exact .quiet id rfl rfl (h.frame (frames_disk hc.1))

/-- Nothing is handed out any more once a sort is over. -/
theorem next_ended (h : Ended E script X first s) (keep : Bool) :
    outputOf? (s.next keep).1 = none ∧ Ended E script X first (s.next keep).2 := by
  obtain ⟨hover, hcore, hnone⟩ := (act_spec (Operator.next_over h.isOver)).1
  rw [next_of_none hnone]
  exact ⟨hnone, hcore.trans h.core, hover⟩

theorem perform_ended (hscript : ∀ p ∈ script, LeavesFiles p.onDisk)
    (h : Ended E script X first s) (c : Call) (hc : c.Quiet ∧ c.Spares E) :
    Ended E script X first (s.perform c).2 := by
  cases c with
  | buildSchema =>
    have hschema := (act_spec (Operator.buildSchema_over hscript h.isOver)).1
    exact ⟨hschema.2.trans h.core, hschema.1⟩
  | next keep => exact (next_ended h keep).2
  | drain =>
    have hnext := next_ended h false
    show Ended E script X first s.drain.2
    rw [drain_of_none hnext.1]
    exact hnext.2
  | letGo =>
    have hdropped := h.isOver.frame (frames_letGo (w := s.workspace) s.held)
    rw [perform_letGo]
    refine ⟨h.core, ?_⟩
    show Operator.Over E script (0 + X) _
    rw [zero_add]
    exact hdropped
  | kill =>
    have hkilled := (act_spec (Operator.kill_spec h.isOver.live fun _ => h.isOver)).1
    exact ⟨hkilled.2.trans h.core, hkilled.1⟩
  | close =>
    have hfailed : s.operator.stage = .failed → s.operator.failure?.isSome := by
      intro hs
      rcases h.isOver.stage with hd | ⟨-, hf⟩
      · rw [show s.operator.stage = .done from hd] at hs
        cases hs
      · exact hf
    have hclosed := (act_spec (Operator.close_spec h.isOver.live hfailed)).1
    exact ⟨hclosed.2.trans h.core, hclosed.1⟩
  | cancel => exact ⟨h.core, h.isOver.frame Operator.frames_raiseCancel⟩
  | pressure => exact ⟨h.core, h.isOver.press⟩
  | memory f => exact ⟨h.core, h.isOver.frame (frames_memory hc.2)⟩
  | disk f => exact ⟨h.core, h.isOver.frame (frames_disk hc.1)⟩

theorem run_ended (hscript : ∀ p ∈ script, LeavesFiles p.onDisk) (cs : List Call)
    (hcs : ∀ c ∈ cs, c.Quiet ∧ c.Spares E) (h : Ended E script X first s) :
    Ended E script X first (s.run cs).2 := by
  induction cs generalizing s with
  | nil => exact h
  | cons c cs ih =>
    have hperform := perform_ended hscript h c (hcs c List.mem_cons_self)
    exact ih (fun c hc => hcs c (List.mem_cons_of_mem _ hc)) hperform

/-- What comes of calls, after the rows `given`. -/
structure Ran (E : Surroundings) (script : List Pull) (X : Resources) (first : Operator)
    (all : List Batch) (given : List Row) (cs : List Call) (rs : List Reply) (s : Session) :
    Prop where
  goes : (∀ c ∈ cs, ¬c.Ends) → (∀ r ∈ rs, r.Fine) → ∃ rows,
    Shown first script (rs.flatMap Reply.outputs) rows ∧ Goes E script X first all (given ++ rows) s
  ended : (∃ c ∈ cs, c.Ends) ∨ (∃ r ∈ rs, r.Final) → Ended E script X first s

theorem run_spec (hscript : ∀ p ∈ script, LeavesFiles p.onDisk)
    (hE : ∀ b ∈ E.books?, b.tracker = first.tracker) (hfresh : first.Fresh) (cs : List Call)
    (hcs : ∀ c ∈ cs, c.Quiet ∧ c.Spares E) (h : Goes E script X first all given s) :
    Ran E script X first all given cs (s.run cs).1 (s.run cs).2 := by
  induction cs generalizing s given with
  | nil =>
    refine ⟨fun _ _ => ⟨[], .nil, ?_⟩, ?_⟩
    · rw [List.append_nil]
      exact h
    · rintro (⟨c, hc, -⟩ | ⟨r, hr, -⟩)
      · cases hc
      · cases hr
  | cons c cs ih =>
    have hperform := perform_spec hscript hE hfresh h c (hcs c List.mem_cons_self)
    have hcs : ∀ c ∈ cs, c.Quiet ∧ c.Spares E := fun c hc => hcs c (List.mem_cons_of_mem _ hc)
    unfold run
    generalize s.perform c = rt at hperform
    obtain ⟨r, t⟩ := rt
    cases hperform with
    | @goes rows hends hfine hfinal hshown hgoes =>
      have hrun := ih hcs hgoes
      refine ⟨fun hnot hall => ?_, fun hstop => ?_⟩
      · obtain ⟨rows', hshown', hgoes'⟩ := hrun.goes
          (fun c hc => hnot c (List.mem_cons_of_mem _ hc)) fun r hr => hall r (List.mem_cons_of_mem _ hr)
        refine ⟨rows ++ rows', hshown.append hshown', ?_⟩
        rw [← List.append_assoc]
        exact hgoes'
      · rcases hstop with ⟨d, hd, hdends⟩ | ⟨q, hq, hqfinal⟩
        · rcases List.mem_cons.mp hd with rfl | hd
          · exact absurd hdends hends
          · exact hrun.ended (.inl ⟨d, hd, hdends⟩)
        · rcases List.mem_cons.mp hq with rfl | hq
          · exact run_ended hscript cs hcs (hfinal hqfinal)
          · exact hrun.ended (.inr ⟨q, hq, hqfinal⟩)
    | ended hwhy hended =>
      refine ⟨fun hnot hall => ?_, fun _ => run_ended hscript cs hcs hended⟩
      rcases hwhy with hends | hfine
      · exact absurd hends (hnot c List.mem_cons_self)
      · exact absurd (hall r List.mem_cons_self) hfine

/-! ## Beginning -/

/-- A session begins with an operator that was just made, and a cancel flag that others may raise. -/
def begin (s : Operator × Workspace) (flag : CancelFlag) : Session :=
  { operator := s.1, workspace := { s.2 with cancel := flag } }

section Begin

variable {name : String} {options : SortOptions} {makeOrder : OrderMaker} {pressure : Bool}
  {stem : String} {fragment : Fragment} {ledger : Ledger} {disk : Disk} {s : Operator × Workspace}

theorem create_fresh (hs : Operator.create name options makeOrder { script, pressure } stem fragment
    ledger disk = .ok s) : s.1.Fresh := by
  obtain ⟨-, v, -, hop, -⟩ := Operator.create_ok hs
  rw [hop]
  exact ⟨rfl, rfl, rfl, rfl, rfl⟩

theorem begin_taking (hs : Operator.create name options makeOrder { script, pressure } stem fragment
      ledger disk = .ok s) (flag : CancelFlag)
    (hw : Owns E (begin s flag).workspace (.charges (script.flatMap Pull.charges) + X)) :
    Operator.Taking E script X s.1 ((arriving script).flatMap Batch.slices) (begin s flag).state := by
  obtain ⟨-, v, -, hop, -⟩ := Operator.create_ok hs
  obtain ⟨op, w⟩ := s
  obtain rfl : op = _ := hop
  refine ⟨rfl, [], [], 0, ⟨⟨rfl, rfl, rfl, rfl, rfl⟩, ?_, rfl, ?_⟩, rfl⟩
  · have hnone : ∀ c ∈ ([] : List ChargeId), c ∈ ([] : List Pull).flatMap Pull.charges := nofun
    exact ⟨rfl, hnone, hnone, nofun, fun _ => rfl, nofun⟩
  · show Owns (E.take []) _ (0 + (.charges [] + (.charges (script.flatMap Pull.charges) + X)))
    rw [Resources.charges_nil, zero_add, zero_add]
    exact hw.take []

theorem begin_goes (hs : Operator.create name options makeOrder { script, pressure } stem fragment
      ledger disk = .ok s) (flag : CancelFlag)
    (hw : Owns E (begin s flag).workspace (.charges (script.flatMap Pull.charges) + X)) :
    Goes E script X s.1 ((arriving script).flatMap Batch.slices) [] (begin s flag) := by
  show Operator.Working E script (0 + X) _ _ [] _
  rw [zero_add]
  exact .taking (begin_taking hs flag hw)

/-- What comes of calls if nobody keeps books. -/
theorem begin_run_spec (hs : Operator.create name options makeOrder { script, pressure } stem fragment
      ledger disk = .ok s) (hscript : ∀ p ∈ script, LeavesFiles p.onDisk) (flag : CancelFlag)
    (cs : List Call) (hcs : ∀ c ∈ cs, c.Quiet) :
    Ran (.careless s.2.disk) script 0 s.1 ((arriving script).flatMap Batch.slices) [] cs
      ((begin s flag).run cs).1 ((begin s flag).run cs).2 := by
  have hgoes : Goes (.careless s.2.disk) script 0 s.1 ((arriving script).flatMap Batch.slices) []
      (begin s flag) :=
    begin_goes hs flag (Owns.careless_iff.mpr ⟨[], by simp, .nil _⟩)
  exact run_spec hscript (fun _ hb => by cases hb) (create_fresh hs) cs
    (fun c hc => ⟨hcs c hc, c.spares_careless _⟩) hgoes

end Begin

end Session

end SpillSort
