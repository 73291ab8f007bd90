import SpillSort.Proofs.Turns

/-!
# Replays

A failed operator repeats its failure. The copy that it repeats has the kinds, the operators and the
rows of the first answer at every level, and the same text unless columns are to blame: their fault
survives only as a text inside a new fault, so its text grows with each copy.

* `Failure.replay_eq_iff` and `Failure.message_replay_iff` say which failures are their own copies.
* `Session.failures_repeat` is about all later calls of a session that failed.
-/

namespace SpillSort

namespace Failure

/-- A failure with the failures it wraps, the outermost first. -/
def levels : Failure → List Failure
  | failed operator rows source => failed operator rows source :: source.levels
  | e => [e]

/-- The innermost failure. -/
def core : Failure → Failure
  | failed _ _ source => source.core
  | e => e

/-- What a failure shows besides its text: the kind, and the operator and the rows of a wrapper. -/
def stamp : Failure → String × Option (String × Nat)
  | failed operator rows source => ((failed operator rows source).label, some (operator, rows))
  | e => (e.label, none)

/-- Whether columns are to blame. -/
def OfColumns (e : Failure) : Prop := ∃ fault, e.core = column fault

theorem levels_replay (e : Failure) : e.replay.levels = e.levels.map replay := by
  induction e with
  | failed operator rows source ih => exact congrArg _ ih
  | _ => rfl

theorem stamp_replay (e : Failure) : e.replay.stamp = e.stamp := by
  cases e <;> rfl

/-- A copy has the same kinds, operators and rows at every level. -/
theorem stamps_replay (e : Failure) : e.replay.levels.map stamp = e.levels.map stamp := by
  rw [levels_replay, List.map_map]
  exact List.map_congr_left fun x _ => stamp_replay x

theorem length_toString (text : String) : (toString text).length = text.length := rfl

theorem length_message_column (fault : ColumnFault) :
    (column fault).message.length = "arrow error: ".length + fault.message.length := by
  unfold message
  rw [String.length_append, length_toString, length_toString]

theorem length_message_external (text : String) :
    (ColumnFault.external text).message.length = "External error: ".length + text.length := by
  unfold ColumnFault.message
  rw [String.length_append, length_toString, length_toString]

/-- What a wrapper puts in front of a text does not depend on the text. -/
theorem exists_length_message_failed (operator : String) (rows : Nat) : ∃ k, ∀ source : Failure,
    (failed operator rows source).message.length = k + source.message.length := by
  refine ⟨(toString operator ++ toString " failed after " ++ toString rows ++
    toString " rows: ").length, fun source => ?_⟩
  conv => lhs; unfold message
  rw [String.length_append, length_toString source.message]

/-- The text of a copy is longer if columns are to blame, by what the fault around it adds. -/
theorem length_message_replay {e : Failure} (h : e.OfColumns) :
    e.replay.message.length = "External error: ".length + e.message.length := by
  induction e with
  | column fault =>
    rw [replay, length_message_column, length_message_external, length_message_column]
    exact Nat.add_left_comm ..
  | failed operator rows source ih =>
    obtain ⟨k, hk⟩ := exists_length_message_failed operator rows
    rw [replay, hk, hk, ih h]
    exact Nat.add_left_comm ..
  | _ =>
    obtain ⟨fault, hf⟩ := h
    cases hf

/-- Only a failure of columns is not its own copy. -/
theorem replay_eq_of_not {e : Failure} (h : ¬e.OfColumns) : e.replay = e := by
  induction e with
  | column fault => exact absurd ⟨fault, rfl⟩ h
  | failed operator rows source ih => exact congrArg _ (ih h)
  | _ => rfl

theorem message_replay_iff (e : Failure) : e.replay.message = e.message ↔ ¬e.OfColumns := by
  refine ⟨fun hm hc => ?_, fun hc => congrArg message (replay_eq_of_not hc)⟩
  have hlength := length_message_replay hc
  rw [hm] at hlength
  exact absurd hlength (Nat.lt_add_of_pos_left (by decide)).ne

theorem replay_eq_iff (e : Failure) : e.replay = e ↔ ¬e.OfColumns :=
  ⟨fun he => (message_replay_iff e).mp (congrArg message he), replay_eq_of_not⟩

end Failure

namespace Session

variable {T : Setting} {f e : Failure} {s : Session} {c : Call}

/-- A call that fails records its failure, or repeats one that was recorded before. -/
theorem perform_failure (h : Phase T s) (c : Call) (he : e ∈ (s.perform c).1.failures) :
    ∃ f, Operator.Faulty T f (s.perform c).2.state ∧ (e = f ∨ e = f.replay.replay) := by
  cases h with
  | sound h =>
    rcases h.perform c with ⟨hnone, -⟩ | ⟨_, _, -, hfails, hfaulty, -⟩
    · rw [hnone] at he
      cases he
    · rw [hfails] at he
      exact ⟨_, hfaulty, .inl (List.mem_singleton.mp he)⟩
  | faulty h =>
    have hturn := perform_faulty h c
    rw [hturn.reply] at he
    exact ⟨_, hturn.faulty, .inr (Call.eq_of_mem_failing he)⟩

/-- **Failures repeat.** A copy of a failure shows the same at every level but for its texts, and it is
the failure itself, with the same text, unless columns are to blame. Once a call has failed, every later
pull and every later look at the schema fails in one and the same way, whatever else is called in between:
with the failure itself or, if columns are to blame, with a copy of a copy of it. -/
theorem failures_repeat (e : Failure) :
    (e.replay.levels.map Failure.stamp = e.levels.map Failure.stamp ∧
      (e.replay = e ↔ ¬e.OfColumns) ∧ (e.replay.message = e.message ↔ ¬e.OfColumns)) ∧
    ∀ {name options makeOrder script pressure stem fragment ledger disk s},
      Operator.create name options makeOrder { script, pressure } stem fragment ledger disk = .ok s →
      ∀ (flag : CancelFlag) (pre : List Call) (c : Call),
        e ∈ (((begin s flag).run pre).2.perform c).1.failures →
        ∃ g, (g = e ∨ e.OfColumns ∧ g = e.replay.replay) ∧
          g.levels.map Failure.stamp = e.levels.map Failure.stamp ∧
          ∀ post, ((((begin s flag).run pre).2.perform c).2.run post).1 = post.map (Call.failing g) := by
  refine ⟨⟨e.stamps_replay, e.replay_eq_iff, e.message_replay_iff⟩, ?_⟩
  intro name options makeOrder script pressure stem fragment ledger disk s hs flag pre c he
  have hopen := begin_open (p := fun _ => True) hs flag (fun _ _ => trivial)
    (fun _ _ _ _ => trivial) fun _ _ _ _ => trivial
  obtain ⟨f, hfaulty, rfl | rfl⟩ := perform_failure ((Phase.sound (.inl hopen)).run pre) c he
  · refine ⟨e.replay.replay, ?_, ?_, fun post => (run_faulty hfaulty post).1⟩
    · by_cases hc : e.OfColumns
      · exact .inr ⟨hc, rfl⟩
      · rw [e.replay_eq_iff.mpr hc, e.replay_eq_iff.mpr hc]
        exact .inl rfl
    · rw [Failure.stamps_replay, Failure.stamps_replay]
  · exact ⟨f.replay.replay, .inl rfl, rfl, fun post => (run_faulty hfaulty post).1⟩

/-- An input that would have to be asked again: the sort fails, and goes on to fail in the same way after
it was killed and closed. -/
theorem failures_repeat_not_yet : ∃ s,
    Sample.operator Sample.options [{ outcome := .ok .notYet }] = .ok s ∧
    let e := Operator.notYetFailure.withOperator "SORT" 0
    let t := ((begin s {}).perform (.next true))
    e ∈ t.1.failures ∧ (t.2.run [.kill, .next true, .close, .buildSchema]).1 =
      [.nothing, .poll (.error e), .nothing, .schema (.error e)] := by
  have hpasses : Sample.passes Sample.options [{ outcome := .ok .notYet }] fun s =>
      ((begin s {}).perform (.next true)).1.failures ==
        [Operator.notYetFailure.withOperator "SORT" 0] := by
    decide +kernel
  obtain ⟨s, hs, hrun⟩ := Sample.exists_of_passes hpasses
  have he : Operator.notYetFailure.withOperator "SORT" 0 ∈
      (((begin s {}).run []).2.perform (.next true)).1.failures := by
    rw [show (((begin s {}).run []).2.perform (.next true)).1.failures = _ from beq_iff_eq.mp hrun]
    exact List.mem_singleton.mpr rfl
  obtain ⟨g, hg, -, hpost⟩ := (failures_repeat _).2 hs {} [] (.next true) he
  obtain rfl := hg.resolve_right fun hc => by
    obtain ⟨⟨fault, hf⟩, -⟩ := hc
    cases hf
  exact ⟨s, hs, he, hpost _⟩

/-- A failure of columns changes its text: the second pull does not answer as the first one. -/
theorem failures_change_column_fault : ∃ s e g,
    Sample.operator Sample.options [{ outcome := .error (.column (.compute "x")) }] = .ok s ∧
      ((begin s {}).run [.next true, .next true]).1.flatMap Reply.failures = [e, g] ∧
      g.message ≠ e.message := by
  have hpasses : Sample.passes Sample.options [{ outcome := .error (.column (.compute "x")) }] fun s =>
      let es := ((begin s {}).run [.next true, .next true]).1.flatMap Reply.failures
      es.length == 2 && (es.map Failure.message).Nodup := by
    decide +kernel
  obtain ⟨s, hs, hrun⟩ := Sample.exists_of_passes hpasses
  rw [Bool.and_eq_true, beq_iff_eq, decide_eq_true_iff] at hrun
  obtain ⟨e, g, hes⟩ := List.length_eq_two.mp hrun.1
  have hnodup := hrun.2
  rw [hes] at hnodup
  exact ⟨s, e, g, hs, hes, fun heq => (List.nodup_cons.mp hnodup).1 (List.mem_singleton.mpr heq.symm)⟩

end Session

end SpillSort
