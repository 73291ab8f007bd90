import SpillSort.Proofs.Moments

/-!
# Hearing of the end

A sort goes on to hand out rows only when its input has told it that it ended.

* `Heard` says that the end was pulled.
* `Operator.Hears` is carried through taking in, and `Operator.ingest_heard` is what comes of it.
-/

namespace SpillSort

/-- The end of the input was pulled. Behind its script an input has ended. -/
def Heard (script : List Pull) (pulls : Nat) : Prop :=
  ∃ i < pulls, ((script[i]?).map Pull.outcome).getD (.ok .endOfInput) = .ok .endOfInput

theorem Heard.mono {script : List Pull} {m n : Nat} (h : Heard script m) (hle : m ≤ n) :
    Heard script n := by
  obtain ⟨i, hi, hend⟩ := h
  exact ⟨i, by omega, hend⟩

/-- The next pull has the outcome that the script has for it. -/
theorem Input.next_outcome {script : List Pull} {i : Input} (h : i.script = script.drop i.pulls) :
    i.next.1.outcome = ((script[i.pulls]?).map Pull.outcome).getD (.ok .endOfInput) := by
  rw [← Nat.add_zero i.pulls, ← List.getElem?_drop, ← h]
  unfold Input.next
  cases i.script <;> rfl

/-- Whether the input has just ended. -/
def Moment.Ends : Moment → Prop
  | came .endOfInput _ | ended true => True
  | _ => False

namespace Operator

open Workspace (Calm)

variable {script : List Pull} {s t : Operator × Workspace} {m n : Moment}

/-- An operator on its way through a script. If the input has ended, then because its end was
pulled. -/
structure Hears (script : List Pull) (m : Moment) (s : Operator × Workspace) : Prop where
  script_eq : s.1.input.script = script.drop s.1.input.pulls
  pending : s.1.pending? = some .endOfInput → Heard script s.1.input.pulls
  ended : m.Ends → Heard script s.1.input.pulls

theorem Hears.advance (h : Hears script m s) (ht : Advances s t) (hn : n.Ends → m.Ends) :
    Hears script n t := by
  obtain ⟨k, hscript, hpulls⟩ := ht.input
  have hle : s.1.input.pulls ≤ t.1.input.pulls := by omega
  refine ⟨?_, fun hp => ?_, fun he => (h.ended (hn he)).mono hle⟩
  · rw [hscript, h.script_eq, hpulls, List.drop_drop]
  · rcases ht.pending with hsame | hnone
    · exact (h.pending (hsame.symm.trans hp)).mono hle
    · rw [hnone] at hp
      cases hp

/-- An event is pulled while none waits. -/
theorem pull_hears (h : Hears script m s) (hp : s.1.pending? = none) :
    Gives pull (fun e t => Hears script .waiting t ∧ t.1.pending? = none ∧
      (e = .endOfInput → Heard script t.1.input.pulls)) (fun _ _ => True) s := by
  refine pull_gives.mono (fun e t ht => ?_) fun _ _ _ => trivial
  obtain ⟨hop, -, hout⟩ := ht
  have hscript : t.1.input.script = script.drop t.1.input.pulls := by
    rw [hop, Input.next_script, Input.next_pulls, h.script_eq, List.drop_drop]
  have hpending : t.1.pending? = none := by
    rw [hop]
    exact hp
  refine ⟨⟨hscript, fun hsome => ?_, False.elim⟩, hpending, fun he => ⟨s.1.input.pulls, ?_, ?_⟩⟩
  · rw [hpending] at hsome
    cases hsome
  · rw [hop, Input.next_pulls]
    exact Nat.lt_succ_self _
  · rw [← Input.next_outcome h.script_eq]
    exact he ▸ hout

/-- An event comes in. -/
theorem nextEvent_hears (h : Hears script m s) :
    Gives nextEvent (fun e t => Hears script .waiting t ∧ t.1.pending? = none ∧
      (e = .endOfInput → Heard script t.1.input.pulls)) (fun _ _ => True) s := by
  refine gives_nextEvent (fun e hp => ?_) fun _ => ?_
  · exact ⟨⟨h.script_eq, (fun h => by cases h), False.elim⟩, rfl,
      fun he => h.pending (hp.trans (congrArg some he))⟩
  · have h : Hears script m ({ s.1 with pending? := none }, s.2) :=
      ⟨h.script_eq, (fun h => by cases h), h.ended⟩
    exact pull_hears h rfl

/-- The schema is learnt ahead of time. -/
theorem prime_hears (h : Hears script m s) (hp : s.1.pending? = none) :
    Gives prime (fun _ t => Hears script .waiting t) (fun _ _ => True) s := by
  refine gives_prime ((pull_hears h hp).mono (fun e t ht => ?_) fun _ _ _ => trivial)
  obtain ⟨h, -, hend⟩ := ht
  cases e with
  | notYet => trivial
  | endOfInput => exact ⟨h.script_eq, fun _ => hend rfl, False.elim⟩
  | stop => exact ⟨h.script_eq, (fun h => by cases h), False.elim⟩
  | batch chunk =>
    refine Gives.mono (orderFor_stays (meets_any _) chunk.batch.schema) (fun order u hu => ?_)
      fun _ _ _ => .of_forall fun _ _ => trivial
    have hu : Hears script .waiting u := h.advance hu.toAdvances id
    exact ⟨hu.script_eq, (fun h => by cases h), False.elim⟩

/-- What comes of an event is settled once it came in. -/
theorem advance_stays (hm : m ≠ .waiting) :
    Brings Stays (fun _ => True) (Operator.advance m) (fun n _ => n.Ends → m.Ends) s := by
  have hmeets : ∀ {s : Operator × Workspace}, s.1.Meets fun _ => True := meets_any _
  have hdrop : ∀ {c : Chunk} (w : Workspace),
      Moves Calm (Workspace.onLedger c.drop) w := fun _ => Workspace.onLedger_moves _
  cases m with
  | waiting => exact absurd rfl hm
  | came e pressure =>
    have hreceive : ∀ {s : Operator × Workspace}, Brings Stays (fun _ => True) (receive e)
        (fun n _ => n.Ends → (Moment.came e pressure).Ends) s := by
      intro s
      cases e with
      | batch => exact .pure False.elim
      | endOfInput => exact .pure id
      | stop => exact .pure False.elim
      | notYet => exact Gives.throw_iff.mpr ⟨refl_of Stays s, trivial⟩
    rw [Operator.advance]
    split
    · exact .after (rescue_stays (relieveInput_stays hmeets) fun _ => Workspace.dropAll_moves _)
        fun _ _ _ => hreceive
    · exact hreceive
  | admitted chunk =>
    rw [Operator.advance]
    refine .after (rescue_stays (orderFor_stays hmeets _) hdrop) fun _ _ _ => ?_
    split
    · exact .after (action_stays (hdrop _)) fun _ _ _ => .pure False.elim
    · refine .after get_stays fun _ _ _ => ?_
      exact .after (action_stays (Workspace.withLedger_moves _)) fun _ _ _ => .pure False.elim
  | staging order chunk slices =>
    cases slices with
    | nil => exact .after (action_stays (hdrop _)) fun _ _ _ => .pure False.elim
    | cons => exact .after (action_stays (Workspace.withLedger_moves _)) fun _ _ _ => .pure False.elim
  | holding =>
    exact .after (rescue_stays (keepSlice_stays hmeets ..) hdrop) fun _ _ _ => .pure False.elim
  | kept =>
    exact .after (rescue_stays (relieve_stays hmeets) hdrop) fun _ _ _ => .pure False.elim
  | ended => exact .pure id

theorem hears_carried (script : List Pull) : Carried (Hears script) := by
  intro m s h
  by_cases hm : m = .waiting
  · subst hm
    simp only [Operator.advance, Gives.bind_iff]
    refine Gives.mono (action_stays (p := fun _ => True) Workspace.cancelled_moves)
      (fun b t ht => ?_) fun _ _ _ => trivial
    have h : Hears script .waiting t := h.advance ht.toAdvances id
    split
    · rw [Gives.bind_iff, Gives.throw_iff]
      trivial
    simp only [Gives.bind_iff, Gives.modifyGet_layer_iff, Gives.pure_iff]
    refine (nextEvent_hears h).mono (fun e u hu => ?_) fun _ _ _ => trivial
    obtain ⟨hu, -, hend⟩ := hu
    refine ⟨hu.script_eq, hu.pending, fun he => hend ?_⟩
    cases e with
    | endOfInput => rfl
    | _ => exact he.elim
  · exact Gives.mono (advance_stays hm) (fun n t ht => h.advance ht.1.toAdvances ht.2)
      fun _ _ _ => trivial

/-- Taking in goes on to the final merge only behind the end of the input. -/
theorem ingest_heard (h : Hears script .waiting s) :
    Gives (ingest (s.1.input.script.length + 2))
      (fun goesOn t => goesOn → Heard script t.1.input.pulls) (fun _ _ => True) s := by
  refine ((hears_carried script).takeAll h).mono (fun goesOn t ht hgoes => ht.ended ?_)
    fun _ _ _ => trivial
  rw [hgoes]
  trivial

end Operator

end SpillSort
