import SpillSort.Sort.Operator

/-!
# What steps lead to

Actions, and the layers of state and failure above them, are functions of a state. Two predicates
say what holds when a step is over, and each way to build a step has one rule for them.

* `Ensures` speaks of a step that cannot fail, `Gives` of one that may: it has a condition for the
  value and another one for the failure. If the conditions can be decided, so can these.
* `Ensures.mono` and `Gives.mono` put what is known of a part in the place of the part.
-/

namespace SpillSort

/-- A monad whose steps are functions of a state. -/
class Stateful (m : Type → Type) (σ : outParam Type) [Monad m] where
  /-- The value and the state after a step. -/
  outcome {α : Type} : m α → σ → α × σ
  outcome_pure {α : Type} (a : α) (s : σ) : outcome (pure a) s = (a, s)
  outcome_bind {α β : Type} (x : m α) (f : α → m β) (s : σ) :
    outcome (x >>= f) s = outcome (f (outcome x s).1) (outcome x s).2

instance : Stateful Action Workspace where
  outcome x w := x w
  outcome_pure _ _ := rfl
  outcome_bind _ _ _ := rfl

instance {τ : Type} : Stateful (StateT τ Action) (τ × Workspace) where
  outcome x s :=
    let ((a, t), w) := x s.1 s.2
    (a, t, w)
  outcome_pure _ _ := rfl
  outcome_bind _ _ _ := rfl

variable {m : Type → Type} {σ τ α β : Type} [Monad m] [Stateful m σ]

/-- `Q` holds of the value and the state after a step. -/
def Ensures (x : m α) (Q : α → σ → Prop) (s : σ) : Prop :=
  Q (Stateful.outcome x s).1 (Stateful.outcome x s).2

/-- After a step that may fail, `P` holds of its value or `E` of its failure, with the state. -/
def Gives (x : ExceptT Failure m α) (P : α → σ → Prop) (E : Failure → σ → Prop) (s : σ) : Prop :=
  Ensures x.run (fun r s =>
    match r with
    | .ok a => P a s
    | .error e => E e s) s

instance {x : m α} {Q : α → σ → Prop} {s : σ} [∀ a s, Decidable (Q a s)] :
    Decidable (Ensures x Q s) :=
  inferInstanceAs (Decidable (Q _ _))

instance {x : ExceptT Failure m α} {P : α → σ → Prop} {E : Failure → σ → Prop} {s : σ}
    [∀ a s, Decidable (P a s)] [∀ e s, Decidable (E e s)] : Decidable (Gives x P E s) :=
  match h : Stateful.outcome x.run s with
  | (.ok a, t) => decidable_of_iff (P a t) (by rw [Gives, Ensures, h])
  | (.error e, t) => decidable_of_iff (E e t) (by rw [Gives, Ensures, h])

/-! ## Steps that cannot fail -/

namespace Ensures

variable {Q Q' : α → σ → Prop} {s : σ}

theorem mono {x : m α} (h : Ensures x Q s) (hQ : ∀ a s, Q a s → Q' a s) : Ensures x Q' s :=
  hQ _ _ h

/-- What always holds holds after a step. -/
theorem of_forall {x : m α} (h : ∀ a s, Q a s) : Ensures x Q s := h _ _

/-- Two things that hold after a step hold together. -/
theorem and {x : m α} (h : Ensures x Q s) (h' : Ensures x Q' s) :
    Ensures x (fun a s => Q a s ∧ Q' a s) s :=
  ⟨h, h'⟩

@[simp] theorem pure_iff {a : α} : Ensures (pure a : m α) Q s ↔ Q a s := by
  rw [Ensures, Stateful.outcome_pure]

@[simp] theorem bind_iff {x : m α} {f : α → m β} {Q : β → σ → Prop} :
    Ensures (x >>= f) Q s ↔ Ensures x (fun a s => Ensures (f a) Q s) s := by
  rw [Ensures, Stateful.outcome_bind]
  rfl

@[simp] theorem map_iff [LawfulMonad m] {x : m α} {f : α → β} {Q : β → σ → Prop} :
    Ensures (f <$> x) Q s ↔ Ensures x (fun a s => Q (f a) s) s := by
  rw [← bind_pure_comp, bind_iff]
  simp only [pure_iff]

end Ensures

/-! ## Steps that may fail -/

namespace Gives

variable {P P' : α → σ → Prop} {E E' : Failure → σ → Prop} {s : σ}

theorem mono {x : ExceptT Failure m α} (h : Gives x P E s) (hP : ∀ a s, P a s → P' a s)
    (hE : ∀ e s, E e s → E' e s) : Gives x P' E' s :=
  Ensures.mono h fun r s hr => by
    cases r with
    | ok a => exact hP a s hr
    | error e => exact hE e s hr

theorem and {x : ExceptT Failure m α} (h : Gives x P E s) (h' : Gives x P' E' s) :
    Gives x (fun a s => P a s ∧ P' a s) (fun e s => E e s ∧ E' e s) s := by
  unfold Gives Ensures at *
  generalize Stateful.outcome x.run s = r at *
  rcases r with ⟨e | a, s⟩
  · exact ⟨h, h'⟩
  · exact ⟨h, h'⟩

/-- Many things that hold after a step hold together. -/
theorem all {ι : Type} {P : ι → α → σ → Prop} {E : ι → Failure → σ → Prop} {x : ExceptT Failure m α}
    (h : ∀ i, Gives x (P i) (E i) s) :
    Gives x (fun a t => ∀ i, P i a t) (fun e t => ∀ i, E i e t) s := by
  unfold Gives Ensures at *
  generalize Stateful.outcome x.run s = r at *
  rcases r with ⟨e | a, s⟩
  · exact h
  · exact h

/-- A step leads to its own outcome. -/
theorem of_outcome {x : ExceptT Failure m α} :
    Gives x (fun a t => Stateful.outcome x.run s = (.ok a, t)) (fun _ _ => True) s := by
  unfold Gives Ensures
  rcases Stateful.outcome x.run s with ⟨e | a, s⟩
  · trivial
  · rfl

@[simp] theorem pure_iff {a : α} : Gives (pure a : ExceptT Failure m α) P E s ↔ P a s :=
  Ensures.pure_iff (m := m) (a := Except.ok a)

@[simp] theorem throw_iff {e : Failure} : Gives (throw e : ExceptT Failure m α) P E s ↔ E e s :=
  Ensures.pure_iff (m := m) (a := (Except.error e : Except Failure α))

@[simp] theorem bind_iff {x : ExceptT Failure m α} {f : α → ExceptT Failure m β}
    {P : β → σ → Prop} : Gives (x >>= f) P E s ↔ Gives x (fun a s => Gives (f a) P E s) E s := by
  refine (Ensures.bind_iff (x := x.run)).trans (iff_of_eq ?_)
  refine congrArg (fun Q => Ensures x.run Q s) (funext fun r => funext fun s => ?_)
  cases r with
  | ok a => rfl
  | error e => exact propext (Ensures.pure_iff (a := (Except.error e : Except Failure β)))

@[simp] theorem map_iff [LawfulMonad m] {x : ExceptT Failure m α} {f : α → β} {P : β → σ → Prop} :
    Gives (f <$> x) P E s ↔ Gives x (fun a s => P (f a) s) E s := by
  rw [← bind_pure_comp, bind_iff]
  simp only [pure_iff]

/-- A step that cannot fail, among those that may. -/
@[simp] theorem lift_iff [LawfulMonad m] {x : m α} :
    Gives (liftM x : ExceptT Failure m α) P E s ↔ Ensures x P s := by
  show Ensures (Except.ok <$> x) _ s ↔ _
  rw [Ensures.map_iff]

/-- A value that is there already, or a failure. -/
@[simp] theorem except_iff {r : Except Failure α} :
    Gives (liftM r : ExceptT Failure m α) P E s ↔
      match r with
      | .ok a => P a s
      | .error e => E e s := by
  show Ensures (pure r : m _) _ s ↔ _
  rw [Ensures.pure_iff]

/-- An action that answers with a value or a failure is a step that may fail. -/
@[simp] theorem mk_iff {x : m (Except Failure α)} :
    Gives (ExceptT.mk x) P E s ↔ Ensures x (fun r s =>
      match r with
      | .ok a => P a s
      | .error e => E e s) s :=
  .rfl

/-- Looking at what became of a step makes two cases of its outcome. -/
@[simp] theorem run_iff {x : ExceptT Failure m α}
    {Q : Except Failure α → σ → Prop} :
    Ensures x.run Q s ↔ Gives x (fun a s => Q (.ok a) s) (fun e s => Q (.error e) s) s := by
  refine iff_of_eq (congrArg (fun Q => Ensures x.run Q s) (funext fun r => funext fun s => ?_))
  cases r <;> rfl

end Gives

/-! ## The layers of state -/

section Layers

variable {Q : α → Workspace → Prop} {w : Workspace}

namespace Ensures

@[simp] theorem get_iff {Q : Workspace → Workspace → Prop} :
    Ensures (get : Action Workspace) Q w ↔ Q w w :=
  .rfl

@[simp] theorem getThe_iff {Q : Workspace → Workspace → Prop} :
    Ensures (getThe Workspace : Action Workspace) Q w ↔ Q w w :=
  .rfl

@[simp] theorem modify_iff {f : Workspace → Workspace} {Q : PUnit → Workspace → Prop} :
    Ensures (modify f : Action PUnit) Q w ↔ Q ⟨⟩ (f w) :=
  .rfl

@[simp] theorem modifyGet_iff {f : Workspace → α × Workspace} :
    Ensures (modifyGet f : Action α) Q w ↔ Q (f w).1 (f w).2 :=
  .rfl

variable {R : α → τ × Workspace → Prop} {s : τ × Workspace}

@[simp] theorem get_layer_iff {R : τ → τ × Workspace → Prop} :
    Ensures (get : StateT τ Action τ) R s ↔ R s.1 s :=
  .rfl

@[simp] theorem modify_layer_iff {f : τ → τ} {R : PUnit → τ × Workspace → Prop} :
    Ensures (modify f : StateT τ Action PUnit) R s ↔ R ⟨⟩ (f s.1, s.2) :=
  .rfl

@[simp] theorem modifyGet_layer_iff {f : τ → α × τ} :
    Ensures (modifyGet f : StateT τ Action α) R s ↔ R (f s.1).1 ((f s.1).2, s.2) :=
  .rfl

/-- An action does not see the layer above it. -/
@[simp] theorem lift_layer_iff {x : Action α} :
    Ensures (liftM x : StateT τ Action α) R s ↔ Ensures x (fun a w => R a (s.1, w)) s.2 :=
  .rfl

/-- Running a layer from a state of its own. -/
@[simp] theorem run_layer_iff {x : StateT τ Action α} {t : τ} {Q : α × τ → Workspace → Prop} :
    Ensures (StateT.run x t : Action (α × τ)) Q w ↔
      Ensures x (fun a s => Q (a, s.1) s.2) (t, w) :=
  .rfl

end Ensures

namespace Gives

variable {P : α → Workspace → Prop} {E : Failure → Workspace → Prop}

@[simp] theorem get_iff {P : Workspace → Workspace → Prop} :
    Gives (get : Work Workspace) P E w ↔ P w w :=
  .rfl

/-- Cleaning up happens between a failure and its condition. -/
@[simp] theorem rescue_iff {x : Work α} {cleanup : Action Unit} :
    Gives (Work.rescue x cleanup) P E w ↔ Gives x P (fun e => Ensures cleanup fun _ => E e) w := by
  unfold Work.rescue
  simp only [mk_iff, Ensures.bind_iff, run_iff, Ensures.pure_iff]
  rfl

variable {R : α → τ × Workspace → Prop} {F : Failure → τ × Workspace → Prop} {s : τ × Workspace}

@[simp] theorem get_layer_iff {R : τ → τ × Workspace → Prop} :
    Gives (get : ExceptT Failure (StateT τ Action) τ) R F s ↔ R s.1 s :=
  .rfl

@[simp] theorem modify_layer_iff {f : τ → τ} {R : PUnit → τ × Workspace → Prop} :
    Gives (modify f : ExceptT Failure (StateT τ Action) PUnit) R F s ↔ R ⟨⟩ (f s.1, s.2) :=
  .rfl

@[simp] theorem modifyGet_layer_iff {f : τ → α × τ} :
    Gives (modifyGet f : ExceptT Failure (StateT τ Action) α) R F s ↔
      R (f s.1).1 ((f s.1).2, s.2) :=
  .rfl

@[simp] theorem lift_layer_iff {x : Action α} :
    Gives (liftM x : ExceptT Failure (StateT τ Action) α) R F s ↔
      Ensures x (fun a w => R a (s.1, w)) s.2 :=
  .rfl

@[simp] theorem rescue_layer_iff {x : ExceptT Failure (StateT τ Action) α} {cleanup : Action Unit} :
    Gives (Work.rescue x cleanup) R F s ↔
      Gives x R (fun e s => Ensures cleanup (fun _ w => F e (s.1, w)) s.2) s := by
  unfold Work.rescue
  simp only [mk_iff, Ensures.bind_iff, run_iff, Ensures.pure_iff]
  rfl

@[simp] theorem inMerge_iff {x : Work α} {R : α → Merger × Workspace → Prop}
    {F : Failure → Merger × Workspace → Prop} {s : Merger × Workspace} :
    Gives x.inMerge R F s ↔ Gives x (fun a w => R a (s.1, w)) (fun e w => F e (s.1, w)) s.2 :=
  .rfl

@[simp] theorem inOperator_iff {x : Work α} {R : α → Operator × Workspace → Prop}
    {F : Failure → Operator × Workspace → Prop} {s : Operator × Workspace} :
    Gives x.inOperator R F s ↔ Gives x (fun a w => R a (s.1, w)) (fun e w => F e (s.1, w)) s.2 :=
  .rfl

end Gives

end Layers

end SpillSort
