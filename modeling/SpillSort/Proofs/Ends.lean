import SpillSort.Proofs.Intake

/-!
# Ends

However a sort ends, it lets go of its groups, of a final merge, and of what was pulled ahead. What
is left are the charges for the pulls still to come.

* `Operator.Live` is an operator with all that it may hold, `Operator.Over` one that has let go of it.
* `Operator.fail_spec`, `Operator.releaseOnCancel_spec`, `Operator.kill_spec` and `Operator.close_spec`
  lead from one to the other.
-/

namespace SpillSort

open Memory Spill

variable {E : Surroundings} {w : Workspace} {R S U : Resources} {script : List Pull}

namespace Stage

/-- What a stage owns. -/
def Keeps (stage : Stage) (U : Resources) : Prop :=
  match stage with
  | finalMemory m => U = {.lease m.lease}
  | finalMerge m _ => m.Keeps U
  | _ => U = 0

/-- The stage that is left when a final merge is let go of. -/
def ended : Stage → Stage
  | finalMemory _ => done
  | finalMerge _ _ => done
  | stage => stage

theorem drop_spec {stage : Stage} (h : stage.Keeps U) (hw : Owns E w (U + S)) :
    Ensures stage.drop (fun _ w => Owns E w S) w := by
  unfold Stage.drop
  split
  · next m =>
    obtain rfl : U = {.lease m.lease} := h
    exact MemoryMerge.drop_spec hw
  · exact Merger.drop_spec h hw
  · next hmemory hmerge =>
    obtain rfl : U = 0 := by
      unfold Keeps at h
      split at h
      · exact absurd rfl (hmemory _)
      · exact absurd rfl (hmerge _ _)
      · exact h
    rw [Ensures.pure_iff]
    exact hw.cast (zero_add S)

end Stage

namespace Operator

variable {op op' : Operator} {s : Operator × Workspace}

theorem enter_spec (h : op.stage.Keeps U) (hw : Owns E w (U + S)) (stage : Stage) :
    Ensures (enter stage) (fun _ s => s.1 = { op with stage } ∧ Owns E s.2 S) (op, w) :=
  ensures_enter ((Stage.drop_spec h hw).mono fun _ _ hw => ⟨rfl, hw⟩)

/-- An operator that has let go of everything. -/
def emptied (op : Operator) : Operator :=
  { op with pending? := none, resident := #[], spilled := #[], stage := op.stage.ended }

theorem releaseGroups_spec (hg : op.KeepsGroups R) (hk : op.stage.Keeps U)
    (hw : Owns E w (R + (U + (.charges op.pendingCharges + S)))) :
    Ensures releaseGroups (fun _ s => s.1 = op.emptied ∧ Owns E s.2 S) (op, w) := by
  obtain ⟨R₁, R₂, hres, hsp, rfl⟩ := hg
  have hw : Owns E w (.charges op.pendingCharges + (R₁ + (R₂ + (U + S)))) := hw.cast (by abel)
  unfold releaseGroups
  simp only [Ensures.bind_iff, Ensures.modifyGet_layer_iff, Ensures.lift_layer_iff,
    Ensures.get_layer_iff]
  refine hw.dropAll.mono fun _ w hw => ?_
  refine (SortedGroup.dropAll_spec hres hw).mono fun _ w hw => ?_
  refine (SortedGroup.dropAll_spec hsp hw).mono fun _ w hw => ?_
  unfold emptied
  cases hstage : op.stage with
  | finalMemory m =>
    rw [hstage] at hk
    exact enter_spec hk hw .done
  | finalMerge m rows =>
    rw [hstage] at hk
    exact enter_spec hk hw .done
  | _ =>
    rw [hstage] at hk
    obtain rfl : U = 0 := hk
    exact Ensures.pure_iff.mpr ⟨rfl, hw.cast (zero_add S)⟩

/-! ## Everything is let go of -/

/-- An operator with all that it may hold. -/
def Live (E : Surroundings) (script : List Pull) (S : Resources) (s : Operator × Workspace) : Prop :=
  ∃ taken R U, s.1.KeepsGroups R ∧ s.1.stage.Keeps U ∧ s.1.Draws script taken ∧
    Owns (E.take taken) s.2
      (R + (U + (.charges s.1.pendingCharges + (.charges s.1.input.charges + S))))

/-- An operator that has let go of its groups and of a final merge; it is done, or failed for a
recorded reason. -/
structure Over (E : Surroundings) (script : List Pull) (S : Resources) (s : Operator × Workspace) :
    Prop where
  resident : s.1.resident = #[]
  spilled : s.1.spilled = #[]
  stage : s.1.stage = .done ∨ s.1.stage = .failed ∧ s.1.failure?.isSome
  rest : ∃ taken, s.1.Draws script taken ∧
    Owns (E.take taken) s.2 (.charges s.1.pendingCharges + (.charges s.1.input.charges + S))

/-- What never changes about an operator. -/
def core (op : Operator) : Operator :=
  { op.frame with
    stage := .uninitialized, schemaEmitted := false, rowsReturned := 0, released := false
    failure? := none }

theorem core_of_frame (h : op'.frame = op.frame) : op'.core = op.core :=
  congrArg (fun op => { op with
    stage := .uninitialized, schemaEmitted := false, rowsReturned := 0, released := false
    failure? := none }) h

theorem keepsGroups_zero (hr : op.resident = #[]) (hs : op.spilled = #[]) : op.KeepsGroups 0 :=
  ⟨0, 0, by rw [hr]; exact .nil, by rw [hs]; exact .nil, rfl⟩

theorem Over.live (h : Over E script S s) : Live E script S s := by
  obtain ⟨taken, hd, hw⟩ := h.rest
  refine ⟨taken, 0, 0, keepsGroups_zero h.resident h.spilled, ?_, hd, by simpa using hw⟩
  rcases h.stage with hst | ⟨hst, -⟩
  · rw [hst]
    exact rfl
  · rw [hst]
    exact rfl

theorem Draws.emptied {taken : List ChargeId} (h : op.Draws script taken) :
    op.emptied.Draws script taken :=
  h.forget.congr rfl rfl rfl rfl rfl rfl

theorem Live.release (h : Live E script S s) :
    Ensures releaseGroups (fun _ t => t.1 = s.1.emptied ∧ ∃ taken, s.1.emptied.Draws script taken ∧
      Owns (E.take taken) t.2 (.charges s.1.input.charges + S)) s := by
  obtain ⟨taken, R, U, hg, hk, hd, hw⟩ := h
  exact (releaseGroups_spec hg hk hw).mono fun _ t ht => ⟨ht.1, taken, hd.emptied, ht.2⟩

/-- What an action does to the resources of others. -/
def Frames {α : Type} (E : Surroundings) (x : Action α) (w : Workspace) (S S' : Resources) : Prop :=
  ∀ (taken : List ChargeId) (R : Resources), Owns (E.take taken) w (R + S) →
    Ensures x (fun _ w => Owns (E.take taken) w (R + S')) w

theorem Live.frame {α : Type} {x : Action α} {S' : Resources} (h : Live E script S s)
    (hx : Frames E x s.2 S S') : Ensures x (fun _ w => Live E script S' (s.1, w)) s.2 := by
  obtain ⟨taken, R, U, hg, hk, hd, hw⟩ := h
  simp only [← add_assoc] at hw
  refine (hx taken _ hw).mono fun _ w hw => ⟨taken, R, U, hg, hk, hd, ?_⟩
  simpa only [add_assoc] using hw

theorem Over.frame {α : Type} {x : Action α} {S' : Resources} (h : Over E script S s)
    (hx : Frames E x s.2 S S') : Ensures x (fun _ w => Over E script S' (s.1, w)) s.2 := by
  obtain ⟨taken, hd, hw⟩ := h.rest
  simp only [← add_assoc] at hw
  refine (hx taken _ hw).mono fun _ w hw => ⟨h.resident, h.spilled, h.stage, taken, hd, ?_⟩
  simpa only [add_assoc] using hw

theorem frames_note (n : Notice) : Frames E (Workspace.note n) w S S := fun _ _ hw => hw.note n

/-- Nothing of a workspace but the ledger, the disk and the flag matters. -/
theorem frames_modify {f : Workspace → Workspace}
    (hf : ∀ w, (f w).ledger = w.ledger ∧ (f w).disk = w.disk ∧ (f w).cancel = w.cancel) :
    Frames E (modify f : Action Unit) w S S := by
  intro taken R hw
  obtain ⟨hl, hd, hc⟩ := hf w
  exact hw.congr hl hd hc

theorem frames_raiseCancel : Frames E Workspace.raiseCancel w S S := fun _ _ hw => hw.raiseCancel

theorem frames_cancelled : Frames E Workspace.cancelled w S S :=
  fun _ _ hw => hw.cancelled.mono fun _ _ hw => hw.2

/-- A stage that is no final merge can be left without more ado. -/
theorem enter_ended {R : Resources} (h : s.1.stage.ended = s.1.stage) (hw : Owns E s.2 R)
    (stage : Stage) :
    Ensures (enter stage) (fun _ t => t.1 = { s.1 with stage } ∧ Owns E t.2 R) s := by
  have hk : s.1.stage.Keeps 0 := by
    rw [← h]
    unfold Stage.ended
    cases s.1.stage <;> rfl
  exact enter_spec hk (hw.cast (zero_add R).symm) stage

theorem Stage.ended_ended (stage : Stage) : stage.ended.ended = stage.ended := by
  cases stage <;> rfl

theorem fail_spec (h : Live E script S s) (e : Failure) :
    Ensures (fail e) (fun _ t => Over E script S t ∧ t.1.core = s.1.core ∧ t.1.failure?.isSome) s := by
  unfold fail
  simp only [Ensures.bind_iff, Ensures.get_layer_iff, Ensures.lift_layer_iff]
  refine (h.frame (frames_note _)).mono fun _ w h => ?_
  refine (h.frame (frames_modify ?_)).mono fun _ w h => ?_
  · exact fun _ => ⟨rfl, rfl, rfl⟩
  refine h.release.mono fun _ t ht => ?_
  obtain ⟨hop, taken, hd, hw⟩ := ht
  refine (enter_ended (by rw [hop]; exact Stage.ended_ended _) hw _).mono fun _ u hu => ?_
  rw [Ensures.modify_layer_iff, Ensures.pure_iff, hu.1, hop]
  exact ⟨⟨rfl, rfl, .inr ⟨rfl, rfl⟩, taken, hd.congr rfl rfl rfl rfl rfl rfl,
    hu.2.cast (zero_add _).symm⟩, rfl, rfl⟩

/-- What a cancellation leaves; only the first one changes anything. -/
theorem releaseOnCancel_spec (h : Live E script S s) (ho : s.1.released → Over E script S s) :
    Ensures releaseOnCancel (fun _ t => Over E script S t ∧ t.1.core = s.1.core ∧ t.1.released ∧
      t.1.failure? = s.1.failure?) s := by
  unfold releaseOnCancel
  simp only [Ensures.bind_iff, Ensures.get_layer_iff]
  split
  · next hr => exact Ensures.pure_iff.mpr ⟨ho hr, rfl, hr, rfl⟩
  · unfold Operator.note
    simp only [Ensures.bind_iff, Ensures.get_layer_iff, Ensures.lift_layer_iff]
    refine (h.frame (frames_note _)).mono fun _ w h => ?_
    refine h.release.mono fun _ t ht => ?_
    obtain ⟨hop, taken, hd, hw⟩ := ht
    refine (enter_ended (by rw [hop]; exact Stage.ended_ended _) hw _).mono fun _ u hu => ?_
    rw [Ensures.modify_layer_iff, hu.1, hop]
    exact ⟨⟨rfl, rfl, .inl rfl, taken, hd.congr rfl rfl rfl rfl rfl rfl,
      hu.2.cast (zero_add _).symm⟩, rfl, rfl, rfl⟩

theorem kill_spec (h : Live E script S s) (ho : s.1.released → Over E script S s) :
    Ensures kill (fun _ t => Over E script S t ∧ t.1.core = s.1.core) s := by
  unfold kill
  simp only [Ensures.bind_iff, Ensures.lift_layer_iff]
  have hover : Ensures Workspace.raiseCancel
      (fun _ w => s.1.released → Over E script S (s.1, w)) s.2 :=
    fun hr => (ho hr).frame frames_raiseCancel
  refine ((h.frame frames_raiseCancel).and hover).mono fun _ w hw => ?_
  exact (releaseOnCancel_spec hw.1 hw.2).mono fun _ t ht => ⟨ht.1, ht.2.1⟩

theorem close_spec (h : Live E script S s)
    (hf : s.1.stage = .failed → s.1.failure?.isSome) :
    Ensures close (fun _ t => Over E script S t ∧ t.1.core = s.1.core) s := by
  unfold close
  simp only [Ensures.bind_iff, Ensures.get_layer_iff, Ensures.lift_layer_iff]
  refine (h.frame (frames_modify ?_)).mono fun _ w h => ?_
  · exact fun _ => ⟨rfl, rfl, rfl⟩
  refine h.release.mono fun _ t ht => ?_
  obtain ⟨hop, taken, hd, hw⟩ := ht
  split
  · next hstage =>
    have hfailed : s.1.stage = .failed := by
      rw [hop] at hstage
      unfold emptied Stage.ended at hstage
      revert hstage
      cases s.1.stage <;> simp
    refine Ensures.pure_iff.mpr ⟨⟨?_, ?_, .inr ⟨hstage, ?_⟩, taken, ?_⟩, ?_⟩
    all_goals rw [hop]
    · rfl
    · rfl
    · exact hf hfailed
    · exact ⟨hd, hw.cast (zero_add _).symm⟩
    · rfl
  · refine (enter_ended (by rw [hop]; exact Stage.ended_ended _) hw _).mono fun _ u hu => ?_
    obtain ⟨op', w'⟩ := u
    obtain rfl : op' = { s.1.emptied with stage := .done } := hop ▸ hu.1
    exact ⟨⟨rfl, rfl, .inl rfl, taken, hd.congr rfl rfl rfl rfl rfl rfl,
      hu.2.cast (zero_add _).symm⟩, rfl⟩

end Operator

end SpillSort
