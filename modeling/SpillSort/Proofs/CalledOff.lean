import SpillSort.Proofs.Turns

/-!
# Sorts that are called off before they begin

The first pull looks at the cancel flag twice before it takes anything in. If the flag is up by then
the sort is called off: it lets go of an event that was pulled ahead of time, stops its input, and has
nothing to show for itself, then and later.

* `Operator.next_calledOff` is that first pull, `Session.run_calledOff` all pulls from then on.
* `Ledger.get?_dropAll` says which trackers notice that an event was let go of.
-/

namespace SpillSort

open Memory

/-- Whether a flag is up at one of the next two looks. -/
def CancelFlag.upSoon (f : CancelFlag) : Bool := f.look.2.look.1

namespace CancelFlag

variable {f : CancelFlag}

theorem look_of_up (h : f.look.1 = true) : f.look.2 = { raised := true } := by
  rcases f with ⟨_ | _, _ | _ | n⟩
  · cases h
  · rfl
  · cases h
  · rfl
  · rfl
  · rfl

theorem look_down (h : f.upSoon = false) : f.look.1 = false := by
  rcases f with ⟨_ | _, _ | _ | n⟩
  · rfl
  · cases h
  · rfl
  · cases h
  · cases h
  · cases h

end CancelFlag

/-! ## Trackers that do not notice -/

namespace Memory

theorem Forest.get?_onPath_of_not_mem {f : Forest} {g : Tracker → Tracker} {id t : TrackerId}
    (ht : t ∉ f.path id) : (f.onPath id g).get? t = f.get? t := by
  have hfold : ∀ (path : List TrackerId) (ts : Array Tracker), t ∉ path →
      (path.foldl (fun ts j => ts.modify j g) ts)[t]? = ts[t]? := by
    intro path
    induction path with
    | nil => exact fun _ _ => rfl
    | cons j js ih =>
      intro ts ht
      rw [List.foldl_cons, ih _ (List.not_mem_of_not_mem_cons ht), Array.getElem?_modify,
        if_neg (Ne.symm (List.ne_of_not_mem_cons ht))]
  exact hfold _ _ ht

namespace Ledger

variable {l : Ledger} {t : TrackerId}

/-- No charge is on a tracker or below it. -/
def Spares (l : Ledger) (t : TrackerId) : Prop := ∀ x ∈ l.charges, t ∉ l.forest.path x.tracker

/-- Nothing changes at a tracker when charges are let go of that are not below it. -/
theorem get?_dropAll (h : l.Spares t) (cs : List ChargeId) :
    (l.dropAll cs).forest.get? t = l.forest.get? t := by
  induction cs generalizing l with
  | nil => rfl
  | cons c cs ih =>
    show ((l.drop c).dropAll cs).forest.get? t = _
    rcases hc : l.charges[c]? with _ | x
    · rw [show l.drop c = l by simp only [drop, hc]]
      exact ih h
    have hpath : (l.drop c).forest.path = l.forest.path := by
      rw [drop_of_some hc]
      dsimp only
      split
      · exact Forest.path_release
      · rfl
    have hspares : (l.drop c).Spares t := by
      intro y hy
      rw [hpath]
      rw [drop_of_some hc] at hy
      obtain ⟨d, hd⟩ := Array.mem_iff_getElem?.mp hy
      rw [Array.getElem?_modify] at hd
      split at hd
      · obtain ⟨z, hz, rfl⟩ := Option.map_eq_some_iff.mp hd
        exact h z (Array.mem_of_getElem? hz)
      · exact h y (Array.mem_of_getElem? hd)
    rw [ih hspares, drop_of_some hc]
    dsimp only
    split
    · unfold Forest.release
      split
      · rfl
      · exact Forest.get?_onPath_of_not_mem (h x (Array.mem_of_getElem? hc))
    · rfl

/-- A tracker that was just made bears nothing. -/
theorem Balanced.spares_addChild {cs : List ChargeId} (h : l.Balanced cs) (label : String)
    (limit : Int64) (parent : TrackerId) :
    (l.addChild label limit parent).2.Spares (l.addChild label limit parent).1 := by
  intro x hx hm
  have hlt := h.charged x hx
  have hm' : l.forest.trackers.size ∈ Forest.path ⟨l.forest.trackers.push _⟩ x.tracker := hm
  rw [Forest.path_push_of_lt hlt] at hm'
  exact Nat.lt_irrefl _ (h.lt_size_of_mem_path hlt hm')

end Ledger

end Memory

namespace Operator

variable {op : Operator} {s : Operator × Workspace}

/-- An operator that has nothing but perhaps an event that was pulled ahead of time. -/
structure Idle (op : Operator) : Prop extends Fresh op where
  resident : op.resident = #[]
  spilled : op.spilled = #[]

/-- An operator that was called off before it took anything in. -/
def calledOff (op : Operator) : Operator :=
  { op with
    pending? := none, resident := #[], spilled := #[]
    stage := .done, input := op.input.kill, released := true }

/-- What becomes of the workspace of such an operator. -/
def CallsOff (s t : Operator × Workspace) : Prop :=
  t.1 = s.1.calledOff ∧ ∃ journal,
    t.2 = { s.2 with
      ledger := s.2.ledger.dropAll ((s.1.pending?.map Event.charges).getD [])
      cancel := { raised := true }, journal }

/-- An idle operator lets go of the event that waits, and is done. -/
theorem releaseOnCancel_idle (h : s.1.Idle) {stage : Stage}
    (hstage : stage = .uninitialized ∨ stage = .ingesting) :
    Ensures releaseOnCancel (fun _ t => t.1 = s.1.calledOff ∧ ∃ journal,
      t.2 = { s.2 with
        ledger := s.2.ledger.dropAll ((s.1.pending?.map Event.charges).getD []), journal })
      ({ s.1 with stage }, s.2) := by
  have hearly : ∀ {op : Operator} {w : Workspace}, op.stage = stage →
      Ensures (enter .done) (fun _ t => t = ({ op with stage := .done }, w)) (op, w) :=
    fun hop => enter_early (by rwa [hop])
  unfold releaseOnCancel
  rw [Ensures.bind_iff, Ensures.get_layer_iff, h.released]
  simp only [Bool.false_eq_true, if_false, releaseGroups, Ensures.bind_iff, note,
    Ensures.get_layer_iff, Ensures.lift_layer_iff, Workspace.note, Ensures.modify_iff,
    Ensures.modifyGet_layer_iff, h.resident, h.spilled, SortedGroup.dropAll, Ensures.pure_iff,
    Workspace.dropAll, Workspace.onLedger]
  rcases hstage with rfl | rfl
  · refine Ensures.pure_iff.mpr ((hearly rfl).mono fun _ t ht => ?_)
    subst ht
    exact Ensures.modify_layer_iff.mpr ⟨rfl, _, rfl⟩
  · refine Ensures.pure_iff.mpr ((hearly rfl).mono fun _ t ht => ?_)
    subst ht
    exact Ensures.modify_layer_iff.mpr ⟨rfl, _, rfl⟩

/-- A round of taking in that finds the flag up is cancelled. -/
theorem ingest_up (hup : s.2.cancel.look.1 = true) (count : Nat) :
    Gives (ingest (count + 1)) (fun _ _ => False)
      (fun e t => e = .cancelled ∧ t = (s.1, { s.2 with cancel := { raised := true } })) s := by
  refine gives_ingest_succ (Q := fun _ _ => False) (R := fun _ _ => False) ?_ (fun _ _ hf => hf)
    (fun _ _ hf => hf.elim) fun _ _ hf => hf.elim
  refine ⟨fun _ => ⟨rfl, ?_⟩, fun hdown => absurd (hup.symm.trans hdown) nofun⟩
  show (s.1, { s.2 with cancel := s.2.cancel.look.2 }) = _
  rw [CancelFlag.look_of_up hup]

/-- The first pull of an idle operator whose flag is up soon. -/
theorem next_calledOff (h : s.1.Idle) (hup : s.2.cancel.upSoon = true) :
    Ensures next (fun r t => r = .ok .stopped ∧ CallsOff s t) s := by
  refine ensures_next (fun e he => absurd (h.failure.symm.trans he) nofun) fun _ => ?_
  show if s.2.cancel.look.1 then _ else _
  cases hfirst : s.2.cancel.look.1 with
  | true =>
    -- the pull itself finds the flag up
    rw [if_pos rfl]
    refine (releaseOnCancel_idle (s := (s.1, { s.2 with cancel := s.2.cancel.look.2 })) h
      (.inl h.stage)).mono fun _ t ht => ⟨rfl, ht.1, ?_⟩
    obtain ⟨journal, hjournal⟩ := ht.2
    exact ⟨journal, by rw [hjournal, CancelFlag.look_of_up hfirst]⟩
  | false =>
    -- it goes on to take in, where the flag is found up
    rw [if_neg nofun]
    refine gives_step (gives_takeIn h.stage ?_)
    refine (ingest_up (s := ({ s.1 with stage := .ingesting },
      { s.2 with cancel := s.2.cancel.look.2 })) hup _).mono (fun _ _ hf => hf.elim) fun e t ht => ?_
    obtain ⟨rfl, rfl⟩ := ht
    rw [if_pos (show Failure.cancelled.isCancelled = true from rfl)]
    exact (releaseOnCancel_idle (s := (s.1, { s.2 with cancel := { raised := true } })) h
      (.inr rfl)).mono fun _ t ht => ⟨rfl, ht.1, ht.2⟩

/-- A pull of an operator that was called off changes nothing. -/
theorem next_released (hf : s.1.failure? = none) (hr : s.1.released = true)
    (hup : s.2.cancel = { raised := true }) :
    Ensures next (fun r t => r = .ok .stopped ∧ t = s) s := by
  have hlook : Ensures Workspace.cancelled (fun raised w => raised = true ∧ w = s.2) s.2 := by
    obtain ⟨op, w⟩ := s
    obtain ⟨ledger, disk, spiller, cancel, journal, fragment, node⟩ := w
    obtain rfl : cancel = _ := hup
    exact ⟨rfl, rfl⟩
  refine ensures_next (fun e he => absurd (hf.symm.trans he) nofun) fun _ => ?_
  refine hlook.mono fun raised w hw => ?_
  obtain ⟨rfl, rfl⟩ := hw
  rw [if_pos rfl]
  unfold releaseOnCancel
  rw [Ensures.bind_iff, Ensures.get_layer_iff, hr, if_pos rfl]
  exact Ensures.pure_iff.mpr ⟨rfl, rfl⟩

end Operator

namespace Session

variable {s t : Session} {cs : List Call}

theorem eq_of_state (h : t.state = s.state) (hheld : t.held = s.held) : t = s := by
  obtain ⟨op, w, held⟩ := s
  obtain ⟨op', w', held'⟩ := t
  obtain ⟨rfl, rfl⟩ := Prod.mk.inj h
  obtain rfl : held' = held := hheld
  rfl

/-- A pull that answers that the sort is stopped. -/
theorem perform_next_stopped {Q : Operator × Workspace → Prop}
    (h : Ensures Operator.next (fun r t => r = .ok .stopped ∧ Q t) s.state) (keep : Bool) :
    (s.perform (.next keep)).1 = .poll (.ok .stopped) ∧ Q (s.perform (.next keep)).2.state ∧
      (s.perform (.next keep)).2.held = s.held := by
  obtain ⟨⟨hanswer, hq⟩, hheld⟩ := act_spec h
  have hnext : s.next keep = s.act Operator.next := next_of_none (by rw [hanswer]; rfl) keep
  have hperform : s.perform (.next keep) = (.poll (s.next keep).1, (s.next keep).2) := rfl
  rw [hperform, hnext]
  exact ⟨congrArg Reply.poll hanswer, hq, hheld⟩

/-- A sort that was called off stays as it is, however often it is pulled. -/
theorem run_pulls_released (hf : s.operator.failure? = none) (hr : s.operator.released = true)
    (hup : s.workspace.cancel = { raised := true }) (hcs : ∀ c ∈ cs, ∃ keep, c = .next keep) :
    s.run cs = (cs.map fun _ => .poll (.ok .stopped), s) := by
  induction cs with
  | nil => rfl
  | cons c cs ih =>
    obtain ⟨keep, rfl⟩ := hcs c List.mem_cons_self
    obtain ⟨hreply, hstate, hheld⟩ := perform_next_stopped (Operator.next_released hf hr hup) keep
    rw [run_cons, hreply, eq_of_state hstate hheld, ih fun d hd => hcs d (List.mem_cons_of_mem _ hd)]
    rfl

/-- All pulls of an idle sort whose flag is up soon are stopped, and call it off. -/
theorem run_calledOff (h : s.operator.Idle) (hup : s.workspace.cancel.upSoon = true) (keep : Bool)
    (hcs : ∀ c ∈ cs, ∃ keep, c = .next keep) :
    (s.run (.next keep :: cs)).1 = (Call.next keep :: cs).map (fun _ => .poll (.ok .stopped)) ∧
      Operator.CallsOff s.state (s.run (.next keep :: cs)).2.state := by
  obtain ⟨hreply, hoff, hheld⟩ := perform_next_stopped (Operator.next_calledOff h hup) keep
  obtain ⟨hop, journal, hw⟩ := id hoff
  have hrest := run_pulls_released (s := (s.perform (.next keep)).2)
    ((congrArg Operator.failure? hop).trans h.failure) (congrArg Operator.released hop)
    (congrArg Workspace.cancel hw) hcs
  rw [run_cons, hreply, hrest]
  exact ⟨rfl, hoff⟩

end Session

end SpillSort
