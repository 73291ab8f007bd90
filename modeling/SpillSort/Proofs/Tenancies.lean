import SpillSort.Proofs.MemoryMerges

/-!
# Who holds a merge in memory

A merge in memory and its windows hold one lease together. They can be asked for rows and let go of
in any order; the charges of the lease are dropped with the last of them.

* `Ledger.SameCharges` says that two ledgers differ in their leases only, `Ledger.HeldBy` what
  becomes of one while some hold a lease on it.
* `MemoryMerge.nextWindow_holds` is about the next window, `Window.AllHold` about many of them.
* `Tenants` are the merge and its windows; `Tenants.Valid.use` is about one use of them,
  `Tenants.Valid.uses` about all that follow each other.
-/

namespace SpillSort

open Memory Spill

namespace Memory.Ledger

variable {l l' : Ledger} {cs : List ChargeId} {i : LeaseId} {n : Nat}

/-! ## Leases -/

/-- Two ledgers differ at most in their leases. -/
structure SameCharges (l l' : Ledger) : Prop where
  forest : l'.forest = l.forest
  charges : l'.charges = l.charges

namespace SameCharges

theorem refl (l : Ledger) : l.SameCharges l := ⟨rfl, rfl⟩

theorem trans {l'' : Ledger} (h : l.SameCharges l') (h' : l'.SameCharges l'') : l.SameCharges l'' :=
  ⟨h'.forest.trans h.forest, h'.charges.trans h.charges⟩

theorem current (h : l.SameCharges l') (t : TrackerId) : l'.current t = l.current t :=
  congrArg (fun f => Forest.current f t) h.forest

theorem holdersOf (h : l.SameCharges l') (c : ChargeId) : l'.holdersOf c = l.holdersOf c := by
  rw [Ledger.holdersOf, Ledger.holdersOf, h.charges]

theorem drop (h : l.SameCharges l') (c : ChargeId) : (l.drop c).SameCharges (l'.drop c) := by
  have hcharges := h.charges
  cases hx : l.charges[c]? with
  | none =>
    have hnone : l.drop c = l := by simp [Ledger.drop, hx]
    have hnone' : l'.drop c = l' := by simp [Ledger.drop, hcharges, hx]
    rwa [hnone, hnone']
  | some x =>
    rw [drop_of_some hx, drop_of_some (by rwa [hcharges])]
    refine ⟨?_, ?_⟩
    · dsimp only
      rw [h.forest]
    · dsimp only
      rw [hcharges]

theorem dropAll (h : l.SameCharges l') (cs : List ChargeId) :
    (l.dropAll cs).SameCharges (l'.dropAll cs) := by
  induction cs generalizing l l' with
  | nil => exact h
  | cons c cs ih => exact ih (h.drop c)

end SameCharges

theorem sameCharges_lease (l : Ledger) (cs : List ChargeId) : l.SameCharges (l.lease cs).2 :=
  ⟨rfl, rfl⟩

theorem lease_some (l : Ledger) (cs : List ChargeId) :
    (l.lease cs).2.leases[(l.lease cs).1]? = some ⟨cs, 1⟩ :=
  Array.getElem?_push_size

theorem sameCharges_shareLease (l : Ledger) (i : LeaseId) : l.SameCharges (l.shareLease i) :=
  ⟨rfl, rfl⟩

theorem shareLease_some (h : l.leases[i]? = some ⟨cs, n⟩) :
    (l.shareLease i).leases[i]? = some ⟨cs, n + 1⟩ := by
  show (l.leases.modify i _)[i]? = _
  rw [Array.getElem?_modify, if_pos rfl, h]
  rfl

/-- A lease that others hold keeps its charges. -/
theorem dropLease_shared (h : l.leases[i]? = some ⟨cs, n + 2⟩) :
    l.SameCharges (l.dropLease i) ∧ (l.dropLease i).leases[i]? = some ⟨cs, n + 1⟩ := by
  have hdrop : l.dropLease i =
      { l with leases := l.leases.modify i fun x => { x with holders := x.holders - 1 } } := by
    simp [dropLease, h]
  rw [hdrop]
  refine ⟨⟨rfl, rfl⟩, ?_⟩
  dsimp only
  rw [Array.getElem?_modify, if_pos rfl, h]
  rfl

/-- The last holder of a lease lets go of its charges. -/
theorem dropLease_last (h : l.leases[i]? = some ⟨cs, 1⟩) :
    (l.dropAll cs).SameCharges (l.dropLease i) := by
  have hsame : l.SameCharges
      { l with leases := l.leases.modify i fun x => { x with holders := x.holders - 1 } } :=
    ⟨rfl, rfl⟩
  have hdrop : l.dropLease i = Ledger.dropAll
      { l with leases := l.leases.modify i fun x => { x with holders := x.holders - 1 } } cs := by
    simp [dropLease, h]
  rw [hdrop]
  exact hsame.dropAll cs

/-- What becomes of a ledger, but for its leases, while a number of holders have some charges by a
lease: nothing, until none is left. -/
inductive HeldBy (l : Ledger) (cs : List ChargeId) (i : LeaseId) : Nat → Ledger → Prop where
  | held {n : Nat} {l' : Ledger} (hs : l.SameCharges l') (hi : l'.leases[i]? = some ⟨cs, n + 1⟩) :
    HeldBy l cs i (n + 1) l'
  | released {l' : Ledger} (hs : (l.dropAll cs).SameCharges l') : HeldBy l cs i 0 l'

namespace HeldBy

theorem share (h : l.HeldBy cs i (n + 1) l') : l.HeldBy cs i (n + 2) (l'.shareLease i) := by
  cases h with
  | held hs hi => exact .held (hs.trans (l'.sameCharges_shareLease i)) (shareLease_some hi)

theorem drop (h : l.HeldBy cs i (n + 1) l') : l.HeldBy cs i n (l'.dropLease i) := by
  cases h with
  | held hs hi =>
    cases n with
    | zero => exact .released ((hs.dropAll cs).trans (dropLease_last hi))
    | succ n =>
      obtain ⟨hsame, hrest⟩ := dropLease_shared hi
      exact .held (hs.trans hsame) hrest

end HeldBy

end Memory.Ledger

namespace MemoryMerge

variable {order : RowOrder}

/-! ## Windows -/

/-- The next window has as many of the rows that are left as are asked for. -/
theorem nextWindow_holds {m : MemoryMerge} {rows : List Row} (h : m.Holds order rows)
    (maxRows : Nat) (w : Workspace) :
    Ensures (m.nextWindow maxRows) (fun r v =>
      r.2.lease = m.lease ∧ r.2.Holds order (rows.drop (max maxRows 1)) ∧
      match r.1 with
      | none => rows = [] ∧ v = w
      | some win => rows ≠ [] ∧ win.lease = m.lease ∧ win.Holds order (rows.take (max maxRows 1)) ∧
        v = { w with ledger := w.ledger.shareLease m.lease }) w := by
  have hlength : rows.length = m.totalRows - m.position := by
    rw [h.entries, List.length_map, List.length_drop, Array.length_toList]
    rfl
  refine ensures_nextWindow (fun hle => ?_) fun hlt => ?_
  · have hnil : rows = [] := List.eq_nil_of_length_eq_zero (by omega)
    refine ⟨rfl, ?_, hnil, rfl⟩
    rw [hnil, List.drop_nil, ← hnil]
    exact h
  · have hmin : min (min (max maxRows 1) (m.totalRows - m.position)) rows.length =
        min (max maxRows 1) rows.length := by omega
    have htake := List.take_eq_take_iff.mpr hmin
    have hdrop := List.drop_eq_drop_iff.mpr hmin
    have hwindow : ∀ n, (m.selection.window m.position n).toList =
        (m.selection.entries.toList.drop m.position).take n := fun n => by
      simp [GlobalSelection.window]
    simp only [Workspace.onLedger, Ensures.modify_iff]
    refine ⟨trivial, ⟨h.schema, h.schemas, h.inRange, ?_⟩, ?_, trivial,
      ⟨h.schema, h.schemas, fun e he => h.inRange e ?_, ?_⟩, trivial⟩
    · rw [← hdrop, h.entries, ← List.map_drop, List.drop_drop]
    · exact List.ne_nil_of_length_pos (by omega)
    · have he' := Array.mem_toList_iff.mpr he
      rw [hwindow] at he'
      exact Array.mem_toList_iff.mp (List.mem_of_mem_drop (List.mem_of_mem_take he'))
    · rw [← htake, h.entries, ← List.map_take, hwindow]

end MemoryMerge

namespace Window

variable {order : RowOrder} {vs : List Window} {v : Window} {rows more : List Row}

/-- Windows that have these rows together, and each of them some. -/
def AllHold (order : RowOrder) (vs : List Window) (rows : List Row) : Prop :=
  ∃ parts, List.Forall₂ (Holds order) vs parts ∧ (∀ p ∈ parts, p ≠ []) ∧ parts.flatten = rows

theorem AllHold.nil (order : RowOrder) : AllHold order [] [] := ⟨[], .nil, by simp, rfl⟩

theorem AllHold.concat (h : AllHold order vs rows) (hv : v.Holds order more) (hne : more ≠ []) :
    AllHold order (vs ++ [v]) (rows ++ more) := by
  obtain ⟨parts, hparts, hparts', rfl⟩ := h
  refine ⟨parts ++ [more], List.rel_append hparts (.cons hv .nil), fun p hp => ?_, by simp⟩
  rcases List.mem_append.mp hp with hp | hp
  · exact hparts' p hp
  · rwa [List.mem_singleton.mp hp]

/-- If there are columns, the rows of such windows can be gathered. -/
theorem AllHold.gather (h : AllHold order vs rows) (hcolumns : order.schema.fields ≠ []) :
    ∃ bs, vs.mapM Window.gather = .ok bs ∧ bs.flatMap Batch.table = rows := by
  obtain ⟨parts, hparts, hne, rfl⟩ := h
  induction hparts with
  | nil => exact ⟨[], rfl, rfl⟩
  | @cons v part vs parts hv hvs ih =>
    obtain ⟨hne', hne⟩ := List.forall_mem_cons.mp hne
    obtain ⟨b, hb, -, htable⟩ := v.gather_spec hv hcolumns hne'
    obtain ⟨bs, hbs, htables⟩ := ih hne
    refine ⟨b :: bs, ?_, ?_⟩
    · rw [List.mapM_cons, hb, hbs]
      rfl
    · rw [List.flatMap_cons, List.flatten_cons, htable, htables]

end Window

/-! ## Tenants -/

/-- A merge, unless it was let go of, its windows that are still held, and all that were served. -/
structure Tenants where
  merge? : Option MemoryMerge
  windows : List Window := []
  served : List Window := []

namespace Tenants

/-- What can be done with a merge and its windows. -/
inductive Use where
  | next (maxRows : Nat)
  | dropWindow (index : Nat)
  | dropMerge

/-- Asks for the next rows, or lets go of a window or of the merge, if it is there. -/
def use (x : Tenants) : Use → Action Tenants
  | .next maxRows =>
    match x.merge? with
    | none => pure x
    | some m => do
      let (window?, m) ← m.nextWindow maxRows
      pure { merge? := some m, windows := x.windows ++ window?.toList,
             served := x.served ++ window?.toList }
  | .dropWindow index =>
    match x.windows[index]? with
    | none => pure x
    | some v => do
      v.drop
      pure { x with windows := x.windows.eraseIdx index }
  | .dropMerge =>
    match x.merge? with
    | none => pure x
    | some m => do
      m.drop
      pure { x with merge? := none }

/-- Does one thing after the other. -/
def uses : List Use → Tenants → Action Tenants
  | [], x => pure x
  | u :: us, x => do uses us (← x.use u)

/-- The rows that are asked for until the merge is let go of. -/
def asked : List Use → Nat
  | [] => 0
  | .next maxRows :: us => max maxRows 1 + asked us
  | .dropWindow _ :: us => asked us
  | .dropMerge :: _ => 0

/-- The rows that are asked for while the merge is there. -/
def askedOf (x : Tenants) (us : List Use) : Nat := if x.merge?.isSome then asked us else 0

/-- How many hold the lease. -/
def count (x : Tenants) : Nat := x.merge?.toList.length + x.windows.length

/-- The first `n` rows were served, the merge has the others, and it and its windows hold a lease on
charges of a ledger to which nothing else has happened. -/
structure Valid (order : RowOrder) (rows : List Row) (l : Ledger) (cs : List ChargeId) (i : LeaseId)
    (n : Nat) (x : Tenants) (l' : Ledger) : Prop where
  merge : ∀ m, x.merge? = some m → m.lease = i ∧ m.Holds order (rows.drop n)
  windows : ∀ v ∈ x.windows, v.lease = i
  served : Window.AllHold order x.served (rows.take n)
  ledger : l.HeldBy cs i x.count l'

namespace Valid

variable {w : Workspace} {order : RowOrder} {rows : List Row} {l : Ledger} {cs : List ChargeId}
  {i : LeaseId} {n : Nat} {x : Tenants} {m : MemoryMerge}

/-- A merge that nobody has used yet. -/
theorem start (hm : m.Holds order rows) (hi : l.leases[m.lease]? = some ⟨cs, 1⟩) :
    Valid order rows l cs m.lease 0 ⟨some m, [], []⟩ l := by
  refine ⟨?_, by simp, .nil order, .held (.refl l) hi⟩
  rintro _ ⟨⟩
  exact ⟨rfl, hm⟩

theorem next (h : x.Valid order rows l cs i n w.ledger) (hx : x.merge? = some m) (maxRows : Nat) :
    Ensures (m.nextWindow maxRows) (fun r v =>
      Valid order rows l cs i (n + max maxRows 1)
        ⟨some r.2, x.windows ++ r.1.toList, x.served ++ r.1.toList⟩ v.ledger) w := by
  obtain ⟨rfl, hm⟩ := h.merge m hx
  have hledger := h.ledger
  have htake : rows.take (n + max maxRows 1) =
      rows.take n ++ (rows.drop n).take (max maxRows 1) := List.take_add
  refine (MemoryMerge.nextWindow_holds hm maxRows w).mono fun r v hr => ?_
  obtain ⟨window?, m'⟩ := r
  obtain ⟨hlease, hrest, hwindow⟩ := hr
  rw [List.drop_drop] at hrest
  rw [count, hx, Option.toList_some, List.length_singleton, Nat.add_comm 1] at hledger
  have hmerge : ∀ m'', some m' = some m'' → m''.lease = m.lease ∧
      m''.Holds order (rows.drop (n + max maxRows 1)) := by
    rintro _ ⟨⟩
    exact ⟨hlease, hrest⟩
  cases window? with
  | none =>
    obtain ⟨hnil, rfl⟩ := hwindow
    simp only [Option.toList_none, List.append_nil]
    refine ⟨hmerge, h.windows, ?_, ?_⟩
    · rw [htake, hnil, List.take_nil, List.append_nil]
      exact h.served
    · rwa [count, Option.toList_some, List.length_singleton, Nat.add_comm 1]
  | some win =>
    obtain ⟨hsome, hwinlease, hwin, rfl⟩ := hwindow
    simp only [Option.toList_some]
    refine ⟨hmerge, ?_, ?_, ?_⟩
    · intro v hv
      rcases List.mem_append.mp hv with hv | hv
      · exact h.windows v hv
      · rw [List.mem_singleton.mp hv, hwinlease]
    · rw [htake]
      refine h.served.concat hwin fun hnil => ?_
      rcases List.take_eq_nil_iff.mp hnil with hzero | hnone
      · omega
      · exact hsome hnone
    · rw [count, Option.toList_some, List.length_singleton, List.length_append,
        List.length_singleton, Nat.add_comm 1]
      exact hledger.share

theorem dropWindow (h : x.Valid order rows l cs i n w.ledger) {index : Nat} {v : Window}
    (hv : x.windows[index]? = some v) :
    Ensures v.drop (fun _ u =>
      Valid order rows l cs i n { x with windows := x.windows.eraseIdx index } u.ledger) w := by
  have hmem := List.mem_of_getElem? hv
  obtain ⟨hlt, -⟩ := List.getElem?_eq_some_iff.mp hv
  have hcount : x.count = count { x with windows := x.windows.eraseIdx index } + 1 := by
    simp only [count, List.length_eraseIdx_of_lt hlt]
    omega
  have hledger := h.ledger
  rw [hcount] at hledger
  simp only [Window.drop, Workspace.onLedger, Ensures.modify_iff]
  rw [h.windows v hmem]
  exact ⟨h.merge, fun v' hv' => h.windows v' (List.mem_of_mem_eraseIdx hv'), h.served, hledger.drop⟩

theorem dropMerge (h : x.Valid order rows l cs i n w.ledger) (hx : x.merge? = some m) :
    Ensures m.drop (fun _ u => Valid order rows l cs i n { x with merge? := none } u.ledger) w := by
  have hcount : x.count = count { x with merge? := none } + 1 := by
    simp only [count, hx, Option.toList_some, Option.toList_none, List.length_singleton,
      List.length_nil]
    omega
  have hledger := h.ledger
  rw [hcount] at hledger
  simp only [MemoryMerge.drop, Workspace.onLedger, Ensures.modify_iff]
  rw [(h.merge m hx).1]
  refine ⟨fun _ hnone => ?_, h.windows, h.served, hledger.drop⟩
  cases hnone

/-- Whatever is done, the rows that were asked for are served, and the lease is held as before. -/
theorem use (h : x.Valid order rows l cs i n w.ledger) (u : Use) :
    Ensures (x.use u) (fun y v => ∃ k, y.Valid order rows l cs i (n + k) v.ledger ∧
      ∀ us, x.askedOf (u :: us) = k + y.askedOf us) w := by
  have hidle : ∀ u, (∀ us, x.askedOf (u :: us) = x.askedOf us) → Ensures (pure x : Action Tenants)
      (fun y v => ∃ k, y.Valid order rows l cs i (n + k) v.ledger ∧
        ∀ us, x.askedOf (u :: us) = k + y.askedOf us) w := fun u hu =>
    Ensures.pure_iff.mpr ⟨0, h, fun us => by rw [hu us, Nat.zero_add]⟩
  cases u with
  | next maxRows =>
    simp only [Tenants.use]
    split
    · next hx => exact hidle _ fun us => by simp [askedOf, hx]
    · next m hx =>
      rw [Ensures.bind_iff]
      exact (h.next hx maxRows).mono fun r v hr =>
        Ensures.pure_iff.mpr ⟨_, hr, fun us => by simp [askedOf, hx, asked]⟩
  | dropWindow index =>
    simp only [Tenants.use]
    split
    · exact hidle _ fun us => by simp [askedOf, asked]
    · next win hwin =>
      rw [Ensures.bind_iff]
      exact (h.dropWindow hwin).mono fun _ v hv =>
        Ensures.pure_iff.mpr ⟨0, hv, fun us => by simp [askedOf, asked]⟩
  | dropMerge =>
    simp only [Tenants.use]
    split
    · next hx => exact hidle _ fun us => by simp [askedOf, hx]
    · next m hx =>
      rw [Ensures.bind_iff]
      exact (h.dropMerge hx).mono fun _ v hv =>
        Ensures.pure_iff.mpr ⟨0, hv, fun us => by simp [askedOf, asked]⟩

theorem uses (h : x.Valid order rows l cs i n w.ledger) (us : List Use) :
    Ensures (Tenants.uses us x) (fun y v =>
      y.Valid order rows l cs i (n + x.askedOf us) v.ledger) w := by
  induction us generalizing n x w with
  | nil =>
    have hnone : x.askedOf [] = 0 := by simp [askedOf, asked]
    rw [hnone]
    exact Ensures.pure_iff.mpr h
  | cons u us ih =>
    rw [Tenants.uses, Ensures.bind_iff]
    refine (h.use u).mono fun y v hy => ?_
    obtain ⟨k, hy, hasked⟩ := hy
    rw [hasked, ← Nat.add_assoc]
    exact ih hy

end Valid

end Tenants

end SpillSort
