import SpillSort.Proofs.Releases
import SpillSort.Proofs.Reservations
import SpillSort.Proofs.Tenancies

/-!
# Merging in memory, or leaving no trace

A merge in memory is refused for four reasons and no other. A refusal changes nothing that anybody
could miss, also if one of the two selections was granted already; the groups are merged as streams
instead. What is not refused serves every row, and keeps the charges of the batches and of the
selection until the merge and all its windows are gone.

* `Ledger.Undone` says that nothing is left of a request, `Ledger.Reserves` what a merge reserves.
* `Forest.GrantsTwice` and `MemoryMerge.Refuses` are the reasons for a refusal.
* `MemoryMerge.build_ledger` is about the ledger alone, `MemoryMerge.build_exact` is the theorem.
-/

namespace SpillSort

open Memory Spill

/-! ## Requests that come to nothing -/

namespace Memory

namespace Forest

variable {f : Forest} {id : TrackerId} {bytes : Int64}

/-- Two requests, one after the other, are both granted. -/
def GrantsTwice (f : Forest) (id : TrackerId) (bytes : Int64) : Prop :=
  (f.tryConsume id bytes).1 = .ok () ∧ ((f.tryConsume id bytes).2.tryConsume id bytes).1 = .ok ()

theorem grantsTwice_iff (hn : (f.path id).Nodup) : f.GrantsTwice id bytes ↔
    f.refusal? id bytes = none ∧ (f.consume id bytes).refusal? id bytes = none := by
  have hn' : ((f.consume id bytes).path id).Nodup := by rwa [path_consume]
  rw [GrantsTwice, tryConsume_eq hn]
  cases f.refusal? id bytes with
  | some e => exact ⟨fun h => (nomatch h.1), fun h => (nomatch h.1)⟩
  | none =>
    rw [tryConsume_eq hn']
    cases (f.consume id bytes).refusal? id bytes with
    | some e => exact ⟨fun h => (nomatch h.2), fun h => (nomatch h.2)⟩
    | none => exact ⟨fun _ => ⟨rfl, rfl⟩, fun _ => ⟨rfl, rfl⟩⟩

theorem current_of_ge {t : TrackerId} (ht : f.trackers.size ≤ t) : f.current t = 0 := by
  rw [current, get?, Array.getElem?_eq_none ht]
  rfl

/-- What was consumed and released again is not current any more. -/
theorem current_release_consume (t : TrackerId) :
    ((f.consume id bytes).release id bytes).current t = f.current t := by
  rcases Nat.lt_or_ge t f.trackers.size with ht | ht
  · rw [current_release (by rwa [size_consume]), current_consume ht, share_congr path_consume]
    grind
  · rw [current_of_ge ht, current_of_ge (by rwa [size_release, size_consume])]

end Forest

namespace Ledger

variable {l l' : Ledger} {c : ChargeId}

theorem holdersOf_charge (l : Ledger) (id : TrackerId) (bytes : Int64) (d : ChargeId) :
    (l.charge id bytes).2.holdersOf d = l.holdersOf d + if d = l.charges.size then 1 else 0 := by
  show ((l.charges.push _)[d]?.map Charge.holders).getD 0 = _
  rw [Array.getElem?_push]
  split
  · next hd =>
    rw [hd, holdersOf_of_ge (Nat.le_refl _)]
    rfl
  · rfl

theorem holdersOf_drop (l : Ledger) (c d : ChargeId) :
    (l.drop c).holdersOf d = l.holdersOf d - if d = c then 1 else 0 := by
  cases hx : l.charges[c]? with
  | none =>
    have hdrop : l.drop c = l := by simp [drop, hx]
    rw [hdrop]
    split
    · next hd =>
      rw [hd, holdersOf, hx]
      rfl
    · rfl
  | some x =>
    rw [drop_of_some hx, Accounts.holdersOf_modify hx]
    by_cases hd : d = c
    · rw [if_pos hd.symm, if_pos hd, hd, holdersOf, hx]
      rfl
    · rw [if_neg (Ne.symm hd), if_neg hd, Nat.sub_zero]

/-- Every listed charge has one holder fewer for each time it is listed. -/
theorem holdersOf_dropAll (l : Ledger) (cs : List ChargeId) (d : ChargeId) :
    (l.dropAll cs).holdersOf d = l.holdersOf d - cs.count d := by
  induction cs generalizing l with
  | nil => rfl
  | cons c cs ih =>
    have hdrop : (l.dropAll (c :: cs)).holdersOf d = ((l.drop c).dropAll cs).holdersOf d := rfl
    rw [hdrop, ih, holdersOf_drop, List.count_cons]
    by_cases hd : d = c
    · subst hd
      simp only [if_true, beq_self_eq_true]
      omega
    · have hne : (c == d) = false := beq_false_of_ne (Ne.symm hd)
      simp only [if_neg hd, hne, Bool.false_eq_true, if_false]
      omega

/-- Every tracker shows what it showed before, every charge that was there is as it was, and no
other one is held. -/
structure Undone (l l' : Ledger) : Prop where
  current : ∀ t, l'.current t = l.current t
  charges : ∀ c < l.charges.size, l'.charges[c]? = l.charges[c]?
  released : ∀ c, l.charges.size ≤ c → l'.holdersOf c = 0
  leases : l'.leases = l.leases

theorem Undone.refl (l : Ledger) : l.Undone l :=
  ⟨fun _ => rfl, fun _ _ => rfl, fun _ => holdersOf_of_ge, rfl⟩

/-- A charge that is dropped at once leaves nothing. -/
theorem undone_drop_charge (l : Ledger) (id : TrackerId) (bytes : Int64) :
    l.Undone ((l.charge id bytes).2.drop (l.charge id bytes).1) := by
  have hnew : (l.charge id bytes).1 = l.charges.size := rfl
  refine ⟨fun t => ?_, fun c hc => ?_, fun c hc => ?_, ?_⟩
  · rw [drop_of_some (l.charge_some id bytes)]
    exact Forest.current_release_consume t
  · have hne : (l.charge id bytes).1 ≠ c := Nat.ne_of_gt hc
    rw [drop_of_some (l.charge_some id bytes)]
    dsimp only
    rw [Array.getElem?_modify, if_neg hne]
    exact Array.getElem?_push_lt hc |>.trans (Array.getElem?_eq_getElem hc).symm
  · rw [holdersOf_drop, holdersOf_charge, holdersOf_of_ge hc, hnew, Nat.zero_add, Nat.sub_self]
  · rw [drop_of_some (l.charge_some id bytes)]
    rfl

end Ledger

end Memory

namespace SortedGroup

/-- The charges of groups in memory for their rows. -/
def chunkCharges (gs : List SortedGroup) : List ChargeId :=
  (gs.filterMap head?).flatMap fun r => r.chunk.charge?.toList

/-- The charges of groups in memory for their keys and selections. -/
def orderCharges (gs : List SortedGroup) : List ChargeId :=
  (gs.filterMap head?).flatMap SortedRun.orderCharges

end SortedGroup

/-- Groups hold the charges for their rows and those for their order. -/
theorem SortedGroup.held_eq (gs : List SortedGroup) :
    Resources.charges (gs.flatMap charges) =
      .charges (chunkCharges gs) + .charges (orderCharges gs) := by
  induction gs with
  | nil => rfl
  | cons g gs ih =>
    rw [List.flatMap_cons, Resources.charges_append, ih]
    cases hh : g.head? with
    | none => simp [charges, chunkCharges, orderCharges, hh]
    | some run =>
      simp only [charges, chunkCharges, orderCharges, hh, Option.map_some, Option.getD_some,
        SortedRun.charges, Resources.charges_append, List.filterMap_cons, List.flatMap_cons]
      abel

/-- What is reserved for a merge: the first of two charges for selections and the charges for rows
are held by a lease, the second one and the charges for the order are dropped. -/
structure Memory.Ledger.Reserves (l : Ledger) (tracker : TrackerId) (bytes : Int64)
    (orders chunks : List ChargeId) (i : LeaseId) (l' : Ledger) : Prop where
  charges : (((l.charge tracker bytes).2.charge tracker bytes).2.dropAll
    (((l.charge tracker bytes).2.charge tracker bytes).1 :: orders)).SameCharges l'
  lease : l'.leases[i]? = some ⟨(l.charge tracker bytes).1 :: chunks, 1⟩

namespace Memory.Ledger.Reserves

variable {l l' l'' : Ledger} {tracker : TrackerId} {bytes : Int64} {gs : List SortedGroup}
  {i : LeaseId}

/-- The charges for the order have their holders no more, and one new charge has one. -/
theorem holdersOf (h : l.Reserves tracker bytes (SortedGroup.orderCharges gs)
    (SortedGroup.chunkCharges gs) i l') (hb : l.Bears (gs.flatMap SortedGroup.charges))
    (c : ChargeId) : l'.holdersOf c + (SortedGroup.orderCharges gs).count c =
      l.holdersOf c + if c = l.charges.size then 1 else 0 := by
  have hsize : (l.charge tracker bytes).2.charges.size = l.charges.size + 1 := Array.size_push _
  have haux : ((l.charge tracker bytes).2.charge tracker bytes).1 = l.charges.size + 1 := hsize
  have hle := hb c
  rw [← Resources.count_charges, SortedGroup.held_eq, Multiset.count_add, Resources.count_charges,
    Resources.count_charges] at hle
  rw [h.charges.holdersOf, holdersOf_dropAll, holdersOf_charge, holdersOf_charge, haux, hsize,
    List.count_cons]
  by_cases hc : c = l.charges.size + 1
  · subst hc
    rw [holdersOf_of_ge (Nat.le_succ _)] at hle ⊢
    simp only [beq_self_eq_true, if_true, Nat.succ_ne_self, if_false]
    omega
  · have hne : (l.charges.size + 1 == c) = false := beq_false_of_ne (Ne.symm hc)
    rw [if_neg hc, hne]
    simp only [Bool.false_eq_true, if_false]
    omega

/-- What the trackers show while some hold the lease, and what they show when nobody does. -/
theorem current_eq (h : l.Reserves tracker bytes (SortedGroup.orderCharges gs)
    (SortedGroup.chunkCharges gs) i l') (hb : l.Bears (gs.flatMap SortedGroup.charges)) {n : Nat}
    (hl : l'.HeldBy ((l.charge tracker bytes).1 :: SortedGroup.chunkCharges gs) i n l'')
    {t : TrackerId} (ht : t < l.forest.trackers.size) :
    l''.current t =
      if n = 0 then l.current t - sumOf (l.shown t) (l.solely (gs.flatMap SortedGroup.charges))
      else l.current t - sumOf (l.shown t) (l.solely (SortedGroup.orderCharges gs)) +
        l.forest.share tracker bytes t := by
  obtain ⟨S, -, haccounts⟩ := hb.exists_accounts
  have hbefore := haccounts t ht
  obtain ⟨hcharges, -⟩ := h
  -- the two charges come before anything goes
  have hmost := (hbefore.charge tracker bytes).charge tracker bytes
  have hsteady := (l.charge_steady tracker bytes).trans
    ((l.charge tracker bytes).2.charge_steady tracker bytes)
  have hopens := (l.charge_opens tracker bytes).later
    ((l.charge tracker bytes).2.charge_steady tracker bytes)
  revert hcharges hmost hsteady hopens hl
  generalize l.charge tracker bytes = p
  obtain ⟨sel, l₁⟩ := p
  generalize l₁.charge tracker bytes = q
  obtain ⟨aux, l₂⟩ := q
  intro hl hcharges hmost hsteady hopens
  have hheld := SortedGroup.held_eq gs
  generalize SortedGroup.chunkCharges gs = chunks at *
  generalize SortedGroup.orderCharges gs = orders at *
  have hkept : Accounts ⟨t, l.current t - l.load t, 0, []⟩ (l₂.dropAll (aux :: orders))
      (.charges (sel :: chunks) + S) := by
    refine Accounts.dropAll ?_
    rw [hheld] at hmost
    convert hmost using 1
    simp only [Resources.charges_cons, ← Multiset.singleton_add]
    abel
  have hkeeps := hsteady.trans (l₂.dropAll_steady (aux :: orders))
  cases hl with
  | held hs _ =>
    rw [if_neg (Nat.succ_ne_zero _), hs.current, hcharges.current]
    have hold : Accounts ⟨t, l.current t - l.load t, 0, []⟩ l
        (.charges orders + (.charges chunks + S)) := by
      rw [hheld] at hbefore
      convert hbefore using 1
      abel
    have hnew : Accounts ⟨t, l.current t - l.load t, 0, []⟩ (l₂.dropAll (aux :: orders))
        (.charges [sel] + (.charges chunks + S)) := by
      simpa [Multiset.cons_add] using hkept
    rw [Ledger.current_exchange hold hnew hkeeps (hopens.later (l₂.dropAll_steady _)) (.refl _),
      Forest.share_toNatClampNeg l.forest tracker t bytes]
    exact congrArg _ (Int64.add_zero _)
  | released hs =>
    rw [if_pos rfl, hs.current, (hcharges.dropAll (sel :: chunks)).current]
    have hgone := hkept.dropAll
    rw [← zero_add S, ← Resources.charges_nil] at hgone
    rw [Ledger.current_exchange hbefore hgone (hkeeps.trans (Ledger.dropAll_steady _ _))
      (.nil _ _ tracker) (.refl _)]
    exact Int64.add_zero _

end Memory.Ledger.Reserves

namespace MemoryMerge

variable {w : Workspace} {order : RowOrder} {tracker : TrackerId} {bytes : Int64} {maxBytes : Nat}
  {groups : List SortedGroup}

/-! ## Refusals -/

/-- Why groups are not merged in memory, if each of the two selections takes some bytes. -/
inductive Refuses (f : Forest) (tracker : TrackerId) (bytes : Int64) (maxBytes : Nat)
    (groups : List SortedGroup) : Prop where
  | spilled {g : SortedGroup} (hg : g ∈ groups) (hs : g.isSpilled = true)
  | many (h : 65536 < groups.length)
  | large (h : maxBytes < SortedGroup.totalBytes groups)
  | denied (h : ¬f.GrantsTwice tracker bytes)

/-- Either both selections are charged or nothing is. -/
theorem allocate_exact (hn : (w.ledger.forest.path tracker).Nodup) {rows : Nat}
    (hbytes : clampBytes (GlobalSelection.bytesFor rows) = bytes) :
    Ensures (allocate tracker rows) (fun r v =>
      let l := (w.ledger.charge tracker bytes).2
      match r with
      | .error _ => ¬w.ledger.forest.GrantsTwice tracker bytes ∧ w.ledger.Undone v.ledger ∧
        v = { w with ledger := v.ledger }
      | .ok (s, aux) => w.ledger.forest.GrantsTwice tracker bytes ∧
        s.charge? = some (w.ledger.charge tracker bytes).1 ∧
        aux.charge? = some (l.charge tracker bytes).1 ∧
        v = { w with ledger := (l.charge tracker bytes).2 }) w := by
  have hforest : (w.ledger.charge tracker bytes).2.forest =
      w.ledger.forest.consume tracker bytes := rfl
  rw [Forest.grantsTwice_iff hn]
  simp only [allocate, Workspace.withLedger, Ensures.modifyGet_iff, GlobalSelection.allocate,
    Ledger.tryCharge, hbytes]
  cases h₁ : w.ledger.forest.refusal? tracker bytes with
  | some e =>
    refine ⟨fun h => ?_, .refl _, trivial⟩
    cases h.1
  | none =>
    dsimp only [Except.map]
    rw [hforest]
    cases h₂ : (w.ledger.forest.consume tracker bytes).refusal? tracker bytes with
    | some e =>
      refine ⟨fun h => ?_, w.ledger.undone_drop_charge tracker bytes, trivial⟩
      cases h.2
    | none => exact ⟨⟨rfl, rfl⟩, rfl, rfl, rfl⟩

/-- What building a merge does to the ledger, and that it does nothing else. -/
theorem build_ledger (hn : (w.ledger.forest.path tracker).Nodup)
    (hbytes : (∀ g ∈ groups, g.isSpilled = false) → groups.length ≤ 65536 →
      clampBytes (GlobalSelection.bytesFor (total (groups.map SortedGroup.rows))) = bytes)
    (hschemas : (∀ g ∈ groups, g.isSpilled = false) →
      ∀ g ∈ groups, ∀ r, g.head? = some r → r.chunk.batch.schema = order.schema) :
    Gives (build order tracker maxBytes groups) (fun r v =>
      v = { w with ledger := v.ledger } ∧
      match r with
      | .refused _ => Refuses w.ledger.forest tracker bytes maxBytes groups ∧
        w.ledger.Undone v.ledger
      | .merged m => ¬Refuses w.ledger.forest tracker bytes maxBytes groups ∧
        w.ledger.Reserves tracker bytes (SortedGroup.orderCharges groups)
          (SortedGroup.chunkCharges groups) m.lease v.ledger)
      (fun _ _ => False) w := by
  refine gives_build (fun g hg hs => ⟨rfl, .spilled hg hs, .refl _⟩)
    (fun hmany => ⟨rfl, .many hmany, .refl _⟩) (fun hlarge => ⟨rfl, .large hlarge, .refl _⟩)
    (fun hgroups => allocate_exact hn (hbytes hgroups.resident hgroups.few)) (fun reason v hv => ?_)
    fun hgroups selection aux v hv => ?_
  · obtain ⟨hdenied, hundone, hv⟩ := hv
    exact ⟨hv, .denied hdenied, hundone⟩
  intro runs held chosen
  obtain ⟨hgranted, hselection, haux, hv⟩ := hv
  obtain ⟨hresident, hfew, hsmall⟩ := hgroups
  have hcount : runs.length ≤ groups.length := List.length_filterMap_le ..
  have hbatches : HyperBatch.ofBatches order.schema (runs.map fun r => r.chunk.batch).toArray =
      .ok ⟨order.schema, (runs.map fun r => r.chunk.batch).toArray⟩ := by
    refine HyperBatch.ofBatches_eq ?_ fun b hb => ?_
    · rw [List.size_toArray, List.length_map]
      exact Nat.le_trans hcount hfew
    · obtain ⟨r, hr, rfl⟩ := List.mem_map.mp (List.mem_toArray.mp hb)
      obtain ⟨g, hg, hhead⟩ := List.mem_filterMap.mp hr
      exact hschemas hresident g hg r hhead
  simp only [held, hbatches, hselection, haux]
  rw [hv]
  have hnot : ¬Refuses w.ledger.forest tracker bytes maxBytes groups := by
    rintro (⟨hg, hs⟩ | hmany | hlarge | hdenied)
    · exact absurd hs (by rw [hresident _ hg]; decide)
    · exact absurd hmany (Nat.not_lt.mpr hfew)
    · exact absurd hlarge (Nat.not_lt.mpr hsmall)
    · exact hdenied hgranted
  exact ⟨rfl, hnot, Ledger.sameCharges_lease _ _, Ledger.lease_some _ _⟩

end MemoryMerge

/-! ## Builds -/

/-- A step that gives whatever another one gives has the same outcome. -/
theorem Gives.outcome_eq {m : Type → Type} {σ α : Type} [Monad m] [Stateful m σ]
    {x y : ExceptT Failure m α} {s t : σ} (h : ∀ P E, Gives y P E t → Gives x P E s) :
    Stateful.outcome x.run s = Stateful.outcome y.run t := by
  have hx := h (fun a u => (.ok a, u) = Stateful.outcome y.run t)
    (fun e u => (.error e, u) = Stateful.outcome y.run t)
  unfold Gives Ensures at hx
  revert hx
  rcases Stateful.outcome x.run s with ⟨e | a, u⟩ <;>
    rcases Stateful.outcome y.run t with ⟨e' | a', u'⟩ <;> exact fun hx => hx rfl

namespace Operator

/-- Merges groups as streams that were not merged in memory for a reason. -/
def resort (order : RowOrder) (groups : List SortedGroup) (reason : String) :
    OperatorWork Unit := do
  note fun op => .inMemoryRefused op.name reason
  mergeStreams order groups

/-- An operator that finalizes with these groups, and is refused to merge them in memory, merges the
very same groups as streams instead, in the same order. -/
def Resorts (order : RowOrder) (tracker : TrackerId) (maxBytes : Nat) (groups : List SortedGroup)
    (reason : String) (w v : Workspace) : Prop :=
  ∀ op : Operator, op.rowsProcessed ≠ 0 → op.order? = some order → op.tracker = tracker →
    op.options.maxInMemory = maxBytes → op.spilled = #[] → op.resident.toList = groups →
    Stateful.outcome finalize.run (op, w) =
      Stateful.outcome (resort order groups reason).run
        ({ op with spilled := #[], resident := #[] }, v)

theorem resorts_of_refused {order : RowOrder} {tracker : TrackerId} {maxBytes : Nat}
    {groups : List SortedGroup} {reason : String} {w v : Workspace}
    (hb : Stateful.outcome (MemoryMerge.build order tracker maxBytes groups).run w =
      (.ok (.refused reason), v)) : Resorts order tracker maxBytes groups reason w v := by
  rintro op hrows ho rfl rfl hs rfl
  refine Gives.outcome_eq fun P E h => ?_
  unfold finalize
  rw [Gives.bind_iff, Gives.get_layer_iff]
  split
  · next hzero => exact absurd hzero hrows
  split
  · next hnone =>
    rw [ho] at hnone
    cases hnone
  next order' ho' =>
  obtain rfl : order = order' := Option.some.inj (ho.symm.trans ho')
  rw [Gives.bind_iff, Gives.modify_layer_iff, hs, Array.toList_empty, List.nil_append]
  simp only [Array.isEmpty_empty, if_true, Gives.bind_iff, Gives.inOperator_iff]
  unfold Gives Ensures
  rw [hb]
  exact h

end Operator

namespace MemoryMerge

variable {w : Workspace} {order : RowOrder}

/-- Four bytes for each of the rows of groups that can be addressed fit a word. -/
theorem clampBytes_bytesFor {groups : List SortedGroup} (hfew : groups.length ≤ 65536)
    (hsmall : ∀ g ∈ groups, g.rows ≤ 65536) :
    clampBytes (GlobalSelection.bytesFor (total (groups.map SortedGroup.rows))) =
      Int64.ofNat (4 * total (groups.map SortedGroup.rows)) := by
  have hrows : total (groups.map SortedGroup.rows) ≤ 65536 * 65536 := by
    refine Nat.le_trans ?_ (Nat.mul_le_mul_right 65536 hfew)
    clear hfew
    induction groups with
    | nil => exact Nat.zero_le _
    | cons g groups ih =>
      obtain ⟨hg, hgroups⟩ := List.forall_mem_cons.mp hsmall
      have := ih hgroups
      rw [List.map_cons, total_cons, List.length_cons]
      omega
  generalize total (groups.map SortedGroup.rows) = rows at hrows
  rw [GlobalSelection.bytesFor, clampSize, clampBytes, Nat.mul_comm 4, min_eq_left (by omega),
    if_pos (by omega)]

/-- **A merge in memory is refused exactly for its reasons, and then leaves no trace.** It is refused
if a group was spilled, if there are more than 65536 groups, if they hold too many bytes, or if two
requests of four bytes for each row are not both granted, and for nothing else; nothing fails. After
a refusal no tracker shows anything else than before, no charge is left, and the operator merges the
very same groups as streams. Otherwise the charges for keys and selections and that of the auxiliary
selection are dropped. However the merge and its windows are used and let go of, rows are served as
they are asked for, from all rows in key order. Until the last of them is gone every tracker shows,
in place of what only the order of the groups held, four bytes for each row. -/
theorem build_exact {ps : List (SortedGroup × List Row)}
    (hps : ∀ p ∈ ps, p.1.isSpilled = true ∨
      ∃ run, p.1 = .resident run ∧ run.Reads order p.2 ∧ run.length ≤ maxSelectionRows)
    (hheld : w.ledger.Bears (ps.flatMap fun p => p.1.charges)) {tracker : TrackerId}
    (hn : (w.ledger.forest.path tracker).Nodup) (maxBytes : Nat) :
    let groups := ps.map Prod.fst
    let bytes := Int64.ofNat (4 * total (groups.map SortedGroup.rows))
    Gives (build order tracker maxBytes groups)
      (fun r v => v = { w with ledger := v.ledger } ∧
        match r with
        | .refused reason => Refuses w.ledger.forest tracker bytes maxBytes groups ∧
          w.ledger.Undone v.ledger ∧ Operator.Resorts order tracker maxBytes groups reason w v
        | .merged m => ¬Refuses w.ledger.forest tracker bytes maxBytes groups ∧
          (∀ c, v.ledger.holdersOf c + (SortedGroup.orderCharges groups).count c =
            w.ledger.holdersOf c + if c = w.ledger.charges.size then 1 else 0) ∧
          ∀ us, Ensures (Tenants.uses us ⟨some m, [], []⟩) (fun x u =>
            let rows := ((ps.flatMap Prod.snd).mergeSort order.rowLe).take (Tenants.asked us)
            Window.AllHold order x.served rows ∧
            (order.schema.fields ≠ [] →
              ∃ bs, x.served.mapM Window.gather = .ok bs ∧ bs.flatMap Batch.table = rows) ∧
            ∀ t < w.ledger.forest.trackers.size, u.ledger.current t =
              if x.count = 0 then w.ledger.current t -
                sumOf (w.ledger.shown t) (w.ledger.solely (groups.flatMap SortedGroup.charges))
              else w.ledger.current t -
                sumOf (w.ledger.shown t) (w.ledger.solely (SortedGroup.orderCharges groups)) +
                w.ledger.forest.share tracker bytes t) v)
      (fun _ _ => False) w := by
  intro groups bytes
  have hbears : w.ledger.Bears (groups.flatMap SortedGroup.charges) := by
    rwa [List.flatMap_map]
  have hresident : (∀ g ∈ groups, g.isSpilled = false) → ∀ p ∈ ps, ∃ run, p.1 = .resident run ∧
      run.Reads order p.2 ∧ run.length ≤ maxSelectionRows := fun hall p hp =>
    (hps p hp).resolve_left (by rw [hall p.1 (List.mem_map_of_mem hp)]; decide)
  have hbytes : (∀ g ∈ groups, g.isSpilled = false) → groups.length ≤ 65536 →
      clampBytes (GlobalSelection.bytesFor (total (groups.map SortedGroup.rows))) = bytes := by
    intro hall hfew
    refine clampBytes_bytesFor hfew fun g hg => ?_
    obtain ⟨p, hp, rfl⟩ := List.mem_map.mp hg
    obtain ⟨run, hrun, -, hsmall⟩ := hresident hall p hp
    rw [hrun]
    exact hsmall
  have hschemas : (∀ g ∈ groups, g.isSpilled = false) →
      ∀ g ∈ groups, ∀ r, g.head? = some r → r.chunk.batch.schema = order.schema := by
    intro hall g hg r hr
    obtain ⟨p, hp, rfl⟩ := List.mem_map.mp hg
    obtain ⟨run, hrun, hreads, -⟩ := hresident hall p hp
    rw [hrun] at hr
    obtain rfl : run = r := Option.some.inj hr
    exact hreads.schema
  have hledger := Gives.of_outcome.and (@build_ledger w order tracker bytes maxBytes groups hn
    hbytes hschemas)
  by_cases hany : ∃ g ∈ groups, g.isSpilled = true
  · obtain ⟨g, hg, hs⟩ := hany
    refine hledger.mono (fun r v hv => ?_) fun _ _ hf => hf.2
    obtain ⟨hout, hv, hledger⟩ := hv
    cases r with
    | refused => exact ⟨hv, hledger.1, hledger.2, Operator.resorts_of_refused hout⟩
    | merged => exact absurd (Refuses.spilled hg hs) hledger.1
  have hps := hresident (by simpa using hany)
  have hparts := SortedGroup.parts_of_resident fun p hp => (hps p hp).imp fun run h => ⟨h.1, h.2.1⟩
  have hsmall : ∀ p ∈ ps, p.2.length ≤ maxSelectionRows := fun p hp => by
    obtain ⟨run, -, hreads, hle⟩ := hps p hp
    rwa [hreads.length_eq]
  have hrows := build_spec (S := 0) hparts hsmall ((Owns.nothing w).careless_charges _) tracker
    maxBytes
  refine (hrows.and hledger).mono (fun r v hv => ?_) fun _ _ hf => hf.2.2
  obtain ⟨hrows, hout, hv, hledger⟩ := hv
  refine ⟨hv, ?_⟩
  cases r with
  | refused => exact ⟨hledger.1, hledger.2, Operator.resorts_of_refused hout⟩
  | merged m =>
    obtain ⟨hnot, hreserves⟩ := hledger
    refine ⟨hnot, hreserves.holdersOf hbears, fun us => ?_⟩
    have hstart := Tenants.Valid.start hrows.1 hreserves.lease
    refine (hstart.uses us).mono fun x u hx => ?_
    rw [Nat.zero_add] at hx
    exact ⟨hx.served, hx.served.gather, fun t => hreserves.current_eq hbears hx.ledger⟩

/-- Two groups with three rows take 18 bytes. If so many may be merged, the rows are served in order,
and the 100 bytes that one of the groups alone held for its keys are replaced by twelve. If one byte
less may be merged, all stays as it was. -/
theorem build_exact_two_groups :
    Gives (build Sample.ascending 2 18 (Sample.pair.map Prod.fst))
        (fun r v => ∃ m, r = .merged m ∧
          Ensures (Tenants.uses [.next 2, .dropMerge] ⟨some m, [], []⟩) (fun x u =>
            (∃ bs, x.served.mapM Window.gather = .ok bs ∧
              bs.flatMap Batch.table = [[.int 1], [.int 2]]) ∧
            u.ledger.current 2 = if x.count = 0 then 150 - 100 else 150 - 100 + 12) v)
        (fun _ _ => False) Sample.charged ∧
      Gives (build Sample.ascending 2 17 (Sample.pair.map Prod.fst))
        (fun r v => (∃ reason, r = .refused reason) ∧ v.ledger.current 2 = 150)
        (fun _ _ => False) Sample.charged := by
  have hps : ∀ p ∈ Sample.pair, p.1.isSpilled = true ∨ ∃ run, p.1 = .resident run ∧
      run.Reads Sample.ascending p.2 ∧ run.length ≤ maxSelectionRows := by
    intro p hp
    obtain ⟨run, hrun, hreads, -⟩ := Sample.reads_pair p hp
    have hfew : ∀ q ∈ Sample.pair, q.2.length ≤ maxSelectionRows := by decide
    exact .inr ⟨run, hrun, hreads, hreads.length_eq ▸ hfew p hp⟩
  have hn : (Sample.charged.ledger.forest.path 2).Nodup := by decide
  have hbuild := fun maxBytes => build_exact hps Sample.bears_pair hn maxBytes
  refine ⟨(hbuild 18).mono (fun r v hv => ?_) fun _ _ hf => hf,
    (hbuild 17).mono (fun r v hv => ?_) fun _ _ hf => hf⟩
  · cases r with
    | refused =>
      obtain ⟨-, hrefuses, -⟩ := hv
      have hresident : ∀ g ∈ Sample.pair.map Prod.fst, ¬g.isSpilled = true := by decide
      rcases hrefuses with ⟨hg, hs⟩ | hmany | hlarge | hdenied
      · exact absurd hs (hresident _ hg)
      · exact absurd hmany (by decide)
      · exact absurd hlarge (by decide +kernel)
      · exact absurd ⟨rfl, rfl⟩ hdenied
    | merged m =>
      obtain ⟨-, -, -, huses⟩ := hv
      refine ⟨m, rfl, (huses _).mono fun x u hx => ⟨?_, ?_⟩⟩
      · obtain ⟨bs, hbs, htables⟩ := hx.2.1 (by simp [Sample.ascending])
        rw [Sample.mergeSort_pair] at htables
        exact ⟨bs, hbs, htables⟩
      · rw [hx.2.2 2 (by decide)]
        rfl
  · cases r with
    | refused reason =>
      obtain ⟨-, -, hundone, -⟩ := hv
      exact ⟨⟨reason, rfl⟩, hundone.current 2⟩
    | merged m =>
      obtain ⟨-, hnot, -⟩ := hv
      exact absurd (.large (by decide +kernel)) hnot

end MemoryMerge

end SpillSort
