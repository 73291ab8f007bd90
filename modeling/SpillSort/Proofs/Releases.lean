import SpillSort.Proofs.Resident
import SpillSort.Proofs.Streams

/-!
# What a spill gives back

A spill lets go of the groups it merges. What they alone held is given back, whatever becomes of the
spill, and only what the new group keeps in memory is charged instead. Nothing else changes on any
tracker, and a spill that fails leaves no file.

* `Ledger.solely` are the charges that only some holders hold, `Ledger.shown` is what a tracker shows
  of a charge. `Ledger.load_exchange` says what becomes of the load of a tracker when holders go and
  charges come.
* `Ledger.Bears.exists_accounts` finds the other holders, whoever they are.
* `mergeAndSpill_exact` is the theorem.
-/

namespace SpillSort

open Memory Spill

namespace Memory

/-! ## Sums -/

section Sums

variable {α : Type} {f g : α → Int64} {xs ys : List α}

theorem sumOf_congr (h : ∀ x ∈ xs, f x = g x) : sumOf f xs = sumOf g xs := by
  rw [sumOf, sumOf, List.map_congr_left h]

theorem sumOf_add (f g : α → Int64) (xs : List α) :
    sumOf (fun x => f x + g x) xs = sumOf f xs + sumOf g xs := by
  induction xs with
  | nil => rfl
  | cons x xs ih =>
    simp only [sumOf, List.map_cons, List.foldr_cons] at ih ⊢
    rw [ih]
    grind

theorem sumOf_sub (f g : α → Int64) (xs : List α) :
    sumOf (fun x => f x - g x) xs = sumOf f xs - sumOf g xs := by
  induction xs with
  | nil => exact (Int64.sub_self 0).symm
  | cons x xs ih =>
    simp only [sumOf, List.map_cons, List.foldr_cons] at ih ⊢
    rw [ih]
    grind

/-- A sum over some of many numbers. -/
theorem sumOf_of_mem {f : Nat → Int64} {n : Nat} {cs : List Nat} (hn : cs.Nodup)
    (hlt : ∀ c ∈ cs, c < n) :
    sumOf (fun c => if c ∈ cs then f c else 0) (List.range n) = sumOf f cs := by
  have hone : ∀ {n c : Nat}, c < n →
      sumOf (fun d => if d = c then f c else 0) (List.range n) = f c := by
    intro n c hc
    induction n with
    | zero => exact absurd hc (Nat.not_lt_zero c)
    | succ n ih =>
      rw [List.range_succ, sumOf_append]
      rcases Nat.lt_succ_iff_lt_or_eq.mp hc with hlt | rfl
      · rw [ih hlt]
        simp [sumOf, Nat.ne_of_gt hlt]
      · have hzero : sumOf (fun d => if d = c then f c else 0) (List.range c) = 0 :=
          sumOf_eq_zero fun d hd => if_neg (Nat.ne_of_lt (List.mem_range.mp hd))
        rw [hzero]
        simp [sumOf]
  induction cs with
  | nil => exact sumOf_eq_zero fun c _ => if_neg List.not_mem_nil
  | cons c cs ih =>
    obtain ⟨hc, hn⟩ := List.nodup_cons.mp hn
    obtain ⟨hltc, hlt⟩ := List.forall_mem_cons.mp hlt
    have hsplit : ∀ d : Nat, (if d ∈ c :: cs then f d else 0) =
        (if d = c then f c else 0) + if d ∈ cs then f d else 0 := by
      intro d
      by_cases hd : d = c
      · subst hd
        simp [hc]
      · simp [hd]
    rw [sumOf_congr fun d _ => hsplit d, sumOf_add, hone hltc, ih hn hlt]
    rfl

end Sums

/-! ## What comes and goes -/

/-- Amounts below nothing count as nothing. -/
theorem Forest.share_toNatClampNeg (f : Forest) (id t : TrackerId) (bytes : Int64) :
    f.share id bytes t = f.share id (Int64.ofNat bytes.toNatClampNeg) t := by
  by_cases hle : bytes ≤ 0
  · rw [Int64.toNatClampNeg_eq_zero_iff.mpr hle, Forest.share, if_pos hle]
    rfl
  · rw [Int64.ofNat_toNatClampNeg _ (Int64.le_of_lt (Int64.not_le.mp hle))]

namespace Ledger

variable {l l' : Ledger} {t id : TrackerId} {c : ChargeId} {cs : List ChargeId} {stakes : List Stake}

/-- What a tracker shows of a charge. -/
def shown (l : Ledger) (t : TrackerId) (c : ChargeId) : Int64 :=
  ((l.charges[c]?).map (Charge.weight l.forest.share t)).getD 0

/-- The listed charges, each once, that nobody holds but the listed holders. -/
def solely (l : Ledger) (cs : List ChargeId) : List ChargeId :=
  cs.dedup.filter fun c => l.holdersOf c = cs.count c

/-- The charges have at least the listed holders, besides those that are leases. -/
def Bears (l : Ledger) (cs : List ChargeId) : Prop :=
  ∀ c, cs.count c + l.leased c ≤ l.holdersOf c

theorem mem_solely : c ∈ l.solely cs ↔ c ∈ cs ∧ l.holdersOf c = cs.count c := by
  simp [solely]

theorem nodup_solely : (l.solely cs).Nodup := (List.nodup_dedup cs).filter _

theorem holdersOf_of_ge (hc : l.charges.size ≤ c) : l.holdersOf c = 0 := by
  rw [holdersOf, Array.getElem?_eq_none hc]
  rfl

theorem shown_of_holdersOf (h : l.holdersOf c = 0) : l.shown t c = 0 := by
  unfold shown
  cases hx : l.charges[c]? with
  | none => rfl
  | some x =>
    rw [holdersOf, hx] at h
    exact if_pos h

theorem shown_of_some {x : Charge} (hx : l.charges[c]? = some x) (h : l.holdersOf c ≠ 0) :
    l.shown t c = l.forest.share x.tracker x.bytes t := by
  rw [holdersOf, hx] at h
  rw [shown, hx]
  exact if_neg h

theorem load_eq_sumOf (l : Ledger) (t : TrackerId) :
    l.load t = sumOf (l.shown t) (List.range l.charges.size) := by
  rw [load, sumOf, sumOf]
  congr 1
  refine List.ext_getElem (by simp) fun c hc _ => ?_
  have hc : c < l.charges.size := by simpa using hc
  simp [shown, hc]

/-- What a charge shows elsewhere depends on its bytes, its place, and whether it is held. -/
theorem Steady.shown_eq (hs : l.Steady l') (hc : c < l.charges.size) (h' : l'.holdersOf c ≠ 0)
    (h : l.holdersOf c ≠ 0) : l'.shown t c = l.shown t c := by
  have hx := Array.getElem?_eq_getElem hc
  obtain ⟨y, hy, hbytes, htracker⟩ := hs.keeps c _ hx
  rw [shown_of_some hy h', shown_of_some hx h, Forest.share_congr hs.path, hbytes, htracker]

/-- What only some holders hold is there. -/
theorem lt_size_of_mem_solely (h : c ∈ l.solely cs) : c < l.charges.size := by
  obtain ⟨hm, hcount⟩ := mem_solely.mp h
  by_contra hge
  rw [holdersOf_of_ge (Nat.not_lt.mp hge)] at hcount
  exact Nat.ne_of_gt (List.count_pos_iff.mpr hm) hcount.symm

/-- Charges that are not there yet show nothing. -/
theorem Steady.load_eq_sumOf (hs : l.Steady l') (t : TrackerId) :
    l.load t = sumOf (l.shown t) (List.range l'.charges.size) := by
  obtain ⟨n, hn⟩ := Nat.exists_eq_add_of_le hs.size
  rw [hn, List.range_add, sumOf_append, Ledger.load_eq_sumOf]
  have hnone : sumOf (l.shown t) ((List.range n).map (l.charges.size + ·)) = 0 := by
    refine sumOf_eq_zero fun c hc => ?_
    obtain ⟨d, -, rfl⟩ := List.mem_map.mp hc
    exact shown_of_holdersOf (holdersOf_of_ge (Nat.le_add_right _ _))
  rw [hnone, Int64.add_zero]

/-- New charges that are held show their bytes. -/
theorem Opens.sumOf_shown (ho : l.Opens l' id stakes) (hs : l.Steady l')
    (hheld : ∀ s ∈ stakes, l'.holdersOf s.1 ≠ 0) (t : TrackerId) :
    sumOf (l'.shown t) (stakes.map Prod.fst) =
      sumOf (fun s : Stake => l.forest.share id (Int64.ofNat s.2) t) stakes := by
  rw [sumOf, List.map_map]
  refine sumOf_congr fun s hm => ?_
  obtain ⟨x, hx, rfl⟩ := Option.map_eq_some_iff.mp (ho.places s hm)
  have hwhole := ho.whole s hm
  rw [bytesOf_of_some hx] at hwhole
  show l'.shown t s.1 = _
  rw [shown_of_some hx (hheld s hm), Forest.share_congr hs.path, Forest.share_toNatClampNeg, hwhole]

/-- Some holders go, and new charges come, as one charge sees it: it is not shown any more if only
these holders held it, and it is shown instead if it is new. -/
theorem shown_exchange (hs : l.Steady l') (ho : l.Opens l' id stakes)
    (hle : ∀ c, cs.count c ≤ l.holdersOf c)
    (hh : ∀ c, l'.holdersOf c + cs.count c = l.holdersOf c + (stakes.map Prod.fst).count c)
    (t : TrackerId) (c : ChargeId) :
    l'.shown t c = (l.shown t c - if c ∈ l.solely cs then l.shown t c else 0) +
      if c ∈ stakes.map Prod.fst then l'.shown t c else 0 := by
  have hc := hh c
  by_cases hlt : c < l.charges.size
  · have hnew : (stakes.map Prod.fst).count c = 0 := by
      refine List.count_eq_zero.mpr fun hm => ?_
      obtain ⟨s, hs, rfl⟩ := List.mem_map.mp hm
      exact Nat.not_le.mpr hlt (ho.new s hs)
    rw [hnew, Nat.add_zero] at hc
    rw [if_neg (List.count_eq_zero.mp hnew), Int64.add_zero]
    by_cases hgone : l'.holdersOf c = 0
    · rw [shown_of_holdersOf hgone]
      by_cases hm : c ∈ cs
      · rw [if_pos (mem_solely.mpr ⟨hm, by omega⟩), Int64.sub_self]
      · have hnone : l.holdersOf c = 0 := by
          rw [List.count_eq_zero_of_not_mem hm] at hc
          omega
        rw [if_neg fun h => hm (mem_solely.mp h).1, shown_of_holdersOf hnone, Int64.sub_zero]
    · rw [if_neg fun h => hgone (by have := (mem_solely.mp h).2; omega), Int64.sub_zero]
      exact hs.shown_eq hlt hgone (by omega)
  · have hzero := holdersOf_of_ge (Nat.not_lt.mp hlt)
    have hcs := hle c
    rw [if_neg fun h => hlt (lt_size_of_mem_solely h), shown_of_holdersOf hzero, Int64.sub_zero,
      Int64.zero_add]
    by_cases hm : c ∈ stakes.map Prod.fst
    · rw [if_pos hm]
    · rw [if_neg hm]
      rw [List.count_eq_zero_of_not_mem hm] at hc
      exact shown_of_holdersOf (by omega)

/-- Some holders go, and new charges come: what only these holders held is not shown any more, and the
new charges are shown instead. -/
theorem load_exchange (hs : l.Steady l') (ho : l.Opens l' id stakes) (hle : ∀ c, cs.count c ≤ l.holdersOf c)
    (hh : ∀ c, l'.holdersOf c + cs.count c = l.holdersOf c + (stakes.map Prod.fst).count c)
    (t : TrackerId) :
    l'.load t = l.load t - sumOf (l.shown t) (l.solely cs) +
      sumOf (fun s : Stake => l.forest.share id (Int64.ofNat s.2) t) stakes := by
  have hheld : ∀ s ∈ stakes, l'.holdersOf s.1 ≠ 0 := by
    intro s hm
    have hc := hh s.1
    have hcs := hle s.1
    have hpos := List.count_pos_iff.mpr (List.mem_map_of_mem hm : s.1 ∈ stakes.map Prod.fst)
    omega
  have hplaced : ∀ c ∈ stakes.map Prod.fst, c < l'.charges.size := by
    intro c hc
    obtain ⟨s, hs, rfl⟩ := List.mem_map.mp hc
    exact lt_size_of_trackerOf? (ho.places s hs)
  rw [Ledger.load_eq_sumOf, sumOf_congr fun c _ => shown_exchange hs ho hle hh t c, sumOf_add,
    sumOf_sub, ← hs.load_eq_sumOf,
    sumOf_of_mem nodup_solely fun c hc => Nat.lt_of_lt_of_le (lt_size_of_mem_solely hc) hs.size,
    sumOf_of_mem ho.distinct hplaced, ho.sumOf_shown hs hheld]

/-! ## Other holders -/

theorem count_replicates (f : Nat → Nat) (n c : Nat) :
    ((List.range n).flatMap fun c => List.replicate (f c) c).count c = if c < n then f c else 0 := by
  induction n with
  | zero => simp
  | succ n ih =>
    rw [List.range_succ, List.flatMap_append, List.count_append, ih, List.flatMap_singleton,
      List.count_replicate]
    by_cases hc : n = c
    · subst hc
      simp
    · by_cases hlt : c < n
      · simp [hlt, hc, Nat.lt_succ_of_lt hlt]
      · simp [hlt, hc, show ¬c < n + 1 by omega]

/-- Whoever else holds charges or leases owns resources, and the accounts of every tracker are in order
with them. -/
theorem Bears.exists_accounts (h : l.Bears cs) : ∃ S : Resources, S.files = 0 ∧
    ∀ t < l.forest.trackers.size,
      Accounts ⟨t, l.current t - l.load t, 0, []⟩ l (.charges cs + S) := by
  let charges := (List.range l.charges.size).flatMap fun c =>
    List.replicate (l.holdersOf c - (cs.count c + l.leased c)) c
  let leases := (List.range l.leases.size).flatMap fun i => List.replicate (l.leaseHolders i) i
  let held : Resources := (leases.map Resource.lease : List Resource)
  have hcharges : ∀ c, charges.count c = l.holdersOf c - (cs.count c + l.leased c) := by
    intro c
    rw [count_replicates]
    split
    · rfl
    · next hge =>
      rw [holdersOf_of_ge (Nat.not_lt.mp hge), Nat.zero_sub]
  have hleases : ∀ i, leases.count i = l.leaseHolders i := by
    intro i
    rw [count_replicates]
    split
    · rfl
    · next hge =>
      rw [leaseHolders, Array.getElem?_eq_none (Nat.not_lt.mp hge)]
      rfl
  have hinj : Function.Injective Resource.lease := fun _ _ h => Resource.lease.inj h
  have hheld : ∀ i, held.count (.lease i) = l.leaseHolders i := fun i => by
    rw [Multiset.coe_count, List.count_map_of_injective _ _ hinj, hleases]
  have hnone : ∀ c, held.count (.charge c) = 0 := fun c => by
    rw [Multiset.coe_count]
    exact List.count_eq_zero.mpr (by simp)
  refine ⟨.charges charges + held, ?_, fun t ht => ⟨ht, ?_, fun c => ?_, fun i => ?_, Nat.zero_le _,
    fun c x hc => absurd hc (Nat.not_lt_zero c)⟩⟩
  · have hfiles : held.files = ((leases.map Resource.lease).filterMap Resource.file? : List HeldFile) :=
      Multiset.filterMap_coe ..
    have hempty : (leases.map Resource.lease).filterMap Resource.file? = [] := by
      simp [List.filterMap_eq_nil_iff, Resource.file?]
    rw [Resources.files_add, Resources.files_charges, hfiles, hempty]
    rfl
  · exact (Int64.sub_add_cancel ..).symm
  · have hle := h c
    simp only [Multiset.count_add, Resources.count_charges, hcharges, hnone]
    omega
  · simp only [Multiset.count_add, Resources.count_lease_charges, hheld]
    omega

/-- What a tracker shows once some holders are gone and some charges have come. -/
theorem current_exchange {S : Resources} {ds : List ChargeId}
    (hbefore : Accounts ⟨t, l.current t - l.load t, 0, []⟩ l (.charges cs + S))
    (hafter : Accounts ⟨t, l.current t - l.load t, 0, []⟩ l' (.charges ds + S)) (hs : l.Steady l')
    (ho : l.Opens l' id stakes) (hds : ds.Perm (stakes.map Prod.fst)) :
    l'.current t = l.current t - sumOf (l.shown t) (l.solely cs) +
      sumOf (fun s : Stake => l.forest.share id (Int64.ofNat s.2) t) stakes := by
  have hleased : ∀ c, l'.leased c = l.leased c := fun c => by rw [leased, leased, hs.leases]
  have hle : ∀ c, cs.count c ≤ l.holdersOf c := by
    intro c
    have hc := hbefore.holders c
    rw [Multiset.count_add, Resources.count_charges] at hc
    omega
  have hheld : ∀ c, l'.holdersOf c + cs.count c = l.holdersOf c + (stakes.map Prod.fst).count c := by
    intro c
    have hc := hbefore.holders c
    have hc' := hafter.holders c
    rw [Multiset.count_add, Resources.count_charges] at hc hc'
    rw [hds.count_eq, hleased] at hc'
    omega
  have hshown : l'.current t = l.current t - l.load t + l'.load t := hafter.shown
  rw [hshown, load_exchange hs ho hle hheld]
  grind

end Ledger

end Memory

/-! ## Spills -/

variable {w v : Workspace} {order : RowOrder} {tracker : TrackerId}

/-- A run that reads its rows as they lie holds the charges it answers for. -/
theorem SortedRun.charges_perm {run : SortedRun} (hs : run.selection? = none) :
    run.charges.Perm (run.stakes.map Prod.fst) := by
  have hchunk : run.chunk.stakes.map Prod.fst = run.chunk.charge?.toList := by
    unfold Chunk.stakes Chunk.charge?
    cases run.chunk.account? <;> rfl
  rw [charges, orderCharges, stakes, hs, List.map_cons, List.map_append, hchunk]
  exact List.perm_append_comm

/-- What a tracker shows of the charges of such a run. -/
theorem SortedRun.sumOf_share {run : SortedRun} {l : Ledger} (hs : run.selection? = none)
    (hc : run.Charged) (ho : w.ledger.Opens l tracker run.stakes) (t : TrackerId) :
    sumOf (fun s : Stake => w.ledger.forest.share tracker (Int64.ofNat s.2) t) run.stakes =
      w.ledger.forest.share tracker (clampBytes run.chunk.logicalBytes) t +
        w.ledger.forest.share tracker (clampBytes run.keys.bytes) t := by
  have hchunk : sumOf (fun s : Stake => w.ledger.forest.share tracker (Int64.ofNat s.2) t)
      run.chunk.stakes =
      w.ledger.forest.share tracker (clampBytes run.chunk.logicalBytes) t := by
    unfold Chunk.stakes Chunk.logicalBytes
    cases ha : run.chunk.account? with
    | none =>
      have hnone : run.chunk.batch.bytes = 0 := hc.chunk ha
      dsimp only
      rw [hnone]
      exact (if_pos (by decide)).symm
    | some a =>
      have hmem : (a.charge, a.share run.chunk.length) ∈ run.stakes := by
        simp [stakes, Chunk.stakes, ha]
      have hwhole := ho.whole _ hmem
      have hlt := Int64.toNatClampNeg_lt (l.bytesOf a.charge)
      dsimp only at hwhole ⊢
      rw [hwhole] at hlt
      rw [clampBytes, if_pos (by simpa using hlt)]
      exact Int64.add_zero _
  have hkeys := Forest.share_toNatClampNeg w.ledger.forest tracker t (clampBytes run.keys.bytes)
  rw [stakes, hs, hkeys, ← hchunk, Int64.add_comm]
  rfl

/-- Without files that are held everything lies where it lay before. -/
theorem Owns.tree_eq {base : Disk} {S : Resources} (h : Owns (.careless base) w S) (hS : S.files = 0) :
    w.disk.tree = base.tree := by
  obtain ⟨fs, hfs, hk⟩ := Owns.careless_iff.mp h
  rw [hS] at hfs
  obtain rfl : fs = [] := List.map_eq_nil_iff.mp (Multiset.coe_eq_zero _ |>.mp hfs)
  exact hk.tree

/-- One file that is held comes to it. -/
theorem Owns.tree_cons {base : Disk} {f : HeldFile} {S : Resources}
    (h : Owns (.careless base) w (.file f ::ₘ S)) (hS : S.files = 0) :
    ∃ place, w.disk.tree = (place, .file f.content) :: base.tree := by
  obtain ⟨fs, hfs, hk⟩ := Owns.careless_iff.mp h
  rw [Resources.files_file, hS] at hfs
  obtain ⟨e, rfl, rfl⟩ := List.map_eq_singleton_iff.mp (Multiset.coe_eq_singleton.mp hfs)
  exact ⟨e.1, hk.tree⟩

/-- Groups in memory that read their rows hold their charges and nothing else. -/
theorem SortedGroup.parts_of_resident {ps : List (SortedGroup × List Row)}
    (hps : ∀ p ∈ ps, ∃ run, p.1 = .resident run ∧ run.Reads order p.2) :
    Shared (SortedGroup.Part order) ps (.charges (ps.flatMap fun p => p.1.charges)) := by
  induction ps with
  | nil => exact .nil
  | cons p ps ih =>
    obtain ⟨⟨run, hrun, hreads⟩, hps⟩ := List.forall_mem_cons.mp hps
    rw [List.flatMap_cons, Resources.charges_append]
    refine .cons ⟨⟨hreads.sorted, p.2, [], by simp, ?_, ?_⟩, ?_⟩ (ih hps)
    · rw [hrun]
      exact hreads
    · rw [hrun]
      exact ⟨rfl, rfl⟩
    · rw [hrun]
      exact hreads.length_eq.symm

/-- **A spill is all or nothing.** Groups in memory are merged, whatever the cancel flag does and
whatever goes wrong on the disk. If the spill succeeds, the new group has the first chunk of the merged
rows in memory and all others in the one file that was made, in messages as long as chunks but for the
last. It says right what it released and what it retains. If it fails, for whatever reason, there is no
file more than before. In both cases every tracker ceases to show just the charges that only the merged
groups held; after a success it shows those of the new head, for its chunk and for its keys. -/
theorem mergeAndSpill_exact {ps : List (SortedGroup × List Row)} (hne : ps ≠ [])
    (hps : ∀ p ∈ ps, ∃ run, p.1 = .resident run ∧ run.Reads order p.2 ∧ p.2 ≠ [])
    (hheld : w.ledger.Bears (ps.flatMap fun p => p.1.charges)) (tracker : TrackerId)
    (chunkRows : Nat) :
    Gives (mergeAndSpill order tracker chunkRows (ps.map Prod.fst))
      (fun o? v => ∃ o head file f bs place, o? = some o ∧
        SpillOutcome.Made order chunkRows ((ps.flatMap Prod.snd).mergeSort order.rowLe) o head file f bs ∧
        v.disk.tree = (place, .file f.content) :: w.disk.tree ∧
        v.disk.openFile file.path = .ok (.file f.content) ∧
        v.disk.read (.file f.content) = .ok f.bytes ∧
        head.length + o.spilledRows = total (ps.map fun p => p.1.rows) ∧
        o.releasedBytes = clampSize (total (ps.map fun p => p.1.residentBytes)) ∧
        o.retainedBytes = o.group.residentBytes ∧
        ∀ t < w.ledger.forest.trackers.size, v.ledger.current t = w.ledger.current t -
          sumOf (w.ledger.shown t) (w.ledger.solely (ps.flatMap fun p => p.1.charges)) +
          (w.ledger.forest.share tracker (clampBytes head.chunk.logicalBytes) t +
            w.ledger.forest.share tracker (clampBytes head.keys.bytes) t))
      (fun _ v => v.disk.tree = w.disk.tree ∧
        ∀ t < w.ledger.forest.trackers.size, v.ledger.current t = w.ledger.current t -
          sumOf (w.ledger.shown t) (w.ledger.solely (ps.flatMap fun p => p.1.charges))) w := by
  have hparts := SortedGroup.parts_of_resident fun p hp =>
    (hps p hp).imp fun run h => ⟨h.1, h.2.1⟩
  have hrows : ps.flatMap Prod.snd ≠ [] := by
    obtain ⟨p, ps, rfl⟩ := List.exists_cons_of_ne_nil hne
    obtain ⟨run, -, -, hp⟩ := hps p List.mem_cons_self
    rw [List.flatMap_cons]
    exact List.append_ne_nil_of_left_ne_nil hp _
  -- what is on the disk, what was opened, and what each tracker shows
  have hdisk := mergeAndSpill_made (w := w) (S := 0) hparts
    ((Owns.nothing w).careless_charges _) tracker chunkRows
  have hopens := mergeAndSpill_opens (w := w) order tracker chunkRows (ps.map Prod.fst)
  obtain ⟨S, hfiles, haccounts⟩ := hheld.exists_accounts
  have hshown : ∀ t : { t // t < w.ledger.forest.trackers.size }, _ := fun t =>
    mergeAndSpill_made hparts (Accounts.owns_of_files (haccounts t.1 t.2) (by simp [hfiles]))
      tracker chunkRows
  refine ((hdisk.and hopens).and (Gives.all hshown)).mono (fun o? v hv => ?_) fun e v hv => ?_
  · obtain ⟨⟨hdisk, hs, hopens⟩, hshown⟩ := hv
    cases o? with
    | none => exact absurd hdisk.1 hrows
    | some o =>
      obtain ⟨head, file, f, bs, hmade, hown⟩ := hdisk
      -- each account is given of the same head
      have hhead : ∀ {head' : SortedRun} {file' : SpillFile},
          o.group = .spilled (some head') file' → head' = head := fun h =>
        Option.some.inj (congrArg SortedGroup.head? (h.symm.trans hmade.group))
      obtain ⟨head', file', hgroup, hreleased, hretained, hcharged, hopens⟩ := hopens o rfl
      obtain rfl := hhead hgroup
      rw [add_zero] at hown
      obtain ⟨place, htree⟩ := hown.tree_cons (by simp [SortedRun.held])
      obtain ⟨hopen, hread⟩ := hown.openFile
      refine ⟨o, head', file, f, bs, place, rfl, hmade, htree, hmade.path ▸ hopen, hread, ?_, ?_, ?_,
        fun t ht => ?_⟩
      · rw [hmade.spilledRows, hmade.length_eq, List.length_mergeSort, List.flatMap_def,
          SortedGroup.total_rows hparts, List.flatMap_def]
      · rw [hreleased, SortedGroup.totalBytes, List.map_map]
        rfl
      · rw [hretained, hmade.group]
        rfl
      · obtain ⟨head, file'', f', bs', hmade', hown⟩ := hshown ⟨t, ht⟩
        have hafter := (hown.accounts _ rfl).of_keeps hmade'.part.holds.keeps
        have hcharges : o.group.charges.Perm (head'.stakes.map Prod.fst) := by
          rw [hmade.group]
          exact SortedRun.charges_perm hmade.unselected
        rw [Ledger.current_exchange (haccounts t ht) hafter hs.ledger hopens hcharges,
          SortedRun.sumOf_share hmade.unselected hcharged hopens]
  · obtain ⟨⟨hdisk, hs, -⟩, hshown⟩ := hv
    refine ⟨hdisk.tree_eq rfl, fun t ht => ?_⟩
    have hafter := (hshown ⟨t, ht⟩).accounts _ rfl
    rw [← zero_add S, ← Resources.charges_nil] at hafter
    have hnone := Ledger.current_exchange (haccounts t ht) hafter hs.ledger
      (.nil w.ledger v.ledger tracker) (.refl _)
    rw [hnone]
    exact Int64.add_zero _

namespace Sample

/-- Two groups that hold a charge each. -/
def pair : List (SortedGroup × List Row) :=
  [(.resident { runOf [4, 2] #[1, 0] with keyCharge := 0 }, [[.int 2], [.int 4]]),
    (.resident { runOf [1] #[0] with keyCharge := 1 }, [[.int 1]])]

/-- A workspace with these charges, the second of which somebody else holds too. -/
def charged : Workspace :=
  let l := Spill.Sample.workspace.ledger
  { Spill.Sample.workspace with ledger := ((l.charge 2 100).2.charge 2 50).2.share 1 }

theorem reads_pair : ∀ p ∈ pair, ∃ run, p.1 = .resident run ∧ run.Reads ascending p.2 ∧ p.2 ≠ [] := by
  intro p hp
  rcases List.mem_cons.mp hp with rfl | hp
  · have hrows : InOrder ascending.rowLe [[.int 2], [.int 4]] := by decide +kernel
    exact ⟨_, rfl, { reads_runOf [4, 2] #[1, 0] hrows (by decide) rfl rfl with }, by simp⟩
  · obtain rfl := List.mem_singleton.mp hp
    have hrows : InOrder ascending.rowLe [[.int 1]] := by decide +kernel
    exact ⟨_, rfl, { reads_runOf [1] #[0] hrows (by decide) rfl rfl with }, by simp⟩

theorem bears_pair : charged.ledger.Bears (pair.flatMap fun p => p.1.charges) := by
  intro c
  rcases c with _ | _ | c
  · decide
  · decide
  · exact Nat.zero_le _

theorem mergeSort_pair : (pair.flatMap Prod.snd).mergeSort ascending.rowLe =
    [[.int 1], [.int 2], [.int 4]] := by
  have hsorted : InOrder ascending.rowLe [[.int 1], [.int 2], [.int 4]] := by decide +kernel
  have hties : ∀ i ∈ [1, 2, 4], ∀ j ∈ [1, 2, 4], ascending.rowLe [.int i] [.int j] →
      ascending.rowLe [.int j] [.int i] → i = j := by decide +kernel
  have hints : ∀ a ∈ [[Value.int 1], [.int 2], [.int 4]], ∃ i ∈ [1, 2, 4], a = [.int i] := by simp
  have hperm : ((pair.flatMap Prod.snd).mergeSort ascending.rowLe).Perm
      [[.int 1], [.int 2], [.int 4]] :=
    (List.mergeSort_perm ..).trans
      (@List.perm_append_comm _ [[Value.int 2], [.int 4]] [[.int 1]])
  refine hperm.eq_of_pairwise (fun a b ha hb hab hba => ?_)
    (ascending.rowLe_preordering.inOrder_mergeSort _) hsorted
  obtain ⟨i, hi, rfl⟩ := hints a (hperm.mem_iff.mp ha)
  obtain ⟨j, hj, rfl⟩ := hints b hb
  rw [hties i hi j hj hab hba]

end Sample

/-- Of two groups one row stays in memory, two go to the file, and the 100 bytes that are held by one
of the groups alone are given back. -/
theorem mergeAndSpill_exact_two_groups :
    Gives (mergeAndSpill Sample.ascending 2 0 (Sample.pair.map Prod.fst))
      (fun o? v => ∃ o head file, o? = some o ∧ o.group = .spilled (some head) file ∧
        head.length = 1 ∧ o.spilledRows = 2 ∧ v.ledger.current 2 = 150 - 100 +
          (Sample.charged.ledger.forest.share 2 (clampBytes head.chunk.logicalBytes) 2 +
            Sample.charged.ledger.forest.share 2 (clampBytes head.keys.bytes) 2))
      (fun _ _ => False) Sample.charged := by
  have hsucceeds : Gives (mergeAndSpill Sample.ascending 2 0 (Sample.pair.map Prod.fst))
      (fun _ _ => True) (fun _ _ => False) Sample.charged := by
    decide +kernel
  have hexact := mergeAndSpill_exact (by simp [Sample.pair]) Sample.reads_pair Sample.bears_pair 2 0
  refine (hexact.and hsucceeds).mono (fun o? v hv => ?_) fun _ _ hf => hf.2
  obtain ⟨⟨o, head, file, f, bs, place, rfl, hmade, -, -, -, hlength, -, -, hcurrent⟩, -⟩ := hv
  have hone : head.length = 1 := by
    rw [← hmade.reads.length_eq, List.length_take, List.length_mergeSort]
    rfl
  refine ⟨o, head, file, rfl, hmade.group, hone, ?_, ?_⟩
  · rw [hone] at hlength
    exact Nat.add_left_cancel hlength
  · rw [hcurrent 2 (by decide)]
    rfl

end SpillSort
