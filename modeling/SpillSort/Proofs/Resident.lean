import SpillSort.Proofs.Leftovers
import SpillSort.Proofs.Openings

/-!
# What the groups answer for

The runs in memory answer for bytes of the charges they hold. Whatever the operator does to its
groups, no charge is answered for beyond its bytes, all of these charges are on the operator's
tracker, and the monitor counts just these bytes.

* `Operator.Backed` is that invariant, without the count; `Operator.Exact` is about the count.
* `Operator.spill_backed` and `Operator.keepSlice_backed` are the two steps that change groups.
* `Account.total_share_le` says that the slices of a chunk do not answer for more than the chunk.
-/

namespace SpillSort

open Memory Spill
open Workspace (Steady)

/-! ## Charges alone -/

/-- The books of a tracker on which nothing is idle, kept for all charges alike. -/
def Books.sole (t : TrackerId) : Books := ⟨t, 0, 0, []⟩

/-- Surroundings in which the disk may have anything on it. -/
def Surroundings.around (b : Books) (disk : Disk) : Surroundings :=
  ⟨some b, disk, fun _ => True, fun _ _ => trivial, trivial⟩

namespace Accounts

variable {b : Books} {l : Ledger} {R S : Resources} {cs ds : List ChargeId} {w : Workspace}

theorem perm (h : Accounts b l (.charges cs)) (hp : cs.Perm ds) : Accounts b l (.charges ds) := by
  have hsame : Resources.charges cs = .charges ds := Multiset.coe_eq_coe.mpr (hp.map _)
  exact hsame ▸ h

/-- Whoever holds no files does so whatever is on the disk. -/
theorem owns_of_files (h : Accounts b w.ledger R) (hR : R.files = 0) :
    Owns (.around b w.disk) w R := by
  refine ⟨fun b' hb => ?_, ⟨[], hR.symm, .nil _⟩, trivial⟩
  obtain rfl := Option.some.inj hb
  exact h

/-- So does who holds charges alone. -/
theorem owns (h : Accounts b w.ledger (.charges cs)) :
    Owns (.around b w.disk) w (.charges cs) :=
  h.owns_of_files (Resources.files_charges cs)

/-- The accounts do not see the file of a group. -/
theorem of_keeps {g : SortedGroup} (h : Accounts b l (R + S)) (hg : g.Keeps R) :
    Accounts b l (.charges g.charges + S) := by
  unfold SortedGroup.Keeps at hg
  split at hg
  · rwa [hg] at h
  · obtain ⟨f, -, rfl⟩ := hg
    rw [Multiset.cons_add] at h
    exact h.congr (fun c => (Resources.count_charge_file c f _).symm)
      fun i => (Resources.count_lease_file i f _).symm

end Accounts

/-! ## Stakes of groups -/

/-- What the run in memory answers for. -/
def SortedGroup.stakes (g : SortedGroup) : List Stake := (g.head?.map SortedRun.stakes).getD []

/-- All bytes of the run in memory are charged, as far as they could be. -/
def SortedGroup.Charged (g : SortedGroup) : Prop := ∀ run ∈ g.head?, run.Charged

/-- A run has stakes only in charges it holds. -/
theorem SortedRun.mem_charges {run : SortedRun} {s : Stake} (hs : s ∈ run.stakes) :
    s.1 ∈ run.charges := by
  rcases List.mem_cons.mp hs with rfl | hs
  · simp [charges, orderCharges]
  rcases List.mem_append.mp hs with hs | hs
  · cases hv : run.selection? with
    | none => simp [hv] at hs
    | some v =>
      simp only [hv, Option.map_some, Option.getD_some, RowSelection.stakes, List.mem_map] at hs
      obtain ⟨c, hc, rfl⟩ := hs
      simp only [charges, orderCharges, hv, Option.bind_some]
      exact List.mem_append_right _ (List.mem_cons_of_mem _ hc)
  · obtain ⟨a, ha, rfl⟩ := List.mem_map.mp hs
    refine List.mem_append_left _ ?_
    rw [Chunk.charge?, Option.mem_toList.mp ha]
    exact List.mem_singleton_self _

theorem SortedGroup.mem_charges {g : SortedGroup} {s : Stake} (hs : s ∈ g.stakes) :
    s.1 ∈ g.charges := by
  unfold stakes at hs
  unfold charges
  cases hg : g.head? with
  | none => simp [hg] at hs
  | some run =>
    rw [hg] at hs
    exact run.mem_charges hs

theorem toNatClampNeg_clampBytes (n : Nat) :
    (clampBytes n).toNatClampNeg = min n 9223372036854775807 := by
  unfold clampBytes
  split
  · next hlt =>
    rw [Int64.toNatClampNeg_ofNat_of_lt hlt]
    omega
  · next hge =>
    have hmax : Int64.maxValue.toNatClampNeg = 9223372036854775807 := by decide
    rw [hmax]
    omega

theorem clampBytes_pos {n : Nat} (h : 0 < n) : 0 < clampBytes n := by
  refine Int64.not_le.mp fun hle => ?_
  have hzero := Int64.toNatClampNeg_eq_zero_iff.mpr hle
  rw [toNatClampNeg_clampBytes] at hzero
  omega

/-- The bytes of a run are its stakes, unless they reach the largest word. -/
theorem SortedRun.bytes_eq {run : SortedRun} (h : run.Charged)
    (hlt : (total (run.stakes.map Prod.snd) : Int) < maxWord) :
    run.bytes = total (run.stakes.map Prod.snd) := by
  have hchunk : run.chunk.logicalBytes = total (run.chunk.stakes.map Prod.snd) := by
    unfold Chunk.logicalBytes Chunk.stakes
    cases ha : run.chunk.account? with
    | none => exact h.chunk ha
    | some a => simp
  have hselection : (run.selection?.map RowSelection.bytes).getD 0 =
      total (((run.selection?.map RowSelection.stakes).getD []).map Prod.snd) := by
    cases hv : run.selection? with
    | none => rfl
    | some v =>
      obtain ⟨c, hc⟩ := Option.isSome_iff_exists.mp (h.selection v hv)
      simp [RowSelection.stakes, hc]
  simp only [stakes, List.map_cons, List.map_append, total_cons, total_append,
    toNatClampNeg_clampBytes, maxWord] at hlt ⊢
  rw [bytes, hchunk, hselection]
  omega

theorem SortedGroup.residentBytes_eq {g : SortedGroup} (h : g.Charged)
    (hlt : (total (g.stakes.map Prod.snd) : Int) < maxWord) :
    g.residentBytes = total (g.stakes.map Prod.snd) := by
  unfold stakes at hlt ⊢
  unfold residentBytes
  cases hg : g.head? with
  | none => rfl
  | some run =>
    rw [hg] at hlt
    exact run.bytes_eq (h run hg) hlt

/-- The same of many groups. -/
theorem SortedGroup.total_residentBytes_eq {gs : List SortedGroup} (h : ∀ g ∈ gs, g.Charged)
    (hlt : (total ((gs.flatMap stakes).map Prod.snd) : Int) < maxWord) :
    total (gs.map residentBytes) = total ((gs.flatMap stakes).map Prod.snd) := by
  induction gs with
  | nil => rfl
  | cons g gs ih =>
    obtain ⟨hg, hgs⟩ := List.forall_mem_cons.mp h
    simp only [List.flatMap_cons, List.map_append, total_append, List.map_cons, total_cons] at hlt ⊢
    rw [residentBytes_eq hg (by omega), ih hgs (by omega)]

/-! ## Counting -/

namespace Monitor

variable {m : Monitor} {kept : Nat}

/-- The count after a group was staged, unless it would not fit a word. -/
theorem residentBytes_onStaged {bytes : Nat} (rows : Nat) (hm : m.residentBytes = kept)
    (hfit : ((kept + bytes : Nat) : Int) ≤ maxWord) :
    (m.onStaged rows bytes).residentBytes = (kept + bytes : Nat) := by
  simp only [onStaged, saturate, word, maxWord] at hfit ⊢
  omega

/-- The count after a spill, unless one of the counts would not fit a word. -/
theorem residentBytes_onSpilled {released retained : Nat}
    (hm : m.residentBytes = (released + kept : Nat))
    (hbefore : ((released + kept : Nat) : Int) ≤ maxWord)
    (hafter : ((retained + kept : Nat) : Int) ≤ maxWord) :
    (m.onSpilled (clampSize released) retained).residentBytes = (retained + kept : Nat) := by
  simp only [onSpilled, saturate, word, clampSize, maxWord] at hbefore hafter ⊢
  omega

end Monitor

/-! ## The invariant -/

theorem Memory.staked_perm {stakes others : List Stake} (h : stakes.Perm others) (c : ChargeId) :
    staked stakes c = staked others c := by
  induction h with
  | nil => rfl
  | cons s _ ih => rw [staked_cons, staked_cons, ih]
  | swap s t _ => rw [staked_cons, staked_cons, staked_cons, staked_cons, Nat.add_left_comm]
  | trans _ _ ih ih' => exact ih.trans ih'

theorem total_perm {ns ms : List Nat} (h : ns.Perm ms) : total ns = total ms := by
  induction h with
  | nil => rfl
  | cons n _ ih => rw [total_cons, total_cons, ih]
  | swap n m _ => simp only [total_cons, Nat.add_left_comm]
  | trans _ _ ih ih' => exact ih.trans ih'

namespace Operator

variable {op op' : Operator} {l l' : Ledger} {cs ds : List ChargeId} {mine rest opened : List Stake}
  {w : Workspace} {order : RowOrder}

/-- All groups, those in memory first. -/
def groups (op : Operator) : List SortedGroup := op.resident.toList ++ op.spilled.toList

/-- The bytes of all groups in memory. -/
def residentTotal (op : Operator) : Nat := total (op.groups.map SortedGroup.residentBytes)

/-- The monitor counts the bytes in memory. -/
def Exact (op : Operator) : Prop := op.monitor.residentBytes = (op.residentTotal : Int)

/-- The charges of all groups. -/
def groupCharges (op : Operator) : List ChargeId := op.groups.flatMap SortedGroup.charges

/-- What all groups answer for. -/
def stakes (op : Operator) : List Stake := op.groups.flatMap SortedGroup.stakes

/-- The bytes that all groups answer for. -/
def answered (op : Operator) : Nat := total (op.stakes.map Prod.snd)

/-- The groups in memory are slices, each sorted. -/
def Sorted (op : Operator) : Prop :=
  ∀ g ∈ op.resident, ∃ order ∈ op.order?, ∃ (run : SortedRun) (b : Batch),
    g = .resident run ∧ run.Sorts order b

/-- The groups hold their charges, besides those in `cs`, and answer for no more than these charges
have, together with the stakes in `mine`, which are on the operator's tracker as well, and those in
`rest`, which may be elsewhere. -/
structure Backed (op : Operator) (l : Ledger) (cs : List ChargeId) (mine rest : List Stake) :
    Prop where
  simple : ∀ id, (l.forest.path id).Nodup
  accounts : Accounts (.sole op.tracker) l (.charges (op.groupCharges ++ cs))
  sorted : op.Sorted
  charged : ∀ g ∈ op.groups, g.Charged
  covers : l.Covers (op.stakes ++ (mine ++ rest))
  places : l.Places op.tracker (op.stakes ++ mine)

theorem groups_congr (hr : op'.resident = op.resident) (hs : op'.spilled = op.spilled) :
    op'.groups = op.groups := by
  rw [groups, groups, hr, hs]

namespace Backed

/-- Only the groups, their order and the tracker matter. -/
theorem congr (h : op.Backed l cs mine rest) (hr : op'.resident = op.resident)
    (hs : op'.spilled = op.spilled) (ht : op'.tracker = op.tracker) (ho : op'.order? = op.order?) :
    op'.Backed l cs mine rest := by
  have hgroups := groups_congr hr hs
  refine ⟨h.simple, ?_, ?_, ?_, ?_, ?_⟩
  · rw [ht, groupCharges, hgroups]
    exact h.accounts
  · rw [Sorted, hr, ho]
    exact h.sorted
  · rw [hgroups]
    exact h.charged
  · rw [stakes, hgroups]
    exact h.covers
  · rw [ht, stakes, hgroups]
    exact h.places

/-- The bytes in memory are what the groups answer for. -/
theorem residentTotal_eq (h : op.Backed l cs mine rest) (hlt : (op.answered : Int) < maxWord) :
    op.residentTotal = op.answered :=
  SortedGroup.total_residentBytes_eq h.charged hlt

/-- They do not exceed what is live on the tracker. -/
theorem answered_le_live (h : op.Backed l cs mine rest) : op.answered ≤ l.live op.tracker := by
  have hcovers : l.Covers op.stakes := h.covers.le fun c => by
    rw [staked_append]
    exact Nat.le_add_right _ _
  refine hcovers.total_le_live (fun s hs => h.places s (List.mem_append_left _ hs)) fun s hs => ?_
  obtain ⟨g, hg, hsg⟩ := List.mem_flatMap.mp hs
  have hm : s.1 ∈ op.groupCharges ++ cs :=
    List.mem_append_left _ (List.mem_flatMap_of_mem hg (SortedGroup.mem_charges hsg))
  obtain ⟨x, hx, -, h0⟩ := h.accounts.exists_charge (c := s.1) (Multiset.mem_coe.mpr
    (List.mem_map_of_mem hm))
  rw [Ledger.holdersOf, hx]
  exact h0

/-- The tracker shows what is live on it, unless that does not fit a word. -/
theorem current_eq (h : op.Backed l cs mine rest) (hlt : (l.live op.tracker : Int) < maxWord) :
    (l.current op.tracker).toInt = l.live op.tracker := by
  have hshown : l.current op.tracker = 0 + l.load op.tracker := h.accounts.shown
  rw [hshown, Ledger.load_eq h.simple, Int64.zero_add, Int64.toInt_ofNat_of_lt]
  rw [maxWord] at hlt
  omega

/-- Some groups are let go of, and new charges opened on the tracker. -/
theorem move (h : op.Backed l cs mine rest) {chosen : List SortedGroup}
    (hgroups : op.groups.Perm (chosen ++ op'.groups)) (htracker : op'.tracker = op.tracker)
    (hsorted : op'.Sorted) (hs : l.Steady l')
    (ha : Accounts (.sole op.tracker) l' (.charges (op'.groupCharges ++ ds)))
    (ho : l.Opens l' op.tracker opened) : op'.Backed l' ds (opened ++ mine) rest := by
  have hstakes : op.stakes.Perm (chosen.flatMap SortedGroup.stakes ++ op'.stakes) := by
    have hp := hgroups.flatMap_right SortedGroup.stakes
    rwa [List.flatMap_append] at hp
  have hsub : ∀ s ∈ op'.stakes, s ∈ op.stakes := fun s hm =>
    hstakes.mem_iff.mpr (List.mem_append_right _ hm)
  refine ⟨fun id => hs.path ▸ h.simple id, htracker ▸ ha, hsorted, fun g hg => ?_, ?_, ?_⟩
  · exact h.charged g (hgroups.mem_iff.mpr (List.mem_append_right _ hg))
  · have hold : l.Covers (op'.stakes ++ (mine ++ rest)) := h.covers.le fun c => by
      simp only [staked_append, staked_perm hstakes]
      omega
    refine (hs.covers_append hold ho.covers ho.new).le fun c => ?_
    simp only [staked_append]
    omega
  · rw [htracker]
    intro s hm
    rcases List.mem_append.mp hm with hm | hm
    · exact hs.places h.places s (List.mem_append_left _ (hsub s hm))
    · rcases List.mem_append.mp hm with hm | hm
      · exact ho.places s hm
      · exact hs.places h.places s (List.mem_append_right _ hm)

/-- Charges are opened or let go of beside the groups. -/
theorem beside (h : op.Backed l cs mine rest) (hs : l.Steady l')
    (ha : Accounts (.sole op.tracker) l' (.charges (op.groupCharges ++ ds)))
    (ho : l.Opens l' op.tracker opened) : op.Backed l' ds (opened ++ mine) rest := by
  have hgroups : op.groups.Perm ([] ++ op.groups) := .refl _
  exact h.move hgroups rfl h.sorted hs ha ho

/-- A group comes to those that are there, and with it what it answers for. -/
theorem adopt {g : SortedGroup} (h : op.Backed l ds (g.stakes ++ mine) rest)
    (hgroups : op'.groups.Perm (g :: op.groups)) (htracker : op'.tracker = op.tracker)
    (hsorted : op'.Sorted) (hg : g.Charged) (hds : ds.Perm (g.charges ++ cs)) :
    op'.Backed l cs mine rest := by
  have hstakes : op'.stakes.Perm (g.stakes ++ op.stakes) :=
    hgroups.flatMap_right SortedGroup.stakes
  have hcharges : op'.groupCharges.Perm (g.charges ++ op.groupCharges) :=
    hgroups.flatMap_right SortedGroup.charges
  refine ⟨h.simple, ?_, hsorted, fun g' hg' => ?_, h.covers.le fun c => ?_, fun s hm => ?_⟩
  · rw [htracker]
    have hmid : (op.groupCharges ++ (g.charges ++ cs)).Perm
        (g.charges ++ op.groupCharges ++ cs) := by
      rw [← List.append_assoc]
      exact List.perm_append_comm.append_right cs
    exact h.accounts.perm
      ((hds.append_left _).trans (hmid.trans (hcharges.symm.append_right cs)))
  · rcases List.mem_cons.mp (hgroups.mem_iff.mp hg') with rfl | hm
    · exact hg
    · exact h.charged g' hm
  · simp only [staked_append, staked_perm hstakes]
    omega
  · rw [htracker]
    refine h.places s ?_
    rcases List.mem_append.mp hm with hm | hm
    · rcases List.mem_append.mp (hstakes.mem_iff.mp hm) with hm | hm
      · exact List.mem_append_right _ (List.mem_append_left _ hm)
      · exact List.mem_append_left _ hm
    · exact List.mem_append_right _ (List.mem_append_right _ hm)

end Backed

/-! ## Relieving memory -/

/-- What may come of relieving memory: charges stay held and answered for, and the monitor still
counts the bytes in memory, unless they reach the largest word. -/
structure Relieves (cs : List ChargeId) (mine rest : List Stake) (s t : Operator × Workspace) :
    Prop where
  bare : t.1.bare = s.1.bare
  steady : Steady s.2 t.2
  backed : t.1.Backed t.2.ledger cs mine rest
  exact : s.1.Exact → (s.1.answered : Int) < maxWord → (t.1.answered : Int) < maxWord → t.1.Exact

theorem Backed.relieves (h : op.Backed w.ledger cs mine rest) :
    Relieves cs mine rest (op, w) (op, w) :=
  ⟨rfl, refl_of Steady w, h, fun he _ _ => he⟩

/-- Sorted slices have rows, and hold nothing but their charges. -/
theorem exists_parts {gs : List SortedGroup}
    (h : ∀ g ∈ gs, ∃ (run : SortedRun) (b : Batch), g = .resident run ∧ run.Sorts order b) :
    ∃ ps : List (SortedGroup × List Row), ps.map Prod.fst = gs ∧
      Shared (SortedGroup.Part order) ps (.charges (gs.flatMap SortedGroup.charges)) ∧
      (gs ≠ [] → ps.flatMap Prod.snd ≠ []) := by
  induction gs with
  | nil => exact ⟨[], rfl, .nil, fun h => absurd rfl h⟩
  | cons g gs ih =>
    obtain ⟨⟨run, b, hg, hsorts⟩, hgs⟩ := List.forall_mem_cons.mp h
    obtain ⟨ps, hps, hshared, -⟩ := ih hgs
    have hpart : NewPart order (g, b) run.held := ⟨run, hg, hsorts, rfl⟩
    have hcharges : g.charges = run.charges := by rw [hg]; rfl
    refine ⟨(g, order.sortedTable b) :: ps, by rw [List.map_cons, hps], ?_, fun _ => ?_⟩
    · rw [List.flatMap_cons, Resources.charges_append, hcharges]
      exact .cons hpart.part hshared
    · rw [List.flatMap_cons]
      exact List.append_ne_nil_of_left_ne_nil hpart.sortedTable_ne_nil _

namespace Sorted

/-- None of the sorted slices is on disk. -/
theorem unspilled (h : op.Sorted) : ∀ g ∈ op.resident, g.spilled? = none := by
  intro g hg
  obtain ⟨_, -, _, _, rfl, -⟩ := h g hg
  rfl

/-- The older half of the groups is chosen, the others stay. -/
theorem candidates (h : op.Sorted) :
    (spillCandidates op.resident).1 ++ op.withoutChosen.resident.toList = op.resident.toList := by
  obtain ⟨hchosen, hrest⟩ := spillCandidates_eq h.unspilled
  rw [hchosen, withoutChosen, hrest, List.take_append_drop]

theorem mem_of_chosen (h : op.Sorted) {g : SortedGroup} (hg : g ∈ (spillCandidates op.resident).1) :
    g ∈ op.resident :=
  Array.mem_toList_iff.mp (h.candidates ▸ List.mem_append_left _ hg)

theorem mem_of_withoutChosen (h : op.Sorted) {g : SortedGroup}
    (hg : g ∈ op.withoutChosen.resident) : g ∈ op.resident :=
  Array.mem_toList_iff.mp (h.candidates ▸ List.mem_append_right _ (Array.mem_toList_iff.mpr hg))

theorem withoutChosen (h : op.Sorted) : op.withoutChosen.Sorted := fun g hg =>
  h g (h.mem_of_withoutChosen hg)

theorem groups_eq (h : op.Sorted) :
    op.groups = (spillCandidates op.resident).1 ++ op.withoutChosen.groups := by
  rw [groups, ← h.candidates, List.append_assoc]
  rfl

/-- If none is chosen, only the policy takes note of it. -/
theorem spilledTo_none (h : op.Sorted) (hempty : (spillCandidates op.resident).1 = []) :
    op.spilledTo none = { op with monitor := op.monitor.onSpillSkipped } := by
  have hsame : op.withoutChosen.resident = op.resident := by
    have hsplit := h.candidates
    rw [hempty] at hsplit
    exact Array.toList_inj.mp hsplit
  exact congrArg (fun resident => { op with resident, monitor := op.monitor.onSpillSkipped }) hsame

/-- Those chosen are slices with rows, all of them. -/
theorem parts (h : op.Sorted) (ho : op.order? = some order) :
    ∃ ps : List (SortedGroup × List Row), ps.map Prod.fst = (spillCandidates op.resident).1 ∧
      Shared (SortedGroup.Part order) ps
        (.charges ((spillCandidates op.resident).1.flatMap SortedGroup.charges)) ∧
      ((spillCandidates op.resident).1 ≠ [] → ps.flatMap Prod.snd ≠ []) := by
  refine exists_parts fun g hg => ?_
  obtain ⟨order', ho', hrun⟩ := h g (h.mem_of_chosen hg)
  obtain rfl := Option.some.inj (ho.symm.trans ho')
  exact hrun

/-- A group with all of their rows comes of those that are chosen. -/
theorem mergeAndSpill_spec (h : op.Sorted) (ho : op.order? = some order)
    (hne : (spillCandidates op.resident).1 ≠ []) {E : Surroundings} {S : Resources} {v : Workspace}
    (hw : Owns E v (.charges ((spillCandidates op.resident).1.flatMap SortedGroup.charges) + S))
    (tracker : TrackerId) (chunkRows : Nat) :
    Gives (mergeAndSpill order tracker chunkRows (spillCandidates op.resident).1)
      (fun made? u => ∃ made R, made? = some made ∧
        made.group.rows = total ((spillCandidates op.resident).1.map SortedGroup.rows) ∧
        made.group.Keeps R ∧ Owns E u (R + S)) (fun _ _ => True) v := by
  obtain ⟨ps, hps, hparts, hrows⟩ := h.parts ho
  have hspec := SpillSort.mergeAndSpill_spec hparts hw tracker chunkRows
  rw [hps] at hspec
  refine hspec.mono (fun made? u hu => ?_) fun _ _ _ => trivial
  cases made? with
  | none => exact absurd hu.1 (hrows hne)
  | some made =>
    obtain ⟨R, hpart, -, hu⟩ := hu
    refine ⟨made, R, rfl, ?_, hpart.holds.keeps, hu⟩
    rw [hpart.rows, List.length_mergeSort, ← SortedGroup.total_rows hparts, ← hps, List.map_map]
    rfl

end Sorted

theorem groups_spilledTo (op : Operator) (made : SpillOutcome) :
    (op.spilledTo (some made)).groups = op.withoutChosen.groups ++ [made.group] := by
  simp [groups, spilledTo, withoutChosen]

/-- A group takes the place of those it was merged from. -/
theorem Backed.merged (h : op.Backed w.ledger cs mine rest) {made : SpillOutcome} {v : Workspace}
    (hreleased : made.releasedBytes = SortedGroup.totalBytes (spillCandidates op.resident).1)
    (hretained : made.retainedBytes = made.group.residentBytes) (hg : made.group.Charged)
    (hs : Steady w v)
    (ha : Accounts (.sole op.tracker) v.ledger
      (.charges (op.withoutChosen.groupCharges ++ (made.group.charges ++ cs))))
    (ho : w.ledger.Opens v.ledger op.tracker made.group.stakes) :
    Relieves cs mine rest (op, w) (op.spilledTo (some made), v) := by
  have hgroups := h.sorted.groups_eq
  have hback : (op.spilledTo (some made)).Backed v.ledger cs mine rest := by
    have hmid := h.move (.of_eq hgroups) rfl h.sorted.withoutChosen hs.ledger ha ho
    refine hmid.adopt ?_ rfl h.sorted.withoutChosen hg (.refl _)
    rw [groups_spilledTo]
    exact List.perm_append_comm
  refine ⟨rfl, hs, hback, fun he hbefore hafter => ?_⟩
  have hold : op.residentTotal =
      total ((spillCandidates op.resident).1.map SortedGroup.residentBytes) +
        op.withoutChosen.residentTotal := by
    rw [residentTotal, hgroups, List.map_append, total_append]
    rfl
  have hnew : (op.spilledTo (some made)).residentTotal =
      made.group.residentBytes + op.withoutChosen.residentTotal := by
    rw [residentTotal, groups_spilledTo, List.map_append, total_append, Nat.add_comm]
    simp [residentTotal]
  have hcount : op.monitor.residentBytes =
      (total ((spillCandidates op.resident).1.map SortedGroup.residentBytes) +
        op.withoutChosen.residentTotal : Nat) := hold ▸ he
  rw [← h.residentTotal_eq hbefore, hold] at hbefore
  rw [← hback.residentTotal_eq hafter, hnew] at hafter
  rw [Exact, hnew]
  show (op.monitor.onSpilled made.releasedBytes made.retainedBytes).residentBytes = _
  rw [hreleased, hretained]
  exact Monitor.residentBytes_onSpilled hcount (Int.le_of_lt hbefore) (Int.le_of_lt hafter)

theorem spill_backed (h : op.Backed w.ledger cs mine rest) (reason : SpillReason) :
    Gives (spill reason) (fun _ => Relieves cs mine rest (op, w)) (fun _ _ => True) (op, w) := by
  have hcharges : Resources.charges (op.groupCharges ++ cs) =
      .charges ((spillCandidates op.resident).1.flatMap SortedGroup.charges) +
        .charges (op.withoutChosen.groupCharges ++ cs) := by
    rw [groupCharges, h.sorted.groups_eq, List.flatMap_append, List.append_assoc,
      Resources.charges_append]
    rfl
  refine gives_spill (fun _ => h.relieves) (fun order journal _ hempty => ?_)
    fun order journal ho hne => ?_
  · show Relieves cs mine rest (op, w) (op.spilledTo none, { w with journal })
    rw [h.sorted.spilledTo_none hempty]
    exact ⟨rfl, Workspace.Modest.journal .., h.congr rfl rfl rfl rfl, fun he _ _ => he⟩
  · have hwv : Steady w { w with journal } := Workspace.Modest.journal ..
    have hown := (h.accounts.owns.cast hcharges).journal journal
    refine Gives.mono ((h.sorted.mergeAndSpill_spec ho hne hown _ _).and
      (mergeAndSpill_opens (w := { w with journal }) order op.tracker _ _)) (fun made? u hu => ?_)
        fun _ _ _ => trivial
    obtain ⟨⟨made, R, rfl, -, hkeeps, hown⟩, hvu, hopens⟩ := hu
    obtain ⟨head, file, hgroup, hreleased, hretained, hcharged, hopens⟩ := hopens made rfl
    have hstakes : made.group.stakes = head.stakes := by rw [hgroup]; rfl
    have hbytes : made.group.residentBytes = head.bytes := by rw [hgroup]; rfl
    have hcharged' : made.group.Charged := by
      rw [hgroup]
      intro run hrun
      obtain rfl := Option.some.inj hrun
      exact hcharged
    have ha : Accounts (.sole op.tracker) u.ledger
        (.charges (op.withoutChosen.groupCharges ++ (made.group.charges ++ cs))) := by
      have ha := (hown.accounts _ rfl).of_keeps hkeeps
      rw [← Resources.charges_append, ← List.append_assoc] at ha
      refine ha.perm ?_
      rw [← List.append_assoc]
      exact List.perm_append_comm.append_right cs
    exact h.merged hreleased (hretained.trans hbytes.symm) hcharged' (trans_of Steady hwv hvu) ha
      (hstakes ▸ hopens.before hwv.ledger)

theorem relieve_backed (h : op.Backed w.ledger cs mine rest) :
    Gives relieve (fun _ => Relieves cs mine rest (op, w)) (fun _ _ => True) (op, w) :=
  gives_relieve (fun _ => spill_backed h _) h.relieves

/-- What comes of a state in which nothing but the journal and the policy differ. -/
theorem Relieves.noted {journal : Array Notice} {monitor : Monitor} {t : Operator × Workspace}
    (h : Relieves cs mine rest ({ op with monitor }, { w with journal }) t)
    (hm : monitor.residentBytes = op.monitor.residentBytes) :
    Relieves cs mine rest (op, w) t where
  bare := h.bare
  steady := trans_of Steady (Workspace.Modest.journal w journal) h.steady
  backed := h.backed
  exact he := h.exact (hm.trans he)

theorem relieveInput_backed (h : op.Backed w.ledger cs mine rest) :
    Gives relieveInput (fun _ => Relieves cs mine rest (op, w)) (fun _ _ => True) (op, w) := by
  have hnoted : ∀ journal, ({ op with monitor := op.monitor.onOutOfMemory.2 } : Operator).Backed
      { w with journal }.ledger cs mine rest := fun _ => h.congr rfl rfl rfl rfl
  refine gives_relieveInput (fun journal _ => ?_) fun journal => ?_
  · exact Gives.mono (spill_backed (hnoted journal) _) (fun _ _ ht => ht.noted rfl)
      fun _ _ _ => trivial
  · exact (hnoted journal).relieves.noted rfl

/-! ## Keeping slices -/

/-- A new charge on the operator's tracker is held, and may be answered for. -/
theorem Backed.charge (h : op.Backed l cs mine rest) (bytes : Int64) :
    op.Backed (l.charge op.tracker bytes).2 ((l.charge op.tracker bytes).1 :: cs)
      (((l.charge op.tracker bytes).1, bytes.toNatClampNeg) :: mine) rest := by
  refine h.beside (l.charge_steady _ _) ?_ (l.charge_opens _ _)
  have ha := h.accounts.charge op.tracker bytes
  rw [← Resources.charges_cons] at ha
  exact ha.perm List.perm_middle.symm

theorem trySelection_backed (h : op.Backed w.ledger cs mine rest) {rows : Nat}
    (hsmall : rows ≤ maxSelectionRows) (journal : Array Notice) :
    Ensures (trySelection rows) (fun r t => ∀ v, r = .ok v → t.1 = op ∧ Steady w t.2 ∧
      v.offsets = RowSelection.identityOffsets rows ∧ v.charge?.isSome ∧
      op.Backed t.2.ledger (v.charge?.toList ++ cs) (v.stakes ++ mine) rest)
      (op, { w with journal }) := by
  have hbytes : (clampBytes (RowSelection.bytesFor rows)).toNatClampNeg =
      RowSelection.bytesFor rows := by
    rw [toNatClampNeg_clampBytes, RowSelection.bytesFor, clampSize]
    rw [maxSelectionRows] at hsmall
    omega
  have hsize : (RowSelection.identityOffsets rows).size = rows := by
    simp [RowSelection.identityOffsets]
  unfold trySelection
  simp only [Ensures.bind_iff, Ensures.get_layer_iff, Ensures.lift_layer_iff, Workspace.withLedger,
    Ensures.modifyGet_iff, RowSelection.allocate, Ledger.tryCharge]
  split
  · exact fun _ hv => by cases hv
  · intro v hv
    obtain rfl := Except.ok.inj hv
    have hsteady : Steady w { w with journal } := Workspace.Modest.journal ..
    refine ⟨trivial, trans_of Steady hsteady (Workspace.Modest.charge ..), rfl, rfl, ?_⟩
    have hcharged := h.charge (clampBytes (RowSelection.bytesFor rows))
    rw [hbytes] at hcharged
    simpa [RowSelection.stakes, RowSelection.bytes, hsize] using hcharged

/-- A selection of the rows, with a charge that the operator holds besides its groups. -/
structure Selects (rows : Nat) (cs : List ChargeId) (mine rest : List Stake)
    (v : RowSelection) (s t : Operator × Workspace) : Prop where
  offsets : v.offsets = RowSelection.identityOffsets rows
  charged : v.charge?.isSome
  relieves : Relieves (v.charge?.toList ++ cs) (v.stakes ++ mine) rest s t

theorem allocateSelection_backed {rows : Nat} (hsmall : rows ≤ maxSelectionRows)
    (h : op.Backed w.ledger cs mine rest) :
    Gives (allocateSelection rows) (fun v => Selects rows cs mine rest v (op, w))
      (fun _ _ => True) (op, w) := by
  refine Gives.mono (gives_allocateSelection (Q := Relieves cs mine rest (op, w))
    (E := fun _ _ => True) h.relieves fun journal => ?_) (fun v t ht => ?_) fun _ _ _ => trivial
  · exact Gives.mono (spill_backed (w := { w with journal }) h _) (fun _ _ ht => ht.noted rfl)
      fun _ _ _ => trivial
  · obtain ⟨u, hu, hgranted⟩ := ht
    obtain ⟨hop, hut, hoffsets, hcharged, hback⟩ := hgranted.holds fun journal =>
      trySelection_backed hu.backed hsmall journal
    refine ⟨hoffsets, hcharged, hop ▸ hu.bare, trans_of Steady hu.steady hut, hop ▸ hback,
      fun he hbefore hafter => ?_⟩
    rw [hop] at hafter ⊢
    exact hu.exact he hbefore hafter

end Operator

/-- Encoded keys always take some bytes. -/
theorem RowOrder.encode_bytes_pos {o : RowOrder} {b : Batch} {keys : EncodedKeys}
    (h : o.encode b = .ok keys) : 0 < keys.bytes := by
  unfold encode at h
  split at h
  · cases h
  · obtain rfl := Except.ok.inj h
    show 0 < 72 + 8 * (b.rows + 1) + _
    omega

/-- Sorting opens a charge for the keys, and does nothing else to the ledger. -/
theorem SortedRun.sort_charges (order : RowOrder) (chunk : Chunk) (selection : RowSelection)
    (tracker : TrackerId) {w : Workspace} :
    Gives (sort order chunk selection tracker) (fun run v => run.chunk = chunk ∧
      (∃ offsets : Array Nat, offsets.size = selection.offsets.size ∧
        run.selection? = some { selection with offsets }) ∧
      0 < run.keys.bytes ∧
      run.keyCharge = (w.ledger.charge tracker (clampBytes run.keys.bytes)).1 ∧
      v.ledger = (w.ledger.charge tracker (clampBytes run.keys.bytes)).2 ∧ Steady w v)
      (fun _ _ => True) w := by
  unfold sort
  split
  · simp only [Gives.bind_iff, Gives.throw_iff]
  simp only [Gives.bind_iff, Gives.except_iff, Gives.lift_iff]
  cases hk : order.encode chunk.batch with
  | error e => trivial
  | ok keys =>
    have hsize : (sortRows order keys selection.offsets.toList).toArray.size =
        selection.offsets.size := by
      rw [List.size_toArray, (sortRows_perm ..).length_eq, Array.length_toList]
    exact ⟨rfl, ⟨_, hsize, rfl⟩, order.encode_bytes_pos hk, rfl, rfl,
      Workspace.Modest.charge w tracker _⟩

namespace Operator

variable {op : Operator} {cs : List ChargeId} {mine rest : List Stake} {w : Workspace}
  {order : RowOrder}

/-- The peak that the sort's node shows is no higher than that of the tracker. -/
def PeakShown (s : Operator × Workspace) : Prop :=
  ∃ shown, s.2.shownPeak? = some shown ∧ shown ≤ s.2.ledger.forest.peak s.1.tracker

/-- What may come of a step of taking in, besides the event at hand: charges stay held and answered
for, the monitor counts the bytes in memory, and the peak shown is not too high. -/
structure Follows (cs : List ChargeId) (mine rest : List Stake) (s t : Operator × Workspace) :
    Prop where
  bare : t.1.bare = s.1.bare
  ledger : s.2.ledger.Steady t.2.ledger
  backed : t.1.Backed t.2.ledger cs mine rest
  exact : s.1.Exact → (s.1.answered : Int) < maxWord → (t.1.answered : Int) < maxWord → t.1.Exact
  shown : PeakShown s → t.1.Exact → (t.2.ledger.live t.1.tracker : Int) < maxWord → PeakShown t

theorem PeakShown.steady {s t : Operator × Workspace} (h : PeakShown s)
    (ht : t.1.tracker = s.1.tracker) (hs : Steady s.2 t.2) : PeakShown t := by
  obtain ⟨shown, hshown, hle⟩ := h
  exact ⟨shown, hs.shownPeak?.trans hshown, Int64.le_trans hle (ht ▸ hs.ledger.peak _)⟩

theorem Relieves.follows {s t : Operator × Workspace} (h : Relieves cs mine rest s t) :
    Follows cs mine rest s t :=
  ⟨h.bare, h.steady.ledger, h.backed, h.exact, fun hp _ _ =>
    hp.steady (congrArg Operator.tracker h.bare :) h.steady⟩

/-- Counting at the sort's own node shows there. -/
theorem count_shows (k : String) (f : Counter → Counter) :
    Ensures (Workspace.count [] k f) (fun _ v => v.ledger = w.ledger ∧
      ∀ shown, w.shownPeak? = some shown → ∃ c : Counter, c.value = shown ∧
        v.shownPeak? = some (if "PeakResidentBytes" = k then (f c).value else shown)) w := by
  refine ⟨rfl, fun shown hshown => ?_⟩
  obtain ⟨c, hc, hv⟩ := Profile.value?_onCounter (k := k) hshown f
  refine ⟨c, hc, ?_⟩
  show (w.fragment.profile.onPath (w.node ++ []) _).value? w.node _ = _
  rw [List.append_nil]
  exact hv

/-- So does what counts a group that is kept. -/
theorem countKept_shows (op : Operator) (run : SortedRun) :
    Ensures (countKept op run) (fun _ v => v.ledger = w.ledger ∧
      ∀ shown, w.shownPeak? = some shown → ∃ c : Counter, c.value = shown ∧ v.shownPeak? =
        some (c.raise (Int64.ofInt (op.keeping run).monitor.residentBytes)).value) w := by
  unfold countKept
  rw [Ensures.bind_iff]
  refine (count_shows "SortRows" _).mono fun _ x hx => (count_shows "PeakResidentBytes" _).mono
    fun _ y hy => ⟨hy.1.trans hx.1, fun shown hshown => ?_⟩
  obtain ⟨c, rfl, hx⟩ := hx.2 shown hshown
  rw [if_neg (by decide)] at hx
  exact hy.2 c.value hx

/-- The monitor's count, written as a word, is no more than what the tracker shows. -/
theorem Backed.word_le_current {l : Ledger} (h : op.Backed l cs mine rest) (he : op.Exact)
    (hlive : (l.live op.tracker : Int) < maxWord) :
    op.monitor.residentBytes ≤ (l.current op.tracker).toInt ∧
      Int64.ofInt op.monitor.residentBytes ≤ l.current op.tracker := by
  have hle := h.answered_le_live
  have hcurrent := h.current_eq hlive
  rw [Exact, h.residentTotal_eq (by omega)] at he
  refine ⟨by omega, ?_⟩
  rw [maxWord] at hlive
  rw [Int64.le_iff_toInt_le, Int64.toInt_ofInt_of_le (by omega) (by omega)]
  omega

theorem groups_keeping (op : Operator) (run : SortedRun) :
    (op.keeping run).groups.Perm (.resident run :: op.groups) := by
  simp [groups, keeping]

/-- A sorted slice comes to the groups, with a charge for its keys. -/
theorem Backed.staged {l : Ledger} {run : SortedRun} {selection : RowSelection}
    {offsets : Array Nat} {b : Batch}
    (h : op.Backed l (selection.charge?.toList ++ (run.chunk.charge?.toList ++ cs))
      (selection.stakes ++ (run.chunk.stakes ++ mine)) rest)
    (ho : op.order? = some order) (hsorts : run.Sorts order b) (hc : run.chunk.Charged)
    (hcharged : selection.charge?.isSome)
    (hselection : run.selection? = some { selection with offsets })
    (hsize : offsets.size = selection.offsets.size)
    (hkey : run.keyCharge = (l.charge op.tracker (clampBytes run.keys.bytes)).1) :
    (op.keeping run).Backed (l.charge op.tracker (clampBytes run.keys.bytes)).2 cs mine rest := by
  have hstakes : (SortedGroup.resident run).stakes ++ mine =
      (run.keyCharge, (clampBytes run.keys.bytes).toNatClampNeg) ::
        (selection.stakes ++ (run.chunk.stakes ++ mine)) := by
    simp [SortedGroup.stakes, SortedGroup.resident, SortedRun.stakes, hselection,
      RowSelection.stakes, RowSelection.bytes, hsize]
  have hcharges : (run.keyCharge :: (selection.charge?.toList ++
      (run.chunk.charge?.toList ++ cs))).Perm ((SortedGroup.resident run).charges ++ cs) := by
    have heq : (SortedGroup.resident run).charges =
        run.chunk.charge?.toList ++ run.keyCharge :: selection.charge?.toList := by
      simp [SortedGroup.charges, SortedGroup.resident, SortedRun.charges, SortedRun.orderCharges,
        hselection]
    rw [heq, List.perm_iff_count]
    intro c
    simp only [List.count_cons, List.count_append]
    omega
  have hkeyed := h.charge (clampBytes run.keys.bytes)
  rw [← hkey, ← hstakes] at hkeyed
  refine hkeyed.adopt (groups_keeping op run) rfl (fun g hg => ?_) (fun run' hrun' => ?_) hcharges
  · rcases Array.mem_push.mp hg with hg | rfl
    · exact h.sorted g hg
    · exact ⟨order, ho, run, b, rfl, hsorts⟩
  · obtain rfl := Option.some.inj hrun'
    refine ⟨hc, fun v hv => ?_⟩
    obtain rfl := Option.some.inj (hselection.symm.trans hv)
    exact hcharged

/-- It is counted, unless the bytes in memory reach the largest word. -/
theorem Backed.exact_keeping {l : Ledger} {run : SortedRun}
    (h : (op.keeping run).Backed l cs mine rest) (he : (op.answered : Int) < maxWord → op.Exact)
    (hafter : ((op.keeping run).answered : Int) < maxWord) : (op.keeping run).Exact := by
  have hgroups := groups_keeping op run
  have hbytes : (op.keeping run).residentTotal = op.residentTotal + run.bytes := by
    have hp := total_perm (hgroups.map SortedGroup.residentBytes)
    rw [List.map_cons, total_cons, Nat.add_comm] at hp
    exact hp
  have hanswered : op.answered ≤ (op.keeping run).answered := by
    have hp := total_perm ((hgroups.flatMap_right SortedGroup.stakes).map Prod.snd)
    rw [List.flatMap_cons, List.map_append, total_append] at hp
    rw [answered, answered, stakes, stakes, hp]
    exact Nat.le_add_left _ _
  have hfit : ((op.residentTotal + run.bytes : Nat) : Int) ≤ maxWord := by
    rw [← hbytes, h.residentTotal_eq hafter]
    exact Int.le_of_lt hafter
  rw [Exact, hbytes]
  exact Monitor.residentBytes_onStaged run.length (he (by omega)) hfit

theorem keepSlice_backed (ho : op.order? = some order) {chunk : Chunk}
    (h : op.Backed w.ledger (chunk.charge?.toList ++ cs) (chunk.stakes ++ mine) rest)
    (hpos : 0 < chunk.length) (hsmall : chunk.length ≤ maxSelectionRows) (hc : chunk.Charged) :
    Gives (keepSlice order chunk) (fun _ => Follows cs mine rest (op, w)) (fun _ _ => True)
      (op, w) := by
  refine gives_keepSlice (allocateSelection_backed hsmall h) (fun selection s hs => ?_)
    fun _ _ _ => .of_forall fun _ _ => trivial
  obtain ⟨hoffsets, hcharged, hbare, hws, hback, hexact⟩ := hs
  obtain ⟨op', v⟩ := s
  have htracker : op'.tracker = op.tracker := (congrArg Operator.tracker hbare :)
  have horder : op'.order? = op.order? := (congrArg Operator.order? hbare :)
  have hown : Owns (.around (.sole op'.tracker) v.disk) v
      (selection.held + (chunk.held + .charges (op'.groupCharges ++ cs))) := by
    refine hback.accounts.owns.cast ?_
    simp only [Resources.charges_append, RowSelection.held, Chunk.held]
    abel
  refine Gives.mono ((SortedRun.sort_spec hoffsets hpos hsmall hown op'.tracker).and
    (SortedRun.sort_charges order chunk selection op'.tracker)) (fun run u hu => ?_) fun _ _ _ =>
      .of_forall fun _ _ => trivial
  obtain ⟨⟨hsorts, -⟩, rfl, ⟨offsets, hsize, hselection⟩, hkeys, hkey, hledger, hvu⟩ := hu
  have hstaged := hback.staged (horder.trans ho) hsorts hc hcharged hselection hsize hkey
  have hbare' : (op'.keeping run).bare = op.bare := hbare
  -- the charge for the keys is the last that is opened
  have hpeak : u.ledger.current op'.tracker ≤ u.ledger.forest.peak op'.tracker := by
    rw [hledger]
    exact Forest.current_le_peak_consume (hback.simple _) List.mem_cons_self
      (clampBytes_pos hkeys)
  rw [← hledger] at hstaged
  refine (countKept_shows op' run).mono fun _ y hy => ?_
  obtain ⟨hyu, hshows⟩ := hy
  refine ⟨hbare', ?_, ?_, fun he hbefore hafter => ?_, fun hp he hlive => ?_⟩
  · rw [hyu]
    exact hws.ledger.trans hvu.ledger
  · rw [hyu]
    exact hstaged
  · exact hstaged.exact_keeping (hexact he hbefore) hafter
  · obtain ⟨shown, hshown, hle⟩ := hp
    have hwu : Steady w u := trans_of Steady hws hvu
    obtain ⟨c, rfl, hy⟩ := hshows shown (hwu.shownPeak?.trans hshown)
    rw [hyu] at hlive
    refine ⟨_, hy, ?_⟩
    rw [hyu, Counter.raise]
    split
    · exact Int64.le_trans (hstaged.word_le_current he hlive).2 hpeak
    · exact Int64.le_trans hle (htracker ▸ hwu.ledger.peak _)

end Operator

end SpillSort
