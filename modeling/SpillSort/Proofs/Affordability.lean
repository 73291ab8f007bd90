import SpillSort.Proofs.Verdicts
import SpillSort.Proofs.Conservation

/-!
# What the policy finds affordable can be afforded

Before any spill the policy asks after each group whether sorting in memory would still fit into what
is left of the allocation. If it does not object the last time, both selections that the sort in
memory needs fit below the operator's own limit when the input has ended.

* `inMemorySortCost_mono` and `two_mul_bytesFor_le_inMemorySortCost` are about the estimate alone.
* `MemoryMerge.build_refused` says what a merge in memory is refused for, if both selections fit.
* `Operator.in_memory_sort_fits` is the theorem about all runs.
-/

namespace SpillSort

open Memory Spill

/-! ## The estimate -/

theorem le_powerOfTwoFrom (n : Nat) : n ≤ powerOfTwoFrom n := by
  unfold powerOfTwoFrom
  split
  · assumption
  · next hn =>
    have hlt : n - 1 < 2 ^ ((n - 1).log2 + 1) := Nat.lt_log2_self
    show n ≤ 2 ^ ((n - 1).log2 + 1)
    omega

theorem powerOfTwoFrom_mono {a b : Nat} (h : a ≤ b) : powerOfTwoFrom a ≤ powerOfTwoFrom b := by
  unfold powerOfTwoFrom
  split
  · split
    · exact Nat.le_refl _
    · exact Nat.one_le_two_pow
  · next ha =>
    rw [if_neg (by omega)]
    refine Nat.pow_le_pow_right (by decide) (Nat.succ_le_succ ?_)
    have ha' : a - 1 ≠ 0 := by omega
    rw [Nat.le_log2 (by omega)]
    exact Nat.le_trans (Nat.log2_self_le ha') (by omega)

/-- More rows cost no less. -/
theorem inMemorySortCost_mono {a b : Nat} (h : a ≤ b) : inMemorySortCost a ≤ inMemorySortCost b := by
  have hpow := powerOfTwoFrom_mono (a := min maxCount (a * 4)) (b := min maxCount (b * 4)) (by omega)
  unfold inMemorySortCost
  omega

/-- The estimate covers both selections, unless it is cut off. -/
theorem two_mul_bytesFor_le_inMemorySortCost {rows : Nat}
    (h : (2 * GlobalSelection.bytesFor rows : Int) ≤ maxWord) :
    (2 * GlobalSelection.bytesFor rows : Int) ≤ inMemorySortCost rows := by
  have hpow := le_powerOfTwoFrom (min maxCount (rows * 4))
  unfold inMemorySortCost
  simp only [GlobalSelection.bytesFor, clampSize, maxWord, maxCount] at *
  omega

/-- An estimate that was not cut off counted all rows. -/
theorem bytesFor_of_inMemorySortCost_lt {rows : Nat}
    (h : inMemorySortCost (min maxCount rows) < maxWord) :
    (2 * GlobalSelection.bytesFor rows : Int) ≤ inMemorySortCost (min maxCount rows) := by
  have hpow := le_powerOfTwoFrom (min maxCount (min maxCount rows * 4))
  unfold inMemorySortCost at *
  simp only [GlobalSelection.bytesFor, clampSize, maxWord, maxCount] at *
  omega

/-! ## Requests that fit -/

theorem Memory.toInt_clampBytes {n : Nat} (h : (n : Int) ≤ maxWord) :
    (clampBytes n).toInt = n := by
  have hlt : n < 9223372036854775808 := by
    rw [maxWord] at h
    omega
  rw [clampBytes, if_pos hlt, Int64.toInt_ofNat_of_lt hlt]

namespace Memory.Forest

variable {f : Forest} {id : TrackerId} {bytes : Int64}

/-- A limited tracker above another one refuses a request. -/
def RefusesAbove (f : Forest) (id : TrackerId) (e : LimitExceeded) : Prop :=
  ∃ a ∈ (f.path id).tail, ∃ x, f.get? a = some x ∧ x.limited ∧ e.label = x.label ∧ e.limit = x.limit

/-- What a tracker that admits the bytes is refused, an ancestor refuses. -/
theorem refusesAbove {e : LimitExceeded} (h : f.refusal? id bytes = some e)
    (hown : ∀ x, f.get? id = some x → x.admits bytes) : f.RefusesAbove id e := by
  unfold refusal? at h
  split at h
  · cases h
  obtain ⟨x, hx, rfl⟩ := Option.map_eq_some_iff.mp h
  obtain ⟨a, ha, hax⟩ := List.mem_filterMap.mp (List.mem_of_find?_eq_some hx)
  have hnot : x.admits bytes = false := by simpa using List.find?_some hx
  have hlimited : x.limited := by
    by_contra hl
    simp [Tracker.admits, hl] at hnot
  rcases List.mem_cons.mp ha with rfl | ha
  · exact absurd (hown x hax) (by simp [hnot])
  · exact ⟨a, ha, x, hax, hlimited, rfl, rfl⟩

/-- What a tracker is called, and its limit. -/
def sign (f : Forest) (id : TrackerId) : Option (String × Int64) :=
  (f.get? id).map fun t => (t.label, t.limit)

theorem sign_consume {id' : TrackerId} : (f.consume id' bytes).sign = f.sign := by
  unfold consume
  split
  · rfl
  funext t
  let view (x : Tracker) : String × Int64 := (x.label, x.limit)
  have hview : ∀ x, view (x.charge bytes) = view x := fun _ => rfl
  exact getElem?_foldl_modify hview (f.path id') f.trackers t

/-- Using memory makes no difference to who may refuse. -/
theorem RefusesAbove.of_consume {id' : TrackerId} {e : LimitExceeded}
    (h : (f.consume id' bytes).RefusesAbove id e) : f.RefusesAbove id e := by
  obtain ⟨a, ha, x, hx, hlimited, hlabel, hlimit⟩ := h
  have hsign : f.sign a = some (x.label, x.limit) := by
    rw [← sign_consume, sign, hx, Option.map_some]
  obtain ⟨y, hy, hyx⟩ := Option.map_eq_some_iff.mp hsign
  obtain ⟨hlabel', hlimit'⟩ := Prod.mk.inj hyx
  refine ⟨a, path_consume (f := f) ▸ ha, y, hy, ?_, hlabel.trans hlabel'.symm,
    hlimit.trans hlimit'.symm⟩
  rwa [Tracker.limited, hlimit']

/-- A tracker that stands above none of its ancestors, with a limit and room for more bytes below it. -/
structure HasRoom (f : Forest) (id : TrackerId) (limit : Int64) (room : Int) : Prop where
  bounds : ∃ ancestors, id ∉ ancestors ∧ f.bounds id = some (limit, ancestors)
  room : (f.current id).toInt + room ≤ limit.toInt

namespace HasRoom

variable {limit : Int64} {room : Int}

theorem exists_tracker (h : f.HasRoom id limit room) :
    ∃ x, f.get? id = some x ∧ id ∉ x.ancestors ∧ x.limit = limit ∧ f.current id = x.current := by
  obtain ⟨ancestors, hnot, hbounds⟩ := h.bounds
  obtain ⟨x, hx, hxy⟩ := Option.map_eq_some_iff.mp hbounds
  obtain ⟨hlimit, hancestors⟩ := Prod.mk.inj hxy
  exact ⟨x, hx, hancestors ▸ hnot, hlimit, by simp [current, hx]⟩

/-- No word overflows below a limit. -/
theorem toInt_add (h : f.HasRoom id limit room) (hpos : 0 ≤ bytes.toInt) (hle : bytes.toInt ≤ room) :
    (f.current id + bytes).toInt = (f.current id).toInt + bytes.toInt := by
  have hroom := h.room
  have hlow := (f.current id).le_toInt
  have hhigh := limit.toInt_lt
  rw [Int64.toInt_add]
  refine Int.bmod_eq_of_le ?_ ?_ <;> omega

/-- What there is room for is admitted. -/
theorem admits (h : f.HasRoom id limit room) (hpos : 0 ≤ bytes.toInt) (hle : bytes.toInt ≤ room)
    {x : Tracker} (hx : f.get? id = some x) : x.admits bytes := by
  obtain ⟨y, hy, -, hlimit, hcurrent⟩ := h.exists_tracker
  obtain rfl := Option.some.inj (hy.symm.trans hx)
  have hadd := h.toInt_add hpos hle
  have hroom := h.room
  rw [hcurrent] at hadd hroom
  have hadmitted : y.current + bytes ≤ y.limit := by
    rw [Int64.le_iff_toInt_le, hadd, hlimit]
    omega
  simp [Tracker.admits, hadmitted]

/-- Using some of the room leaves the rest. -/
theorem consume (h : f.HasRoom id limit (bytes.toInt + room)) (hpos : 0 ≤ bytes.toInt)
    (hroom : 0 ≤ room) : (f.consume id bytes).HasRoom id limit room := by
  obtain ⟨x, hx, hnot, -, -⟩ := h.exists_tracker
  have hshare : f.share id bytes id = bytes := by
    unfold share
    split
    · next hle =>
      rw [Int64.le_iff_toInt_le, Int64.toInt_zero] at hle
      exact (Int64.toInt_inj.mp (by rw [Int64.toInt_zero]; omega)).symm
    · rw [path, hx, Option.map_some, Option.getD_some, landing, if_pos rfl, landing_of_not_mem hnot,
        Int64.add_zero]
  have hlt : id < f.trackers.size := (Array.getElem?_eq_some_iff.mp hx).1
  refine ⟨by rw [bounds_consume]; exact h.bounds, ?_⟩
  have hadd := h.toInt_add hpos (by omega)
  have hall := h.room
  rw [current_consume hlt, hshare, hadd]
  omega

end HasRoom

end Memory.Forest

/-- A selection is refused as its bytes are, and otherwise consumes them. -/
theorem GlobalSelection.allocate_cases (rows : Nat) (tracker : TrackerId) (l : Ledger) :
    (∃ e, l.forest.refusal? tracker (clampBytes (bytesFor rows)) = some e ∧
      allocate rows tracker l = (.error e, l)) ∨
    ∃ s l', allocate rows tracker l = (.ok s, l') ∧
      l'.forest = l.forest.consume tracker (clampBytes (bytesFor rows)) := by
  unfold allocate Ledger.tryCharge
  cases l.forest.refusal? tracker (clampBytes (bytesFor rows)) with
  | some e => exact .inl ⟨e, rfl, rfl⟩
  | none => exact .inr ⟨_, _, rfl, rfl⟩

namespace MemoryMerge

variable {w : Workspace} {tracker : TrackerId} {limit : Int64} {rows : Nat}

/-- If there is room for two selections on the tracker itself, only its ancestors refuse them. -/
theorem allocate_refused (hfit : (2 * GlobalSelection.bytesFor rows : Int) ≤ maxWord)
    (hroom : w.ledger.forest.HasRoom tracker limit (2 * GlobalSelection.bytesFor rows)) :
    Ensures (allocate tracker rows) (fun r _ => ∀ reason, r = .error reason →
      ∃ e, w.ledger.forest.RefusesAbove tracker e ∧ reason = e.message) w := by
  have hbytes : (clampBytes (GlobalSelection.bytesFor rows)).toInt = GlobalSelection.bytesFor rows :=
    toInt_clampBytes (by omega)
  simp only [allocate, Workspace.withLedger, Ensures.modifyGet_iff]
  intro reason
  rcases GlobalSelection.allocate_cases rows tracker w.ledger with ⟨e, he, h₁⟩ | ⟨s, l, h₁, hl⟩
  · rw [h₁]
    rintro ⟨⟩
    exact ⟨e, Forest.refusesAbove he fun x hx => hroom.admits (by omega) (by omega) hx, rfl⟩
  rw [h₁]
  -- the second request comes when the first selection is charged already
  have hrest : l.forest.HasRoom tracker limit
      (clampBytes (GlobalSelection.bytesFor rows)).toInt := by
    rw [hl]
    exact Forest.HasRoom.consume (by rw [hbytes, ← two_mul]; exact hroom) (by omega) (by omega)
  rcases GlobalSelection.allocate_cases rows tracker l with ⟨e, he, h₂⟩ | ⟨aux, l', h₂, -⟩
  · dsimp only
    rw [h₂]
    rintro ⟨⟩
    have habove := Forest.refusesAbove he fun x hx => hrest.admits (by omega) (Int.le_refl _) hx
    rw [hl] at habove
    exact ⟨e, habove.of_consume, rfl⟩
  · dsimp only
    rw [h₂]
    rintro ⟨⟩

/-- What a merge in memory is refused for, if there is room for both selections on the tracker
itself and nothing was spilled. -/
theorem build_refused {order : RowOrder} {maxBytes : Nat} {groups : List SortedGroup}
    (hspilled : ∀ g ∈ groups, g.isSpilled = false)
    (hfit : (2 * GlobalSelection.bytesFor (total (groups.map SortedGroup.rows)) : Int) ≤ maxWord)
    (hroom : w.ledger.forest.HasRoom tracker limit
      (2 * GlobalSelection.bytesFor (total (groups.map SortedGroup.rows)))) :
    Gives (build order tracker maxBytes groups) (fun r _ => ∀ reason, r = .refused reason →
      maxSelectionBatches < groups.length ∨ maxBytes < SortedGroup.totalBytes groups ∨
        ∃ e, w.ledger.forest.RefusesAbove tracker e ∧ reason = e.message) (fun _ _ => True) w := by
  refine gives_build (fun g hg hs => ?_) (fun hmany _ _ => .inl hmany)
    (fun hlarge _ _ => .inr (.inl hlarge)) (fun _ => allocate_refused hfit hroom)
    (fun reason v hr reason' heq => ?_) fun _ selection aux v _ => ?_
  · exact absurd hs (by rw [hspilled g hg]; decide)
  · cases heq
    exact .inr (.inr (hr reason rfl))
  · refine .of_forall fun _ v => ?_
    split
    · exact .of_forall fun _ _ => trivial
    · exact .of_forall fun _ _ reason h => by cases h

end MemoryMerge

/-! ## All runs -/

namespace Operator

variable {s t : Operator × Workspace} {opened : Nat} {others : List ChargeId} {m : Moment}
  {r : Option SpillReason}

/-- Both selections of a merge in memory fit below the limit of the operator's tracker, and the merge
is refused only for other reasons. -/
structure Affordable (s : Operator × Workspace) : Prop where
  fits : (s.2.ledger.current s.1.tracker).toInt +
    2 * GlobalSelection.bytesFor (total (s.1.groups.map SortedGroup.rows)) ≤
      s.1.options.maxAllocation.toInt
  refused : ∀ order, Gives (MemoryMerge.build order s.1.tracker s.1.options.maxInMemory
      (s.1.spilled.toList ++ s.1.resident.toList))
    (fun a _ => ∀ reason, a = .refused reason →
      maxSelectionBatches < s.1.groups.length ∨
        s.1.options.maxInMemory < SortedGroup.totalBytes s.1.groups ∨
        ∃ e, s.2.ledger.forest.RefusesAbove s.1.tracker e ∧ reason = e.message)
    (fun _ _ => True) s.2

/-- If the policy does not object, there is room for the selections. -/
theorem Watched.affordable (h : Watched opened others (some r) m s) (hm : m.settled)
    (hzero : s.1.monitor.spillCount = 0) (hr : r ≠ some .inMemorySortUnaffordable) :
    Affordable s := by
  obtain ⟨hu, hv⟩ := h.unspilled.resolve_left (not_not.mpr hzero)
  have hcost : inMemorySortCost s.1.monitor.totalRows <
      saturate (s.1.monitor.maxAllocation - (s.2.ledger.current s.1.tracker).toInt) :=
    (hv hm).resolve_left hr
  rw [hu.totalRows, hu.maxAllocation] at hcost
  have hgroups : s.1.groups = s.1.resident.toList := by
    rw [groups, hu.spilled]
    exact List.append_nil _
  have hbuilt : s.1.spilled.toList ++ s.1.resident.toList = s.1.groups := by
    rw [hgroups, hu.spilled]
    rfl
  rw [← hgroups] at hcost
  generalize hrows : total (s.1.groups.map SortedGroup.rows) = rows at hcost
  have hword : inMemorySortCost (min maxCount rows) < maxWord := by
    unfold saturate at hcost
    simp only [maxWord] at hcost ⊢
    omega
  have hdouble := bytesFor_of_inMemorySortCost_lt hword
  have hfits : (s.2.ledger.current s.1.tracker).toInt + 2 * GlobalSelection.bytesFor rows ≤
      s.1.options.maxAllocation.toInt := by
    unfold saturate at hcost
    simp only [maxWord] at hcost
    omega
  refine ⟨hrows ▸ hfits, fun order => ?_⟩
  rw [hbuilt]
  refine MemoryMerge.build_refused (fun g hg => ?_) (by rw [hrows]; omega)
    ⟨hu.bounds, by rw [hrows]; exact hfits⟩
  rw [hgroups] at hg
  obtain ⟨_, -, run, _, rfl, -⟩ := h.sorted g (Array.mem_toList_iff.mp hg)
  rfl

/-- Taking in goes on through states that are judged, to the end of the input. -/
theorem ingest_judged {first : Operator × Workspace} {v : Option (Option SpillReason)}
    (h : Judged first v .waiting s) :
    Gives (ingest (s.1.input.script.length + 2)) (fun goesOn t => ∃ v, Judged first v (.ended goesOn) t)
      (fun _ _ => True) s := by
  have hcarried : Carried fun m s => ∃ v, Judged first v m s := fun m s ⟨v, hv⟩ =>
    Gives.of_outcome.mono (fun _ _ ht => ⟨_, hv.advance ht⟩) fun _ _ _ => trivial
  exact hcarried.takeAll ⟨v, h⟩

variable {name stem : String} {options : SortOptions} {makeOrder : OrderMaker} {script : List Pull}
  {pressure : Bool} {fragment : Fragment} {ledger : Ledger} {disk : Disk}

/-- **What the policy finds affordable can be afforded.** Let an operator take in its input while
nobody else uses its tracker. If nothing was spilled when the input ends, and the policy did not
object when it was asked last, both selections of a merge in memory fit below the operator's own limit:
the merge is refused only if there are too many batches or bytes, or by a limited tracker above. If
nothing was spilled and the policy was never asked, there are no rows. All input is taken in like that.

The policy's estimate covers both selections, as long as their bytes fit a word, and never falls when
rows are added. -/
theorem in_memory_sort_fits
    (hs : Operator.create name options makeOrder { script, pressure } stem fragment ledger disk =
      .ok s)
    (hledger : ledger.Balanced (script.flatMap Pull.charges ++ others))
    (htracker : fragment.tracker < ledger.forest.trackers.size) :
    (∀ r t, Judged s (some r) (.ended true) t → t.1.monitor.spillCount = 0 →
      r ≠ some .inMemorySortUnaffordable → Affordable t) ∧
    (∀ t, Judged s none (.ended true) t → t.1.monitor.spillCount = 0 → t.1.rowsProcessed = 0) ∧
    (∀ v t, Judged s v .waiting t → Gives (ingest (t.1.input.script.length + 2))
      (fun goesOn u => ∃ v, Judged s v (.ended goesOn) u) (fun _ _ => True) t) ∧
    (∀ rows, (2 * GlobalSelection.bytesFor rows : Int) ≤ maxWord →
      (2 * GlobalSelection.bytesFor rows : Int) ≤ inMemorySortCost rows) ∧
    ∀ a b, a ≤ b → inMemorySortCost a ≤ inMemorySortCost b := by
  have hbegin := create_watched hs hledger htracker
  refine ⟨fun r t ht hzero hr => (ht.watched hbegin).affordable rfl hzero hr, fun t ht hzero => ?_,
    fun _ _ => ingest_judged, fun _ => two_mul_bytesFor_le_inMemorySortCost,
    fun _ _ => inMemorySortCost_mono⟩
  exact ((ht.watched hbegin).unspilled.resolve_left (not_not.mpr hzero)).2 rfl

/-- Takes some steps, and remembers what the policy answered last. -/
def judge : Nat → Option (Option SpillReason) → Moment → Operator × Workspace →
    Option (Option (Option SpillReason) × Moment × (Operator × Workspace))
  | 0, v, m, s => some (v, m, s)
  | count + 1, v, m, s =>
    match Stateful.outcome (advance m).run s with
    | (.ok n, t) => judge count (verdict v m s) n t
    | (.error _, _) => none

theorem judge_judged {first : Operator × Workspace} :
    ∀ {count : Nat} {v v' : Option (Option SpillReason)} {m n : Moment} {s t : Operator × Workspace},
      Judged first v m s → judge count v m s = some (v', n, t) → Judged first v' n t
  | 0, v, v', m, n, s, t, h, hj => by
    obtain ⟨rfl, hrest⟩ := Prod.mk.inj (Option.some.inj hj)
    obtain ⟨rfl, rfl⟩ := Prod.mk.inj hrest
    exact h
  | count + 1, v, v', m, n, s, t, h, hj => by
    unfold judge at hj
    split at hj
    · next hout => exact judge_judged (h.advance hout) hj
    · cases hj

/-- Two batches may stay in memory, and the policy is content. -/
theorem in_memory_sort_fits_two_batches : ∃ s t,
    Sample.operator { Sample.options with threshold := 2 } (Sample.threeBatches.take 2) = .ok s ∧
      Judged s (some none) (.ended true) t ∧ t.1.resident.size = 2 ∧ Affordable t := by
  have hpasses : Sample.passes { Sample.options with threshold := 2 } (Sample.threeBatches.take 2)
      fun s => (judge 17 none .waiting s).any fun r =>
        r.1 == some none && r.2.1.isOver && r.2.2.1.resident.size == 2 &&
          r.2.2.1.monitor.spillCount == 0 := by
    decide +kernel
  obtain ⟨s, hs, hrun⟩ := Sample.exists_of_passes hpasses
  obtain ⟨⟨v, m, t⟩, hjudge, htest⟩ := (Option.any_eq_true ..).mp hrun
  simp only [Bool.and_eq_true, beq_iff_eq] at htest
  obtain ⟨⟨⟨rfl, hover⟩, hresident⟩, hzero⟩ := htest
  obtain rfl : m = .ended true := by
    cases m with
    | ended goesOn => rw [show goesOn = true from hover]
    | _ => cases hover
  have hjudged := judge_judged .start hjudge
  have hbalanced : (Fragment.start ⟨1, 2⟩ ⟨3, 4⟩ (-1)).2.Balanced
      ((Sample.threeBatches.take 2).flatMap Pull.charges ++ []) :=
    ⟨by decide, by decide, fun _ => rfl, fun _ => rfl⟩
  exact ⟨s, t, hs, hjudged, hresident,
    (in_memory_sort_fits hs hbalanced (by decide)).1 none t hjudged hzero
      fun h => by cases h⟩

end Operator

end SpillSort
