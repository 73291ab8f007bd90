import Mathlib.Data.List.Induction
import SpillSort.Proofs.Mergers

/-!
# Cursors of a merge

What a merger knows of its loaded runs is in three places: the cursors, one for each group, the
frontier with the keys of their next rows, and the arena with their batches. The three fit together
whatever the groups are and whatever becomes of reading them.

* `Merger.Coherent` says how they fit, `Merger.Settled` also that the arena has no other batches.
* `Merger.Runs` is about the runs themselves; `Names` is what it says of a row that was picked.
* `Merger.load_coherent`, `Merger.pick_coherent` and `Merger.nextChunk_settled` are what loading a
  run, picking rows and merging a chunk preserve.
-/

namespace SpillSort

/-- A run that reads rows of its batch only. -/
def SortedRun.InBatch (run : SortedRun) : Prop :=
  ∀ i < run.length, run.rowAt i < run.chunk.batch.rows

/-- A run without a selection reads the rows of its batch as they lie. -/
theorem SortedRun.inBatch_of_selection?_eq_none {run : SortedRun} (h : run.selection? = none) :
    run.InBatch := by
  intro i hi
  rwa [rowAt, h]

/-- The run in memory, if there is one, has a property. -/
def SortedGroup.Head (P : SortedRun → Prop) (g : SortedGroup) : Prop :=
  ∀ run, g.head? = some run → P run

/-- A property of all runs that are restored from a file, which are read as they lie. -/
def SortedRun.Restored (P : SortedRun → Prop) : Prop :=
  ∀ run : SortedRun, run.selection? = none → P run

theorem SortedRun.Restored.any : SortedRun.Restored fun _ => True := fun _ _ => trivial

/-! ## The next run of a group -/

namespace SortedGroup

variable {order : RowOrder} {tracker : Memory.TrackerId} {w : Workspace} {P : SortedRun → Prop}

/-- A run that comes of reading a group has rows, and the property. -/
def ReadsRun (P : SortedRun → Prop) : Except Failure (Option SortedRun) → Prop
  | .ok (some run) => run.length ≠ 0 ∧ P run
  | _ => True

theorem restore_restored (hP : SortedRun.Restored P) (batch : Batch) :
    Gives (restore order tracker batch) (fun run _ => P run) (fun _ _ => True) w := by
  refine gives_restore (.of_forall (Q := fun _ _ => True) fun _ _ => trivial)
    (fun keys v _ _ => ?_) fun _ _ _ _ => trivial
  refine .of_forall fun chunk v => ?_
  have hmade : Ensures (SortedRun.ofKeys chunk keys none tracker) (fun run _ => run.selection? = none)
      v := rfl
  exact hmade.mono fun run _ hrun => hP run hrun

theorem restoreNext_readsRun (hP : SortedRun.Restored P) :
    ∀ (pending : List Spill.Entry) (r : Spill.Reader) (w : Workspace),
    Ensures (restoreNext order tracker pending r) (fun result _ => ReadsRun P result.1) w
  | [], r, w => by
    unfold restoreNext
    rw [Ensures.pure_iff]
    trivial
  | e :: rest, r, w => by
    have hread : Gives (r.batchAt e) (fun _ _ => True) (fun _ _ => True) w :=
      .of_forall fun result _ => by cases result <;> trivial
    refine ensures_restoreNext_cons (R := fun run _ => P run) ?_ (fun run v _ _ => ?_)
      fun run _ hrun hne => ⟨hne, hrun⟩
    · refine hread.mono (fun batch v _ => ?_) fun _ _ _ => trivial
      exact (restore_restored hP batch).mono (fun _ _ hrun => hrun) fun _ _ _ => trivial
    · exact .of_forall fun _ v => restoreNext_readsRun hP rest (r.advance rest) v

theorem nextSpilled_readsRun (hP : SortedRun.Restored P) {g : SortedGroup} (hg : g.head? = none) :
    Ensures (g.nextSpilled order tracker) (fun r _ => ReadsRun P r.1 ∧ r.2.head? = none) w := by
  have hread : ∀ (s : SpilledRuns) (r : Spill.Reader) (v : Workspace),
      Ensures (restoreNext order tracker r.pending r) (fun result _ => ReadsRun P result.1 ∧
        ({ g with spilled? := some { s with reader? := some result.2 } } : SortedGroup).head? =
          none) v :=
    fun s r v => (restoreNext_readsRun hP r.pending r v).mono fun _ _ hr => ⟨hr, hg⟩
  refine ensures_nextSpilled (fun _ => ⟨trivial, hg⟩) (fun s r _ _ => hread s r w) fun s _ _ => ?_
  refine .of_forall fun opened v => ?_
  cases opened with
  | error e => exact ⟨trivial, hg⟩
  | ok r => exact hread s r v

theorem nextRun_readsRun (hP : SortedRun.Restored P) {g : SortedGroup} (hg : g.Head P) :
    Ensures (g.nextRun order tracker) (fun r _ => ReadsRun P r.1 ∧ r.2.head? = none) w :=
  ensures_nextRun (fun hhead => nextSpilled_readsRun hP hhead)
    (fun _ _ _ => .of_forall fun _ _ => nextSpilled_readsRun hP rfl)
    fun run hhead hne => ⟨⟨hne, hg run hhead⟩, rfl⟩

end SortedGroup

/-! ## Cursors in an arena -/

/-- The cursor stands at a row of its run, and its slot is that of the run's batch. -/
structure MergeCursor.Points (arena : Array Batch) (c : MergeCursor) : Prop where
  inRun : c.position < c.run.length
  slot : arena[c.slot]? = some c.run.chunk.batch

theorem MergeCursor.Points.grow {arena arena' : Array Batch} {c : MergeCursor} (h : c.Points arena)
    (ha : Grows arena arena') : c.Points arena' :=
  ⟨h.inRun, ha _ _ h.slot⟩

theorem MergeCursor.Points.slot_lt {arena : Array Batch} {c : MergeCursor} (h : c.Points arena) :
    c.slot < arena.size :=
  (Array.getElem?_eq_some_iff.mp h.slot).1

/-- A slot and a row name the batch of a run with a property, and a row that the run reads. -/
def Names (P : SortedRun → Prop) (arena : Array Batch) (row : Nat × Nat) : Prop :=
  ∃ run : SortedRun, P run ∧ arena[row.1]? = some run.chunk.batch ∧
    ∃ i < run.length, row.2 = run.rowAt i

theorem Names.grow {P : SortedRun → Prop} {arena arena' : Array Batch} {row : Nat × Nat}
    (h : Names P arena row) (ha : Grows arena arena') : Names P arena' row := by
  obtain ⟨run, hrun, hslot, hread⟩ := h
  exact ⟨run, hrun, ha _ _ hslot, hread⟩

theorem Names.slot_lt {P : SortedRun → Prop} {arena : Array Batch} {row : Nat × Nat}
    (h : Names P arena row) : row.1 < arena.size := by
  obtain ⟨run, -, hslot, -⟩ := h
  exact (Array.getElem?_eq_some_iff.mp hslot).1

/-- A row that is read in a batch is there if its run reads no others. -/
theorem Names.holds {arena : Array Batch} {row : Nat × Nat}
    (h : Names SortedRun.InBatch arena row) : Batch.holds arena row := by
  obtain ⟨run, hrun, hslot, i, hi, hrow⟩ := h
  rw [Batch.holds, hslot]
  exact decide_eq_true (hrow ▸ hrun i hi)

/-- The cursors point into an arena, each with a slot of its own. -/
structure Lodged (cursors : Array (Option MergeCursor)) (arena : Array Batch) : Prop where
  points : ∀ {i : Nat} {c : MergeCursor}, cursors[i]? = some (some c) → c.Points arena
  apart : ∀ {i j : Nat} {c d : MergeCursor}, cursors[i]? = some (some c) →
    cursors[j]? = some (some d) → c.slot = d.slot → i = j

namespace Lodged

variable {cursors : Array (Option MergeCursor)} {arena arena' : Array Batch} {i : Nat}

theorem grow (h : Lodged cursors arena) (ha : Grows arena arena') : Lodged cursors arena' :=
  ⟨fun hc => (h.points hc).grow ha, h.apart⟩

/-- One place is given to no cursor, or to one whose slot no other one has. -/
theorem put (h : Lodged cursors arena) {cursors' : Array (Option MergeCursor)}
    {c? : Option MergeCursor}
    (hold : ∀ {j : Nat} {d : MergeCursor}, cursors'[j]? = some (some d) →
      (j = i ∧ c? = some d) ∨ (j ≠ i ∧ cursors[j]? = some (some d)))
    (hc : ∀ c, c? = some c → c.Points arena ∧
      ∀ (j : Nat) (d : MergeCursor), j ≠ i → cursors[j]? = some (some d) → d.slot ≠ c.slot) :
    Lodged cursors' arena := by
  refine ⟨fun hd => ?_, fun {j k d e} hd he hs => ?_⟩
  · rcases hold hd with ⟨-, rfl⟩ | ⟨-, hd⟩
    · exact (hc _ rfl).1
    · exact h.points hd
  · rcases hold hd with ⟨hj, hd'⟩ | ⟨hj, hd'⟩
    · rcases hold he with ⟨hk, -⟩ | ⟨hk, he'⟩
      · exact hj.trans hk.symm
      · exact absurd hs.symm ((hc d hd').2 k e hk he')
    · rcases hold he with ⟨-, he'⟩ | ⟨-, he'⟩
      · exact absurd hs ((hc e he').2 j d hj hd')
      · exact h.apart hd' he' hs

theorem set (h : Lodged cursors arena) {c? : Option MergeCursor}
    (hc : ∀ c, c? = some c → c.Points arena ∧
      ∀ (j : Nat) (d : MergeCursor), j ≠ i → cursors[j]? = some (some d) → d.slot ≠ c.slot) :
    Lodged (cursors.setIfInBounds i c?) arena := by
  refine h.put (fun {j d} hd => ?_) hc
  rw [Array.getElem?_setIfInBounds] at hd
  split at hd
  · next he =>
    split at hd
    · exact .inl ⟨he.symm, Option.some.inj hd⟩
    · cases hd
  · next hne => exact .inr ⟨Ne.symm hne, hd⟩

theorem push (h : Lodged cursors arena) {c? : Option MergeCursor}
    (hc : ∀ c, c? = some c → c.Points arena ∧
      ∀ (j : Nat) (d : MergeCursor), cursors[j]? = some (some d) → d.slot ≠ c.slot) :
    Lodged (cursors.push c?) arena := by
  refine h.put (i := cursors.size) (fun {j d} hd => ?_)
    fun c he => ⟨(hc c he).1, fun j d _ => (hc c he).2 j d⟩
  rw [Array.getElem?_push] at hd
  split at hd
  · next he => exact .inl ⟨he, Option.some.inj hd⟩
  · next hne => exact .inr ⟨hne, hd⟩

end Lodged

/-- A cursor in a place where there was none is one more. -/
theorem length_filterMap_set {cursors : Array (Option MergeCursor)} {i : Nat}
    (hi : cursors[i]? = some none) (c? : Option MergeCursor) :
    ((cursors.setIfInBounds i c?).toList.filterMap id).length =
      (cursors.toList.filterMap id).length + c?.toList.length := by
  obtain ⟨hlt, he⟩ := Array.getElem?_eq_some_iff.mp hi
  have hsplit : cursors.toList = cursors.toList.take i ++ none :: cursors.toList.drop (i + 1) := by
    rw [← he, ← Array.getElem_toList, List.cons_getElem_drop_succ, List.take_append_drop]
  have hset : (cursors.setIfInBounds i c?).toList =
      cursors.toList.take i ++ c? :: cursors.toList.drop (i + 1) := by
    rw [Array.toList_setIfInBounds, List.set_eq_take_append_cons_drop, if_pos (by simpa using hlt)]
  rw [hset, congrArg (List.filterMap id) hsplit]
  cases c? with
  | none => simp
  | some c =>
    simp only [List.filterMap_append, List.filterMap_cons, id, List.length_append,
      List.length_cons, Option.toList_some, List.length_nil]
    omega

namespace Merger

/-- The keys of the next row of a loaded run. -/
def key? (m : Merger) (source : Nat) : Option (List Value) :=
  (m.cursor? source).map fun c => c.run.keyAt c.position

/-- Cursors, frontier and arena fit together: there is a cursor or none for each group, the loaded
runs lie in the arena at slots of their own, and the frontier has one candidate for each of them,
with the keys of its next row. Sources that are away have no candidate at the moment. -/
structure Coherent (m : Merger) (away : Nat → Prop) : Prop where
  sizes : m.cursors.size = m.groups.size
  lodged : Lodged m.cursors m.arena
  ordered : m.frontier.Ordered m.order
  nodup : (m.frontier.toList.map Candidate.source).Nodup
  frontier : ∀ c, c ∈ m.frontier.toList ↔ ¬away c.source ∧ m.key? c.source = some c.key

/-- Between calls no source is away, and there are as many batches as loaded runs. -/
structure Settled (m : Merger) : Prop extends m.Coherent fun _ => False where
  arena_size : m.arena.size = m.liveCursors.length

/-- All runs in memory have a property, those of the groups and the loaded ones. -/
structure Runs (P : SortedRun → Prop) (m : Merger) : Prop where
  heads : ∀ g ∈ m.groups, g.Head P
  loaded : ∀ {i : Nat} {c : MergeCursor}, m.cursor? i = some c → P c.run

variable {m : Merger} {away : Nat → Prop} {i : Nat} {w : Workspace} {P : SortedRun → Prop}

/-- Nothing is asked of the runs. -/
theorem Runs.any (m : Merger) : m.Runs fun _ => True :=
  ⟨fun _ _ _ _ => trivial, fun _ => trivial⟩

theorem cursor?_eq_some {c : MergeCursor} :
    m.cursor? i = some c ↔ m.cursors[i]? = some (some c) := by
  rw [cursor?, Option.join_eq_some_iff]

theorem getElem?_of_cursor? (hi : i < m.cursors.size) (hc : m.cursor? i = none) :
    m.cursors[i]? = some none := by
  rw [cursor?, Array.getElem?_eq_getElem hi] at hc
  rw [Array.getElem?_eq_getElem hi]
  exact congrArg some hc

theorem cursor?_set {cursors : Array (Option MergeCursor)} {c? : Option MergeCursor} {j : Nat}
    (hi : i < cursors.size) :
    ((cursors.setIfInBounds i c?)[j]?).join = if j = i then c? else (cursors[j]?).join := by
  rw [Array.getElem?_setIfInBounds]
  by_cases hj : j = i
  · subst hj
    simp [hi]
  · rw [if_neg (Ne.symm hj), if_neg hj]

/-- How many rows are left is not looked at. -/
theorem Coherent.of_rowsLeft (h : m.Coherent away) (rowsLeft : Nat) :
    Coherent { m with rowsLeft } away :=
  ⟨h.sizes, h.lodged, h.ordered, h.nodup, h.frontier⟩

theorem Coherent.lt_of_cursor? (h : m.Coherent away) {c : MergeCursor}
    (hc : m.cursor? i = some c) : i < m.groups.size := by
  rw [← h.sizes]
  exact (Array.getElem?_eq_some_iff.mp (cursor?_eq_some.mp hc)).1

/-- A source without a loaded run may as well be away. -/
theorem Coherent.aside (h : m.Coherent fun _ => False) (hi : m.cursor? i = none) :
    m.Coherent (· = i) := by
  refine ⟨h.sizes, h.lodged, h.ordered, h.nodup, fun c => (h.frontier c).trans ?_⟩
  refine and_congr_left fun hk => ⟨fun _ he => ?_, fun _ hf => hf⟩
  rw [he, key?, hi] at hk
  cases hk

/-! ## Loading a run -/

/-- Without its loaded run a source that was away has no candidate to show. -/
theorem Coherent.retire (h : m.Coherent (· = i)) (hi : i < m.groups.size) :
    (m.retire i).Coherent fun _ => False := by
  have hsize : i < m.cursors.size := h.sizes ▸ hi
  refine ⟨?_, h.lodged.set (fun c hc => by cases hc), h.ordered, h.nodup,
    fun c => (h.frontier c).trans ?_⟩
  · show (m.cursors.setIfInBounds i none).size = _
    rw [Array.size_setIfInBounds, h.sizes]
    rfl
  · have hkey : (m.retire i).key? c.source = if c.source = i then none else m.key? c.source := by
      rw [key?, cursor?]
      show ((m.cursors.setIfInBounds i none)[c.source]?.join).map _ = _
      rw [cursor?_set hsize]
      split <;> rfl
    rw [hkey]
    by_cases he : c.source = i
    · simp [he]
    · simp [he]

theorem cursor?_retire (hi : i < m.cursors.size) : (m.retire i).cursor? i = none := by
  show ((m.cursors.setIfInBounds i none)[i]?).join = none
  rw [cursor?_set hi, if_pos rfl]

theorem Coherent.setGroup (h : m.Coherent away) (g : SortedGroup) :
    (m.setGroup i g).Coherent away := by
  refine ⟨?_, h.lodged, h.ordered, h.nodup, h.frontier⟩
  show _ = (m.groups.setIfInBounds i g).size
  rw [Array.size_setIfInBounds, ← h.sizes]
  rfl

theorem Runs.set (h : m.Runs P) (hi : i < m.cursors.size) (c? : Option MergeCursor)
    (hc : ∀ c, c? = some c → P c.run) {m' : Merger} (hg : m'.groups = m.groups)
    (hm : m'.cursors = m.cursors.setIfInBounds i c?) : m'.Runs P := by
  refine ⟨hg ▸ h.heads, fun {j c} hj => ?_⟩
  rw [cursor?, hm, cursor?_set hi] at hj
  split at hj
  · exact hc c hj
  · exact h.loaded hj

theorem Runs.setGroup (h : m.Runs P) {g : SortedGroup} (hg : g.head? = none) :
    (m.setGroup i g).Runs P := by
  refine ⟨fun g' hg' => ?_, h.loaded⟩
  rcases Array.mem_or_eq_of_mem_setIfInBounds hg' with hg' | rfl
  · exact h.heads g' hg'
  · intro run hrun
    rw [hg] at hrun
    cases hrun

/-- A source that was away is back with a cursor, and its candidate in the frontier. -/
theorem Coherent.back (h : m.Coherent (· = i)) (hi : i < m.groups.size) {c : MergeCursor}
    {arena : Array Batch} (ha : Grows m.arena arena) (hc : c.Points arena)
    (hslot : ∀ (j : Nat) (d : MergeCursor), j ≠ i → m.cursors[j]? = some (some d) →
      d.slot ≠ c.slot) :
    Coherent { m with
      cursors := m.cursors.setIfInBounds i (some c)
      frontier := m.frontier.push m.order ⟨c.run.keyAt c.position, i⟩
      arena } fun _ => False := by
  have hsize : i < m.cursors.size := h.sizes ▸ hi
  have hperm : (m.frontier.push m.order ⟨c.run.keyAt c.position, i⟩).toList.Perm
      (⟨c.run.keyAt c.position, i⟩ :: m.frontier.toList) := Frontier.push_perm _ _
  refine ⟨by rw [Array.size_setIfInBounds, h.sizes],
    (h.lodged.grow ha).set fun d hd => ?_, Frontier.push_ordered h.ordered, ?_, fun d => ?_⟩
  · obtain rfl := Option.some.inj hd
    exact ⟨hc, hslot⟩
  · rw [(hperm.map Candidate.source).nodup_iff]
    refine List.nodup_cons.mpr ⟨fun hm => ?_, h.nodup⟩
    obtain ⟨d, hd, he⟩ := List.mem_map.mp hm
    exact ((h.frontier d).mp hd).1 he
  · rw [hperm.mem_iff, List.mem_cons, h.frontier]
    simp only [key?, cursor?, cursor?_set hsize]
    obtain ⟨key, source⟩ := d
    by_cases he : source = i
    · simp [he, eq_comm]
    · simp [he]

theorem Coherent.accept (h : m.Coherent fun _ => False) (hi : i < m.groups.size)
    (hnone : m.cursor? i = none) {run : SortedRun} (hrun : run.length ≠ 0) :
    (m.accept i run).Coherent fun _ => False := by
  refine (h.aside hnone).back (c := ⟨run, 0, m.arena.size⟩) hi (.push m.arena run.chunk.batch)
    ⟨Nat.pos_of_ne_zero hrun, by simp⟩ fun j d _ hd => ?_
  exact Nat.ne_of_lt (h.lodged.points hd).slot_lt

/-- What loading a run leaves: a merger whose arena has grown, by one batch if there is one loaded
run more. -/
structure Loads (P : SortedRun → Prop) (m : Merger) (i : Nat) (m' : Merger) : Prop where
  coherent : m'.Coherent fun _ => False
  runs : m'.Runs P
  groups_size : m'.groups.size = m.groups.size
  grows : Grows m.arena m'.arena
  others : ∀ j, j ≠ i → m'.cursor? j = m.cursor? j
  tally : m.cursor? i = none →
    m'.arena.size + m.liveCursors.length = m.arena.size + m'.liveCursors.length

theorem Coherent.loads_retire (h : m.Coherent (· = i)) (hr : m.Runs P) (hi : i < m.groups.size) :
    m.Loads P i (m.retire i) := by
  have hsize : i < m.cursors.size := h.sizes ▸ hi
  refine ⟨h.retire hi, hr.set hsize none (fun c hc => by cases hc) rfl rfl, rfl, .refl _,
    fun j hj => ?_, fun hnone => congrArg (m.arena.size + ·) ?_⟩
  · show ((m.cursors.setIfInBounds i none)[j]?).join = _
    rw [cursor?_set hsize, if_neg hj]
    rfl
  · exact (length_filterMap_set (getElem?_of_cursor? hsize hnone) none).symm

theorem Loads.setGroup {m' : Merger} (h : m.Loads P i m') {g : SortedGroup} (hg : g.head? = none) :
    m.Loads P i (m'.setGroup i g) :=
  ⟨h.coherent.setGroup g, h.runs.setGroup hg, Array.size_setIfInBounds.trans h.groups_size, h.grows,
    h.others, h.tally⟩

theorem Loads.accept {m' : Merger} (h : m.Loads P i m') (hi : i < m.groups.size)
    (hnone : m'.cursor? i = none) {run : SortedRun} (hlength : run.length ≠ 0) (hrun : P run) :
    m.Loads P i (m'.accept i run) := by
  have hi' : i < m'.groups.size := h.groups_size.symm ▸ hi
  have hsize : i < m'.cursors.size := h.coherent.sizes ▸ hi'
  have hruns : (m'.accept i run).Runs P :=
    h.runs.set hsize (some ⟨run, 0, m'.arena.size⟩) (fun c hc => Option.some.inj hc ▸ hrun) rfl rfl
  refine ⟨h.coherent.accept hi' hnone hlength, hruns, h.groups_size, h.grows.trans (.push _ _),
    fun j hj => ?_, fun hm => ?_⟩
  · show ((m'.cursors.setIfInBounds i _)[j]?).join = _
    rw [cursor?_set hsize, if_neg hj]
    exact h.others j hj
  · have hlive : (m'.accept i run).liveCursors.length = m'.liveCursors.length + 1 :=
      length_filterMap_set (getElem?_of_cursor? hsize hnone) _
    have harena : (m'.accept i run).arena.size = m'.arena.size + 1 := Array.size_push _
    have := h.tally hm
    omega

/-- Whatever the group holds, and whatever becomes of reading it, everything fits together again. -/
theorem load_coherent (hP : SortedRun.Restored P) (h : m.Coherent (· = i)) (hr : m.Runs P)
    (w : Workspace) :
    Gives (load i) (fun _ s => m.Loads P i s.1)
      (fun _ s => (s.1.Coherent fun _ => False) ∧ s.1.Runs P) (m, w) := by
  refine gives_load (fun hg => ?_) fun g hg => ?_
  · -- there is no such source, and so none that is away
    have hnone : m.cursor? i = none := by
      rcases hc : m.cursor? i with _ | c
      · rfl
      · exact absurd (h.lt_of_cursor? hc) (by simpa using hg)
    refine ⟨⟨h.sizes, h.lodged, h.ordered, h.nodup, fun c => (h.frontier c).trans ?_⟩, hr, rfl,
      .refl _, fun _ _ => rfl, fun _ => rfl⟩
    refine and_congr_left fun hk => ⟨fun _ hf => hf, fun _ he => ?_⟩
    rw [he, key?, hnone] at hk
    cases hk
  · have hi : i < m.groups.size := (Array.getElem?_eq_some_iff.mp hg).1
    have hhead : g.Head P := hr.heads g (Array.mem_of_getElem? hg)
    refine .of_forall fun _ v => ?_
    refine (SortedGroup.nextRun_readsRun hP hhead).mono fun r v hread => ?_
    obtain ⟨run?, g'⟩ := r
    obtain ⟨hrun, hg'⟩ := hread
    have hset : m.Loads P i ((m.retire i).setGroup i g') := (h.loads_retire hr hi).setGroup hg'
    rcases run? with e | _ | run
    · exact ⟨hset.coherent, hset.runs⟩
    · exact hset
    · exact hset.accept hi (cursor?_retire (h.sizes ▸ hi)) hrun.1 hrun.2

/-! ## Starting a merge -/

theorem lodged_of_none (hnone : ∀ j, m.cursor? j = none) (arena : Array Batch) :
    Lodged m.cursors arena := by
  have hfree : ∀ {j : Nat} {c : MergeCursor}, m.cursors[j]? ≠ some (some c) := by
    intro j c hc
    have hj := hnone j
    rw [cursor?_eq_some.mpr hc] at hj
    cases hj
  exact ⟨fun hc => absurd hc hfree, fun hc => absurd hc hfree⟩

theorem liveCursors_eq_nil (hnone : ∀ j, m.cursor? j = none) : m.liveCursors = [] := by
  refine List.filterMap_eq_nil_iff.mpr fun c? hc => ?_
  obtain ⟨j, hj⟩ := List.mem_iff_getElem?.mp hc
  rw [Array.getElem?_toList] at hj
  have hnone := hnone j
  rwa [cursor?, hj] at hnone

/-- With no run loaded there is nothing that has to fit. -/
theorem coherent_start (hsizes : m.cursors.size = m.groups.size)
    (hnone : ∀ j, m.cursor? j = none) (hempty : m.frontier = .empty) :
    m.Coherent fun _ => False := by
  refine ⟨hsizes, lodged_of_none hnone _, ?_, ?_, fun c => ?_⟩
  · rw [hempty, Frontier.Ordered]
    trivial
  · simp [hempty]
  · simp [hempty, key?, hnone]

theorem cursor?_unloaded (order : RowOrder) (tracker : Memory.TrackerId)
    (groups : List SortedGroup) (j : Nat) : (unloaded order tracker groups).cursor? j = none := by
  rw [unloaded, cursor?, Array.getElem?_replicate]
  split
  · rfl
  · rfl

theorem unloaded_coherent (order : RowOrder) (tracker : Memory.TrackerId)
    (groups : List SortedGroup) : (unloaded order tracker groups).Coherent fun _ => False :=
  coherent_start (by simp [unloaded]) (cursor?_unloaded order tracker groups) rfl

theorem unloaded_runs (order : RowOrder) (tracker : Memory.TrackerId) {groups : List SortedGroup}
    (hg : ∀ g ∈ groups, g.Head P) : (unloaded order tracker groups).Runs P := by
  refine ⟨by simpa [unloaded] using hg, fun {i c} hc => ?_⟩
  rw [cursor?_unloaded] at hc
  cases hc

theorem loadAll_coherent (hP : SortedRun.Restored P) :
    ∀ (count source : Nat) {m : Merger} (w : Workspace),
    (m.Coherent fun _ => False) → m.Runs P → (∀ j, source ≤ j → m.cursor? j = none) →
    m.arena.size = m.liveCursors.length →
    Gives (loadAll count source) (fun _ s => s.1.Settled ∧ s.1.Runs P) (fun _ _ => True) (m, w)
  | 0, source, m, w, h, hr, _, hsize => by
    unfold loadAll
    rw [Gives.pure_iff]
    exact ⟨⟨h, hsize⟩, hr⟩
  | count + 1, source, m, w, h, hr, hnone, hsize => by
    have hsource := hnone source (Nat.le_refl _)
    refine gives_loadAll_succ ?_
    refine (load_coherent hP (h.aside hsource) hr w).mono (fun _ s hs => ?_) fun _ _ _ => trivial
    refine loadAll_coherent hP count (source + 1) s.2 hs.coherent hs.runs (fun j hj => ?_) ?_
    · rw [hs.others j (by omega)]
      exact hnone j (by omega)
    · have := hs.tally hsource
      omega

theorem ofGroups_settled (hP : SortedRun.Restored P) (order : RowOrder)
    (tracker : Memory.TrackerId) {groups : List SortedGroup} (hg : ∀ g ∈ groups, g.Head P)
    (w : Workspace) :
    Gives (ofGroups order tracker groups) (fun m _ => m.Settled ∧ m.Runs P)
      (fun _ _ => True) w := by
  have hcoherent := unloaded_coherent order tracker groups
  have hnone := cursor?_unloaded order tracker groups
  have hsize : (unloaded order tracker groups).arena.size =
      (unloaded order tracker groups).liveCursors.length := by
    rw [liveCursors_eq_nil hnone]
    rfl
  refine gives_ofGroups ?_
  exact (loadAll_coherent hP groups.length 0 w hcoherent (unloaded_runs order tracker hg)
    (fun j _ => hnone j) hsize).mono (fun _ _ hs => hs) fun _ _ _ => .of_forall fun _ _ => trivial

/-! ## Picking rows -/

/-- If there is no candidate, there is no loaded run either. -/
theorem Coherent.popCandidate_none {m₁ : Merger} (h : m.Coherent fun _ => False)
    (hpop : m.popCandidate = (none, m₁)) :
    (∀ j, m₁.cursor? j = none) ∧ (m₁.Coherent fun _ => False) ∧
      ∃ frontier, m₁ = { m with frontier } := by
  obtain ⟨hp, rfl⟩ := popCandidate_eq_none hpop
  have hempty := Frontier.toList_of_pop_none hp
  have hnone : ∀ j, m.cursor? j = none := by
    intro j
    rcases hc : m.cursor? j with _ | d
    · rfl
    · have hm := (h.frontier ⟨d.run.keyAt d.position, j⟩).mpr ⟨id, by rw [key?, hc]; rfl⟩
      rw [hempty] at hm
      cases hm
  exact ⟨hnone, coherent_start h.sizes hnone rfl, _, rfl⟩

/-- The candidate that is taken is that of a loaded run. -/
theorem Coherent.popCandidate_some {c : Candidate} {m₁ : Merger} (h : m.Coherent fun _ => False)
    (hpop : m.popCandidate = (some c, m₁)) :
    (∃ d, m₁.cursor? c.source = some d) ∧ m₁.Coherent (· = c.source) ∧
      ∃ frontier, m₁ = { m with frontier } := by
  obtain ⟨f, hp, rfl⟩ := popCandidate_eq_some hpop
  obtain ⟨hperm, hordered, -⟩ := Frontier.pop_spec h.ordered hp
  obtain ⟨hc, hnodup⟩ := List.nodup_cons.mp (((hperm.map _).nodup_iff).mp h.nodup)
  have hkey := ((h.frontier c).mp (hperm.mem_iff.mpr List.mem_cons_self)).2
  refine ⟨?_, ⟨h.sizes, h.lodged, hordered, hnodup, fun d => ⟨fun hd => ?_, ?_⟩⟩, _, rfl⟩
  · obtain ⟨d, hd, -⟩ := Option.map_eq_some_iff.mp hkey
    exact ⟨d, hd⟩
  · refine ⟨fun he => hc (he ▸ List.mem_map_of_mem hd), ?_⟩
    exact ((h.frontier d).mp (hperm.mem_iff.mpr (List.mem_cons_of_mem _ hd))).2
  · rintro ⟨hne, hd⟩
    have hm := (h.frontier d).mpr ⟨id, hd⟩
    rw [hperm.mem_iff, List.mem_cons] at hm
    exact hm.resolve_left fun he => hne (he ▸ rfl)

/-- A source with a loaded run has a next row, which is one of a batch of the arena. -/
theorem takeRow_coherent (h : m.Coherent (· = i)) (hr : m.Runs P) {d : MergeCursor}
    (hd : m.cursor? i = some d) {row? : Option ((Nat × Nat) × Bool)} {m₁ : Merger}
    (ht : m.takeRow i = (row?, m₁)) :
    ∃ row last, row? = some (row, last) ∧ Names P m.arena row ∧
      m₁.arena = m.arena ∧ m₁.Runs P ∧ if last then m₁ = m else m₁.Coherent fun _ => False := by
  have hpoints := h.lodged.points (cursor?_eq_some.mp hd)
  have hnames : Names P m.arena (d.slot, d.run.rowAt d.position) :=
    ⟨d.run, hr.loaded hd, hpoints.slot, d.position, hpoints.inRun, rfl⟩
  have hi := h.lt_of_cursor? hd
  rcases row? with _ | ⟨row, last⟩
  · cases (takeRow_eq_none ht).1.symm.trans hd
  obtain ⟨d', hd', rfl, hm⟩ := takeRow_eq_some ht
  obtain rfl : d = d' := Option.some.inj (hd.symm.trans hd')
  cases last with
  | true =>
    obtain ⟨-, rfl⟩ := hm
    exact ⟨_, true, rfl, hnames, rfl, hr, rfl⟩
  | false =>
    obtain ⟨hlt, rfl⟩ := hm
    refine ⟨_, false, rfl, hnames, rfl, ?_, ?_⟩
    · refine hr.set (h.sizes ▸ hi) (some { d with position := d.position + 1 }) (fun c hc => ?_)
        rfl rfl
      obtain rfl := Option.some.inj hc
      show P d.run
      exact hr.loaded hd
    · refine h.back (c := { d with position := d.position + 1 }) hi (.refl _)
        ⟨hlt, hpoints.slot⟩ fun j e hj he hs => hj ?_
      exact h.lodged.apart he (cursor?_eq_some.mp hd) hs

/-- Rows that were picked, and one more, lie in batches of the arena also when that has grown. -/
theorem Names.push {picked : Array (Nat × Nat)} {row : Nat × Nat} {arena arena' : Array Batch}
    (hpicked : ∀ r ∈ picked, Names P arena r) (hrow : Names P arena row)
    (hgrows : Grows arena arena') : ∀ r ∈ picked.push row, Names P arena' r := by
  intro r hmem
  refine Names.grow ?_ hgrows
  rcases Array.mem_push.mp hmem with hmem | rfl
  · exact hpicked r hmem
  · exact hrow

/-- Every row picked is one of a batch of the arena, and there are as many as were asked for unless
all runs were read. -/
theorem pick_coherent (hP : SortedRun.Restored P) :
    ∀ (count : Nat) (picked : Array (Nat × Nat)) {m : Merger} (w : Workspace),
    (m.Coherent fun _ => False) → m.Runs P → (∀ row ∈ picked, Names P m.arena row) →
    Gives (pick count picked)
      (fun picked' s => ((s.1.Coherent fun _ => False) ∧ s.1.Runs P) ∧
        (∀ row ∈ picked', Names P s.1.arena row) ∧
        ((∀ j, s.1.cursor? j = none) ∨ picked.size + count ≤ picked'.size))
      (fun _ s => (s.1.Coherent fun _ => False) ∧ s.1.Runs P) (m, w)
  | 0, picked, m, w, h, hr, hpicked => by
    unfold pick
    rw [Gives.pure_iff]
    exact ⟨⟨h, hr⟩, hpicked, .inr (Nat.le_refl _)⟩
  | count + 1, picked, m, w, h, hr, hpicked => by
    have hmore : ∀ row, picked.size + (count + 1) = (picked.push row).size + count := by
      intro row
      rw [Array.size_push]
      omega
    refine gives_pick_succ (fun m₁ hpop => ?_) (fun c m₁ m₂ hpop htake => ?_)
      (fun c m₁ row m₂ hpop htake => ?_) fun c m₁ row m₂ hpop htake => ?_
    · obtain ⟨hnone, hm₁, f, rfl⟩ := h.popCandidate_none hpop
      exact ⟨⟨hm₁, hr.heads, hr.loaded⟩, hpicked, .inl hnone⟩
    · -- a candidate has a loaded run, and so a row
      obtain ⟨⟨d, hd⟩, hm₁, f, rfl⟩ := h.popCandidate_some hpop
      obtain ⟨row, last, hrow?, -⟩ := takeRow_coherent hm₁ ⟨hr.heads, hr.loaded⟩ hd htake
      cases hrow?
    · obtain ⟨⟨d, hd⟩, hm₁, f, rfl⟩ := h.popCandidate_some hpop
      obtain ⟨_, _, hrow?, hrow, harena, hr₂, hm₂⟩ :=
        takeRow_coherent hm₁ ⟨hr.heads, hr.loaded⟩ hd htake
      cases hrow?
      rw [hmore row]
      refine pick_coherent hP count (picked.push row) w hm₂ hr₂ (Names.push hpicked hrow ?_)
      rw [harena]
      exact .refl _
    · obtain ⟨⟨d, hd⟩, hm₁, f, rfl⟩ := h.popCandidate_some hpop
      obtain ⟨_, _, hrow?, hrow, -, hr₂, hm₂⟩ :=
        takeRow_coherent hm₁ ⟨hr.heads, hr.loaded⟩ hd htake
      cases hrow?
      obtain rfl := hm₂
      rw [hmore row]
      refine (load_coherent hP hm₁ hr₂ w).mono (fun _ s hs => ?_) fun _ _ hs => hs
      exact pick_coherent hP count (picked.push row) s.2 hs.coherent hs.runs
        (Names.push hpicked hrow hs.grows)

/-! ## Moving batches -/

/-- What cursors read, without their slots. -/
def places (cursors : List (Option MergeCursor)) : List (Option (SortedRun × Nat)) :=
  cursors.map (Option.map fun c => (c.run, c.position))

/-- A merger whose cursors read the same has the same keys and runs. -/
theorem key?_congr (m' : Merger) (h : places m'.cursors.toList = places m.cursors.toList)
    (j : Nat) : m'.key? j = m.key? j ∧
      (m'.cursor? j).map MergeCursor.run = (m.cursor? j).map MergeCursor.run := by
  have hplace : ∀ n : Merger, (n.cursor? j).map (fun c => (c.run, c.position)) =
      ((places n.cursors.toList)[j]?).join := by
    intro n
    rw [places, List.getElem?_map, Array.getElem?_toList, cursor?]
    rcases n.cursors[j]? with _ | _ | c
    · rfl
    · rfl
    · rfl
  have hsame := (hplace m').trans ((congrArg (fun l => (l[j]?).join) h).trans (hplace m).symm)
  have hkey := congrArg (Option.map fun p => p.1.keyAt p.2) hsame
  have hrun := congrArg (Option.map Prod.fst) hsame
  rw [Option.map_map, Option.map_map] at hkey hrun
  exact ⟨hkey, hrun⟩

/-- Cursors whose batches were moved: they read what they read before, each batch is that of one
of them, and there are no other batches. -/
structure Kept (cursors : List (Option MergeCursor))
    (done : Array (Option MergeCursor) × Array Batch) : Prop where
  lodged : Lodged done.1 done.2
  same : places done.1.toList = places cursors
  size : done.2.size = (done.1.toList.filterMap id).length

theorem Kept.keepBatch {arena : Array Batch} {cursors : List (Option MergeCursor)}
    {done : Array (Option MergeCursor) × Array Batch} (h : Kept cursors done)
    {c? : Option MergeCursor} (hc : ∀ c, c? = some c → c.Points arena) :
    Kept (cursors ++ [c?]) (keepBatch arena done c?) := by
  obtain ⟨moved, kept⟩ := done
  obtain ⟨hlodged, hplaces, hsize⟩ := h
  have hplaces' : ∀ d? : Option MergeCursor, places [d?] = places [c?] →
      places (moved.push d?).toList = places (cursors ++ [c?]) := by
    intro d? hd
    unfold places at *
    rw [Array.toList_push, List.map_append, List.map_append, hplaces, hd]
  cases c? with
  | none =>
    refine ⟨hlodged.push fun c hc => (by cases hc), hplaces' none rfl, ?_⟩
    simpa [Merger.keepBatch] using hsize
  | some c =>
    have hpoints := hc c rfl
    have hb : arena.getD c.slot default = c.run.chunk.batch := by
      rw [Array.getD_eq_getD_getElem?, hpoints.slot, Option.getD_some]
    rw [Merger.keepBatch, hb]
    refine ⟨(hlodged.grow (.push kept c.run.chunk.batch)).push fun d hd => ?_,
      hplaces' (some { c with slot := kept.size }) rfl, ?_⟩
    · obtain rfl := Option.some.inj hd
      exact ⟨⟨hpoints.inRun, by simp⟩,
        fun j e he => Nat.ne_of_lt (hlodged.points he).slot_lt⟩
    · simpa using hsize

theorem kept_foldl {arena : Array Batch} (cursors : List (Option MergeCursor)) (size : Nat)
    (hc : ∀ c, some c ∈ cursors → c.Points arena) :
    Kept cursors (cursors.foldl (keepBatch arena) (Array.emptyWithCapacity size, #[])) := by
  induction cursors using List.reverseRecOn with
  | nil => exact ⟨⟨fun h => by simp at h, fun h => by simp at h⟩, rfl, rfl⟩
  | append_singleton cursors c? ih =>
    rw [List.foldl_append, List.foldl_cons, List.foldl_nil]
    refine (ih fun c hm => hc c (List.mem_append_left _ hm)).keepBatch fun c he => ?_
    exact hc c (he ▸ List.mem_append_right _ List.mem_cons_self)

theorem compact_settled (h : m.Coherent fun _ => False) (hr : m.Runs P) :
    m.compact.Settled ∧ m.compact.Runs P := by
  have hkept := kept_foldl m.cursors.toList m.cursors.size fun c hm => by
    obtain ⟨j, hj⟩ := List.mem_iff_getElem?.mp hm
    exact h.lodged.points (by rwa [Array.getElem?_toList] at hj)
  rw [Array.foldl_toList] at hkept
  obtain ⟨hlodged, hplaces, hsize⟩ := hkept
  have hcongr := key?_congr m.compact hplaces
  refine ⟨⟨⟨?_, hlodged, h.ordered, h.nodup, fun c => ?_⟩, hsize⟩, hr.heads, fun {j c} hc => ?_⟩
  · have hlength := congrArg List.length hplaces
    rw [places, places, List.length_map, List.length_map, Array.length_toList,
      Array.length_toList] at hlength
    exact hlength.trans h.sizes
  · rw [(hcongr c.source).1]
    exact h.frontier c
  · have hrun := (hcongr j).2
    rw [hc] at hrun
    obtain ⟨d, hd, he⟩ := Option.map_eq_some_iff.mp hrun.symm
    exact he ▸ hr.loaded hd

/-- Without loaded runs no batch is needed. -/
theorem Coherent.clear (h : m.Coherent fun _ => False) (hnone : ∀ j, m.cursor? j = none) :
    Settled { m with arena := #[] } :=
  ⟨⟨h.sizes, lodged_of_none hnone _, h.ordered, h.nodup, h.frontier⟩,
    (congrArg List.length (liveCursors_eq_nil hnone)).symm⟩

/-- Merging a chunk, if it succeeds, leaves a merger as it was before the call. -/
theorem nextChunk_settled (hP : SortedRun.Restored P) (h : m.Coherent fun _ => False)
    (hr : m.Runs P) (maxRows : Nat) (w : Workspace) :
    Gives (nextChunk maxRows) (fun _ s => s.1.Settled ∧ s.1.Runs P)
      (fun _ s => (s.1.Coherent fun _ => False) ∧ s.1.Runs P) (m, w) := by
  refine gives_nextChunk (pick_coherent hP (max maxRows 1) #[] w h hr (by simp)) (fun s hs => ?_)
    (fun picked s batch hs _ _ => ?_) fun _ _ _ hs _ _ => hs.1
  · obtain ⟨⟨hcoherent, hruns⟩, -, hcount⟩ := hs
    have hnone : ∀ j, s.1.cursor? j = none := hcount.resolve_right fun hle => by
      simp only [List.size_toArray, List.length_nil] at hle
      omega
    exact ⟨hcoherent.clear hnone, hruns.heads, hruns.loaded⟩
  · obtain ⟨⟨hcoherent, hruns⟩, -, -⟩ := hs
    refine .of_forall fun chunk v => ?_
    exact compact_settled (hcoherent.of_rowsLeft _) ⟨hruns.heads, hruns.loaded⟩

end Merger

end SpillSort
