import SpillSort.Proofs.Interruptions
import SpillSort.Proofs.Meters

/-!
# Rows read back

Whatever a merge has loaded or hands out lay in memory before, or was restored from a spill file.

* `Merger.loaded` are the rows that a merge has in memory: those of the loaded runs and of the heads
  of groups.
* `Merger.ofGroups_restores` and `Merger.nextChunk_restores` account for them. A merge of groups in
  memory counts nothing at all.
-/

namespace SpillSort

open Memory Spill
open Workspace (Silent Restores)

/-- Rows that were gathered are as many as the indices. -/
theorem Batch.rows_of_gather {schema : Schema} {batches : Array Batch} {indices : Array (Nat × Nat)}
    {b : Batch} (h : gather schema batches indices = .ok b) : b.rows = indices.size := by
  unfold gather at h
  split at h
  · cases h
  split at h
  · cases h
  split at h
  · cases h
  · obtain rfl := Except.ok.inj h
    rfl

variable {w : Workspace} {order : RowOrder}

/-- Putting something in the place of a summand. -/
theorem total_set {α : Type} (f : α → Nat) {xs : List α} {i : Nat} {y : α} (h : xs[i]? = some y)
    (z : α) : total ((xs.set i z).map f) + f y = total (xs.map f) + f z := by
  rw [List.set_eq_modify]
  exact total_modify f (fun _ => z) h

/-! ## Groups -/

/-- The rows of a run, if there is one. -/
def SortedRun.lengthOf (run? : Option SortedRun) : Nat := (run?.map length).getD 0

namespace SortedGroup

/-- The rows of a group that are in memory. -/
def headRows (g : SortedGroup) : Nat := SortedRun.lengthOf g.head?

/-- A restored run has the rows of its batch, which were counted. -/
theorem restore_restores (tracker : TrackerId) (b : Batch) :
    Gives (restore order tracker b) (fun run v => run.length = b.rows ∧ Restores b.rows w v)
      (fun _ _ => True) w := by
  have hcount : Ensures (Workspace.count ["Spill"] "RestoreRows" (·.add (Int64.ofNat b.rows)))
      (fun _ v => Restores b.rows w v) w := fun _ _ h => h.restore b.rows
  refine gives_restore hcount (fun keys v hv _ => ?_) fun _ _ _ _ => trivial
  have hchunk : Ensures (Workspace.withLedger (Chunk.tracked b tracker))
      (fun chunk _ => chunk.batch = b) v := Chunk.batch_transfer { batch := b } tracker v.ledger
  refine (hchunk.and (Workspace.tracked_moves (r := Silent) b tracker)).mono fun chunk u hu => ?_
  have hrun : Ensures (SortedRun.ofKeys chunk keys none tracker) (fun run _ => run.chunk = chunk)
      u := rfl
  refine (hrun.and (SortedRun.ofKeys_moves (r := Silent) chunk keys none tracker)).mono
    fun run x hx => ⟨?_, (hv.silent hu.2).silent hx.2⟩
  rw [SortedRun.length, hx.1, Chunk.length, hu.1]

/-- What comes of an attempt to read a run of a group: the rows of the run were in memory or were
restored. -/
def Reads (w : Workspace) (g : SortedGroup) (a : Except Failure (Option SortedRun) × SortedGroup)
    (v : Workspace) : Prop :=
  a.2.head? = none ∧ a.2.spilled?.isSome = g.spilled?.isSome ∧
    (g.spilled? = none → Silent w v) ∧
    ∀ run?, a.1 = .ok run? → (∀ run ∈ run?, 0 < run.length) ∧
      ∃ n, Restores n w v ∧ n + g.headRows = SortedRun.lengthOf run?

theorem restoreNext_restores (tracker : TrackerId) (es : List Entry) (r : Reader) :
    Ensures (restoreNext order tracker es r) (fun a v => ∀ run?, a.1 = .ok run? →
      (∀ run ∈ run?, 0 < run.length) ∧ Restores (SortedRun.lengthOf run?) w v) w := by
  induction es generalizing w r with
  | nil =>
    refine Ensures.pure_iff.mpr fun run? hr => ?_
    obtain rfl := Except.ok.inj hr
    exact ⟨fun run hrun => absurd hrun (Option.not_mem_none run), Silent.restores (refl_of Silent w)⟩
  | cons e es ih =>
    refine ensures_restoreNext_cons (R := fun run u => Restores run.length w u) ?_
      (fun run u hu hzero => ?_) fun run u hu hne run? hr => ?_
    · refine Gives.mono (Reader.batchAt_tries (r := Silent) r e) (fun b v hv => ?_)
        fun f v _ run? hr => (by cases hr)
      refine (restore_restores tracker b).mono (fun run u hu => ?_) fun f u _ run? hr => (by cases hr)
      have hall := hv.restores.trans hu.2
      rwa [← hu.1, Nat.zero_add] at hall
    · rw [hzero] at hu
      refine (run.drop_moves (r := Silent)).mono fun _ x hx => ?_
      refine (ih (r.advance es)).mono fun a y hy run? hr => ?_
      obtain ⟨hpos, hy⟩ := hy run? hr
      have hall := (hu.silent hx).trans hy
      rw [Nat.zero_add] at hall
      exact ⟨hpos, hall⟩
    · obtain rfl := Except.ok.inj hr
      refine ⟨fun run' hrun' => ?_, hu⟩
      obtain rfl := Option.mem_some.mp hrun'
      exact Nat.pos_of_ne_zero hne

theorem nextSpilled_reads {g : SortedGroup} (hhead : g.head? = none) (tracker : TrackerId) :
    Ensures (g.nextSpilled order tracker) (Reads w g) w := by
  have hrows : g.headRows = 0 := by rw [headRows, hhead]; rfl
  have hread : ∀ {s : SpilledRuns} {v : Workspace} (r : Reader), g.spilled? = some s →
      Silent w v → Ensures (restoreNext order tracker r.pending r) (fun a =>
        Reads w g (a.1, { g with spilled? := some { s with reader? := some a.2 } })) v := by
    intro s v r hs hv
    refine (restoreNext_restores tracker r.pending r).mono fun a u hu => ?_
    refine ⟨hhead, by rw [hs]; rfl, fun hnone => ?_, fun run? hr => ?_⟩
    · cases hs.symm.trans hnone
    · obtain ⟨hpos, hu⟩ := hu run? hr
      have hu := hv.restores.trans hu
      rw [Nat.zero_add] at hu
      exact ⟨hpos, _, hu, by rw [hrows]; rfl⟩
  refine ensures_nextSpilled (fun hs => ?_) (fun s r hs _ => hread r hs (refl_of Silent w))
    fun s hs _ => ?_
  · refine ⟨hhead, rfl, fun _ => refl_of Silent w, fun run? hr => ?_⟩
    obtain rfl := Except.ok.inj hr
    exact ⟨fun run hrun => absurd hrun (Option.not_mem_none run), 0,
      Silent.restores (refl_of Silent w), by rw [hrows]; rfl⟩
  · refine Gives.mono (Reader.open_tries (r := Silent) ..) (fun r v hv => hread r hs hv)
      fun f v hv => ?_
    exact ⟨hhead, rfl, fun hnone => (by cases hs.symm.trans hnone), fun run? hr => (by cases hr)⟩

/-- Reading the next run of a group. -/
theorem nextRun_reads (g : SortedGroup) (tracker : TrackerId) :
    Ensures (g.nextRun order tracker) (Reads w g) w := by
  refine ensures_nextRun (fun hhead => nextSpilled_reads hhead tracker)
    (fun run hhead hzero => ?_) fun run hhead hne => ?_
  · have hrows : g.headRows = 0 := by
      rw [headRows, hhead]
      exact hzero
    refine (run.drop_moves (r := Silent)).mono fun _ v hv => ?_
    refine (nextSpilled_reads (g := { g with head? := none }) rfl tracker).mono fun a u hu => ?_
    obtain ⟨hnone, hsome, hsilent, hreads⟩ := hu
    refine ⟨hnone, hsome, fun h => trans_of Silent hv (hsilent h), fun run? hr => ?_⟩
    obtain ⟨hpos, n, hn, hlength⟩ := hreads run? hr
    refine ⟨hpos, n, ?_, ?_⟩
    · have hall := hv.restores.trans hn
      rwa [Nat.zero_add] at hall
    · rw [hrows]
      exact hlength
  · have hrows : g.headRows = run.length := by rw [headRows, hhead]; rfl
    refine ⟨rfl, rfl, fun _ => refl_of Silent w, fun run? hr => ?_⟩
    obtain rfl := Except.ok.inj hr
    refine ⟨fun run' hrun' => ?_, 0, Silent.restores (refl_of Silent w), ?_⟩
    · obtain rfl := Option.mem_some.mp hrun'
      exact Nat.pos_of_ne_zero hne
    · rw [hrows, Nat.zero_add]
      rfl

end SortedGroup

/-! ## Merges -/

/-- The rows of a loaded run that are still to be handed out. -/
def MergeCursor.left (c : MergeCursor) : Nat := c.run.length - c.position

namespace Merger

variable {m : Merger} {s : Merger × Workspace}

/-- The rows that are left of the loaded run of a group. -/
def leftOf (c? : Option MergeCursor) : Nat := (c?.map MergeCursor.left).getD 0

/-- The rows in memory that a merge has left. -/
def loaded (m : Merger) : Nat :=
  total (m.groups.toList.map SortedGroup.headRows) + total (m.cursors.toList.map leftOf)

/-- The loaded runs have rows left, and there is a place for one of each group. -/
structure Sound (m : Merger) : Prop where
  sizes : m.cursors.size = m.groups.size
  inRun : ∀ c, some c ∈ m.cursors.toList → c.position < c.run.length

/-- What a step of a merge restores: so many rows, after which the merge has `rows` fewer in memory
than they make it. A merge of groups in memory counts nothing. -/
structure Restored (s : Merger × Workspace) (rows : Nat) (t : Merger × Workspace) : Prop where
  sound : t.1.Sound
  restores : ∃ n, Restores n s.2 t.2 ∧ n + s.1.loaded = t.1.loaded + rows
  unspilled : s.1.Unspilled → t.1.Unspilled ∧ Silent s.2 t.2

theorem Restored.refl (h : s.1.Sound) : Restored s 0 s :=
  ⟨h, ⟨0, Silent.restores (refl_of Silent s.2), by omega⟩, fun hu => ⟨hu, refl_of Silent s.2⟩⟩

theorem Restored.trans {t u : Merger × Workspace} {rows rows' : Nat} (h : Restored s rows t)
    (h' : Restored t rows' u) : Restored s (rows + rows') u := by
  obtain ⟨n, hn, hrows⟩ := h.restores
  obtain ⟨n', hn', hrows'⟩ := h'.restores
  refine ⟨h'.sound, ⟨n + n', hn.trans hn', by omega⟩, fun hu => ?_⟩
  obtain ⟨hu, hs⟩ := h.unspilled hu
  obtain ⟨hu, hs'⟩ := h'.unspilled hu
  exact ⟨hu, trans_of Silent hs hs'⟩

theorem cursor?_of_le {i : Nat} (h : m.cursors.size ≤ i) : m.cursor? i = none := by
  rw [cursor?, Array.getElem?_eq_none h]
  rfl

theorem mem_cursors_of_cursor? {i : Nat} {c : MergeCursor} (h : m.cursor? i = some c) :
    some c ∈ m.cursors.toList := by
  obtain ⟨c?, hc, rfl⟩ := Option.bind_eq_some_iff.mp h
  exact Array.mem_toList_iff.mpr (Array.mem_of_getElem? hc)

/-- Putting a group and a loaded run in the place of others. -/
theorem loaded_put {m' : Merger} {i : Nat} {g g' : SortedGroup} {c? : Option MergeCursor}
    (h : m.Sound) (hg : m.groups[i]? = some g) (hgroups : m'.groups.toList = m.groups.toList.set i g')
    (hcursors : m'.cursors.toList = m.cursors.toList.set i c?) :
    m'.loaded + (g.headRows + leftOf (m.cursor? i)) = m.loaded + (g'.headRows + leftOf c?) := by
  have hi : i < m.cursors.size := h.sizes ▸ (Array.getElem?_eq_some_iff.mp hg).1
  have hc : m.cursors.toList[i]? = some (m.cursor? i) := by
    simp [cursor?, hi]
  have hheads := total_set SortedGroup.headRows (Array.getElem?_toList ▸ hg) g'
  have hlefts := total_set leftOf hc c?
  rw [loaded, loaded, hgroups, hcursors]
  omega

/-- Putting a loaded run in the place of another. -/
theorem Sound.put {m' : Merger} {i : Nat} {c? : Option MergeCursor} (h : m.Sound)
    (hgroups : m'.groups.size = m.groups.size) (hcursors : m'.cursors.toList = m.cursors.toList.set i c?)
    (hc : ∀ c ∈ c?, c.position < c.run.length) : m'.Sound := by
  refine ⟨?_, fun c hmem => ?_⟩
  · rw [hgroups, ← h.sizes, ← Array.length_toList, hcursors, List.length_set, Array.length_toList]
  · rw [hcursors] at hmem
    rcases List.mem_or_eq_of_mem_set hmem with hmem | heq
    · exact h.inRun c hmem
    · exact hc c heq.symm

theorem Unspilled.put {m' : Merger} {i : Nat} {g g' : SortedGroup} (h : m.Unspilled)
    (hg : m.groups[i]? = some g) (hgroups : m'.groups.toList = m.groups.toList.set i g')
    (hsome : g'.spilled?.isSome = g.spilled?.isSome) : m'.Unspilled := by
  intro x hx
  rw [← Array.mem_toList_iff, hgroups] at hx
  rcases List.mem_or_eq_of_mem_set hx with hx | rfl
  · exact h x (Array.mem_toList_iff.mp hx)
  · rw [h g (Array.mem_of_getElem? hg)] at hsome
    exact Option.not_isSome_iff_eq_none.mp (by simp [hsome])

/-- Loading the next run of a group drops the rows that are left of the one loaded. -/
theorem load_restores (source : Nat) (h : s.1.Sound) :
    Gives (load source) (fun _ t => Restored s (leftOf (s.1.cursor? source)) t ∧
        ∀ i ≠ source, t.1.cursor? i = s.1.cursor? i)
      (fun _ _ => True) s := by
  obtain ⟨m, w⟩ := s
  refine gives_load (fun hnone => ?_) fun g hg => ?_
  · have hsize : m.groups.size ≤ source := Array.getElem?_eq_none_iff.mp hnone
    refine ⟨?_, fun _ _ => rfl⟩
    rw [cursor?_of_le (h.sizes ▸ hsize)]
    exact .refl h
  · refine (Workspace.dropAll_moves (r := Silent) _).mono fun _ v hv => ?_
    refine (SortedGroup.nextRun_reads g m.tracker).mono fun a u hu => ?_
    obtain ⟨run?, g'⟩ := a
    obtain ⟨hhead, hsome, hsilent, hreads⟩ := hu
    have hrows : g'.headRows = 0 := by
      rw [SortedGroup.headRows, show g'.head? = none from hhead]
      rfl
    -- whatever was loaded in its place
    have hput : ∀ {m' : Merger} (c? : Option MergeCursor),
        m'.groups.toList = m.groups.toList.set source g' →
        m'.cursors.toList = m.cursors.toList.set source c? →
        (∃ n, Restores n v u ∧ n + g.headRows = leftOf c?) → (∀ c ∈ c?, c.position < c.run.length) →
        Restored (m, w) (leftOf (m.cursor? source)) (m', u) ∧
          ∀ i ≠ source, m'.cursor? i = m.cursor? i := by
      intro m' c? hgroups hcursors hn hc
      obtain ⟨n, hn, hleft⟩ := hn
      have hloaded : m'.loaded + (g.headRows + leftOf (m.cursor? source)) =
        m.loaded + (g'.headRows + leftOf c?) := loaded_put h hg hgroups hcursors
      have hsize : m'.groups.size = m.groups.size := by
        rw [← Array.length_toList, hgroups, List.length_set, Array.length_toList]
      have hall := hv.restores.trans hn
      rw [Nat.zero_add] at hall
      refine ⟨⟨h.put hsize hcursors hc, ⟨n, hall, ?_⟩, fun hu => ⟨hu.put hg hgroups hsome, ?_⟩⟩,
        fun i hi => ?_⟩
      · show n + m.loaded = m'.loaded + leftOf (m.cursor? source)
        rw [hrows] at hloaded
        omega
      · exact trans_of Silent hv (hsilent (hu g (Array.mem_of_getElem? hg)))
      · rw [cursor?, cursor?, ← Array.getElem?_toList, hcursors, List.getElem?_set_ne hi.symm,
          Array.getElem?_toList]
    rcases run? with e | _ | run
    · trivial
    · obtain ⟨-, n, hn, hleft⟩ := hreads none rfl
      refine hput none ?_ ?_ ⟨n, hn, hleft⟩ fun c hc => ?_
      · simp [setGroup, retire]
      · simp [setGroup, retire]
      · exact absurd hc (Option.not_mem_none c)
    · obtain ⟨hpos, n, hn, hleft⟩ := hreads (some run) rfl
      refine hput (some { run, slot := m.arena.size }) ?_ ?_ ⟨n, hn, hleft⟩ fun c hc => ?_
      · simp [accept, setGroup, retire]
      · simp [accept, setGroup, retire]
      · obtain rfl := Option.mem_some.mp hc
        exact hpos run rfl

theorem loadAll_restores (count source : Nat) (h : s.1.Sound)
    (hnone : ∀ i, source ≤ i → s.1.cursor? i = none) :
    Gives (loadAll count source) (fun _ t => Restored s 0 t) (fun _ _ => True) s := by
  induction count generalizing s source with
  | zero => exact Gives.pure_iff.mpr (.refl h)
  | succ count ih =>
    refine gives_loadAll_succ ?_
    refine (load_restores source h).mono (fun _ t ht => ?_) fun _ _ _ => trivial
    obtain ⟨ht, hcursors⟩ := ht
    rw [hnone source (Nat.le_refl _)] at ht
    refine (ih (source + 1) ht.sound fun i hi => ?_).mono (fun _ u hu => ht.trans hu) fun _ _ _ => trivial
    rw [hcursors i (by omega)]
    exact hnone i (by omega)

/-- A merge that just began has loaded what was in memory, and what it restored. -/
theorem ofGroups_restores (tracker : TrackerId) (groups : List SortedGroup) :
    Gives (ofGroups order tracker groups)
      (fun m v => m.Sound ∧
        (∃ n, Restores n w v ∧ n + total (groups.map SortedGroup.headRows) = m.loaded) ∧
        ((∀ g ∈ groups, g.spilled? = none) → m.Unspilled ∧ Silent w v))
      (fun _ _ => True) w := by
  have hsound : (unloaded order tracker groups).Sound := by
    refine ⟨by simp [unloaded], fun c hc => ?_⟩
    simp [unloaded] at hc
  have hnone : ∀ i, (unloaded order tracker groups).cursor? i = none := by
    intro i
    by_cases hi : i < groups.length
    · simp [unloaded, cursor?, hi]
    · exact cursor?_of_le (by simpa [unloaded] using hi)
  refine gives_ofGroups ((loadAll_restores groups.length 0 (s := (_, w)) hsound fun i _ => hnone i).mono
    (fun _ t ht => ?_) fun _ _ _ => .of_forall fun _ _ => trivial)
  · obtain ⟨n, hn, hloaded⟩ := ht.restores
    refine ⟨ht.sound, ⟨n, hn, ?_⟩, fun hg => ht.unspilled fun g hm => ?_⟩
    · rw [Nat.add_zero] at hloaded
      rw [← hloaded]
      have hzero : total (List.replicate groups.length (leftOf none)) = 0 :=
        total_eq_zero fun n hn => List.eq_of_mem_replicate hn
      simp [loaded, hzero]
    · exact hg g (by simpa [unloaded] using hm)

/-- Picking a row that is not the last of its run. -/
theorem takeRow_restores {row : Nat × Nat} {m' : Merger} {source : Nat} (h : m.Sound)
    (ht : m.takeRow source = (some (row, false), m')) : Restored (m, w) 1 (m', w) := by
  obtain ⟨c, hc, -, hlt, hm⟩ := takeRow_eq_some ht
  have hi : source < m.groups.size := by
    rw [← h.sizes]
    by_contra hge
    rw [cursor?_of_le (Nat.not_lt.mp hge)] at hc
    cases hc
  have hgroups : m'.groups.toList = m.groups.toList.set source m.groups[source] := by
    rw [hm, ← Array.getElem_toList, List.set_getElem_self]
  have hcursors : m'.cursors.toList =
      m.cursors.toList.set source (some { c with position := c.position + 1 }) := by
    rw [hm, Array.toList_setIfInBounds]
  have hsize : m'.groups.size = m.groups.size := by rw [hm]
  have hloaded := loaded_put h (Array.getElem?_eq_getElem hi) hgroups hcursors
  rw [hc] at hloaded
  refine ⟨h.put hsize hcursors fun c' hc' => ?_, ⟨0, Silent.restores (refl_of Silent w), ?_⟩,
    fun hu => ⟨?_, refl_of Silent w⟩⟩
  · obtain rfl := Option.mem_some.mp hc'
    exact hlt
  · have hleft : leftOf (some c) = leftOf (some { c with position := c.position + 1 }) + 1 := by
      show c.run.length - c.position = c.run.length - (c.position + 1) + 1
      omega
    show 0 + m.loaded = m'.loaded + 1
    omega
  · rw [hm]
    exact hu

/-- Picking the last row of a loaded run leaves the merge as it is. -/
theorem takeRow_last {row : Nat × Nat} {m' : Merger} {source : Nat} (h : m.Sound)
    (ht : m.takeRow source = (some (row, true), m')) : m' = m ∧ leftOf (m.cursor? source) = 1 := by
  obtain ⟨c, hc, -, hge, hm⟩ := takeRow_eq_some ht
  have hlt := h.inRun c (mem_cursors_of_cursor? hc)
  refine ⟨hm, ?_⟩
  rw [hc]
  show c.run.length - c.position = 1
  omega

/-- The frontier is no part of what is counted. -/
theorem popCandidate_restores {c? : Option Candidate} {m' : Merger} (h : m.Sound)
    (hpop : m.popCandidate = (c?, m')) : Restored (m, w) 0 (m', w) := by
  obtain ⟨f, hm⟩ := m.popCandidate_eq_with
  rw [hpop] at hm
  obtain rfl : m' = _ := hm
  exact ⟨⟨h.sizes, h.inRun⟩, ⟨0, Silent.restores (refl_of Silent w), Nat.zero_add _⟩,
    fun hu => ⟨hu, refl_of Silent w⟩⟩

/-- What comes of picking rows: what was picked is gone, and without a row nothing was restored. -/
def Picks (s : Merger × Workspace) (picked picked' : Array (Nat × Nat)) (t : Merger × Workspace) :
    Prop :=
  ∃ rows, picked'.size = picked.size + rows ∧ Restored s rows t ∧ (rows = 0 → Silent s.2 t.2)

theorem pick_restores (count : Nat) (picked : Array (Nat × Nat)) (h : s.1.Sound) :
    Gives (pick count picked) (Picks s picked) (fun _ _ => True) s := by
  induction count generalizing s picked with
  | zero => exact Gives.pure_iff.mpr ⟨0, rfl, .refl h, fun _ => refl_of Silent s.2⟩
  | succ count ih =>
    obtain ⟨m, w⟩ := s
    -- one row more
    have hpush : ∀ {t : Merger × Workspace} {row : Nat × Nat} {picked' : Array (Nat × Nat)}
        {u : Merger × Workspace}, Restored (m, w) 1 t → Picks t (picked.push row) picked' u →
        Picks (m, w) picked picked' u := by
      intro t row picked' u ht hu
      obtain ⟨rows, hsize, hu, -⟩ := hu
      rw [Array.size_push] at hsize
      exact ⟨1 + rows, by omega, ht.trans hu, fun hzero => by omega⟩
    refine gives_pick_succ (fun m₁ hpop => ?_) (fun c m₁ m₂ hpop htake => ?_)
      (fun c m₁ row m₂ hpop htake => ?_) fun c m₁ row m₂ hpop htake => ?_
    · exact ⟨0, rfl, popCandidate_restores h hpop, fun _ => refl_of Silent w⟩
    · have hpop := popCandidate_restores (w := w) h hpop
      obtain ⟨-, rfl⟩ := takeRow_eq_none htake
      refine (ih picked hpop.sound).mono (fun picked' u hu => ?_) fun _ _ _ => trivial
      obtain ⟨rows, hsize, hu, hsilent⟩ := hu
      have hall := hpop.trans hu
      rw [Nat.zero_add] at hall
      exact ⟨rows, hsize, hall, hsilent⟩
    · have hpop := popCandidate_restores (w := w) h hpop
      have ht := hpop.trans (takeRow_restores (w := w) hpop.sound htake)
      exact (ih (picked.push row) ht.sound).mono (fun _ _ hu => hpush ht hu) fun _ _ _ => trivial
    · have hpop := popCandidate_restores (w := w) h hpop
      obtain ⟨rfl, hlast⟩ := takeRow_last hpop.sound htake
      refine (load_restores c.source hpop.sound).mono (fun _ t ht => ?_) fun _ _ _ => trivial
      have ht := hpop.trans (hlast ▸ ht.1)
      exact (ih (picked.push row) ht.sound).mono (fun _ _ hu => hpush ht hu) fun _ _ _ => trivial

/-- Forgetting batches is no part of what is counted. -/
theorem compact_restores (h : m.Sound) : Restored (m, w) 0 (m.compact, w) := by
  -- only the slots of the loaded runs change
  have hfold : ∀ (cs : List (Option MergeCursor)) (acc : Array (Option MergeCursor) × Array Batch),
      (((cs.foldl (keepBatch m.arena) acc).1.toList.map fun c? => c?.map fun c => (c.run, c.position)) =
        (acc.1.toList ++ cs).map fun c? => c?.map fun c => (c.run, c.position)) := by
    intro cs
    induction cs with
    | nil => simp
    | cons c? cs ih =>
      intro acc
      rw [List.foldl_cons, ih]
      cases c? <;> simp [keepBatch]
  have hcursors : (m.compact.cursors.toList.map fun c? => c?.map fun c => (c.run, c.position)) =
      m.cursors.toList.map fun c? => c?.map fun c => (c.run, c.position) := by
    have hall := hfold m.cursors.toList (Array.emptyWithCapacity m.cursors.size, #[])
    rw [Array.foldl_toList] at hall
    simpa [compact] using hall
  have hgroups : m.compact.groups = m.groups := rfl
  have hlefts : ∀ cs : List (Option MergeCursor), cs.map leftOf =
      (cs.map fun c? => c?.map fun c => (c.run, c.position)).map fun p? =>
        (p?.map fun p => p.1.length - p.2).getD 0 := by
    intro cs
    rw [List.map_map]
    refine List.map_congr_left fun c? _ => ?_
    cases c? <;> rfl
  have hloaded : m.compact.loaded = m.loaded := by
    rw [loaded, loaded, hlefts, hcursors, ← hlefts, hgroups]
  refine ⟨⟨?_, fun c hc => ?_⟩, ⟨0, Silent.restores (refl_of Silent w), ?_⟩,
    fun hu => ⟨hu, refl_of Silent w⟩⟩
  · have hlength := congrArg List.length hcursors
    rw [List.length_map, List.length_map, Array.length_toList, Array.length_toList] at hlength
    exact hlength.trans h.sizes
  · have hmem := List.mem_map_of_mem (f := fun c? : Option MergeCursor =>
      c?.map fun c => (c.run, c.position)) hc
    rw [hcursors] at hmem
    obtain ⟨c'?, hc', heq⟩ := List.mem_map.mp hmem
    rcases c'? with _ | c'
    · cases heq
    obtain ⟨hrun, hposition⟩ := Prod.mk.inj (Option.some.inj heq)
    rw [← hrun, ← hposition]
    exact h.inRun c' hc'
  · show 0 + m.loaded = m.compact.loaded + 0
    omega

/-- What comes of merging a chunk: its rows are gone, and without a chunk nothing was restored. -/
theorem nextChunk_restores (maxRows : Nat) (h : s.1.Sound) :
    Gives (nextChunk maxRows)
      (fun c? t => ∃ rows, Restored s rows t ∧ (∀ c ∈ c?, c.batch.rows = rows) ∧
        (c? = none → rows = 0 ∧ Silent s.2 t.2))
      (fun _ _ => True) s := by
  refine gives_nextChunk (pick_restores (max maxRows 1) #[] h) (fun t ht => ?_)
    (fun picked t batch ht _ hb => ?_) fun _ _ _ _ _ _ => trivial
  · obtain ⟨rows, hsize, ht, hsilent⟩ := ht
    have hzero : rows = 0 := by
      rw [Array.size_empty, Nat.zero_add] at hsize
      exact hsize.symm
    exact ⟨rows, ⟨⟨ht.sound.sizes, ht.sound.inRun⟩, ht.restores, ht.unspilled⟩,
      fun c hc => absurd hc (Option.not_mem_none c), fun _ => ⟨hzero, hsilent hzero⟩⟩
  · obtain ⟨rows, hsize, ht, -⟩ := ht
    obtain ⟨m, v⟩ := t
    rw [Array.size_empty, Nat.zero_add] at hsize
    have hrows : batch.rows = rows := (Batch.rows_of_gather hb).trans hsize
    have hsettle : Restored (m, v) 0 (m.settle picked.size, v) := by
      obtain ⟨hsound, hloaded, hunspilled⟩ := compact_restores (w := v)
        (m := { m with rowsLeft := m.rowsLeft - picked.size }) ⟨ht.sound.sizes, ht.sound.inRun⟩
      exact ⟨hsound, hloaded, hunspilled⟩
    have hchunk : Ensures (Workspace.withLedger (Chunk.tracked batch m.tracker))
        (fun chunk _ => chunk.batch = batch) v :=
      Chunk.batch_transfer { batch := batch } m.tracker v.ledger
    refine (hchunk.and (Workspace.tracked_moves (r := Silent) batch m.tracker)).mono
      fun chunk u hu => ⟨rows, ?_, fun c hc => ?_, fun hnone => by cases hnone⟩
    · have hall := ht.trans hsettle
      obtain ⟨n, hn, hloaded⟩ := hall.restores
      exact ⟨hall.sound, ⟨n, hn.silent hu.2, hloaded⟩, fun hunspilled =>
        ⟨(hall.unspilled hunspilled).1, trans_of Silent (hall.unspilled hunspilled).2 hu.2⟩⟩
    · obtain rfl := Option.mem_some.mp hc
      rw [hu.1, hrows]

end Merger

end SpillSort
