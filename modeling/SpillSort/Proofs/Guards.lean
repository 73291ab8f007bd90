import SpillSort.Proofs.Cursors
import SpillSort.Proofs.GlobalMerges
import SpillSort.Proofs.Heedless
import SpillSort.Proofs.RoundTrip

/-!
# Merging with an alarm

A merge goes on where something that it needs is not there: it passes over a candidate without a
loaded run, and reads an empty batch at a slot that the arena has not. None of this ever happens.

* `Merger.Guard` is a merge that raises an alarm at each such place, and that leaves something else
  in the arena for each batch it takes out. Whatever the alarm does, `Guard.ofGroups_eq` and
  `Guard.nextChunk_eq` say that it comes to the same as the merge itself.
* `Merger.Reached` is what a merge can come to, and `Merger.cursors_exact` is about all of it.
-/

namespace SpillSort

namespace Merger

variable {m : Merger} {i : Nat} {P : SortedRun → Prop}

/-! ## Guards -/

/-- What a guarded merge does besides merging: it raises an alarm wherever something that it needs
is not there, and where it takes a batch out of the arena it leaves another one. -/
structure Guard where
  alarm : MergeWork Unit
  placeholder : Batch

namespace Guard

/-- Raises the alarm unless the merge is as it should be. -/
def check (g : Guard) (p : Merger → Bool) : MergeWork Unit := do
  unless p (← get) do g.alarm

/-- Loads the next run of a group, which must be there and must not have a loaded run when the next
one is read. -/
def load (g : Guard) (source : Nat) : MergeWork Unit := do
  let m ← get
  match m.cursor? source, m.groups[source]? with
  | c, some group => do
    let { order, tracker, .. } := m
    (Workspace.dropAll ((c.map fun c => c.run.charges).getD []) : Action Unit)
    modify fun m => m.retire source
    g.check fun m => (m.cursor? source).isNone
    let (run?, group) ←
      (group.nextRun order tracker : Action (Except Failure (Option SortedRun) × _))
    modify fun m => m.setGroup source group
    match run? with
    | .error e => throw e
    | .ok none => pure ()
    | .ok (some run) => modify fun m => m.accept source run
  | _, none => g.alarm

/-- Loads the first runs of `count` groups from `source` on. -/
def loadAll (g : Guard) : (count source : Nat) → MergeWork Unit
  | 0, _ => pure ()
  | count + 1, source => do
    g.load source
    g.loadAll count (source + 1)

/-- Starts a merge. -/
def ofGroups (g : Guard) (order : RowOrder) (tracker : Memory.TrackerId)
    (groups : List SortedGroup) : Work Merger :=
  ExceptT.mk do
    let start : Merger :=
      { order, tracker, groups := groups.toArray
        cursors := Array.replicate groups.length none
        rowsLeft := total (groups.map SortedGroup.rows) }
    match ← (g.loadAll groups.length 0).run.run start with
    | (.ok _, m) => pure (.ok m)
    | (.error e, m) => do
      m.drop
      pure (.error e)

/-- Picks rows; each candidate taken must be that of a loaded run. -/
def pick (g : Guard) : (count : Nat) → (picked : Array (Nat × Nat)) → MergeWork (Array (Nat × Nat))
  | 0, picked => pure picked
  | count + 1, picked => do
    match ← modifyGet popCandidate with
    | none => pure picked
    | some c =>
      match ← modifyGet fun m => m.takeRow c.source with
      | none => do
        g.alarm
        g.pick count picked
      | some (row, false) => g.pick count (picked.push row)
      | some (row, true) => do
        g.load c.source
        g.pick count (picked.push row)

/-- Takes the batch of a loaded run out of the arena, and puts it behind those that are kept. -/
def takeBatch (g : Guard) :
    Array (Option MergeCursor) × Array Batch × Array Batch → Option MergeCursor →
      Array (Option MergeCursor) × Array Batch × Array Batch
  | (cursors, arena, kept), none => (cursors.push none, arena, kept)
  | (cursors, arena, kept), some c =>
    (cursors.push (some { c with slot := kept.size }), arena.setIfInBounds c.slot g.placeholder,
      kept.push (arena.getD c.slot default))

/-- Takes the batches of loaded runs out of the arena one by one, and forgets what is left of it. -/
def compact (g : Guard) (m : Merger) : Merger :=
  let { order, tracker, groups, cursors, frontier, arena, rowsLeft } := m
  let (cursors, _, kept) :=
    cursors.foldl g.takeBatch (Array.emptyWithCapacity cursors.size, arena, #[])
  { order, tracker, groups, cursors, frontier, arena := kept, rowsLeft }

/-- Merges rows into a chunk. The batches of these rows must be in the arena when they are copied,
and those of all loaded runs when they are taken out of it. -/
def nextChunk (g : Guard) (maxRows : Nat) : MergeWork (Option Chunk) := do
  let picked ← g.pick (max maxRows 1) #[]
  if picked.isEmpty then do
    modify fun m => { m with arena := #[] }
    pure none
  else do
    g.check fun m => picked.all fun row => row.1 < m.arena.size
    let m ← get
    let batch ← match m.order.copyRows m.arena picked with
      | .ok batch => pure batch
      | .error e => throw (.column e)
    g.check fun m => m.liveCursors.all fun c => c.slot < m.arena.size
    modify fun m => g.compact { m with rowsLeft := m.rowsLeft - picked.size }
    let tracker := m.tracker
    some <$> (Workspace.withLedger (Chunk.tracked batch tracker) : Action Chunk)

/-! ## No alarm is raised -/

variable {g : Guard} {r : Merger × Workspace → Merger × Workspace → Prop} {s t : Merger × Workspace}
variable {α β : Type}

/-- No alarm is raised where the merge is as it should be. -/
theorem agree_check {p : Merger → Bool} {f : Unit → MergeWork α} {y : MergeWork α}
    (hp : p t.1 = true) (h : Agree r y.run (f ()).run s t) :
    Agree r y.run (g.check p >>= f).run s t := by
  have hcheck : Stateful.outcome (g.check p >>= f).run t = Stateful.outcome (f ()).run t := by
    show Stateful.outcome ((if p t.1 then pure () else g.alarm : MergeWork Unit) >>= f).run t = _
    rw [if_pos hp, pure_bind]
  unfold Agree at h ⊢
  rwa [hcheck]

/-- The steps after the same one come to the same, given what that one leads to. -/
theorem agree_bind {x y : MergeWork α} {f f' : α → MergeWork β} {P : α → Merger × Workspace → Prop}
    {E : Failure → Merger × Workspace → Prop} (h : Agree Eq x.run y.run s s) (hx : Gives x P E s)
    (hf : ∀ a t, P a t → Agree Eq (f a).run (f' a).run t t) :
    Agree Eq (x >>= f).run (y >>= f').run s s := by
  refine h.work_bind_of hx (fun a t u ht ha => ?_) fun _ _ _ ht _ => ht
  subst ht
  exact hf a t ha

theorem agree_modifyGet {f : Merger → α × Merger} {k k' : α → MergeWork β}
    (h : Agree r (k (f s.1).1).run (k' (f t.1).1).run ((f s.1).2, s.2) ((f t.1).2, t.2)) :
    Agree r (modifyGet f >>= k).run (modifyGet f >>= k').run s t :=
  h

theorem agree_modify {f f' : Merger → Merger} {k k' : Unit → MergeWork β}
    (h : Agree r (k ()).run (k' ()).run (f s.1, s.2) (f' t.1, t.2)) :
    Agree r (modify f >>= k).run (modify f' >>= k').run s t :=
  h

theorem agree_refl {x : MergeWork α} : Agree Eq x.run x.run s s := ⟨rfl, rfl⟩

theorem load_agree (g : Guard) (h : m.Coherent (· = i)) (hi : i < m.groups.size) (w : Workspace) :
    Agree Eq (Merger.load i).run (g.load i).run (m, w) (m, w) := by
  obtain ⟨group, hgroup⟩ : ∃ group, m.groups[i]? = some group :=
    ⟨_, Array.getElem?_eq_getElem hi⟩
  have hretired : (m.retire i).cursor? i = none := cursor?_retire (h.sizes ▸ hi)
  unfold Guard.load Merger.load
  refine .work_get_layer ?_
  simp only [hgroup]
  refine agree_bind agree_refl (P := fun _ t => t.1 = m) (E := fun _ _ => True) ?_ fun _ t ht => ?_
  · rw [Gives.lift_layer_iff]
    exact .of_forall fun _ _ => rfl
  · refine agree_modify (agree_check ?_ agree_refl)
    simp [ht, hretired]

theorem pick_agree (g : Guard) : ∀ (count : Nat) (picked : Array (Nat × Nat)) {m : Merger}
    (w : Workspace), (m.Coherent fun _ => False) →
    Agree Eq (Merger.pick count picked).run (g.pick count picked).run (m, w) (m, w)
  | 0, picked, m, w, _ => agree_refl
  | count + 1, picked, m, w, h => by
    unfold Guard.pick Merger.pick
    refine agree_modifyGet ?_
    rcases hpop : m.popCandidate with ⟨_ | c, m₁⟩
    · exact agree_refl
    · obtain ⟨⟨d, hd⟩, hm₁, -⟩ := h.popCandidate_some hpop
      rcases htake : m₁.takeRow c.source with ⟨row?, m₂⟩
      obtain ⟨row, last, rfl, -, -, -, hm₂⟩ := takeRow_coherent hm₁ (.any m₁) hd htake
      refine agree_modifyGet ?_
      simp only [htake]
      cases last with
      | false => exact pick_agree g count (picked.push row) w hm₂
      | true =>
        obtain rfl : m₂ = m₁ := hm₂
        refine agree_bind (load_agree g hm₁ (hm₁.lt_of_cursor? hd) w)
          (load_coherent SortedRun.Restored.any hm₁ (.any m₂) w) fun _ t ht => ?_
        exact pick_agree g count (picked.push row) t.2 ht.coherent

theorem loadAll_agree (g : Guard) : ∀ (count source : Nat) {m : Merger} (w : Workspace),
    (m.Coherent fun _ => False) → (∀ j, source ≤ j → m.cursor? j = none) →
    source + count ≤ m.groups.size →
    Agree Eq (Merger.loadAll count source).run (g.loadAll count source).run (m, w) (m, w)
  | 0, source, m, w, _, _, _ => agree_refl
  | count + 1, source, m, w, h, hnone, hle => by
    have haside := h.aside (hnone source (Nat.le_refl _))
    unfold Guard.loadAll Merger.loadAll
    refine agree_bind (load_agree g haside (by omega) w)
      (load_coherent SortedRun.Restored.any haside (.any m) w) fun _ t ht => ?_
    refine loadAll_agree g count (source + 1) t.2 ht.coherent (fun j hj => ?_) ?_
    · rw [ht.others j (by omega)]
      exact hnone j (by omega)
    · rw [ht.groups_size]
      omega

/-- Cursors with slots of their own find their batches also in an arena where those of the cursors
before them were replaced. -/
theorem foldl_takeBatch (g : Guard) {arena : Array Batch} (cursors : List (Option MergeCursor)) :
    ∀ (moved : Array (Option MergeCursor)) (rest kept : Array Batch),
      (∀ c, some c ∈ cursors → rest[c.slot]? = arena[c.slot]?) →
      (cursors.Pairwise fun a b => ∀ c d, a = some c → b = some d → c.slot ≠ d.slot) →
      ∃ rest', cursors.foldl g.takeBatch (moved, rest, kept) =
        ((cursors.foldl (keepBatch arena) (moved, kept)).1, rest',
          (cursors.foldl (keepBatch arena) (moved, kept)).2) := by
  induction cursors with
  | nil => exact fun moved rest kept _ _ => ⟨rest, rfl⟩
  | cons c? cursors ih =>
    intro moved rest kept hsame hapart
    obtain ⟨hfirst, htail⟩ := List.pairwise_cons.mp hapart
    cases c? with
    | none => exact ih _ _ _ (fun c hc => hsame c (List.mem_cons_of_mem _ hc)) htail
    | some c =>
      have hb : rest.getD c.slot default = arena.getD c.slot default := by
        rw [Array.getD_eq_getD_getElem?, Array.getD_eq_getD_getElem?, hsame c List.mem_cons_self]
      rw [List.foldl_cons, List.foldl_cons, takeBatch, keepBatch, hb]
      refine ih _ _ _ (fun d hd => ?_) htail
      rw [Array.getElem?_setIfInBounds_ne (hfirst (some d) hd c d rfl rfl)]
      exact hsame d (List.mem_cons_of_mem _ hd)

theorem compact_eq (g : Guard) (h : m.Coherent fun _ => False) : g.compact m = m.compact := by
  have hapart : m.cursors.toList.Pairwise fun a b =>
      ∀ c d, a = some c → b = some d → c.slot ≠ d.slot := by
    refine List.pairwise_iff_getElem.mpr fun i j hi hj hij c d hc hd hs => ?_
    rw [Array.getElem_toList] at hc hd
    have hij' := h.lodged.apart (Array.getElem?_eq_some_iff.mpr ⟨_, hc⟩)
      (Array.getElem?_eq_some_iff.mpr ⟨_, hd⟩) hs
    omega
  obtain ⟨rest, hfold⟩ := g.foldl_takeBatch m.cursors.toList
    (Array.emptyWithCapacity m.cursors.size) m.arena #[] (fun _ _ => rfl) hapart
  rw [Array.foldl_toList, Array.foldl_toList] at hfold
  unfold Guard.compact Merger.compact
  simp only [hfold]

theorem slots_lt (h : m.Coherent fun _ => False) :
    (m.liveCursors.all fun c => c.slot < m.arena.size) = true := by
  refine List.all_eq_true.mpr fun c hc => decide_eq_true ?_
  obtain ⟨c?, hmem, hc⟩ := List.mem_filterMap.mp hc
  obtain ⟨j, hj⟩ := List.mem_iff_getElem?.mp hmem
  rw [Array.getElem?_toList, show c? = some c from hc] at hj
  exact (h.lodged.points hj).slot_lt

theorem nextChunk_agree (g : Guard) (h : m.Coherent fun _ => False) (maxRows : Nat)
    (w : Workspace) :
    Agree Eq (Merger.nextChunk maxRows).run (g.nextChunk maxRows).run (m, w) (m, w) := by
  unfold Guard.nextChunk Merger.nextChunk
  refine agree_bind (pick_agree g (max maxRows 1) #[] w h)
    (pick_coherent SortedRun.Restored.any _ #[] w h (.any m) (by simp)) fun picked t ht => ?_
  obtain ⟨⟨hcoherent, -⟩, hpicked, -⟩ := ht
  split
  · exact agree_refl
  · refine agree_check ?_ (.work_get_layer ?_)
    · exact Array.all_eq_true_iff_forall_mem.mpr fun row hrow =>
        decide_eq_true (hpicked row hrow).slot_lt
    · rcases t.1.order.copyRows t.1.arena picked with e | batch
      · exact agree_refl
      · simp only [pure_bind]
        refine agree_check (slots_lt hcoherent) (agree_modify ?_)
        rw [g.compact_eq (hcoherent.of_rowsLeft _)]
        exact agree_refl

theorem eq_of_agree {τ α : Type} {x y : StateT τ Action α} {t : τ}
    (h : ∀ w, Agree Eq x y (t, w) (t, w)) : y.run t = x.run t := by
  funext w
  obtain ⟨ha, hs⟩ := h w
  obtain ⟨ht, hw⟩ := Prod.ext_iff.mp hs
  exact Prod.ext (Prod.ext ha ht.symm) hw.symm

theorem ofGroups_eq (g : Guard) (order : RowOrder) (tracker : Memory.TrackerId)
    (groups : List SortedGroup) :
    g.ofGroups order tracker groups = Merger.ofGroups order tracker groups := by
  have hload : (g.loadAll groups.length 0).run.run (unloaded order tracker groups) =
      (Merger.loadAll groups.length 0).run.run (unloaded order tracker groups) :=
    eq_of_agree fun w => g.loadAll_agree groups.length 0 w (unloaded_coherent order tracker groups)
      (fun j _ => cursor?_unloaded order tracker groups j) (by simp [unloaded])
  unfold Guard.ofGroups Merger.ofGroups
  unfold unloaded at hload
  dsimp only
  generalize (g.loadAll groups.length 0).run.run _ = loaded at hload ⊢
  subst hload
  rfl

theorem nextChunk_eq (g : Guard) (h : m.Coherent fun _ => False) (maxRows : Nat) :
    (g.nextChunk maxRows).run.run m = (Merger.nextChunk maxRows).run.run m :=
  eq_of_agree fun w => g.nextChunk_agree h maxRows w

end Guard

/-! ## Whole merges -/

/-- The mergers that a merge of groups comes to, call after call, whether these succeed or not and
whatever the workspace is at each of them. -/
inductive Reached (order : RowOrder) (tracker : Memory.TrackerId) (groups : List SortedGroup) :
    Merger → Prop
  | start {m : Merger} {w v : Workspace}
      (h : Stateful.outcome (ofGroups order tracker groups).run w = (.ok m, v)) :
      Reached order tracker groups m
  | call {m m' : Merger} {w v : Workspace} {r : Except Failure (Option Chunk)} {maxRows : Nat}
      (h : Reached order tracker groups m)
      (hc : Stateful.outcome (nextChunk maxRows).run (m, w) = (r, m', v)) :
      Reached order tracker groups m'

theorem Reached.coherent (hP : SortedRun.Restored P) {order : RowOrder}
    {tracker : Memory.TrackerId} {groups : List SortedGroup} (hg : ∀ g ∈ groups, g.Head P)
    (h : Reached order tracker groups m) : (m.Coherent fun _ => False) ∧ m.Runs P := by
  induction h with
  | @start m w v h =>
    have hs := ofGroups_settled hP order tracker hg w
    unfold Gives Ensures at hs
    rw [h] at hs
    exact ⟨hs.1.toCoherent, hs.2⟩
  | @call m m' w v r maxRows _ hc ih =>
    have hs := nextChunk_settled hP ih.1 ih.2 maxRows w
    unfold Gives Ensures at hs
    rw [hc] at hs
    cases r with
    | ok chunk? => exact ⟨hs.1.toCoherent, hs.2⟩
    | error e => exact hs

/-- Cursors, frontier and arena always fit together. Once a merge was started, and after each call
that succeeds, there is one candidate for each loaded run and none besides, with the keys of its
next row, and the arena has one batch for each loaded run and none besides, at a slot of its own. On
the way an alarm, whatever it does, is never raised: no run is read while its group has one loaded,
each candidate taken is that of a loaded run, the rows copied are in batches of the arena, and no
batch is taken out of it twice. These rows are there unless a run came with a selection of rows that
its batch has not. -/
theorem cursors_exact (order : RowOrder) (tracker : Memory.TrackerId) (groups : List SortedGroup)
    (guard : Guard) :
    (∀ w, Gives (ofGroups order tracker groups) (fun m _ => m.Settled) (fun _ _ => True) w) ∧
      guard.ofGroups order tracker groups = ofGroups order tracker groups ∧
      ∀ m, Reached order tracker groups m → ∀ maxRows,
        (guard.nextChunk maxRows).run.run m = (nextChunk maxRows).run.run m ∧
        ∀ w, Gives (nextChunk maxRows) (fun _ s => s.1.Settled)
            (fun _ s => s.1.Coherent fun _ => False) (m, w) ∧
          ((∀ g ∈ groups, g.Head SortedRun.InBatch) →
            Gives (pick (max maxRows 1) #[])
              (fun picked s => ∀ row ∈ picked, Batch.holds s.1.arena row) (fun _ _ => True)
              (m, w)) := by
  have hany : ∀ g ∈ groups, g.Head fun _ => True := fun _ _ _ _ => trivial
  refine ⟨fun w => ?_, guard.ofGroups_eq order tracker groups, fun m hm maxRows => ?_⟩
  · exact (ofGroups_settled .any order tracker hany w).mono (fun _ _ hs => hs.1) fun _ _ hs => hs
  · obtain ⟨hcoherent, -⟩ := hm.coherent .any hany
    refine ⟨guard.nextChunk_eq hcoherent maxRows, fun w => ⟨?_, fun hg => ?_⟩⟩
    · exact (nextChunk_settled .any hcoherent (.any m) maxRows w).mono (fun _ _ hs => hs.1)
        fun _ _ hs => hs.1
    · have hP : SortedRun.Restored SortedRun.InBatch := fun _ =>
        SortedRun.inBatch_of_selection?_eq_none
      refine (pick_coherent hP (max maxRows 1) #[] w hcoherent (hm.coherent hP hg).2 (by simp)).mono
        (fun picked s hs row hrow => ?_) fun _ _ _ => trivial
      exact (hs.2.1 row hrow).holds

end Merger

namespace Sample

/-- Two groups in memory, one of which has a row left when the other one has none. -/
def twoGroups : List SortedGroup :=
  [.resident (runOf [4, 2] #[1, 0]), .resident (runOf [1, 3] #[0, 1])]

/-- An alarm ends the merge. -/
def strictGuard : Merger.Guard := ⟨throw (.column .outOfRange), default⟩

end Sample

/-- A merge whose first chunk is made of a whole run and the first row of another one. -/
theorem Merger.cursors_exact_two_groups :
    (∀ g ∈ Sample.twoGroups, g.Head SortedRun.InBatch) ∧
      Gives (ofGroups Sample.ascending 0 Sample.twoGroups)
        (fun m v => m.Settled ∧ m.arena.size = 2 ∧
          (Sample.strictGuard.nextChunk 3).run.run m = (nextChunk 3).run.run m ∧
          Gives (pick 3 #[]) (fun picked s => ∀ row ∈ picked, Batch.holds s.1.arena row)
            (fun _ _ => True) (m, v) ∧
          Gives (nextChunk 3) (fun _ s => s.1.Settled ∧ s.1.arena.size = 1) (fun _ _ => False)
            (m, v))
        (fun _ _ => False) Spill.Sample.workspace := by
  have hheads : ∀ g ∈ Sample.twoGroups, g.Head SortedRun.InBatch := by
    intro g hg run hrun
    simp only [Sample.twoGroups, List.mem_cons, List.not_mem_nil, or_false] at hg
    rcases hg with rfl | rfl
    · obtain rfl := Option.some.inj hrun
      unfold SortedRun.InBatch
      decide
    · obtain rfl := Option.some.inj hrun
      unfold SortedRun.InBatch
      decide
  have hsizes : Gives (ofGroups Sample.ascending 0 Sample.twoGroups)
      (fun m v => m.arena.size = 2 ∧ Gives (nextChunk 3) (fun _ s => s.1.arena.size = 1)
        (fun _ _ => False) (m, v)) (fun _ _ => False) Spill.Sample.workspace := by
    decide +kernel
  obtain ⟨hstart, -, hcalls⟩ :=
    cursors_exact Sample.ascending 0 Sample.twoGroups Sample.strictGuard
  refine ⟨hheads, ((hstart _).and (hsizes.and .of_outcome)).mono (fun m v hm => ?_)
    fun _ _ hf => hf.2.1⟩
  obtain ⟨hsettled, ⟨hsize, hnext⟩, hreached⟩ := hm
  obtain ⟨hguard, hcall⟩ := hcalls m (.start hreached) 3
  obtain ⟨hsettles, hpick⟩ := hcall v
  exact ⟨hsettled, hsize, hguard, hpick hheads,
    (hsettles.and hnext).mono (fun _ _ hs => hs) fun _ _ hf => hf.2⟩

end SpillSort
