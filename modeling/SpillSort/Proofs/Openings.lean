import SpillSort.Proofs.Effects
import SpillSort.Proofs.Stakes

/-!
# What merging to disk opens

The work on groups leaves the charges that are there as they are, and the counters of the sort's own
node. What a spill keeps in memory is charged anew.

* `Profile.value?_onPath_below` and `Profile.at?_onPath` say where counting in a profile shows.
* `Workspace.Steady` is what all of this work leaves alone.
* `SortedRun.stakes` are the charges a run answers for, with its bytes; `mergeAndSpill_opens` says
  that those of the new group were opened by the spill.
-/

namespace SpillSort

open Memory Spill

/-! ## Counters -/

theorem lookup_insertKey {α : Type} (k k' : String) (v : α) (xs : List (String × α)) :
    (insertKey k v xs).lookup k' = if k' = k then some v else xs.lookup k' := by
  induction xs with
  | nil =>
    by_cases h : k' = k
    · simp [insertKey, h]
    · simp [insertKey, h, List.lookup_cons, beq_eq_false_iff_ne.mpr h]
  | cons x xs ih =>
    obtain ⟨key, value⟩ := x
    unfold insertKey
    by_cases hk : k = key
    · subst hk
      rw [if_pos rfl, List.lookup_cons, List.lookup_cons]
      by_cases h : k' = k
      · simp [h]
      · simp [h, beq_eq_false_iff_ne.mpr h]
    · rw [if_neg hk]
      split
      · by_cases h : k' = k
        · simp [h]
        · simp [h, List.lookup_cons, beq_eq_false_iff_ne.mpr h]
      · rw [List.lookup_cons, List.lookup_cons, ih]
        by_cases h : k' = k
        · simp [h, beq_eq_false_iff_ne.mpr hk]
        · simp [h]

namespace Profile

variable {p q : Profile} {f : Profile → Profile}

theorem name_onCounter (k : String) (g : Counter → Counter) (p : Profile) :
    (p.onCounter k g).name = p.name := by
  cases p with
  | node n i c cs =>
    simp only [onCounter]
    split <;> rfl

theorem name_addCounter (k : String) (unit : CounterUnit) (p : Profile) :
    (p.addCounter k unit).name = p.name := by
  cases p with
  | node n i c cs =>
    simp only [addCounter]
    split <;> rfl

theorem name_setInfo (k v : String) (p : Profile) : (p.setInfo k v).name = p.name := by
  cases p
  rfl

theorem name_onChild (k : String) (f : Profile → Profile) (p : Profile) :
    (p.onChild k f).name = p.name := by
  cases p
  rfl

theorem name_onPath (hf : ∀ q, (f q).name = q.name) (path : List String) (p : Profile) :
    (p.onPath path f).name = p.name := by
  cases path with
  | nil => exact hf p
  | cons k ks =>
    cases p
    rfl

theorem find_onNamed {k : String} (hf : ∀ q, (f q).name = q.name) (cs : List Profile) :
    (onNamed k f cs).find? (·.name = k) = some (f ((cs.find? (·.name = k)).getD (empty k))) := by
  have hempty : (f (empty k)).name = k := hf _
  induction cs with
  | nil => simp [onNamed, hempty]
  | cons c cs ih =>
    unfold onNamed
    by_cases hc : c.name = k
    · simp [hc, hf]
    · simp [hc, ih]

theorem child?_onChild (hf : ∀ q, (f q).name = q.name) (p : Profile) (k : String) :
    (p.onChild k f).child? k = some (f ((p.child? k).getD (empty k))) := by
  cases p with
  | node n i c cs => exact find_onNamed hf cs

theorem value?_cons (p : Profile) (k : String) (ks : List String) (key : String) :
    p.value? (k :: ks) key = (p.child? k).bind fun c => c.value? ks key := by
  rw [value?, at?]
  cases p.child? k with
  | none => rfl
  | some c => rfl

theorem value?_empty (name : String) (path : List String) (key : String) :
    (empty name).value? path key = none := by
  cases path with
  | nil => rfl
  | cons k ks => rfl

/-- A change further down does not show in the counters of a node. -/
theorem value?_onPath_below (hf : ∀ q, (f q).name = q.name) (path : List String) (k : String)
    (ks : List String) (key : String) (p : Profile) :
    (p.onPath (path ++ k :: ks) f).value? path key = p.value? path key := by
  induction path generalizing p with
  | nil =>
    cases p
    rfl
  | cons n ns ih =>
    rw [value?_cons, value?_cons, List.cons_append, onPath,
      child?_onChild (name_onPath hf _), Option.bind_some, ih]
    cases p.child? n with
    | none => exact value?_empty n ns key
    | some c => rfl

/-- A change of a node that is there shows at its place. -/
theorem at?_onPath (hf : ∀ q, (f q).name = q.name) {path : List String} (h : p.at? path = some q) :
    (p.onPath path f).at? path = some (f q) := by
  induction path generalizing p with
  | nil =>
    obtain rfl : p = q := Option.some.inj h
    rfl
  | cons n ns ih =>
    obtain ⟨c, hc, hq⟩ := Option.bind_eq_some_iff.mp h
    rw [onPath, at?, child?_onChild (name_onPath hf _), hc, Option.bind_some]
    exact ih hq

theorem counter?_onCounter (p : Profile) (k k' : String) (g : Counter → Counter) :
    (p.onCounter k g).counter? k' =
      if k' = k then (p.counter? k).map g else p.counter? k' := by
  cases p with
  | node n i c cs =>
    unfold onCounter counter? counters
    dsimp only
    cases hx : c.lookup k with
    | none =>
      by_cases h : k' = k
      · simp [h, hx]
      · simp [h]
    | some x =>
      simp only [lookup_insertKey]
      by_cases h : k' = k
      · simp [h]
      · simp [h]

/-- Counting at a node that is there. -/
theorem value?_onCounter {path : List String} {k k' : String} {v : Int64}
    (h : p.value? path k' = some v) (g : Counter → Counter) :
    ∃ c : Counter, c.value = v ∧ (p.onPath path fun q => q.onCounter k g).value? path k' =
      some (if k' = k then (g c).value else v) := by
  unfold value? at h
  obtain ⟨c, hc, rfl⟩ := Option.map_eq_some_iff.mp h
  obtain ⟨q, hq, hqc⟩ := Option.bind_eq_some_iff.mp hc
  refine ⟨c, rfl, ?_⟩
  rw [value?, at?_onPath (name_onCounter k g) hq, Option.bind_some, counter?_onCounter]
  by_cases hk : k' = k
  · rw [if_pos hk, if_pos hk, ← hk, hqc]
    rfl
  · rw [if_neg hk, if_neg hk, hqc]
    rfl

end Profile

/-! ## What stays as it is -/

/-- The most bytes that were ever resident, as the sort's node shows them. -/
def Workspace.shownPeak? (w : Workspace) : Option Int64 :=
  w.fragment.profile.value? w.node "PeakResidentBytes"

/-- What most of the work leaves alone of a workspace: the charges that are there, and the counters
of the sort's own node. -/
structure Workspace.Steady (w v : Workspace) : Prop where
  ledger : w.ledger.Steady v.ledger
  node : v.node = w.node
  shownPeak? : v.shownPeak? = w.shownPeak?

instance : IsPreorder Workspace Workspace.Steady where
  refl w := ⟨.refl w.ledger, rfl, rfl⟩
  trans _ _ _ h h' :=
    ⟨h.ledger.trans h'.ledger, h'.node.trans h.node, h'.shownPeak?.trans h.shownPeak?⟩

instance : Workspace.Routine Workspace.Steady where
  drop w c := ⟨w.ledger.drop_steady c, rfl, rfl⟩
  charge w id bytes := ⟨w.ledger.charge_steady id bytes, rfl, rfl⟩
  trouble w := ⟨.refl w.ledger, rfl, rfl⟩
  remove {w _ _} _ := ⟨.refl w.ledger, rfl, rfl⟩
  named w := ⟨.refl w.ledger, rfl, rfl⟩
  look w := ⟨.refl w.ledger, rfl, rfl⟩
  journal w _ := ⟨.refl w.ledger, rfl, rfl⟩
  create {w _ _ _} _ _ := ⟨.refl w.ledger, rfl, rfl⟩
  write w _ _ := ⟨.refl w.ledger, rfl, rfl⟩
  count w k f := ⟨.refl w.ledger, rfl,
    Profile.value?_onPath_below (Profile.name_onCounter k f) w.node "Spill" [] _ _⟩

open Workspace (Steady)

/-! ## What runs answer for -/

/-- The share of its charge that a chunk answers for. -/
def Chunk.stakes (c : Chunk) : List Stake :=
  c.account?.toList.map fun a => (a.charge, a.share c.length)

/-- A chunk without a charge has no bytes. -/
def Chunk.Charged (c : Chunk) : Prop := c.account? = none → c.batch.bytes = 0

/-- What a selection answers for. -/
def RowSelection.stakes (s : RowSelection) : List Stake := s.charge?.toList.map (·, s.bytes)

/-- What a run answers for; keys count as far as they could be charged. -/
def SortedRun.stakes (r : SortedRun) : List Stake :=
  (r.keyCharge, (clampBytes r.keys.bytes).toNatClampNeg) ::
    (((r.selection?.map RowSelection.stakes).getD []) ++ r.chunk.stakes)

/-- All bytes of a run are charged, as far as they could be. -/
structure SortedRun.Charged (r : SortedRun) : Prop where
  chunk : r.chunk.Charged
  selection : ∀ s ∈ r.selection?, s.charge?.isSome

variable {s t : Merger × Workspace} {w : Workspace}

/-- Tracking a batch opens a charge for all its bytes, if it has any. -/
theorem tracked_opens (b : Batch) (tracker : TrackerId) :
    Ensures (Workspace.withLedger (Chunk.tracked b tracker))
      (fun c v => Steady w v ∧ c.Charged ∧ w.ledger.Opens v.ledger tracker c.stakes) w := by
  simp only [Workspace.withLedger, Chunk.tracked, Chunk.transfer, Ensures.modifyGet_iff]
  split
  · next hzero =>
    refine ⟨refl_of Steady w, fun _ => ?_, .nil ..⟩
    by_contra hb
    refine absurd (congrArg Int64.toInt hzero) ?_
    unfold clampBytes
    split
    · next hlt =>
      rw [Int64.toInt_ofNat_of_lt hlt]
      simpa using hb
    · decide
  · refine ⟨Workspace.Modest.charge w tracker _, fun hc => absurd hc (Option.some_ne_none _), ?_⟩
    have hshare : ∀ bytes rows, (Account.mk (w.ledger.charge tracker (clampBytes b.bytes)).1 bytes
        rows).share rows = bytes := fun bytes rows => by simp [Account.share]
    simpa [Chunk.stakes, Chunk.length, hshare] using
      w.ledger.charge_opens tracker (clampBytes b.bytes)

/-- Encoded keys are charged as far as they can be. -/
theorem SortedRun.ofKeys_opens (chunk : Chunk) (keys : EncodedKeys)
    (selection? : Option RowSelection) (tracker : TrackerId) :
    Ensures (ofKeys chunk keys selection? tracker) (fun run v => Steady w v ∧
      run.chunk = chunk ∧ run.keys = keys ∧ run.selection? = selection? ∧
      w.ledger.Opens v.ledger tracker
        [(run.keyCharge, (clampBytes keys.bytes).toNatClampNeg)]) w := by
  have hopens := w.ledger.charge_opens tracker (clampBytes keys.bytes)
  exact ⟨Workspace.Modest.charge w tracker _, rfl, rfl, rfl, hopens⟩

/-! ## Merges -/

namespace Merger

theorem nextChunk_opens (maxRows : Nat) :
    Brings (Below Merger.tracker Steady) Failure.Bare (nextChunk maxRows)
      (fun c? t => ∀ c ∈ c?, c.Charged ∧ s.2.ledger.Opens t.2.ledger s.1.tracker c.stakes) s := by
  refine gives_nextChunk (pick_tries (r := Steady) (s := s) (max maxRows 1) #[]) (fun t ht => ?_)
    (fun picked t batch ht _ _ => ?_) fun _ _ _ ht _ _ => ⟨ht, trivial⟩
  · exact ⟨ht, fun c hc => absurd hc (Option.not_mem_none c)⟩
  · refine (tracked_opens (w := t.2) batch t.1.tracker).mono fun chunk w hc => ?_
    obtain ⟨hsteady, hcharged, hopens⟩ := hc
    refine ⟨⟨ht.1, trans_of Steady ht.2 hsteady⟩, fun d hd => ?_⟩
    obtain rfl := Option.some.inj hd
    rw [ht.1] at hopens
    exact ⟨hcharged, hopens.before ht.2.ledger⟩

theorem ofGroups_tracker (order : RowOrder) (tracker : TrackerId) (groups : List SortedGroup) :
    Brings Steady Failure.Bare (ofGroups order tracker groups) (fun m _ => m.tracker = tracker)
      w := by
  have htracker : Gives (ofGroups order tracker groups) (fun m _ => m.tracker = tracker)
      (fun _ _ => True) w := by
    refine gives_ofGroups (Gives.mono (loadAll_tries (r := Steady) groups.length 0)
      (fun _ t ht => ?_) fun _ _ _ => .of_forall fun _ _ => trivial)
    exact ht.1
  exact Gives.mono ((ofGroups_tries (r := Steady) order tracker groups).and htracker)
    (fun _ _ h => h) fun _ _ h => h.1

end Merger

/-! ## Spills -/

namespace SpillOutcome

theorem writeChunks_opens (schema : Schema) (chunkRows : Nat) :
    Brings (Below Merger.tracker Steady) Failure.Bare (writeChunks schema chunkRows)
      (fun made? t => ∀ made ∈ made?, made.1.Charged ∧
        s.2.ledger.Opens t.2.ledger s.1.tracker made.1.stakes) s := by
  refine gives_writeChunks (Merger.nextChunk_opens chunkRows)
    (fun t ht => ⟨ht.1, fun _ hmade => absurd hmade (Option.not_mem_none _)⟩) fun first t ht => ?_
  obtain ⟨ht, hopens⟩ := ht
  obtain ⟨hcharged, hopens⟩ := hopens first rfl
  -- a failure lets go of the first chunk
  have hdrop : ∀ {e : Failure} {u : Merger × Workspace}, Below Merger.tracker Steady s u → e.Bare →
      Ensures (Workspace.onLedger first.drop)
        (fun _ v => Below Merger.tracker Steady s (u.1, v) ∧ e.Bare) u.2 := fun hu he =>
    (first.drop_moves (r := Steady)).mono fun _ v hv => ⟨⟨hu.1, trans_of Steady hu.2 hv⟩, he⟩
  refine Gives.mono (Writer.create_tries (r := Steady) Failure.bare_io schema) (fun wr v hv => ?_)
    fun e v hv => hdrop (u := (t.1, v)) ⟨ht.1, trans_of Steady ht.2 hv.1⟩ hv.2
  have hsv : Below Merger.tracker Steady s (t.1, v) := ⟨ht.1, trans_of Steady ht.2 hv⟩
  refine Gives.mono (appendChunks_tries (r := Steady) ..) (fun wr' u hu => ?_)
    fun e u hu => hdrop (trans_of _ hsv hu.1) hu.2
  have hsu := trans_of (Below Merger.tracker Steady) hsv hu
  refine Gives.mono (Writer.finish_tries (r := Steady) Failure.bare_io wr') (fun file x hx => ?_)
    fun e x hx => hdrop (u := (u.1, x)) ⟨hsu.1, trans_of Steady hsu.2 hx.1⟩ hx.2
  refine ⟨⟨hsu.1, trans_of Steady hsu.2 hx⟩, fun made hmade => ?_⟩
  obtain rfl := Option.some.inj hmade
  exact ⟨hcharged, hopens.later (trans_of Steady (trans_of Steady hv hu.2) hx).ledger⟩

/-- The head of the new group answers for the first chunk and for its keys. -/
theorem ofFile_opens (order : RowOrder) (tracker : TrackerId) (mergedGroups releasedBytes : Nat)
    (first : Chunk) (file : SpillFile) :
    Brings Steady Failure.Bare (ofFile order tracker mergedGroups releasedBytes first file)
      (fun o v => ∃ head : SortedRun, o.group = .spilled (some head) file ∧
        o.releasedBytes = releasedBytes ∧ o.retainedBytes = head.bytes ∧ head.chunk = first ∧
        head.selection? = none ∧ w.ledger.Opens v.ledger tracker
          [(head.keyCharge, (clampBytes head.keys.bytes).toNatClampNeg)]) w := by
  refine gives_ofFile (fun keys _ => ?_) fun e _ => ?_
  · refine (SortedRun.ofKeys_opens first keys none tracker).mono fun head u hhead => ?_
    obtain ⟨hu, hchunk, hkeys, hselection, hopens⟩ := hhead
    refine (Workspace.Routine.count (r := Steady) ..).mono fun _ v₁ h₁ => ?_
    refine (Workspace.Routine.count (r := Steady) ..).mono fun _ v₂ h₂ => ?_
    refine (Workspace.Routine.count (r := Steady) ..).mono fun _ v₃ h₃ => ?_
    refine (Workspace.note_moves (r := Steady) _).mono fun _ v h₄ => ?_
    have hrest := trans_of Steady (trans_of Steady h₁ h₂) (trans_of Steady h₃ h₄)
    exact ⟨trans_of Steady hu hrest, head, rfl, rfl, rfl, hchunk, hselection,
      hkeys ▸ hopens.later hrest.ledger⟩
  · refine (file.drop_moves (r := Steady)).mono fun _ u hu => ?_
    refine (first.drop_moves (r := Steady)).mono fun _ v hv => ⟨trans_of Steady hu hv, ?_⟩
    exact Failure.bare_keyFault e

end SpillOutcome

/-- What a spill keeps in memory answers for charges that the spill opened. -/
theorem mergeAndSpill_opens (order : RowOrder) (tracker : TrackerId) (chunkRows : Nat)
    (groups : List SortedGroup) :
    Brings Steady Failure.Bare (mergeAndSpill order tracker chunkRows groups)
      (fun o? v => ∀ o ∈ o?, ∃ (head : SortedRun) (file : SpillFile),
        o.group = .spilled (some head) file ∧ o.releasedBytes = SortedGroup.totalBytes groups ∧
        o.retainedBytes = head.bytes ∧ head.Charged ∧
        w.ledger.Opens v.ledger tracker head.stakes) w := by
  refine gives_mergeAndSpill (R := fun made? v => Steady w v ∧ ∀ made ∈ made?, made.1.Charged ∧
      w.ledger.Opens v.ledger tracker made.1.stakes)
    (fun _ => ⟨refl_of Steady w, fun _ ho => absurd ho (Option.not_mem_none _)⟩) (fun _ => ?_)
    (fun v hv => ⟨hv.1, fun o ho => absurd ho (Option.not_mem_none o)⟩) fun first file v hv => ?_
  · refine Gives.mono (Merger.ofGroups_tracker order tracker groups) (fun merger v hv => ?_)
      fun _ _ h => h
    obtain ⟨hv, htracker⟩ := hv
    have hwritten := SpillOutcome.writeChunks_opens order.schema chunkRows (s := (merger, v))
    refine Gives.mono hwritten (fun made? t ht => ?_) fun e t ht => ?_
    · obtain ⟨⟨-, hvt⟩, hmade⟩ := ht
      refine (t.1.drop_moves (r := Steady)).mono fun _ u hu => ?_
      refine ⟨trans_of Steady hv (trans_of Steady hvt hu), fun made hm => ?_⟩
      obtain ⟨hcharged, hopens⟩ := hmade made hm
      exact ⟨hcharged, ((htracker ▸ hopens).before hv.ledger).later hu.ledger⟩
    · obtain ⟨⟨-, hvt⟩, hbare⟩ := ht
      refine (t.1.drop_moves (r := Steady)).mono fun _ u hu => ?_
      exact ⟨trans_of Steady hv (trans_of Steady hvt hu), hbare⟩
  · obtain ⟨hv, hmade⟩ := hv
    obtain ⟨hcharged, hfirst⟩ := hmade _ rfl
    refine Gives.mono (SpillOutcome.ofFile_opens order tracker groups.length _ first file)
      (fun o x hx => ?_) fun _ _ hx => ⟨trans_of Steady hv hx.1, hx.2⟩
    obtain ⟨hvx, head, hgroup, hreleased, hretained, hchunk, hselection, hkeys⟩ := hx
    refine ⟨trans_of Steady hv hvx, fun _ ho => ?_⟩
    obtain rfl := Option.some.inj ho
    have hstakes : head.stakes =
        [(head.keyCharge, (clampBytes head.keys.bytes).toNatClampNeg)] ++ first.stakes := by
      rw [SortedRun.stakes, hselection, hchunk]
      rfl
    refine ⟨head, file, hgroup, hreleased, hretained, ⟨hchunk ▸ hcharged, ?_⟩, ?_⟩
    · rw [hselection]
      exact fun _ hs => absurd hs (Option.not_mem_none _)
    · rw [hstakes]
      exact hfirst.append hv.ledger hvx.ledger hkeys

end SpillSort
