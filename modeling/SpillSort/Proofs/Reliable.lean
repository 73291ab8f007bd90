import SpillSort.Proofs.Mergers
import SpillSort.Proofs.RoundTrip

/-!
# Merges that do not fail

A merge fails only if a group cannot be read. Groups in memory can always be read; groups on disk
can, if nothing is in the way and their files are as they were finished.

* `Reliable` says of a kind of groups that reading them does not fail and leaves the disk alone. The
  groups in memory are one (`reliable_unspilled`), `SortedGroup.Sound` ones another (`reliable_sound`).
* `Merger.ofGroups_reliable` starts a merge of such groups, `Merger.nextChunk_reliable` goes on.
-/

namespace SpillSort

open Memory Spill

variable {E : Surroundings} {w : Workspace} {R S : Resources} {order : RowOrder}
  {kind : RowOrder → Disk → SortedGroup → Prop}

/-- A kind of groups on a disk. Their next run can always be read; they stay of the kind, and the disk
as it is. -/
structure Reliable (kind : RowOrder → Disk → SortedGroup → Prop) : Prop where
  nextRun : ∀ {order : RowOrder} {g : SortedGroup} {w : Workspace}, kind order w.disk g →
    ∀ tracker, Ensures (g.nextRun order tracker)
      (fun r v => (∃ run?, r.1 = .ok run?) ∧ kind order w.disk r.2 ∧ v.disk = w.disk) w

/-! ## Groups in memory -/

/-- A group in memory hands out its run, and nothing can go wrong. -/
theorem reliable_unspilled : Reliable fun _ _ g => g.spilled? = none := by
  refine ⟨fun {order g w} hg tracker => ?_⟩
  have hdisk : ∀ {g : SortedGroup} {v : Workspace}, g.spilled? = none →
      Ensures (g.nextSpilled order tracker)
        (fun r u => (∃ run?, r.1 = .ok run?) ∧ r.2.spilled? = none ∧ u.disk = v.disk) v := by
    intro g v hg
    refine SortedGroup.ensures_nextSpilled (fun _ => ⟨⟨none, rfl⟩, hg, rfl⟩) (fun s r hs _ => ?_)
      fun s hs _ => ?_
    · cases hg.symm.trans hs
    · cases hg.symm.trans hs
  refine SortedGroup.ensures_nextRun (fun _ => hdisk hg) (fun run _ _ => ?_)
    fun run _ _ => ⟨⟨some run, rfl⟩, hg, rfl⟩
  have hdrop : Ensures run.drop (fun _ v => v.disk = w.disk) w := rfl
  refine hdrop.mono fun _ v hv => ?_
  rw [← hv]
  exact hdisk hg

/-! ## Groups on disk -/

/-- The reader stands before messages of batches of a schema, which can be read. -/
def Spill.Reader.Sound (schema : Schema) (disk : Disk) (r : Reader) : Prop :=
  ∃ bytes codec offset bs, disk.read r.node = .ok bytes ∧ r.pending = entriesFrom codec offset bs ∧
    Stored codec bytes offset bs ∧ r.schema = schema ∧ ∀ b ∈ bs, b.schema = schema

/-- The file lies where it was finished, with batches of its schema, not more than it can count. -/
def Spill.SpillFile.Sound (schema : Schema) (disk : Disk) (f : SpillFile) : Prop :=
  ∃ (wr : Writer) (bs : List Batch) (node : Node), disk.openFile f.path = .ok node ∧
    disk.read node = .ok wr.image ∧ wr.Holds bs ∧ bs.length < 2 ^ 32 ∧ wr.schema = f.schema ∧
    f.schema = schema ∧ ∀ b ∈ bs, b.schema = schema

/-- A file that was written is sound. -/
theorem Spill.Writer.writeAll_sound {schema : Schema} {bs : List Batch}
    (hw : w.disk.troubles = []) {c : ContentId} {d : Disk}
    (hd : w.disk.createFile w.nextPath = .ok (c, d)) (hrows : ∀ b ∈ bs, b.rows ≤ mostRows)
    (hfits : headerLength + (messagesOf w.spiller.codec bs).length < farthestSeek)
    (hcount : bs.length < 2 ^ 32) (hbs : ∀ b ∈ bs, b.schema = schema) :
    Gives (writeAll schema bs) (fun f v => f.Sound schema v.disk ∧ v.disk.troubles = [])
      (fun _ _ => False) w := by
  refine (writeAll_gives hw hd hrows hfits).mono ?_ fun _ _ hf => hf
  rintro f v ⟨wr, hwr, hschema, -, rfl, hserves⟩
  obtain ⟨node, hopen, hread⟩ := hserves.found
  exact ⟨⟨wr, bs, node, hopen, hread, hwr, hcount, rfl, hschema, hbs⟩, hserves.untroubled⟩

/-- The group has nothing on disk, or the disk gives back all of it. -/
def SortedGroup.Sound (order : RowOrder) (disk : Disk) (g : SortedGroup) : Prop :=
  ∀ s ∈ g.spilled?, disk.troubles = [] ∧
    match s.reader? with
    | none => s.file.Sound order.schema disk
    | some r => r.Sound order.schema disk

namespace SortedGroup

theorem restore_sound {b : Batch} (hs : b.schema = order.schema) (tracker : TrackerId) :
    Gives (restore order tracker b) (fun _ v => v.disk = w.disk) (fun _ _ => False) w := by
  obtain ⟨keys, hkeys⟩ := order.encode_eq hs
  have hcount : Ensures (Workspace.count ["Spill"] "RestoreRows" (·.add (Int64.ofNat b.rows)))
      (fun _ v => v.disk = w.disk) w := rfl
  refine gives_restore hcount (fun _ v hv _ => ?_) fun e v _ he => ?_
  · have hchunk : Ensures (Workspace.withLedger (Chunk.tracked b tracker))
        (fun _ u => u.disk = v.disk) v := rfl
    refine hchunk.mono fun chunk u hu => ?_
    exact hu.trans hv
  · cases hkeys.symm.trans he

theorem restoreNext_sound (tracker : TrackerId) {r : Reader} (hw : w.disk.troubles = [])
    (hr : r.Sound order.schema w.disk) :
    Ensures (restoreNext order tracker r.pending r)
      (fun a v => (∃ run?, a.1 = .ok run?) ∧ a.2.Sound order.schema w.disk ∧ v.disk = w.disk) w := by
  obtain ⟨bytes, codec, offset, bs, hread, hpending, hstored, hschema, hschemas⟩ := hr
  induction bs generalizing r offset w with
  | nil =>
    rw [hpending]
    exact Ensures.pure_iff.mpr ⟨⟨none, rfl⟩,
      ⟨bytes, codec, offset, [], hread, hpending, hstored, hschema, hschemas⟩, rfl⟩
  | cons b bs ih =>
    obtain ⟨hb, hbs⟩ := List.forall_mem_cons.mp hschemas
    rw [hpending]
    unfold entriesFrom
    refine ensures_restoreNext_cons (R := fun _ v => v.disk = w.disk) ?_ (fun run v hv _ => ?_)
      fun run v hv _ => ?_
    · refine (Reader.batchAt_gives hw hread hstored (hb.trans hschema.symm)).mono ?_
        fun _ _ hf => hf.elim
      rintro b' v ⟨rfl, rfl⟩
      have hb : (reread b).schema = order.schema := hb
      exact (restore_sound hb tracker).mono (fun _ _ hv => hv) fun _ _ hf => hf.elim
    · have hdrop : Ensures run.drop (fun _ u => u.disk = v.disk) v := rfl
      refine hdrop.mono fun _ u hu => ?_
      have hu : u.disk = w.disk := hu.trans hv
      rw [← hu] at hw hread ⊢
      exact ih (r := r.advance _) hw _ hread rfl hstored.tail hschema hbs
    · exact ⟨⟨_, rfl⟩, ⟨bytes, codec, _, bs, hread, rfl, hstored.tail, hschema, hbs⟩, hv⟩

theorem Sound.nextSpilled {g : SortedGroup} (h : g.Sound order w.disk) (tracker : TrackerId) :
    Ensures (g.nextSpilled order tracker)
      (fun a v => (∃ run?, a.1 = .ok run?) ∧ a.2.Sound order w.disk ∧ v.disk = w.disk) w := by
  have hread : ∀ {s : SpilledRuns} {r : Reader}, w.disk.troubles = [] →
      r.Sound order.schema w.disk → Ensures (restoreNext order tracker r.pending r) (fun a v =>
        (∃ run?, a.1 = .ok run?) ∧ SortedGroup.Sound order w.disk
          { g with spilled? := some { s with reader? := some a.2 } } ∧ v.disk = w.disk) w := by
    intro s r hw hr
    refine (restoreNext_sound tracker hw hr).mono fun a v ha => ⟨ha.1, fun s' hs' => ?_, ha.2.2⟩
    obtain rfl := Option.some.inj hs'
    exact ⟨hw, ha.2.1⟩
  refine ensures_nextSpilled (fun _ => ⟨⟨none, rfl⟩, h, rfl⟩) (fun s r hs hreader => ?_)
    fun s hs hreader => ?_
  · obtain ⟨hw, hfile⟩ := h s hs
    rw [hreader] at hfile
    exact hread hw hfile
  · obtain ⟨hw, hfile⟩ := h s hs
    rw [hreader] at hfile
    obtain ⟨wr, bs, node, hopen, hbytes, hholds, hcount, hwr, hschema, hbs⟩ := hfile
    have hserves : w.Serves s.file.path wr.image := ⟨hw, node, hopen, hbytes⟩
    rw [← hwr]
    refine (Reader.open_gives hserves hholds hcount).mono ?_ fun _ _ hf => hf.elim
    rintro r v ⟨rfl, hr, hpending, hread'⟩
    refine hread hw ⟨wr.image, wr.codec, headerLength, bs, hread', hpending, ?_, ?_, hbs⟩
    · exact ⟨⟨wr.header.encode, _, Header.length_encode _, Reader.finished_parts hholds⟩,
        hholds.written ▸ hholds.inFile, hholds.counted⟩
    · rw [hr, hwr, hschema]

end SortedGroup

/-- Groups that the disk gives back can be read. -/
theorem reliable_sound : Reliable fun order disk g => g.Sound order disk := by
  refine ⟨fun {order g w} h tracker => ?_⟩
  have hrest : SortedGroup.Sound order w.disk { g with head? := none } := h
  refine SortedGroup.ensures_nextRun (fun _ => h.nextSpilled tracker) (fun run _ _ => ?_)
    fun run _ _ => ⟨⟨some run, rfl⟩, hrest, rfl⟩
  have hdrop : Ensures run.drop (fun _ u => u.disk = w.disk) w := rfl
  refine hdrop.mono fun _ v hv => ?_
  rw [← hv] at hrest ⊢
  exact hrest.nextSpilled tracker

/-! ## Merges -/

namespace Merger

variable {m : Merger} {s : Merger × Workspace} {xs : List Source}

/-- All groups of a merge are of a kind. -/
def Draws (kind : RowOrder → Disk → SortedGroup → Prop) (disk : Disk) (m : Merger) : Prop :=
  ∀ g ∈ m.groups, kind m.order disk g

/-- Loading the next run of a group succeeds. -/
theorem load_reliable (hkind : Reliable kind) (h : s.1.Draws kind s.2.disk) (source : Nat) :
    Gives (load source) (fun _ t => t.1.Draws kind s.2.disk ∧ t.2.disk = s.2.disk)
      (fun _ _ => False) s := by
  obtain ⟨m, w⟩ := s
  refine gives_load (fun _ => ⟨h, rfl⟩) fun g hg => ?_
  have hg := h g (Array.mem_of_getElem? hg)
  have hdrop : Ensures (Workspace.dropAll (((m.cursor? source).map fun c => c.run.charges).getD []))
      (fun _ v => v.disk = w.disk) w := rfl
  refine hdrop.mono fun _ v hv => ?_
  have hg : kind m.order v.disk g := hv ▸ hg
  refine (hkind.nextRun hg m.tracker).mono fun r u hr => ?_
  obtain ⟨⟨run?, hrun⟩, hrest, hu⟩ := hr
  have hset : ((m.retire source).setGroup source r.2).Draws kind w.disk := by
    intro g' hg'
    rcases Array.mem_or_eq_of_mem_setIfInBounds hg' with hm | rfl
    · exact h g' hm
    · exact hv ▸ hrest
  rw [Loading, hrun]
  cases run? with
  | none => exact ⟨hset, hu.trans hv⟩
  | some run => exact ⟨hset, hu.trans hv⟩

/-- What stays when a merge loads runs. -/
theorem Draws.trans_gives {α : Type} {x : MergeWork α} {t : Merger × Workspace}
    (ht : t.2.disk = s.2.disk)
    (hx : Gives x (fun _ u => u.1.Draws kind t.2.disk ∧ u.2.disk = t.2.disk) (fun _ _ => False) t) :
    Gives x (fun _ u => u.1.Draws kind s.2.disk ∧ u.2.disk = s.2.disk) (fun _ _ => False) t := by
  rwa [ht] at hx

theorem loadAll_reliable (hkind : Reliable kind) (count : Nat) (h : s.1.Draws kind s.2.disk)
    (source : Nat) :
    Gives (loadAll count source) (fun _ t => t.1.Draws kind s.2.disk ∧ t.2.disk = s.2.disk)
      (fun _ _ => False) s := by
  induction count generalizing s source with
  | zero => exact Gives.pure_iff.mpr ⟨h, rfl⟩
  | succ count ih =>
    refine gives_loadAll_succ ?_
    refine (load_reliable hkind h source).mono (fun _ t ht => ?_) fun _ _ hf => hf
    exact Draws.trans_gives ht.2 (ih (ht.2 ▸ ht.1) _)

/-- A merge of such groups can be started. -/
theorem ofGroups_reliable (hkind : Reliable kind) {groups : List SortedGroup}
    (h : ∀ g ∈ groups, kind order w.disk g) (tracker : TrackerId) :
    Gives (ofGroups order tracker groups) (fun m v => m.Draws kind w.disk ∧ v.disk = w.disk)
      (fun _ _ => False) w := by
  refine gives_ofGroups ((loadAll_reliable hkind _ ?_ 0).mono (fun _ _ ht => ht)
    fun _ _ hf => hf.elim)
  exact fun g hg => h g (List.mem_toArray.mp hg)

theorem pick_reliable (hkind : Reliable kind) (count : Nat) (h : s.1.Draws kind s.2.disk)
    (picked : Array (Nat × Nat)) :
    Gives (pick count picked) (fun _ t => t.1.Draws kind s.2.disk ∧ t.2.disk = s.2.disk)
      (fun _ _ => False) s := by
  induction count generalizing s picked with
  | zero => exact Gives.pure_iff.mpr ⟨h, rfl⟩
  | succ count ih =>
    obtain ⟨m, w⟩ := s
    have htake : ∀ {c? m₁}, m.popCandidate = (c?, m₁) → ∀ source {row? m₂},
        m₁.takeRow source = (row?, m₂) → m₂.Draws kind w.disk := by
      intro c? m₁ hpop source row? m₂ htake
      obtain ⟨cursors, f, rfl⟩ := eq_with_of_takeRow hpop htake
      exact h
    refine gives_pick_succ (fun m₁ hpop => ?_) (fun c m₁ m₂ hpop hrow => ?_)
      (fun c m₁ row m₂ hpop hrow => ?_) fun c m₁ row m₂ hpop hrow => ?_
    · obtain ⟨-, rfl⟩ := popCandidate_eq_none hpop
      exact ⟨h, rfl⟩
    · exact ih (htake hpop _ hrow) picked
    · exact ih (htake hpop _ hrow) _
    · refine (load_reliable (s := (m₂, w)) hkind (htake hpop _ hrow) c.source).mono
        (fun _ t hu => ?_) fun _ _ hf => hf
      exact Draws.trans_gives hu.2 (ih (hu.2 ▸ hu.1) _)

/-- The next chunk of such a merge can always be made, if there are columns. -/
theorem nextChunk_reliable (hkind : Reliable kind) (h : m.Holds order xs (fun _ => False) R)
    (hdraws : m.Draws kind w.disk) (hfields : order.schema.fields ≠ []) (ho : Owns E w (R + S))
    (maxRows : Nat) :
    Gives (nextChunk maxRows)
      (fun c? t => Merged E order S m (max maxRows 1) (Source.merged order xs) c? t ∧
        t.1.Draws kind w.disk ∧ t.2.disk = w.disk)
      (fun _ _ => False) (m, w) := by
  have hmade : Gives (nextChunk maxRows) (fun _ t => t.1.Draws kind w.disk ∧ t.2.disk = w.disk)
      (fun _ _ => False) (m, w) := by
    have hpick := pick_spec (max maxRows 1) #[] h ho
    have hreliable := pick_reliable (s := (m, w)) hkind (max maxRows 1) hdraws #[]
    -- the rows that were picked can be copied
    have hcopies : ∀ {picked : Array (Nat × Nat)} {t : Merger × Workspace},
        Picked E order S m xs (max maxRows 1) #[] picked t → picked ≠ #[] →
        ∃ batch, t.1.order.copyRows t.1.arena picked = .ok batch := by
      intro picked t ht hne
      obtain ⟨new, ys, R', hnew, hheld, -, -, -, ht, -, -⟩ := ht
      rw [List.nil_append] at hnew
      have hheld : ∀ i ∈ picked, Batch.holds t.1.arena i := by
        intro i hi
        exact hheld i (hnew ▸ Array.mem_toList_iff.mpr hi)
      have harena : t.1.arena ≠ #[] := by
        intro hnil
        obtain ⟨i, hi⟩ := Array.exists_mem_of_ne_empty picked hne
        have := hheld i hi
        simp [Batch.holds, hnil] at this
      rw [ht.order_eq]
      exact Batch.gather_eq hfields harena hheld
    refine gives_nextChunk ((hpick.and hreliable).mono (fun _ _ h => h) fun _ _ hf => hf.2)
      (fun t ht => ht.2) (fun picked t batch ht _ _ => ?_) fun picked t e ht hne he => ?_
    · have hchunk : Ensures (Workspace.withLedger (Chunk.tracked batch t.1.tracker))
          (fun _ v => v.disk = t.2.disk) t.2 := rfl
      exact hchunk.mono fun _ v hv => ⟨ht.2.1, hv.trans ht.2.2⟩
    · obtain ⟨batch, hbatch⟩ := hcopies ht.1 hne
      cases hbatch.symm.trans he
  exact ((nextChunk_spec h ho maxRows).and hmade).mono (fun _ _ ht => ht) fun _ _ hf => hf.2

end Merger

end SpillSort
