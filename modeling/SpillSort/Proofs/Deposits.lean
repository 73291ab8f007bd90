import SpillSort.Proofs.Restorations
import SpillSort.Sort.Spill

/-!
# Spill files are counted

A spill of groups in memory makes one file or none. It counts the file, its rows and its bytes, and it
restores nothing.

* `Workspace.Writes` says that a file was made with some bytes, and nothing counted.
* `mergeAndSpill_deposits` is about a whole spill.
-/

namespace SpillSort

open Memory Spill
open Workspace (Silent)

variable {w v u : Workspace} {base : Array ByteArray} {t : Tally} {order : RowOrder}

/-! ## Files -/

namespace Workspace

/-- A file was made with these bytes, and nothing was counted. -/
structure Writes (bytes : ByteArray) (w v : Workspace) : Prop where
  profile : v.fragment.profile = w.fragment.profile
  node : v.node = w.node
  contents : v.disk.contents.toList = w.disk.contents.toList ++ [bytes]

theorem Silent.writes {bytes : ByteArray} (h : Silent w v) (h' : Writes bytes v u) :
    Writes bytes w u :=
  ⟨h'.profile.trans h.profile, h'.node.trans h.node, by rw [h'.contents, h.contents]⟩

theorem Writes.silent {bytes : ByteArray} (h : Writes bytes w v) (h' : Silent v u) :
    Writes bytes w u :=
  ⟨h'.profile.trans h.profile, h'.node.trans h.node, by rw [h'.contents, h.contents]⟩

/-- The last of the files is replaced. -/
theorem Writes.write {bytes : ByteArray} (h : Writes bytes w v) (bytes' : ByteArray) :
    Ensures (onDisk fun d => d.write w.disk.contents.size bytes')
      (fun _ u => Writes bytes' w u) v := by
  refine ⟨h.profile, h.node, ?_⟩
  show (v.disk.contents.setIfInBounds w.disk.contents.size bytes').toList = _
  rw [Array.toList_setIfInBounds, h.contents, ← Array.length_toList,
    List.set_append_right _ _ (Nat.le_refl _), Nat.sub_self, List.set_cons_zero]

/-- The start of the last of the files is overwritten. -/
theorem Writes.overwrite {old : ByteArray} (h : Writes old w v) (bytes : ByteArray) :
    Ensures (onDisk fun d => d.overwrite w.disk.contents.size bytes)
      (fun _ u => Writes (bytes ++ old.extract bytes.size old.size) w u) v := by
  have hold : v.disk.contents.getD w.disk.contents.size .empty = old := by
    rw [Array.getD_eq_getD_getElem?, ← Array.getElem?_toList, h.contents, ← Array.length_toList,
      List.getElem?_concat_length]
    rfl
  have hwritten := h.write (bytes ++ old.extract bytes.size old.size)
  show Writes _ w { v with disk := v.disk.overwrite w.disk.contents.size bytes }
  rw [Disk.overwrite, hold]
  exact hwritten

/-- Counts a file: one more, with its rows and its bytes. -/
def countFile (d : Deposit) : Action Unit := do
  count ["Spill"] "SpillCount" (·.add 1)
  count ["Spill"] "SpillRows" (·.add (clampBytes d.rows))
  count ["Spill"] "SpillBytes" (·.add (clampBytes d.size))

/-- The file that was made last is counted. -/
theorem Shows.deposit {d : Deposit} (h : w.Shows base t) (hw : Writes d.bytes w v) :
    Ensures (countFile d) (fun _ u => u.Shows base { t with deposits := t.deposits ++ [d] }) v := by
  have hbefore : ∀ {path : List String} {k : String} {x : Int64}, w.counted? path k = some x →
      v.counted? path k = some x := by
    intro path k x hx
    rw [← hx, Workspace.counted?, Workspace.counted?, hw.profile, hw.node]
  -- what the file does not count for
  have hother : ∀ {path : List String} {k : String} {x : Int64}, path ≠ ["Spill"] ∨
      k ≠ "SpillCount" ∧ k ≠ "SpillRows" ∧ k ≠ "SpillBytes" → v.counted? path k = some x →
      Ensures (countFile d) (fun _ u => u.counted? path k = some x) v := by
    intro path k x hne hx
    unfold countFile
    simp only [Ensures.bind_iff]
    refine (count_counted_ne _ (by tauto) hx).mono fun _ _ hx => ?_
    refine (count_counted_ne _ (by tauto) hx).mono fun _ _ hx => ?_
    exact count_counted_ne _ (by tauto) hx
  have hcount : Ensures (countFile d) (fun _ u => u.counted? ["Spill"] "SpillCount" =
      some (Int64.ofNat t.deposits.length + 1)) v := by
    unfold countFile
    simp only [Ensures.bind_iff]
    refine (count_counted_add 1 (hbefore h.spillCount)).mono fun _ _ hx => ?_
    refine (count_counted_ne _ (by simp) hx).mono fun _ _ hx => ?_
    exact count_counted_ne _ (by simp) hx
  have hrows : Ensures (countFile d) (fun _ u => u.counted? ["Spill"] "SpillRows" =
      some (words (t.deposits.map Deposit.rows) + clampBytes d.rows)) v := by
    unfold countFile
    simp only [Ensures.bind_iff]
    refine (count_counted_ne _ (by simp) (hbefore h.spillRows)).mono fun _ _ hx => ?_
    refine (count_counted_add _ hx).mono fun _ _ hx => ?_
    exact count_counted_ne _ (by simp) hx
  have hbytes : Ensures (countFile d) (fun _ u => u.counted? ["Spill"] "SpillBytes" =
      some (words (t.deposits.map Deposit.size) + clampBytes d.size)) v := by
    unfold countFile
    simp only [Ensures.bind_iff]
    refine (count_counted_ne _ (by simp) (hbefore h.spillBytes)).mono fun _ _ hx => ?_
    refine (count_counted_ne _ (by simp) hx).mono fun _ _ hx => ?_
    exact count_counted_add _ hx
  refine ⟨?_, hother (by simp) (hbefore h.sortRows), ?_, ?_, ?_,
    hother (by simp) (hbefore h.restoreRows)⟩
  · show v.disk.contents.toList = _
    rw [hw.contents, h.contents, List.map_append, List.append_assoc]
    rfl
  · rw [List.length_append, List.length_singleton, Int64.ofNat_add]
    exact hcount
  · rw [List.map_append, List.map_singleton, words_append]
    exact hrows
  · rw [List.map_append, List.map_singleton, words_append]
    exact hbytes

end Workspace

/-! ## Writing -/

namespace Spill

open Workspace

/-- A new file is empty, and comes after all others. -/
theorem Disk.contents_createFile {d d' : Disk} {path : String} {c : ContentId}
    (h : d.createFile path = .ok (c, d')) :
    c = d.contents.size ∧ d'.contents.toList = d.contents.toList ++ [.empty] := by
  unfold createFile at h
  simp only [bind, Except.bind] at h
  rcases hf : d.find (.ofPath path) with e | ⟨p, _ | n⟩
  · simp [hf] at h
  · simp only [hf, pure, Except.pure, Except.ok.injEq, Prod.mk.injEq] at h
    obtain ⟨rfl, rfl⟩ := h
    exact ⟨rfl, Array.toList_push⟩
  · simp [hf, throw, throwThe, MonadExceptOf.throw] at h

namespace Writer

/-- A file that was begun is empty, and comes after all others. -/
theorem create_writes (schema : Schema) :
    Gives (create schema)
      (fun wr v => wr.Holds [] ∧ wr.content = w.disk.contents.size ∧ Writes .empty w v)
      (fun _ _ => True) w := by
  have hholds := create_spec (Owns.nothing w) schema
  have hplace : Gives (create schema) (fun wr v => wr.content = w.disk.contents.size ∧
      Writes .empty w v) (fun _ _ => True) w := by
    refine gives_create ((nextSpillPath_moves (r := Silent)).mono fun path v hv => ?_)
    refine Gives.mono (Work.brace_tries (r := Silent) (p := fun _ => True) (fun _ _ => trivial) _)
      (fun _ u hu => ?_) fun _ _ _ => trivial
    have hu := trans_of Silent hv hu
    split
    · trivial
    · next content disk hc =>
      obtain ⟨hcontent, hcontents⟩ := Disk.contents_createFile hc
      rw [hu.contents] at hcontent hcontents
      have hmade : Writes .empty w { u with disk } := ⟨hu.profile, hu.node, hcontents⟩
      refine Ensures.modify_iff.mpr (Gives.mono (Work.brace_tries (r := Silent)
        (p := fun _ => True) (fun _ _ => trivial) _) (fun _ _ hx => ?_) fun _ _ _ => ?_)
      · exact ⟨hcontent, hmade.silent hx⟩
      · exact .of_forall fun _ _ => trivial
  exact (hholds.and hplace).mono (fun _ _ h => ⟨h.1.1, h.2⟩) fun _ _ _ => trivial

/-- What a file takes in is not on the disk before it is finished. -/
theorem append_silent {wr : Writer} {bs : List Batch} (h : wr.Holds bs) (b : Batch) :
    Gives (wr.append b)
      (fun wr' v => wr'.Holds (bs ++ [b]) ∧ wr'.content = wr.content ∧ Silent w v)
      (fun _ _ => True) w := by
  have htries := append_tries (r := Silent) (p := fun _ => True) (w := w) (fun _ _ => trivial) wr b
    fun _ => trivial
  refine ((append_spec (Owns.nothing w) h b).and htries).mono (fun wr' v hv => ?_) fun _ _ _ => trivial
  exact ⟨hv.1.1, congrArg HeldFile.content hv.1.2.1, hv.2⟩

theorem writeOut_writes {wr : Writer} (hw : Writes .empty w v)
    (hc : wr.content = w.disk.contents.size) :
    Gives wr.writeOut (fun _ u => Writes wr.image w u) (fun _ _ => True) v := by
  have hbrace : ∀ (context : String) (v : Workspace),
      Gives (Work.brace context) (fun _ u => Silent v u) (fun _ _ => True) v := fun context v =>
    Gives.mono (Work.brace_tries (r := Silent) (p := fun _ => True) (fun _ _ => trivial) context)
      (fun _ _ hu => hu) fun _ _ _ => trivial
  refine gives_writeOut ((hbrace _ v).mono (fun _ u hu => ?_) fun _ _ he => he)
  have hw := hw.silent hu
  refine (hbrace _ u).mono (fun _ u hu => ?_) fun _ _ he => he
  rw [hc]
  refine ((hw.silent hu).write _).mono fun _ u hw => ?_
  refine (hbrace _ u).mono (fun _ u hu => ?_) fun _ _ he => he
  have hw := hw.silent hu
  refine (hbrace _ u).mono (fun _ u hu => ?_) fun _ _ he => he
  refine ((hw.silent hu).overwrite _).mono fun _ u hw => ?_
  rw [overwrite_gathered] at hw
  exact hw

/-- Finishing writes all of the file that was begun last. -/
theorem finish_writes {wr : Writer} {bs : List Batch} (h : wr.Holds bs)
    (hw : Writes .empty w v) (hc : wr.content = w.disk.contents.size) :
    Gives wr.finish
      (fun file u => ∃ d : Deposit, file.rows = d.rows ∧ file.bytes = d.size ∧ Writes d.bytes w u)
      (fun _ _ => True) v := by
  refine gives_finish ((writeOut_writes hw hc).mono (fun _ x hx => ?_) fun _ _ _ =>
    .of_forall fun _ _ => trivial)
  refine (note_moves (r := Silent) _).mono fun _ y hy => ?_
  exact ⟨⟨wr.image, bs, wr, h, rfl⟩, h.rows, h.size_image.symm, hx.silent hy⟩

end Writer

end Spill

namespace SpillOutcome

open Workspace

variable {m : Merger} {s : Merger × Workspace}

/-- The chunks of a merge in memory go to the file, which is not on the disk yet. -/
theorem appendChunks_silent (chunkRows : Nat) :
    ∀ (count : Nat) {s : Merger × Workspace} {wr : Writer} {bs : List Batch}, s.1.Sound →
      s.1.Unspilled → wr.Holds bs →
      Gives (appendChunks chunkRows count wr)
        (fun wr' t => (∃ cs, wr'.Holds (bs ++ cs)) ∧ wr'.content = wr.content ∧ Silent s.2 t.2)
        (fun _ _ => True) s
  | 0, s, wr, bs, _, _, hw => by
    unfold appendChunks
    exact Gives.pure_iff.mpr ⟨⟨[], by rwa [List.append_nil]⟩, rfl, refl_of Silent s.2⟩
  | count + 1, s, wr, bs, h, hu, hw => by
    refine gives_appendChunks_succ ((Merger.nextChunk_restores chunkRows h).mono (fun _ _ ht => ht)
      fun _ _ _ => .of_forall fun _ _ => trivial) (fun t ht => ?_) fun chunk t ht => ?_
    · obtain ⟨rows, ht, -, -⟩ := ht
      exact ⟨⟨[], by rwa [List.append_nil]⟩, rfl, (ht.unspilled hu).2⟩
    · obtain ⟨rows, ht, -, -⟩ := ht
      obtain ⟨hunspilled, hsilent⟩ := ht.unspilled hu
      obtain ⟨m, v⟩ := t
      refine (cancelled_moves (r := Silent)).mono fun b u hcancelled => ?_
      split
      · exact .of_forall fun _ _ => .of_forall fun _ _ => trivial
      · refine (Writer.append_silent hw chunk.batch).mono (fun wr' x hx => ?_)
          fun _ _ _ => .of_forall fun _ _ => .of_forall fun _ _ => trivial
        obtain ⟨hw', hcontent, hx⟩ := hx
        refine (chunk.drop_moves (r := Silent)).mono fun _ y hy => ?_
        refine (appendChunks_silent chunkRows count (s := (m, y)) ht.sound hunspilled hw').mono
          (fun wr'' z hz => ?_) fun _ _ _ => trivial
        obtain ⟨⟨cs, hw''⟩, hcontent', hz⟩ := hz
        rw [List.append_assoc] at hw''
        have hall := trans_of Silent hsilent (trans_of Silent hcancelled (trans_of Silent hx hy))
        exact ⟨⟨_, hw''⟩, hcontent'.trans hcontent, trans_of Silent hall hz⟩

/-- What comes of writing the chunks of a merge in memory: a file that is still to be counted, or
nothing. -/
def Wrote (w : Workspace) (r? : Option (Chunk × SpillFile)) (v : Workspace) : Prop :=
  match r? with
  | none => Silent w v
  | some r => ∃ d : Deposit, r.2.rows = d.rows ∧ r.2.bytes = d.size ∧ Writes d.bytes w v

theorem writeChunks_wrote (schema : Schema) (chunkRows : Nat) (h : s.1.Sound) (hu : s.1.Unspilled) :
    Gives (writeChunks schema chunkRows) (fun r? t => Wrote s.2 r? t.2) (fun _ _ => True) s := by
  refine gives_writeChunks (Merger.nextChunk_restores chunkRows h) (fun t ht => ?_) fun first t ht => ?_
  · obtain ⟨rows, ht, -, -⟩ := ht
    exact (ht.unspilled hu).2
  obtain ⟨rows, ht, -, -⟩ := ht
  obtain ⟨hunspilled, hsilent⟩ := ht.unspilled hu
  obtain ⟨m, v⟩ := t
  refine (Writer.create_writes schema).mono (fun wr u hwr => ?_)
    fun _ _ _ => .of_forall fun _ _ => trivial
  obtain ⟨hw, hcontent, hwrites⟩ := hwr
  refine (appendChunks_silent chunkRows _ (s := (m, u)) ht.sound hunspilled hw).mono
    (fun wr' x hx => ?_) fun _ _ _ => .of_forall fun _ _ => trivial
  obtain ⟨⟨cs, hw'⟩, hcontent', hx⟩ := hx
  refine (Writer.finish_writes hw' (hwrites.silent hx) (hcontent'.trans hcontent)).mono
    (fun file y hy => ?_) fun _ _ _ => .of_forall fun _ _ => trivial
  obtain ⟨d, hrows, hbytes, hy⟩ := hy
  exact ⟨d, hrows, hbytes, hsilent.writes hy⟩

/-- What a spill counts: one file, which the new group has, or nothing. -/
def Deposited (base : Array ByteArray) (t : Tally) (o? : Option SpillOutcome) (v : Workspace) : Prop :=
  match o? with
  | none => v.Shows base t
  | some o => ∃ d : Deposit, d.In o.group ∧ v.Shows base { t with deposits := t.deposits ++ [d] }

theorem ofFile_deposits {first : Chunk} {file : SpillFile} {d : Deposit} (h : w.Shows base t)
    (hrows : file.rows = d.rows) (hbytes : file.bytes = d.size) (hw : Writes d.bytes w v)
    (tracker : TrackerId) (mergedGroups releasedBytes : Nat) :
    Gives (ofFile order tracker mergedGroups releasedBytes first file)
      (fun o u => Deposited base t (some o) u) (fun _ _ => True) v := by
  refine gives_ofFile (fun keys _ => ?_) fun _ _ => .of_forall fun _ _ => .of_forall fun _ _ => trivial
  refine (SortedRun.ofKeys_moves (r := Silent) first keys none tracker).mono fun head u hu => ?_
  have hcount := h.deposit (hw.silent hu)
  unfold countFile at hcount
  simp only [Ensures.bind_iff] at hcount
  rw [hrows, hbytes]
  refine hcount.mono fun _ _ hx => hx.mono fun _ _ hy => hy.mono fun _ z hz => ?_
  refine (note_moves (r := Silent) _).mono fun _ z' hz' => ?_
  exact ⟨d, ⟨head, file, rfl, hrows, hbytes⟩, hz.silent hz'⟩

end SpillOutcome

/-- A spill of groups in memory counts the file it makes. -/
theorem mergeAndSpill_deposits {groups : List SortedGroup} (h : w.Shows base t)
    (hg : ∀ g ∈ groups, g.spilled? = none) (tracker : TrackerId) (chunkRows : Nat) :
    Gives (mergeAndSpill order tracker chunkRows groups) (SpillOutcome.Deposited base t)
      (fun _ _ => True) w := by
  refine gives_mergeAndSpill (R := SpillOutcome.Wrote w) (fun _ => h) (fun _ => ?_)
    (fun v hv => h.silent hv) fun first file v hv => ?_
  · refine (Merger.ofGroups_restores tracker groups).mono (fun m v hm => ?_) fun _ _ _ => trivial
    obtain ⟨hsound, -, hunspilled⟩ := hm
    obtain ⟨hunspilled, hv⟩ := hunspilled hg
    refine (SpillOutcome.writeChunks_wrote _ _ (s := (m, v)) hsound hunspilled).mono
      (fun r? x hx => ?_) fun _ _ _ => .of_forall fun _ _ => trivial
    refine (x.1.drop_moves (r := Silent)).mono fun _ y hy => ?_
    cases r? with
    | none => exact trans_of Silent hv (trans_of Silent hx hy)
    | some r =>
      obtain ⟨d, hrows, hbytes, hx⟩ := hx
      exact ⟨d, hrows, hbytes, hv.writes (hx.silent hy)⟩
  · obtain ⟨d, hrows, hbytes, hx⟩ := hv
    exact SpillOutcome.ofFile_deposits h hrows hbytes hx tracker _ _

end SpillSort
