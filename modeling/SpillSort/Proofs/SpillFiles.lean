import SpillSort.Proofs.Layout
import SpillSort.Proofs.Owning
import SpillSort.Proofs.Tables

/-!
# What spill files hold

A spill file holds the batches that were appended to it. Whoever reads it back gets batches with the
same rows, in the same order, or a failure.

* `Writer.Holds` follows a file in the making; `FileHolds` is what is left when it is finished.
* `Reader.open_spec` and `Reader.batchAt_spec` say what reading gives.
-/

namespace SpillSort

open Spill

namespace Spill

/-! ## Writing out -/

namespace Writer

/-- The file of a writer, still empty. -/
def file (wr : Writer) : HeldFile := ⟨wr.path, wr.content, .empty⟩

/-- The file of a writer once it is finished. -/
def finishedFile (wr : Writer) : HeldFile := ⟨wr.path, wr.content, ⟨wr.finished.toArray⟩⟩

variable {E : Surroundings} {w : Workspace} {R : Resources} {wr : Writer}

theorem abandon_spec {bytes : ByteArray}
    (h : Owns E w (.file ⟨wr.path, wr.content, bytes⟩ ::ₘ R)) :
    Ensures wr.abandon (fun _ w => Owns E w R) w :=
  h.removeFile

/-- The placeholder is as long as the header that is written over it. -/
theorem overwrite_gathered :
    (⟨wr.header.encode.toArray⟩ : ByteArray) ++
        ByteArray.extract ⟨wr.gathered.toArray⟩ (ByteArray.size ⟨wr.header.encode.toArray⟩)
          (ByteArray.size ⟨wr.gathered.toArray⟩) =
      ⟨wr.finished.toArray⟩ := by
  have hlength : wr.header.encode.length =
      (Header.placeholder wr.codec wr.schema.hash).encode.length := by
    rw [Header.length_encode, Header.length_encode]
  ext1
  rw [ByteArray.data_append, ByteArray.data_extract, ← Array.toList_inj, Array.toList_append,
    Array.toList_extract, List.extract_eq_take_drop]
  simp only [ByteArray.size, List.size_toArray, Writer.gathered, Writer.finished, hlength,
    List.drop_left, List.length_append, Nat.add_sub_cancel_left, List.take_length]

/-- The file is held whatever goes wrong on the way. -/
theorem writeOut_spec (h : Owns E w (.file wr.file ::ₘ R)) :
    Gives wr.writeOut (fun _ w => Owns E w (.file wr.finishedFile ::ₘ R))
      (fun _ w => ∃ bytes, Owns E w (.file ⟨wr.path, wr.content, bytes⟩ ::ₘ R)) w := by
  refine gives_writeOut ((h.brace _).mono (fun _ w h => ?_) fun _ _ h => ⟨_, h⟩)
  refine (h.brace _).mono (fun _ w h => ?_) fun _ _ h => ⟨_, h⟩
  refine (h.write _).mono fun _ w h => ?_
  refine (h.brace _).mono (fun _ w h => ?_) fun _ _ h => ⟨_, h⟩
  refine (h.brace _).mono (fun _ w h => ?_) fun _ _ h => ⟨_, h⟩
  refine (h.overwrite _).mono fun _ w h => ?_
  rw [overwrite_gathered] at h
  exact h

theorem finish_spec (h : Owns E w (.file wr.file ::ₘ R)) :
    Gives wr.finish
      (fun f w => f.path = wr.path ∧ f.schema = wr.schema ∧ f.rows = wr.rows ∧
        Owns E w (.file wr.finishedFile ::ₘ R))
      (fun _ w => Owns E w R) w := by
  refine gives_finish ((writeOut_spec h).mono (fun _ w h => ?_) fun _ _ h => ?_)
  · exact (h.note _).mono fun _ w h => ⟨rfl, rfl, rfl, h⟩
  · obtain ⟨bytes, h⟩ := h
    exact abandon_spec h

end Writer

theorem Reader.readHeader_finished (wr : Writer) :
    readHeader ⟨wr.finished.toArray⟩ = .ok wr.header := by
  have hb : bytesAt? ⟨wr.finished.toArray⟩ 0 wr.header.encode.length = some wr.header.encode :=
    bytesAt?_append (u := []) _ (by rw [List.nil_append]; rfl)
  rw [Header.length_encode] at hb
  simp only [readHeader, hb, Header.decode_encode]
  rfl

/-! ## Messages and their entries -/

theorem toNat_toUInt64 {n : Nat} (h : n < farthestSeek) : n.toUInt64.toNat = n := by
  have h' : n < UInt64.size := Nat.lt_of_lt_of_le h (by decide)
  simpa [Nat.toUInt64] using Nat.mod_eq_of_lt h'

variable [MessageFormat] {codec : Codec}

/-- The message of a batch. -/
abbrev messageOf (codec : Codec) (b : Batch) : List UInt8 := MessageFormat.encode codec b

/-- The messages of batches, one after the other. -/
def messagesOf (codec : Codec) (bs : List Batch) : List UInt8 := bs.flatMap (messageOf codec)

/-- The index entries of batches whose messages stand one after the other from `offset` on. -/
def entriesFrom (codec : Codec) : (offset : Nat) → List Batch → List Entry
  | _, [] => []
  | offset, b :: bs =>
    ⟨offset.toUInt64, (messageOf codec b).length.toUInt64, b.rows.toUInt32⟩ ::
      entriesFrom codec (offset + (messageOf codec b).length) bs

@[simp] theorem length_entriesFrom (offset : Nat) (bs : List Batch) :
    (entriesFrom codec offset bs).length = bs.length := by
  induction bs generalizing offset with
  | nil => rfl
  | cons b bs ih => simp [entriesFrom, ih]

theorem entriesFrom_append (offset : Nat) (bs cs : List Batch) :
    entriesFrom codec offset (bs ++ cs) =
      entriesFrom codec offset bs ++
        entriesFrom codec (offset + (messagesOf codec bs).length) cs := by
  induction bs generalizing offset with
  | nil => rfl
  | cons b bs ih =>
    simp only [List.cons_append, entriesFrom, ih, messagesOf, List.flatMap_cons,
      List.length_append, Nat.add_assoc]

/-- The index takes no more bytes than the messages do. -/
theorem length_messagesOf_ge (codec : Codec) (bs : List Batch) :
    bs.length * entryLength ≤ (messagesOf codec bs).length := by
  induction bs with
  | nil => simp
  | cons b bs ih =>
    have hlength : entryLength ≤ (messageOf codec b).length := MessageFormat.entryLength_le codec b
    rw [messagesOf, List.flatMap_cons, List.length_append, List.length_cons, Nat.succ_mul]
    rw [messagesOf] at ih
    omega

/-- The messages of batches stand in some bytes from `offset` on, at positions that a file has. -/
structure Stored (codec : Codec) (bytes : ByteArray) (offset : Nat) (bs : List Batch) : Prop where
  placed : ∃ before after, before.length = offset ∧
    bytes.data.toList = before ++ (messagesOf codec bs ++ after)
  inFile : offset + (messagesOf codec bs).length < farthestSeek
  counted : ∀ b ∈ bs, b.rows ≤ Writer.mostRows

namespace Stored

variable {bytes : ByteArray} {offset : Nat} {b : Batch} {bs : List Batch}

/-- The first message is found where its entry says. -/
theorem bytesAt?_head (h : Stored codec bytes offset (b :: bs)) :
    offset.toUInt64.toNat < farthestSeek ∧
      bytesAt? bytes offset.toUInt64.toNat (messageOf codec b).length.toUInt64.toNat =
        some (messageOf codec b) := by
  obtain ⟨⟨before, after, rfl, hbytes⟩, hin, -⟩ := h
  rw [messagesOf, List.flatMap_cons, ← messagesOf, List.append_assoc] at hbytes
  rw [messagesOf, List.flatMap_cons, List.length_append] at hin
  rw [toNat_toUInt64 (n := before.length) (by omega), toNat_toUInt64 (by omega)]
  exact ⟨by omega, bytesAt?_append _ hbytes⟩

/-- The other messages stand behind the first one. -/
theorem tail (h : Stored codec bytes offset (b :: bs)) :
    Stored codec bytes (offset + (messageOf codec b).length) bs := by
  obtain ⟨⟨before, after, rfl, hbytes⟩, hin, hc⟩ := h
  rw [messagesOf, List.flatMap_cons, ← messagesOf, List.append_assoc] at hbytes
  rw [messagesOf, List.flatMap_cons, ← messagesOf, List.length_append] at hin
  refine ⟨⟨before ++ messageOf codec b, after, List.length_append, ?_⟩, by omega,
    fun c hm => hc c (List.mem_cons_of_mem b hm)⟩
  rw [List.append_assoc]
  exact hbytes

end Stored

/-- A batch as it is read back: the same rows, in buffers of their own. -/
def reread (b : Batch) : Batch := Batch.ofColumns b.schema b.rows b.columns

theorem decode_messageOf (b : Batch) : Message.decode (messageOf codec b) = .ok (reread b) :=
  Message.decode_encode codec b

/-! ## Writing -/

namespace Writer

/-- The writer has taken in these batches. -/
structure Holds (wr : Writer) (bs : List Batch) : Prop where
  messages : wr.messages.reverse = bs.map (messageOf wr.codec)
  entries : wr.entries.reverse = entriesFrom wr.codec headerLength bs
  written : wr.written = headerLength + (messagesOf wr.codec bs).length
  inFile : wr.written < farthestSeek
  rows : wr.rows = total (bs.map Batch.rows)
  counted : ∀ b ∈ bs, b.rows ≤ mostRows

variable {E : Surroundings} {w : Workspace} {R : Resources} {wr : Writer} {bs : List Batch}

theorem create_spec (h : Owns E w R) (schema : Schema) :
    Gives (Writer.create schema)
      (fun wr w => wr.Holds [] ∧ wr.schema = schema ∧ Owns E w (.file wr.file ::ₘ R))
      (fun _ w => Owns E w R) w := by
  refine Writer.gives_create (h.nextSpillPath.mono fun path w h => ?_)
  refine (h.brace _).mono (fun _ w h => ?_) fun _ _ h => h
  split
  · exact h
  · next content disk hc =>
    refine (h.createFile hc).mono fun _ w h => ?_
    refine (h.brace _).mono (fun _ w h => ⟨⟨rfl, rfl, rfl, ?_, rfl, by simp⟩, rfl, h⟩)
      fun _ _ h => h.removeFile
    show headerLength < farthestSeek
    decide

/-- One more batch, which is not too long for its message and the file. -/
theorem Holds.taken (hw : wr.Holds bs) {b : Batch} (hrows : b.rows ≤ mostRows)
    (hfits : wr.written + (messageOf wr.codec b).length < farthestSeek) :
    (wr.taken b).Holds (bs ++ [b]) := by
  refine ⟨?_, ?_, ?_, hfits, ?_, ?_⟩
  · simp [Writer.taken, hw.messages]
  · simp [Writer.taken, hw.entries, entriesFrom_append, entriesFrom, hw.written]
  · simp [Writer.taken, hw.written, messagesOf, Nat.add_assoc]
  · simp [Writer.taken, hw.rows]
  · exact List.forall_mem_append.mpr ⟨hw.counted, by simpa using hrows⟩

theorem append_spec (h : Owns E w R) (hw : wr.Holds bs) (b : Batch) :
    Gives (wr.append b)
      (fun wr' w => wr'.Holds (bs ++ [b]) ∧ wr'.file = wr.file ∧ wr'.schema = wr.schema ∧ Owns E w R)
      (fun _ w => Owns E w R) w := by
  refine gives_append (fun _ => h) fun hrows => ?_
  refine (h.brace _).mono (fun _ w h => ⟨fun _ => h, fun hfits => ?_⟩) fun _ _ h => h
  exact ⟨hw.taken hrows hfits, rfl, rfl, h⟩

end Writer

/-- The bytes of a file that was finished with these batches. -/
def FileHolds (bytes : ByteArray) (bs : List Batch) : Prop :=
  ∃ wr : Writer, wr.Holds bs ∧ bytes = ⟨wr.finished.toArray⟩

/-! ## Reading -/

namespace Reader

/-- The reader has these batches of a file before it. -/
def Holds (r : Reader) (f : HeldFile) (bs : List Batch) : Prop :=
  r.node = .file f.content ∧
    ∃ codec offset, r.pending = entriesFrom codec offset bs ∧ Stored codec f.bytes offset bs

variable {E : Surroundings} {w : Workspace} {R : Resources} {bs : List Batch} {f : HeldFile}

/-- The parts of a finished file. -/
theorem finished_parts {wr : Writer} (hw : wr.Holds bs) :
    wr.finished = wr.header.encode ++
      (messagesOf wr.codec bs ++
        (entriesFrom wr.codec headerLength bs).flatMap Entry.encode) := by
  rw [Writer.finished, Writer.body, hw.messages, hw.entries, messagesOf,
    List.flatMap_def (f := messageOf wr.codec)]

theorem toNat_indexLength {wr : Writer} (hw : wr.Holds bs) :
    wr.header.indexLength.toNat = bs.length * entryLength := by
  have hin := hw.inFile
  have hindex := length_messagesOf_ge wr.codec bs
  have hcount : wr.entries.length = bs.length := by
    rw [← List.length_reverse, hw.entries, length_entriesFrom]
  have hlt : bs.length * entryLength < farthestSeek := by
    rw [hw.written] at hin
    omega
  rw [Writer.header, hcount]
  exact toNat_toUInt64 hlt

theorem toNat_indexOffset {wr : Writer} (hw : wr.Holds bs) :
    wr.header.indexOffset.toNat = headerLength + (messagesOf wr.codec bs).length := by
  rw [← hw.written]
  exact toNat_toUInt64 hw.inFile

/-- The entries of a finished file stand behind the messages. -/
theorem entriesAt?_finished {wr : Writer} (hw : wr.Holds bs) :
    entriesAt? ⟨wr.finished.toArray⟩ (headerLength + (messagesOf wr.codec bs).length) bs.length =
      some (entriesFrom wr.codec headerLength bs) := by
  have he : entriesAt? ⟨wr.finished.toArray⟩ (wr.header.encode ++ messagesOf wr.codec bs).length
      (entriesFrom wr.codec headerLength bs).length =
        some (entriesFrom wr.codec headerLength bs) :=
    entriesAt?_append (v := []) _ (by
      rw [List.append_nil, List.append_assoc]
      exact finished_parts hw)
  rwa [List.length_append, Header.length_encode, length_entriesFrom] at he

/-- If the index of a finished file can be read, it has the entries of the batches. -/
theorem readIndex_finished {wr : Writer} (hw : wr.Holds bs) {entries : List Entry}
    (h : readIndex wr.header ⟨wr.finished.toArray⟩ farthestSeek = .ok entries) :
    entries = entriesFrom wr.codec headerLength bs := by
  unfold readIndex at h
  simp only [toNat_indexLength hw, toNat_indexOffset hw] at h
  split at h
  · next h0 =>
    have hnil : bs = [] := by
      rw [entryLength] at h0
      exact List.eq_nil_of_length_eq_zero (by omega)
    rw [hnil]
    exact (Except.ok.inj h).symm
  split at h
  · cases h
  next hmessages =>
  split at h
  · cases h
  have hm : bs.length = wr.header.messages.toNat := by
    simpa [entryLength] using hmessages
  rw [← hm, entriesAt?_finished hw] at h
  exact (Except.ok.inj h).symm

/-- Opening a finished file leaves all its batches to be read. -/
theorem open_spec (h : Owns E w (.file f ::ₘ R)) (hf : FileHolds f.bytes bs) (schema : Schema) :
    Gives (Reader.open f.path schema)
      (fun r w => r.Holds f bs ∧ Owns E w (.file f ::ₘ R))
      (fun _ w => Owns E w (.file f ::ₘ R)) w := by
  obtain ⟨wr, hw, hbytes⟩ := hf
  refine gives_open ((h.brace _).mono (fun _ w h => ?_) fun _ _ h => h)
  simp only [h.openFile.1]
  refine (h.brace _).mono (fun _ w h => ?_) fun _ _ h => h
  simp only [h.openFile.2, hbytes, readHeader_finished]
  split
  · exact h
  refine (h.brace _).mono (fun _ w h => ?_) fun _ _ h => h
  split
  · exact h
  · next entries he =>
    refine ⟨⟨rfl, wr.codec, headerLength, readIndex_finished hw he, ?_⟩, h⟩
    have hparts := finished_parts hw
    rw [show wr.finished = f.bytes.data.toList by rw [hbytes]] at hparts
    refine ⟨⟨wr.header.encode, _, Header.length_encode _, hparts⟩, ?_, hw.counted⟩
    exact hw.written ▸ hw.inFile

/-- Reading the next batch gives back its rows. -/
theorem batchAt_spec {r : Reader} {b : Batch} (h : Owns E w (.file f ::ₘ R))
    (hr : r.Holds f (b :: bs)) :
    ∃ e rest, r.pending = e :: rest ∧ (r.advance rest).Holds f bs ∧
      Gives (r.batchAt e)
        (fun b' w => b'.schema = b.schema ∧ b'.rows = b.rows ∧ b'.table = b.table ∧
          Owns E w (.file f ::ₘ R))
        (fun _ w => Owns E w (.file f ::ₘ R)) w := by
  obtain ⟨hnode, codec, offset, hp, hs⟩ := hr
  obtain ⟨hfar, hbytes⟩ := hs.bytesAt?_head
  refine ⟨_, _, hp, ⟨hnode, codec, _, rfl, hs.tail⟩, ?_⟩
  refine gives_batchAt (gives_messageAt ((h.brace _).mono (fun _ w h => ?_) fun _ _ h => h))
  simp only [hnode, h.openFile.2]
  rw [if_neg (Nat.not_le.mpr hfar), hbytes]
  simp only [decode_messageOf]
  split
  · exact h
  split
  · exact h
  · exact ⟨rfl, rfl, Batch.table_ofColumns b, h⟩

theorem pending_eq_nil {r : Reader} (hr : r.Holds f []) : r.pending = [] :=
  hr.2.choose_spec.choose_spec.1

end Reader

end Spill

end SpillSort
