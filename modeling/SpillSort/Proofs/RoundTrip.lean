import SpillSort.Proofs.SpillFiles

/-!
# Spill files read back

What is written to a spill file comes back from it, batch by batch, on a disk that stores what is
written. The messages lie one right behind the other, the index says where, and all that is counted
is counted right.

* `Writer.writeAll_gives` is the writing, `Reader.open_gives` and `Reader.readMany_gives` the reading.
* `round_trip` puts them together.
-/

namespace SpillSort

open Spill

variable {w : Workspace} {schema : Schema} {bs : List Batch} {bytes : ByteArray} {path : String}

/-- A disk without troubles lets everything pass. -/
theorem Gives.brace_of_untroubled {context : String} {P : Unit → Workspace → Prop}
    {E : Failure → Workspace → Prop} (h : w.disk.troubles = []) (hP : P () w) :
    Gives (Work.brace context) P E w := by
  have hnext : w.disk.nextTrouble = (none, w.disk) := by simp [Disk.nextTrouble, h]
  refine Work.gives_brace (fun d hd => ?_) fun _ d hd => ?_
  · cases hnext.symm.trans hd
    exact hP
  · cases hnext.symm.trans hd

/-- The file at a path can be read, and has these bytes. -/
structure Workspace.Serves (w : Workspace) (path : String) (bytes : ByteArray) : Prop where
  untroubled : w.disk.troubles = []
  found : ∃ node, w.disk.openFile path = .ok node ∧ w.disk.read node = .ok bytes

namespace Spill

namespace Disk

theorem troubles_createFile {d d' : Disk} {path : String} {c : ContentId}
    (h : d.createFile path = .ok (c, d')) : d'.troubles = d.troubles := by
  unfold Disk.createFile at h
  simp only [bind, Except.bind] at h
  rcases hf : d.find (.ofPath path) with e | ⟨p, _ | n⟩
  · simp [hf] at h
  · simp only [hf, pure, Except.pure, Except.ok.injEq, Prod.mk.injEq] at h
    obtain ⟨-, rfl⟩ := h
    rfl
  · simp [hf, throw, throwThe, MonadExceptOf.throw] at h

/-- A new file that was written has what was written. -/
theorem read_write_createFile {d d' : Disk} {path : String} {c : ContentId}
    (h : d.createFile path = .ok (c, d')) (bytes : ByteArray) :
    (d'.write c bytes).openFile path = .ok (.file c) ∧
      (d'.write c bytes).read (.file c) = .ok bytes := by
  obtain ⟨p, hkeeps⟩ := (Disk.Keeps.nil d).createFile h
  have hwritten : Keeps d (d'.write c bytes) ([] ++ [(p, ⟨path, c, bytes⟩)]) := Keeps.write hkeeps bytes
  have hnew : (p, (⟨path, c, bytes⟩ : HeldFile)) ∈ [] ++ [(p, (⟨path, c, bytes⟩ : HeldFile))] := by
    simp
  have hopen := hwritten.openFile hnew
  have hread := hwritten.read hnew
  exact ⟨hopen, hread⟩

end Disk

/-! ## Writing -/

variable [MessageFormat] {codec : Codec}

namespace Writer

variable {wr : Writer}

/-- Takes in batches one after the other. -/
def appendAll (wr : Writer) (bs : List Batch) : Work Writer := bs.foldlM append wr

/-- Writes batches of a schema to a new file. -/
def writeAll (schema : Schema) (bs : List Batch) : Work SpillFile := do
  let wr ← create schema
  let wr ← wr.appendAll bs
  wr.finish

theorem create_gives (hw : w.disk.troubles = []) {c : ContentId} {d : Disk}
    (hd : w.disk.createFile w.nextPath = .ok (c, d)) (schema : Schema) :
    Gives (create schema)
      (fun wr v => wr.Holds [] ∧ wr.path = w.nextPath ∧ wr.content = c ∧ wr.schema = schema ∧
        wr.codec = w.spiller.codec ∧ v.disk = d)
      (fun _ _ => False) w := by
  have hempty : headerLength < farthestSeek := by decide
  have hpath : Ensures Workspace.nextSpillPath (fun path v => path = w.nextPath ∧
      v.disk = w.disk ∧ v.spiller.codec = w.spiller.codec) w := ⟨rfl, rfl, rfl⟩
  refine gives_create (hpath.mono ?_)
  rintro path v ⟨rfl, hdisk, hcodec⟩
  refine Gives.brace_of_untroubled (hdisk ▸ hw) ?_
  simp only [hdisk, hd]
  have hmade : { v with disk := d }.disk.troubles = [] := (Disk.troubles_createFile hd).trans hw
  refine Ensures.modify_iff.mpr (Gives.brace_of_untroubled hmade ?_)
  exact ⟨⟨rfl, rfl, rfl, hempty, rfl, by simp⟩, trivial, trivial, trivial, hcodec, rfl⟩

/-- Two stages of the same file. -/
structure Continues (wr x : Writer) : Prop where
  path : x.path = wr.path
  content : x.content = wr.content
  schema : x.schema = wr.schema
  codec : x.codec = wr.codec

omit [MessageFormat] in
theorem Continues.trans {x y : Writer} (h : wr.Continues x) (h' : x.Continues y) :
    wr.Continues y :=
  ⟨h'.path.trans h.path, h'.content.trans h.content, h'.schema.trans h.schema,
    h'.codec.trans h.codec⟩

/-- A batch that is not too long is taken in, if the file does not get too long. -/
theorem append_gives (hw : w.disk.troubles = []) {bs : List Batch} (h : wr.Holds bs) {b : Batch}
    (hrows : b.rows ≤ mostRows)
    (hfits : headerLength + (messagesOf wr.codec (bs ++ [b])).length < farthestSeek) :
    Gives (wr.append b) (fun x v => x.Holds (bs ++ [b]) ∧ wr.Continues x ∧ v = w)
      (fun _ _ => False) w := by
  have hlength : wr.written + (messageOf wr.codec b).length < farthestSeek := by
    rw [h.written]
    simpa [messagesOf, Nat.add_assoc] using hfits
  refine gives_append (fun hlong => absurd hlong (Nat.not_lt.mpr hrows)) fun _ => ?_
  refine Gives.brace_of_untroubled hw ⟨fun hfar => absurd hlength (Nat.not_lt.mpr hfar), fun _ => ?_⟩
  exact ⟨h.taken hrows hlength, ⟨rfl, rfl, rfl, rfl⟩, rfl⟩

theorem appendAll_gives (hw : w.disk.troubles = []) {bs cs : List Batch} (h : wr.Holds bs)
    (hrows : ∀ b ∈ cs, b.rows ≤ mostRows)
    (hfits : headerLength + (messagesOf wr.codec (bs ++ cs)).length < farthestSeek) :
    Gives (wr.appendAll cs) (fun x v => x.Holds (bs ++ cs) ∧ wr.Continues x ∧ v = w)
      (fun _ _ => False) w := by
  induction cs generalizing wr bs with
  | nil =>
    rw [List.append_nil]
    exact Gives.pure_iff.mpr ⟨h, ⟨rfl, rfl, rfl, rfl⟩, rfl⟩
  | cons c cs ih =>
    rw [List.append_cons] at hfits ⊢
    have hshort : headerLength + (messagesOf wr.codec (bs ++ [c])).length < farthestSeek := by
      rw [messagesOf, List.flatMap_append, List.length_append, ← messagesOf] at hfits
      omega
    unfold appendAll
    rw [List.foldlM_cons, Gives.bind_iff]
    refine (append_gives hw h (hrows c List.mem_cons_self) hshort).mono ?_ fun _ _ hf => hf
    rintro x v ⟨hx, hcont, rfl⟩
    rw [← hcont.codec] at hfits
    refine (ih hx (fun b hb => hrows b (List.mem_cons_of_mem c hb)) hfits).mono ?_ fun _ _ hf => hf
    rintro y v ⟨hy, hcont', rfl⟩
    exact ⟨hy, hcont.trans hcont', rfl⟩

/-- The bytes of a finished file. -/
def image (wr : Writer) : ByteArray := ⟨wr.finished.toArray⟩

omit [MessageFormat] in
theorem finish_gives (hw : w.disk.troubles = []) :
    Gives wr.finish
      (fun f v => f = ⟨wr.path, wr.schema, wr.messages.length, wr.rows,
          wr.written + wr.entries.length * entryLength⟩ ∧
        v.disk = w.disk.write wr.content wr.image)
      (fun _ _ => False) w := by
  refine gives_finish (gives_writeOut (Gives.brace_of_untroubled hw ?_))
  refine Gives.brace_of_untroubled hw (Gives.brace_of_untroubled hw ?_)
  refine Gives.brace_of_untroubled hw ⟨rfl, ?_⟩
  show (w.disk.write wr.content ⟨wr.gathered.toArray⟩).overwrite wr.content _ = _
  rw [Disk.overwrite_write, overwrite_gathered, image]

/-- Writing succeeds on a disk without troubles that can make the file, and what it counts is right. -/
theorem writeAll_gives (hw : w.disk.troubles = []) {c : ContentId} {d : Disk}
    (hd : w.disk.createFile w.nextPath = .ok (c, d)) (hrows : ∀ b ∈ bs, b.rows ≤ mostRows)
    (hfits : headerLength + (messagesOf w.spiller.codec bs).length < farthestSeek) :
    Gives (writeAll schema bs)
      (fun f v => ∃ wr : Writer, wr.Holds bs ∧ wr.schema = schema ∧ wr.codec = w.spiller.codec ∧
        f = ⟨wr.path, wr.schema, wr.messages.length, wr.rows,
          wr.written + wr.entries.length * entryLength⟩ ∧
        v.Serves f.path wr.image)
      (fun _ _ => False) w := by
  unfold writeAll
  rw [Gives.bind_iff]
  refine (create_gives hw hd schema).mono ?_ fun _ _ hf => hf
  rintro wr v ⟨hwr, hpath, rfl, rfl, hcodec, rfl⟩
  have hv : v.disk.troubles = [] := (Disk.troubles_createFile hd).trans hw
  rw [Gives.bind_iff]
  rw [← hcodec] at hfits
  refine (appendAll_gives hv hwr hrows hfits).mono ?_ fun _ _ hf => hf
  rintro x v ⟨hx, hcont, rfl⟩
  refine (finish_gives hv).mono ?_ fun _ _ hf => hf
  rintro f u ⟨rfl, hu⟩
  refine ⟨x, hx, hcont.schema, hcont.codec.trans hcodec, rfl, ?_, .file wr.content, ?_⟩
  · rw [hu]
    exact hv
  · rw [hu, hcont.content, show x.path = w.nextPath from hcont.path.trans hpath]
    exact Disk.read_write_createFile hd x.image

/-- Writing a file makes its writer the owner of one with these batches. -/
theorem writeAll_spec {E : Surroundings} {R : Resources} (h : Owns E w R) (schema : Schema)
    (bs : List Batch) :
    Gives (writeAll schema bs)
      (fun f v => ∃ held : HeldFile, held.path = f.path ∧ FileHolds held.bytes bs ∧
        f.rows = total (bs.map Batch.rows) ∧ Owns E v (.file held ::ₘ R))
      (fun _ _ => True) w := by
  have happend : ∀ {cs ds : List Batch} {wr : Writer} {v : Workspace}, wr.Holds cs →
      Owns E v (.file wr.file ::ₘ R) →
      Gives (wr.appendAll ds)
        (fun x u => x.Holds (cs ++ ds) ∧ Owns E u (.file x.file ::ₘ R)) (fun _ _ => True) v := by
    intro cs ds
    induction ds generalizing cs with
    | nil =>
      intro wr v hwr hv
      rw [List.append_nil]
      exact Gives.pure_iff.mpr ⟨hwr, hv⟩
    | cons d ds ih =>
      intro wr v hwr hv
      unfold appendAll
      rw [List.foldlM_cons, Gives.bind_iff, List.append_cons]
      refine (append_spec hv hwr d).mono ?_ fun _ _ _ => trivial
      rintro x u ⟨hx, hfile, -, hu⟩
      exact ih hx (hfile ▸ hu)
  unfold writeAll
  rw [Gives.bind_iff]
  refine (create_spec h schema).mono ?_ fun _ _ _ => trivial
  rintro wr v ⟨hwr, -, hv⟩
  rw [Gives.bind_iff]
  refine (happend hwr hv).mono ?_ fun _ _ _ => trivial
  rintro x u ⟨hx, hu⟩
  refine (finish_spec hu).mono ?_ fun _ _ _ => trivial
  rintro f t ⟨hpath, -, hrows, ht⟩
  exact ⟨x.finishedFile, hpath.symm, ⟨x, hx, rfl⟩, hrows.trans hx.rows, ht⟩

end Writer

/-! ## What lies in the file -/

/-- Entries that cover the bytes from `start` to `stop`, each right behind the one before. -/
def Tiles (start stop : Nat) : List Entry → Prop
  | [] => start = stop
  | e :: es => e.offset.toNat = start ∧ 0 < e.length.toNat ∧ Tiles (start + e.length.toNat) stop es

theorem tiles_entriesFrom {offset : Nat}
    (h : offset + (messagesOf codec bs).length < farthestSeek) :
    Tiles offset (offset + (messagesOf codec bs).length) (entriesFrom codec offset bs) := by
  induction bs generalizing offset with
  | nil => rfl
  | cons b bs ih =>
    rw [messagesOf, List.flatMap_cons, ← messagesOf, List.length_append, ← Nat.add_assoc] at h ⊢
    have hlength : (messageOf codec b).length.toUInt64.toNat = (messageOf codec b).length :=
      toNat_toUInt64 (by omega)
    refine ⟨toNat_toUInt64 (by omega), ?_, ?_⟩
    · rw [hlength]
      exact Nat.lt_of_lt_of_le (by decide) (MessageFormat.entryLength_le codec b)
    · rw [hlength]
      exact ih h

omit [MessageFormat] in
theorem length_entries_encode (es : List Entry) :
    (es.flatMap Entry.encode).length = es.length * entryLength := by
  induction es with
  | nil => simp
  | cons e es ih =>
    rw [List.flatMap_cons, List.length_append, ih, Entry.length_encode, List.length_cons,
      Nat.succ_mul, Nat.add_comm]

namespace Writer.Holds

variable {wr : Writer}

/-- The number of bytes of a finished file. -/
theorem size_image (h : wr.Holds bs) :
    wr.image.size = wr.written + wr.entries.length * entryLength := by
  have hentries : wr.entries.length = bs.length := by
    rw [← List.length_reverse, h.entries, length_entriesFrom]
  show wr.finished.toArray.size = _
  rw [List.size_toArray, Reader.finished_parts h, List.length_append, List.length_append,
    Header.length_encode, length_entries_encode, length_entriesFrom, h.written, hentries,
    Nat.add_assoc]

/-- The index of a finished file is read back as it was written. -/
theorem readIndex_image (h : wr.Holds bs) (hcount : bs.length < 2 ^ 32) :
    readIndex wr.header wr.image farthestSeek = .ok (entriesFrom wr.codec headerLength bs) := by
  have hmessages : wr.header.messages.toNat = bs.length := by
    have hlength : wr.messages.length = bs.length := by
      rw [← List.length_reverse, h.messages, List.length_map]
    rw [header, hlength]
    exact Nat.mod_eq_of_lt hcount
  have hoffset := Reader.toNat_indexOffset h
  have hfar : headerLength + (messagesOf wr.codec bs).length < farthestSeek := h.written ▸ h.inFile
  have hentries := Reader.entriesAt?_finished h
  unfold readIndex
  simp only [Reader.toNat_indexLength h, hmessages, hoffset]
  by_cases hbs : bs.length = 0
  · rw [hbs, Nat.zero_mul, if_pos rfl, List.eq_nil_of_length_eq_zero hbs]
    rfl
  · have hindex : bs.length * entryLength ≠ 0 := Nat.mul_ne_zero hbs (by decide)
    rw [if_neg hindex, if_neg (by simp [entryLength]), if_neg (Nat.not_le.mpr hfar)]
    rw [show entriesAt? wr.image _ _ = _ from hentries]

end Writer.Holds

/-! ## Reading -/

namespace Reader

variable {wr : Writer} {v : Workspace}

/-- Asks for batches `count` times, and notes how many rows remain before each. -/
def readMany : Reader → (count : Nat) → Work (List (Nat × Option Batch))
  | _, 0 => pure []
  | r, count + 1 => do
    let b ← r.next.1
    let rest ← r.next.2.readMany count
    pure ((r.remainingRows, b) :: rest)

/-- Opening a finished file with its schema leaves all its messages to be read. -/
theorem open_gives (hv : v.Serves path wr.image) (h : wr.Holds bs) (hcount : bs.length < 2 ^ 32) :
    Gives (Reader.open path wr.schema)
      (fun r u => u = v ∧ r.schema = wr.schema ∧ r.pending = entriesFrom wr.codec headerLength bs ∧
        v.disk.read r.node = .ok wr.image)
      (fun _ _ => False) v := by
  obtain ⟨node, hopen, hread⟩ := hv.found
  refine gives_open (Gives.brace_of_untroubled hv.untroubled ?_)
  simp only [hopen]
  refine Gives.brace_of_untroubled hv.untroubled ?_
  simp only [hread, show readHeader wr.image = _ from readHeader_finished wr]
  rw [if_neg (by simp [Writer.header])]
  refine Gives.brace_of_untroubled hv.untroubled ?_
  simp only [h.readIndex_image hcount]
  exact ⟨trivial, trivial, trivial, trivial⟩

omit [MessageFormat] in
/-- A file is not opened with a schema that has another hash. -/
theorem open_refuses (hv : v.Serves path wr.image) {other : Schema}
    (hother : other.hash ≠ wr.schema.hash) :
    Gives (Reader.open path other) (fun _ _ => False)
      (fun e u => u = v ∧
        e = .schemaChange s!"spill file {path} was written with a different schema") v := by
  obtain ⟨node, hopen, hread⟩ := hv.found
  refine gives_open (Gives.brace_of_untroubled hv.untroubled ?_)
  simp only [hopen]
  refine Gives.brace_of_untroubled hv.untroubled ?_
  simp only [hread, show readHeader wr.image = _ from readHeader_finished wr]
  rw [if_pos (by simpa [Writer.header] using hother.symm)]
  exact ⟨trivial, trivial⟩

/-- The rows of entries are those of their batches. -/
theorem total_rows_entriesFrom (offset : Nat) (hrows : ∀ b ∈ bs, b.rows ≤ Writer.mostRows) :
    total ((entriesFrom codec offset bs).map fun e => e.rows.toNat) = total (bs.map Batch.rows) := by
  induction bs generalizing offset with
  | nil => rfl
  | cons b bs ih =>
    have hb : b.rows.toUInt32.toNat = b.rows := by
      have hle := hrows b List.mem_cons_self
      refine Nat.mod_eq_of_lt (Nat.lt_of_le_of_lt hle ?_)
      decide
    simp only [entriesFrom, List.map_cons, total_cons, hb]
    rw [ih _ fun c hc => hrows c (List.mem_cons_of_mem b hc)]

theorem batchAt_gives {r : Reader} {offset : Nat} {b : Batch} (hv : v.disk.troubles = [])
    (hread : v.disk.read r.node = .ok bytes) (hs : Stored codec bytes offset (b :: bs))
    (hschema : b.schema = r.schema) :
    Gives (r.batchAt ⟨offset.toUInt64, (messageOf codec b).length.toUInt64, b.rows.toUInt32⟩)
      (fun b' u => b' = reread b ∧ u = v) (fun _ _ => False) v := by
  obtain ⟨hfar, hbytes⟩ := hs.bytesAt?_head
  have hrows : b.rows.toUInt32.toNat = b.rows := by
    have hle := hs.counted b List.mem_cons_self
    refine Nat.mod_eq_of_lt (Nat.lt_of_le_of_lt hle ?_)
    decide
  refine gives_batchAt (gives_messageAt (Gives.brace_of_untroubled hv ?_))
  simp only [hread]
  rw [if_neg (Nat.not_le.mpr hfar), hbytes]
  simp only [decode_messageOf]
  rw [if_neg (by simpa [reread, Batch.ofColumns] using hschema),
    if_neg (by simpa [reread, Batch.ofColumns] using hrows.symm)]
  exact ⟨trivial, trivial⟩

/-- Reading gives the batches in order, and nothing ever after. -/
theorem readMany_gives {r : Reader} {offset : Nat} (count : Nat) (hv : v.disk.troubles = [])
    (hread : v.disk.read r.node = .ok bytes) (hpending : r.pending = entriesFrom codec offset bs)
    (hs : Stored codec bytes offset bs) (hschema : ∀ b ∈ bs, b.schema = r.schema) :
    Gives (r.readMany count)
      (fun got u => u = v ∧ got = (List.range count).map fun k =>
        (total ((bs.drop k).map Batch.rows), (bs[k]?).map reread))
      (fun _ _ => False) v := by
  induction count generalizing r offset bs with
  | zero => exact Gives.pure_iff.mpr ⟨rfl, rfl⟩
  | succ count ih =>
    have hremaining : r.remainingRows = total (bs.map Batch.rows) := by
      rw [remainingRows, hpending, total_rows_entriesFrom offset hs.counted]
    rw [readMany, Gives.bind_iff, hremaining]
    cases bs with
    | nil =>
      have hnext : r.next = (pure none, r) := by
        unfold next
        rw [hpending]
        rfl
      rw [hnext, Gives.pure_iff, Gives.bind_iff]
      refine (ih hread hpending hs hschema).mono ?_ fun _ _ hf => hf
      rintro got u ⟨rfl, rfl⟩
      rw [Gives.pure_iff, List.range_succ_eq_map]
      simp [Function.comp_def]
    | cons b bs =>
      have hnext : r.next = (some <$> r.batchAt ⟨offset.toUInt64, (messageOf codec b).length.toUInt64,
          b.rows.toUInt32⟩, r.advance (entriesFrom codec (offset + (messageOf codec b).length) bs)) := by
        unfold next
        rw [hpending]
        rfl
      rw [hnext, Gives.map_iff]
      refine (batchAt_gives hv hread hs (hschema b List.mem_cons_self)).mono ?_ fun _ _ hf => hf
      rintro b' u ⟨rfl, rfl⟩
      rw [Gives.bind_iff]
      refine (ih (r := r.advance _) hread rfl hs.tail
        fun c hc => hschema c (List.mem_cons_of_mem b hc)).mono ?_ fun _ _ hf => hf
      rintro got u ⟨rfl, rfl⟩
      rw [Gives.pure_iff, List.range_succ_eq_map]
      simp

end Reader

/-! ## Round trip -/

/-- **What is written comes back.** On a disk that can make the file and has no troubles, batches of
one schema are written to a new file, in any format of messages: its messages, rows and bytes are
counted right, its header has the codec, and its index covers the bytes between header and index
without a gap. Wherever these bytes are read again, the file opens with the schema, the batches come
back in order, then nothing ever after, and before each the remaining rows are those of the batches to
come. With a schema of another hash the file does not open. -/
theorem round_trip (hschema : ∀ b ∈ bs, b.schema = schema) (hrows : ∀ b ∈ bs, b.rows < 2 ^ 32)
    (hcount : bs.length < 2 ^ 32) (hw : w.disk.troubles = [])
    (hd : ∃ c d, w.disk.createFile w.nextPath = .ok (c, d))
    (hfits : headerLength + (messagesOf w.spiller.codec bs).length < farthestSeek) :
    Gives (Writer.writeAll schema bs)
      (fun f u => ∃ bytes header entries, u.Serves f.path bytes ∧
        f.messages = bs.length ∧ f.rows = total (bs.map Batch.rows) ∧ f.bytes = bytes.size ∧
        readHeader bytes = .ok header ∧ header.codec = w.spiller.codec ∧
        readIndex header bytes farthestSeek = .ok entries ∧ entries.length = bs.length ∧
        Tiles headerLength header.indexOffset.toNat entries ∧
        ∀ v : Workspace, v.Serves f.path bytes →
          (∀ count, Gives (Reader.open f.path schema >>= fun r => r.readMany count)
            (fun got x => x = v ∧ got = (List.range count).map fun k =>
              (total ((bs.drop k).map Batch.rows), (bs[k]?).map reread))
            (fun _ _ => False) v) ∧
          ∀ other : Schema, other.hash ≠ schema.hash →
            Gives (Reader.open f.path other) (fun _ _ => False)
              (fun e x => x = v ∧
                e = .schemaChange s!"spill file {f.path} was written with a different schema") v)
      (fun _ _ => False) w := by
  obtain ⟨c, d, hd⟩ := hd
  have hshort : ∀ b ∈ bs, b.rows ≤ Writer.mostRows := fun b hb => Nat.le_of_lt_succ (hrows b hb)
  refine (Writer.writeAll_gives hw hd hshort hfits).mono ?_ fun _ _ hf => hf
  rintro f u ⟨wr, h, rfl, hcodec, rfl, hserves⟩
  rw [← hcodec] at hfits
  have hoffset := Reader.toNat_indexOffset h
  refine ⟨wr.image, wr.header, entriesFrom wr.codec headerLength bs, hserves, ?_, h.rows,
    h.size_image.symm, Reader.readHeader_finished wr, hcodec, h.readIndex_image hcount,
    length_entriesFrom .., ?_,
    fun v hv => ⟨fun count => ?_, fun other hother => Reader.open_refuses hv hother⟩⟩
  · have hmessages := congrArg List.length h.messages
    simpa using hmessages
  · rw [hoffset]
    exact tiles_entriesFrom hfits
  · rw [Gives.bind_iff]
    refine (Reader.open_gives hv h hcount).mono ?_ fun _ _ hf => hf
    rintro r x ⟨rfl, hr, hpending, hread⟩
    refine Reader.readMany_gives count hv.untroubled hread hpending ⟨?_, hfits, hshort⟩ fun b hb => ?_
    · exact ⟨wr.header.encode, _, Header.length_encode _, Reader.finished_parts h⟩
    · rw [hr]
      exact hschema b hb

end Spill

namespace Spill

namespace Sample

/-- One column of numbers. -/
def numbers : Schema := ⟨[.mk "k" (.scalar .int32) false []]⟩

/-- A batch of numbers. -/
def batchOf (ks : List Int) : Batch := .ofColumns numbers ks.length #[(ks.map Value.int).toArray]

/-- A workspace whose spill files go to one empty directory. -/
def workspace : Workspace :=
  let (fragment, ledger) := Fragment.start ⟨1, 2⟩ ⟨3, 4⟩ (-1)
  { ledger, fragment, disk := { tree := [(["spill"], .directory)] }
    spiller := { directories := { paths := #["/spill"] }, codec := .lz4, stem := "rows" } }

theorem exists_createFile :
    ∃ c d, workspace.disk.createFile workspace.nextPath = .ok (c, d) := by
  have hmade : (workspace.disk.createFile workspace.nextPath).toOption.isSome := by decide +kernel
  rcases hd : workspace.disk.createFile workspace.nextPath with e | ⟨c, d⟩
  · rw [hd] at hmade
    cases hmade
  · exact ⟨c, d, rfl⟩

end Sample

/-- Two batches come back, and then nothing. -/
theorem round_trip_two_batches :
    Gives (Writer.writeAll Sample.numbers [Sample.batchOf [2, 1], Sample.batchOf [3]])
      (fun f u => f.messages = 2 ∧ f.rows = 3 ∧
        Gives (Reader.open f.path Sample.numbers >>= fun r => r.readMany 4)
          (fun got _ => got = [(3, some (Sample.batchOf [2, 1])), (1, some (Sample.batchOf [3])),
            (0, none), (0, none)])
          (fun _ _ => False) u)
      (fun _ _ => False) Sample.workspace := by
  refine (round_trip (by simp [Sample.batchOf, Batch.ofColumns])
    (by simp [Sample.batchOf, Batch.ofColumns]) (by decide) rfl Sample.exists_createFile
    (by decide +kernel)).mono ?_ fun _ _ hf => hf
  rintro f u ⟨bytes, header, entries, hserves, hmessages, hrows, -, -, -, -, -, -, hread⟩
  refine ⟨hmessages, hrows, ((hread u hserves).1 4).mono ?_ fun _ _ hf => hf⟩
  rintro got x ⟨-, rfl⟩
  rfl

end Spill

end SpillSort
