import Mathlib.Logic.Function.Basic
import Mathlib.Tactic.Choose
import SpillSort.Proofs.Effects
import SpillSort.Proofs.SpillFiles

/-!
# Which bytes are a header, and which index fits it

Headers and index entries lose nothing on the disk, and of the bytes found there only those that a
header may begin with are taken for one. An index is read if it has the length that goes with the
messages of its header and lies within the content, with one exception: an index of no bytes is
taken for empty, whatever the header counts.

* `Header.Proper` and `Header.Flawed` are what decoding a header checks, in the order of the checks;
  `layout_exact` is the theorem about the two layouts.
* `Header.Indexes` is what an index has to be; `readIndex_exact` says when one is read, and what an
  opened file has then.
* `messages_dropped` is a file whose messages are passed over.
-/

namespace SpillSort.Spill

/-! ## Words -/

section Words

variable {bytes : List UInt8} {position width : Nat}

theorem length_take_drop (h : position + width ≤ bytes.length) :
    ((bytes.drop position).take width).length = width := by
  rw [List.length_take, List.length_drop]
  omega

/-- A word has the bytes that it was read from. -/
theorem littleEndian_wordAt (h : position + width ≤ bytes.length) :
    littleEndian width (wordAt bytes position width) = (bytes.drop position).take width := by
  have hback := littleEndian_ofLittleEndian ((bytes.drop position).take width)
  rwa [length_take_drop h] at hback

theorem wordAt_lt (h : position + width ≤ bytes.length) :
    wordAt bytes position width < Nat.pow 256 width := by
  have hlt := ofLittleEndian_lt ((bytes.drop position).take width)
  rwa [length_take_drop h] at hlt

theorem toNat_wordAt_32 (h : position + 4 ≤ bytes.length) :
    (UInt32.ofNat (wordAt bytes position 4)).toNat = wordAt bytes position 4 :=
  UInt32.toNat_ofNat_of_lt' (wordAt_lt h)

theorem toNat_wordAt_64 (h : position + 8 ≤ bytes.length) :
    (UInt64.ofNat (wordAt bytes position 8)).toNat = wordAt bytes position 8 :=
  UInt64.toNat_ofNat_of_lt' (wordAt_lt h)

/-- The rest of some bytes is a field and what is behind it. -/
theorem drop_eq_append (bytes : List UInt8) (position width : Nat) :
    bytes.drop position = (bytes.drop position).take width ++ bytes.drop (position + width) := by
  rw [← List.drop_drop, List.take_append_drop]

end Words

namespace Codec

theorem eq_toByte_of_ofByte? {b : UInt8} {c : Codec} (h : ofByte? b = some c) : b = c.toByte := by
  unfold ofByte? at h
  split at h
  case h_4 => cases h
  all_goals
    cases h
    rfl

/-- There are three codecs. -/
theorem exists_ofByte? {n : Nat} (h : n ≤ 2) : ∃ c, ofByte? (UInt8.ofNat n) = some c := by
  match n, h with
  | 0, _ => exact ⟨.none, rfl⟩
  | 1, _ => exact ⟨.lz4, rfl⟩
  | 2, _ => exact ⟨.zstd, rfl⟩

theorem ofByte?_eq_none {n : Nat} (hlt : n < 256) (h : 2 < n) :
    ofByte? (UInt8.ofNat n) = Option.none := by
  cases hc : ofByte? (UInt8.ofNat n) with
  | none => rfl
  | some c =>
    have hn : n = c.toByte.toNat := by
      rw [← eq_toByte_of_ofByte? hc, UInt8.toNat_ofNat_of_lt' hlt]
    have hle : c.toByte.toNat ≤ 2 := by cases c <;> decide
    omega

end Codec

/-! ## Headers -/

namespace Header

variable {bytes : List UInt8} {h : Header} {f : BlockFault}

/-- What a header begins with: the letters `XSRT`, version 1, length 40, and one of three codecs. -/
structure Proper (bytes : List UInt8) : Prop where
  magic : bytes.take 4 = [0x58, 0x53, 0x52, 0x54]
  version : wordAt bytes 4 2 = 1
  length : wordAt bytes 6 2 = 40
  codec : wordAt bytes 8 1 ≤ 2

/-- The first thing that is wrong with the beginning of a header. -/
inductive Flawed (bytes : List UInt8) : BlockFault → Prop where
  | magic (hm : bytes.take 4 ≠ [0x58, 0x53, 0x52, 0x54]) : Flawed bytes .magic
  | version (hm : bytes.take 4 = [0x58, 0x53, 0x52, 0x54]) (hv : wordAt bytes 4 2 ≠ 1) :
    Flawed bytes (.version (wordAt bytes 4 2))
  | headerLength (hm : bytes.take 4 = [0x58, 0x53, 0x52, 0x54]) (hv : wordAt bytes 4 2 = 1)
    (hl : wordAt bytes 6 2 ≠ 40) : Flawed bytes (.headerLength (wordAt bytes 6 2))
  | codec (hm : bytes.take 4 = [0x58, 0x53, 0x52, 0x54]) (hv : wordAt bytes 4 2 = 1)
    (hl : wordAt bytes 6 2 = 40) (hc : 2 < wordAt bytes 8 1) :
    Flawed bytes (.codec (wordAt bytes 8 1))

theorem proper_or_flawed (bytes : List UInt8) : Proper bytes ∨ ∃ f, Flawed bytes f := by
  by_cases hm : bytes.take 4 = [0x58, 0x53, 0x52, 0x54]
  · by_cases hv : wordAt bytes 4 2 = 1
    · by_cases hl : wordAt bytes 6 2 = 40
      · rcases Nat.lt_or_ge 2 (wordAt bytes 8 1) with hc | hc
        · exact .inr ⟨_, .codec hm hv hl hc⟩
        · exact .inl ⟨hm, hv, hl, hc⟩
      · exact .inr ⟨_, .headerLength hm hv hl⟩
    · exact .inr ⟨_, .version hm hv⟩
  · exact .inr ⟨_, .magic hm⟩

/-- The header that the words of some bytes make up. -/
def ofWords (codec : Codec) (bytes : List UInt8) : Header :=
  { codec
    messages := UInt32.ofNat (wordAt bytes 12 4)
    indexOffset := UInt64.ofNat (wordAt bytes 16 8)
    indexLength := UInt64.ofNat (wordAt bytes 24 8)
    schemaHash := UInt64.ofNat (wordAt bytes 32 8) }

theorem decode_of_proper (hp : Proper bytes) : ∃ c, UInt8.ofNat (wordAt bytes 8 1) = c.toByte ∧
    decode bytes = .ok (ofWords c bytes) := by
  have hm : bytes.take 4 = magic := hp.magic
  have hv : wordAt bytes 4 2 = version := hp.version
  have hl : wordAt bytes 6 2 = headerLength := hp.length
  obtain ⟨c, hc⟩ := Codec.exists_ofByte? hp.codec
  refine ⟨c, Codec.eq_toByte_of_ofByte? hc, ?_⟩
  rw [decode, if_neg (not_not_intro hm), if_neg (not_not_intro hv), if_neg (not_not_intro hl), hc]
  rfl

theorem decode_of_flawed (hlen : bytes.length = headerLength) (hf : Flawed bytes f) :
    decode bytes = .error f := by
  unfold decode
  -- a check passes where the flaw comes after it, and fails where the flaw is
  cases hf with
  | magic hm =>
    have hm' : bytes.take 4 ≠ magic := hm
    rw [if_pos hm']
  | version hm hv =>
    have hm' : bytes.take 4 = magic := hm
    have hv' : wordAt bytes 4 2 ≠ version := hv
    rw [if_neg (not_not_intro hm'), if_pos hv']
  | headerLength hm hv hl =>
    have hm' : bytes.take 4 = magic := hm
    have hv' : wordAt bytes 4 2 = version := hv
    have hl' : wordAt bytes 6 2 ≠ Spill.headerLength := hl
    rw [if_neg (not_not_intro hm'), if_neg (not_not_intro hv'), if_pos hl']
  | codec hm hv hl hc =>
    have hm' : bytes.take 4 = magic := hm
    have hv' : wordAt bytes 4 2 = version := hv
    have hl' : wordAt bytes 6 2 = Spill.headerLength := hl
    have hlt : wordAt bytes 8 1 < 256 := wordAt_lt (by rw [hlen]; decide)
    rw [if_neg (not_not_intro hm'), if_neg (not_not_intro hv'), if_neg (not_not_intro hl'),
      Codec.ofByte?_eq_none hlt hc]

theorem exists_decode_iff (hlen : bytes.length = headerLength) :
    (∃ h, decode bytes = .ok h) ↔ Proper bytes := by
  constructor
  · rintro ⟨h, hd⟩
    refine (proper_or_flawed bytes).resolve_right fun ⟨f, hf⟩ => ?_
    rw [decode_of_flawed hlen hf] at hd
    cases hd
  · rintro hp
    obtain ⟨c, -, hd⟩ := decode_of_proper hp
    exact ⟨_, hd⟩

/-- Decoding reports what is wrong first. -/
theorem decode_error_iff (hlen : bytes.length = headerLength) :
    decode bytes = .error f ↔ Flawed bytes f := by
  refine ⟨fun hd => ?_, decode_of_flawed hlen⟩
  rcases proper_or_flawed bytes with hp | ⟨g, hg⟩
  · obtain ⟨c, -, hok⟩ := decode_of_proper hp
    rw [hok] at hd
    cases hd
  · rw [decode_of_flawed hlen hg] at hd
    cases hd
    exact hg

/-- The words of 40 bytes are written to where they were read. -/
theorem encode_ofWords (hlen : bytes.length = headerLength) (c : Codec) :
    (ofWords c bytes).encode = magic ++ littleEndian 2 version ++ littleEndian 2 headerLength ++
      [c.toByte, 0, 0, 0] ++ bytes.drop 12 := by
  have hsize : bytes.length = 40 := hlen
  have hend : (bytes.drop 32).take 8 = bytes.drop 32 :=
    List.take_of_length_le (by rw [List.length_drop]; omega)
  have hrest : bytes.drop 12 = (bytes.drop 12).take 4 ++ ((bytes.drop 16).take 8 ++
      ((bytes.drop 24).take 8 ++ (bytes.drop 32).take 8)) := by
    rw [hend, ← drop_eq_append bytes 24 8, ← drop_eq_append bytes 16 8, ← drop_eq_append bytes 12 4]
  rw [hrest, encode]
  simp only [ofWords, toNat_wordAt_32 (show 12 + 4 ≤ bytes.length by omega),
    toNat_wordAt_64 (show 16 + 8 ≤ bytes.length by omega),
    toNat_wordAt_64 (show 24 + 8 ≤ bytes.length by omega),
    toNat_wordAt_64 (show 32 + 8 ≤ bytes.length by omega),
    littleEndian_wordAt (show 12 + 4 ≤ bytes.length by omega),
    littleEndian_wordAt (show 16 + 8 ≤ bytes.length by omega),
    littleEndian_wordAt (show 24 + 8 ≤ bytes.length by omega),
    littleEndian_wordAt (show 32 + 8 ≤ bytes.length by omega), List.append_assoc]

/-- The first nine bytes of a header are the ones that are checked. -/
theorem take_nine_of_proper (hlen : bytes.length = headerLength) (hp : Proper bytes) {c : Codec}
    (hc : UInt8.ofNat (wordAt bytes 8 1) = c.toByte) :
    bytes.take 9 = magic ++ littleEndian 2 version ++ littleEndian 2 headerLength ++ [c.toByte] := by
  have hsize : bytes.length = 40 := hlen
  have hversion := littleEndian_wordAt (show 4 + 2 ≤ bytes.length by omega)
  have hlength := littleEndian_wordAt (show 6 + 2 ≤ bytes.length by omega)
  have hcodec := littleEndian_wordAt (show 8 + 1 ≤ bytes.length by omega)
  have hbyte : littleEndian 1 (wordAt bytes 8 1) = [c.toByte] := by
    rw [← hc, littleEndian, littleEndian, Nat.mod_eq_of_lt (by have := hp.codec; omega)]
  rw [hp.version] at hversion
  rw [hp.length] at hlength
  calc bytes.take 9
      = bytes.take 4 ++ (bytes.drop 4).take 2 ++ (bytes.drop 6).take 2 ++ (bytes.drop 8).take 1 := by
        rw [← List.take_add, ← List.take_add, ← List.take_add]
    _ = _ := by rw [hp.magic, ← hversion, ← hlength, ← hcodec, hbyte]; rfl

/-- What was read from 40 bytes is written as these bytes, but for the three unused ones. -/
theorem encode_decode (hlen : bytes.length = headerLength) (hd : decode bytes = .ok h) :
    h.encode = bytes.take 9 ++ [0, 0, 0] ++ bytes.drop 12 := by
  have hp := (exists_decode_iff hlen).mp ⟨h, hd⟩
  obtain ⟨c, hc, hok⟩ := decode_of_proper hp
  obtain rfl : ofWords c bytes = h := Except.ok.inj (hok.symm.trans hd)
  rw [encode_ofWords hlen, take_nine_of_proper hlen hp hc]
  simp only [List.append_assoc, List.cons_append, List.nil_append]

theorem encode_injective : Function.Injective encode := fun h h' heq => by
  have hdecode := congrArg decode heq
  rw [decode_encode, decode_encode] at hdecode
  exact Except.ok.inj hdecode

end Header

/-! ## Entries -/

namespace Entry

/-- What was read from 32 bytes is written as these bytes, but for the twelve unused ones. -/
theorem encode_decode {bytes : List UInt8} (hlen : bytes.length = entryLength) :
    (decode bytes).encode = bytes.take 20 ++ List.replicate 12 0 := by
  have hsize : bytes.length = 32 := hlen
  have hoffset := toNat_wordAt_64 (show 0 + 8 ≤ bytes.length by omega)
  have hlength := toNat_wordAt_64 (show 8 + 8 ≤ bytes.length by omega)
  have hrows := toNat_wordAt_32 (show 16 + 4 ≤ bytes.length by omega)
  calc (decode bytes).encode
      = (bytes.drop 0).take 8 ++ (bytes.drop 8).take 8 ++ (bytes.drop 16).take 4 ++
          List.replicate 12 0 := by
        simp only [encode, decode, hoffset, hlength, hrows,
          littleEndian_wordAt (show 0 + 8 ≤ bytes.length by omega),
          littleEndian_wordAt (show 8 + 8 ≤ bytes.length by omega),
          littleEndian_wordAt (show 16 + 4 ≤ bytes.length by omega)]
    _ = _ := by rw [List.drop_zero, ← List.take_add, ← List.take_add]

theorem encode_injective : Function.Injective encode :=
  Function.LeftInverse.injective decode_encode

end Entry

theorem BlockFault.exists_corrupted (f : BlockFault) : ∃ text, f.failure = .corrupted text := by
  cases f <;> exact ⟨_, rfl⟩

/-- **The layout loses nothing.** Headers and entries are read back as they were written, so no two of
them are written alike. Of 40 bytes those are read as a header that begin like one; from all others
the first flaw is reported, as a corruption. Whatever is read is written again as the bytes that it was
read from, with zeros for the bytes that are not used. -/
theorem layout_exact :
    (∀ h : Header, h.encode.length = 40 ∧ Header.decode h.encode = .ok h) ∧
    (∀ e : Entry, e.encode.length = 32 ∧ Entry.decode e.encode = e) ∧
    (∀ bytes : List UInt8, bytes.length = 40 →
      ((∃ h, Header.decode bytes = .ok h) ↔ Header.Proper bytes) ∧
      (∀ f, Header.decode bytes = .error f ↔ Header.Flawed bytes f) ∧
      ∀ h, Header.decode bytes = .ok h →
        h.encode = bytes.take 9 ++ [0, 0, 0] ++ bytes.drop 12) ∧
    (∀ f : BlockFault, ∃ text, f.failure = .corrupted text) ∧
    (∀ bytes : List UInt8, bytes.length = 32 →
      (Entry.decode bytes).encode = bytes.take 20 ++ List.replicate 12 0) ∧
    Function.Injective Header.encode ∧ Function.Injective Entry.encode :=
  ⟨fun h => ⟨h.length_encode, h.decode_encode⟩, fun e => ⟨e.length_encode, e.decode_encode⟩,
    fun _ hlen => ⟨Header.exists_decode_iff hlen, fun _ => Header.decode_error_iff hlen,
      fun _ => Header.encode_decode hlen⟩,
    BlockFault.exists_corrupted, fun _ => Entry.encode_decode, Header.encode_injective,
    Entry.encode_injective⟩

namespace Sample

/-- The header of a file with two messages, whose unused bytes are not zero. -/
def headerBytes : List UInt8 :=
  [0x58, 0x53, 0x52, 0x54, 1, 0, 40, 0, 2, 7, 8, 9, 2, 0, 0, 0, 0, 1, 0, 0, 0, 0, 0, 0, 64, 0, 0, 0, 0,
    0, 0, 0, 5, 0, 0, 0, 0, 0, 0, 0]

end Sample

/-- The unused bytes are lost, and nothing else. -/
theorem layout_exact_unused_bytes : Sample.headerBytes.length = 40 ∧
    ∃ h, Header.decode Sample.headerBytes = .ok h ∧ h = ⟨.zstd, 2, 256, 64, 5⟩ ∧
      h.encode = Sample.headerBytes.take 9 ++ [0, 0, 0] ++ Sample.headerBytes.drop 12 := by
  have hlen : Sample.headerBytes.length = 40 := rfl
  have hd : Header.decode Sample.headerBytes = .ok ⟨.zstd, 2, 256, 64, 5⟩ := by rfl
  exact ⟨hlen, _, hd, rfl, (layout_exact.2.2.1 Sample.headerBytes hlen).2.2 _ hd⟩

/-! ## The index -/

section Index

variable {content : ByteArray} {position count : Nat} {es : List Entry}

/-- The records of an index are decoded one by one. -/
theorem entriesAt?_eq_some_iff : entriesAt? content position count = some es ↔
    es.length = count ∧ ∀ i < count, ∃ record,
      bytesAt? content (position + i * entryLength) entryLength = some record ∧
        es[i]? = some (Entry.decode record) := by
  induction count generalizing position es with
  | zero =>
    rw [entriesAt?, Option.some.injEq, eq_comm, List.length_eq_zero_iff]
    exact ⟨fun h => ⟨h, fun i hi => absurd hi (Nat.not_lt_zero i)⟩, And.left⟩
  | succ count ih =>
    have hstep : ∀ i, position + (i + 1) * entryLength =
        position + entryLength + i * entryLength := by
      intro i
      rw [Nat.succ_mul]
      omega
    rw [entriesAt?]
    constructor
    · intro h
      split at h
      · cases h
      next record hrecord =>
        obtain ⟨rest, hrest, rfl⟩ := Option.map_eq_some_iff.mp h
        obtain ⟨hlen, hall⟩ := ih.mp hrest
        refine ⟨congrArg Nat.succ hlen, fun i hi => ?_⟩
        cases i with
        | zero => exact ⟨record, by rwa [Nat.zero_mul, Nat.add_zero], rfl⟩
        | succ i =>
          rw [hstep, List.getElem?_cons_succ]
          exact hall i (Nat.lt_of_succ_lt_succ hi)
    · rintro ⟨hlen, hall⟩
      obtain ⟨e, rest, rfl⟩ := List.exists_cons_of_length_eq_add_one hlen
      obtain ⟨record, hrecord, he⟩ := hall 0 (Nat.succ_pos count)
      rw [Nat.zero_mul, Nat.add_zero] at hrecord
      obtain rfl : e = Entry.decode record := by simpa using he
      have hrest : entriesAt? content (position + entryLength) count = some rest := by
        refine ih.mpr ⟨Nat.succ.inj hlen, fun i hi => ?_⟩
        obtain ⟨r, hr, her⟩ := hall (i + 1) (Nat.succ_lt_succ hi)
        rw [hstep] at hr
        exact ⟨r, hr, by rwa [List.getElem?_cons_succ] at her⟩
      rw [hrecord]
      simp only [hrest, Option.map_some]

theorem exists_bytesAt?_iff {length : Nat} (hlen : length ≠ 0) :
    (∃ bytes, bytesAt? content position length = some bytes) ↔
      position + length ≤ content.size := by
  unfold bytesAt?
  by_cases h : position + length ≤ content.size
  · rw [if_pos (.inr h)]
    exact ⟨fun _ => h, fun _ => ⟨_, rfl⟩⟩
  · rw [if_neg (not_or.mpr ⟨hlen, h⟩)]
    exact ⟨fun ⟨_, hb⟩ => (by cases hb), fun hle => absurd hle h⟩

/-- Entries can be read if all their bytes are there. -/
theorem exists_entriesAt?_iff (hcount : count ≠ 0) :
    (∃ es, entriesAt? content position count = some es) ↔
      position + count * entryLength ≤ content.size := by
  have hlen : entryLength = 32 := rfl
  have hrecord : ∀ p, (∃ bytes, bytesAt? content p entryLength = some bytes) ↔
      p + entryLength ≤ content.size := fun p => exists_bytesAt?_iff (by decide)
  constructor
  · rintro ⟨es, hes⟩
    -- the last record ends where the index ends
    obtain ⟨record, hlast, -⟩ := (entriesAt?_eq_some_iff.mp hes).2 (count - 1) (by omega)
    have hle := (hrecord _).mp ⟨record, hlast⟩
    rw [hlen] at hle ⊢
    omega
  · intro hle
    have hall : ∀ i < count, ∃ record,
        bytesAt? content (position + i * entryLength) entryLength = some record := by
      intro i hi
      refine (hrecord _).mpr ?_
      rw [hlen] at hle ⊢
      omega
    choose! record hrecords using hall
    refine ⟨(List.range count).map fun i => Entry.decode (record i), ?_⟩
    refine entriesAt?_eq_some_iff.mpr ⟨by simp, fun i hi => ⟨record i, hrecords i hi, ?_⟩⟩
    simp [hi]

end Index

namespace Header

/-- The index that a header points to lies within the content, where the medium can be asked for it. -/
def IndexWithin (h : Header) (content : ByteArray) (farthest : Nat) : Prop :=
  h.indexOffset.toNat + h.indexLength.toNat ≤ content.size ∧ h.indexOffset.toNat < farthest

/-- The index has the length that goes with the messages. -/
def IndexFits (h : Header) : Prop := h.indexLength.toNat = 32 * h.messages.toNat

end Header

section ReadIndex

variable {h : Header} {content : ByteArray} {farthest : Nat} {es : List Entry}

theorem readIndex_of_zero (hz : h.indexLength = 0) : readIndex h content farthest = .ok [] := by
  rw [readIndex, hz]
  rfl

theorem readIndex_of_not_fits (hz : h.indexLength ≠ 0) (hf : ¬h.IndexFits) :
    readIndex h content farthest = .error (.corrupted
      s!"spill file index length {h.indexLength.toNat} does not match {h.messages.toNat} messages") := by
  have hne : h.indexLength.toNat ≠ 0 := fun he => hz (UInt64.toNat_inj.mp he)
  have hcheck : h.indexLength.toNat % entryLength ≠ 0 ∨
      h.indexLength.toNat / entryLength ≠ h.messages.toNat := by
    rw [Header.IndexFits] at hf
    rw [show entryLength = 32 from rfl]
    omega
  rw [readIndex, if_neg hne, if_pos hcheck]
  rfl

/-- An index that fits its header is read record by record, if it is there. -/
theorem readIndex_of_fits (hz : h.indexLength ≠ 0) (hf : h.IndexFits) :
    readIndex h content farthest =
      if farthest ≤ h.indexOffset.toNat then
        .error (.io "seek to spill file index" .invalidArgument)
      else
        match entriesAt? content h.indexOffset.toNat h.messages.toNat with
        | none => .error (.io "read spill file index entry" .shortRead)
        | some entries => .ok entries := by
  have hne : h.indexLength.toNat ≠ 0 := fun he => hz (UInt64.toNat_inj.mp he)
  have hcheck : ¬(h.indexLength.toNat % entryLength ≠ 0 ∨
      h.indexLength.toNat / entryLength ≠ h.messages.toNat) := by
    rw [Header.IndexFits] at hf
    rw [show entryLength = 32 from rfl]
    omega
  rw [readIndex, if_neg hne]
  exact if_neg hcheck

theorem exists_entriesAt?_of_fits (hz : h.indexLength ≠ 0) (hf : h.IndexFits) :
    (∃ es, entriesAt? content h.indexOffset.toNat h.messages.toNat = some es) ↔
      h.indexOffset.toNat + h.indexLength.toNat ≤ content.size := by
  have hne : h.indexLength.toNat ≠ 0 := fun he => hz (UInt64.toNat_inj.mp he)
  rw [Header.IndexFits] at hf
  rw [exists_entriesAt?_iff (by omega), show entryLength = 32 from rfl, hf, Nat.mul_comm]

/-- The index of a header lies in a content, and these are its entries. -/
structure Header.Indexes (h : Header) (content : ByteArray) (farthest : Nat) (es : List Entry) :
    Prop where
  fits : h.IndexFits
  within : h.IndexWithin content farthest
  length : es.length = h.messages.toNat
  records : ∀ i < h.messages.toNat, ∃ record,
    bytesAt? content (h.indexOffset.toNat + i * 32) 32 = some record ∧
      es[i]? = some (Entry.decode record)

theorem readIndex_ok_iff (hz : h.indexLength ≠ 0) :
    readIndex h content farthest = .ok es ↔ h.Indexes content farthest es := by
  by_cases hf : h.IndexFits
  · rw [readIndex_of_fits hz hf]
    have hwithin : (∃ es, entriesAt? content h.indexOffset.toNat h.messages.toNat = some es) ↔
        h.indexOffset.toNat + h.indexLength.toNat ≤ content.size := exists_entriesAt?_of_fits hz hf
    have hentries : ∀ es, entriesAt? content h.indexOffset.toNat h.messages.toNat = some es ↔ _ :=
      fun _ => entriesAt?_eq_some_iff
    split
    · next hfar =>
      exact ⟨fun he => (by cases he), fun he => absurd he.within.2 (Nat.not_lt.mpr hfar)⟩
    next hnear =>
    split
    · next hnone =>
      refine ⟨fun he => (by cases he), fun he => ?_⟩
      obtain ⟨es, hes⟩ := hwithin.mpr he.within.1
      rw [hnone] at hes
      cases hes
    · next entries hsome =>
      constructor
      · rintro ⟨⟩
        obtain ⟨hlen, hrecords⟩ := (hentries es).mp hsome
        exact ⟨hf, ⟨hwithin.mp ⟨es, hsome⟩, Nat.not_le.mp hnear⟩, hlen, hrecords⟩
      · rintro he
        have hes := (hentries es).mpr ⟨he.length, he.records⟩
        exact congrArg Except.ok (Option.some.inj (hsome.symm.trans hes))
  · rw [readIndex_of_not_fits hz hf]
    exact ⟨fun he => (by cases he), fun he => absurd he.fits hf⟩

/-- Without the shortcut for an index of no bytes, the entries would be those of the index. -/
theorem readIndex_ok_iff_or : readIndex h content farthest = .ok es ↔
    (h.indexLength = 0 ∧ es = []) ∨ (h.indexLength ≠ 0 ∧ h.Indexes content farthest es) := by
  by_cases hz : h.indexLength = 0
  · rw [readIndex_of_zero hz]
    refine ⟨fun he => .inl ⟨hz, (Except.ok.inj he).symm⟩, ?_⟩
    rintro (⟨-, rfl⟩ | ⟨hnz, -⟩)
    · rfl
    · exact absurd hz hnz
  · rw [readIndex_ok_iff hz]
    exact ⟨fun he => .inr ⟨hz, he⟩, fun he => (he.resolve_left fun hn => hz hn.1).2⟩

/-- An index that is not there, or only in part, is a fault of the medium. -/
theorem readIndex_of_not_within (hz : h.indexLength ≠ 0) (hf : h.IndexFits)
    (hw : ¬h.IndexWithin content farthest) :
    readIndex h content farthest = .error (.io "seek to spill file index" .invalidArgument) ∨
      readIndex h content farthest = .error (.io "read spill file index entry" .shortRead) := by
  rw [readIndex_of_fits hz hf]
  split
  · exact .inl rfl
  next hnear =>
  refine .inr ?_
  split
  · rfl
  · next entries hsome =>
    exact absurd ⟨(exists_entriesAt?_of_fits hz hf).mp ⟨_, hsome⟩, Nat.not_le.mp hnear⟩ hw

end ReadIndex

theorem Disk.read_congr {d d' : Disk} (hd : d'.contents = d.contents) (n : Node) :
    d'.read n = d.read n := by
  cases n with
  | directory => rfl
  | file c => rw [Disk.read, Disk.read, hd]

/-- A look for troubles leaves the files alone. -/
theorem contents_of_brace (context : String) (w : Workspace) :
    Gives (Work.brace context) (fun _ v => v.disk.contents = w.disk.contents) (fun _ _ => True) w := by
  have hcontents := w.disk.contents_nextTrouble
  refine Work.gives_brace (fun d hd => ?_) fun _ _ _ => trivial
  rw [hd] at hcontents
  exact hcontents

/-- A reader has the entries that were read from the index of its file. -/
structure Reader.Indexed (r : Reader) (d : Disk) (header : Header) (content : ByteArray) : Prop where
  read : d.read r.node = .ok content
  readHeader : readHeader content = .ok header
  readIndex : readIndex header content farthestSeek = .ok r.pending

namespace Reader

variable {r : Reader} {d : Disk} {header : Header} {content : ByteArray}

/-- Every message that is counted has its entry, unless the index has no bytes. -/
theorem Indexed.length_pending (h : r.Indexed d header content) :
    (header.indexLength = 0 ∧ r.pending = []) ∨ r.pending.length = header.messages.toNat :=
  (readIndex_ok_iff_or.mp h.readIndex).imp_right fun ⟨_, he⟩ => he.length

/-- An opened file has its entries from the index. -/
theorem open_indexed (path : String) (schema : Schema) (w : Workspace) :
    Gives (Reader.open path schema) (fun r v => ∃ header content, r.Indexed v.disk header content)
      (fun _ _ => True) w := by
  refine gives_open ((contents_of_brace _ w).mono (fun _ w _ => ?_) fun _ _ _ => trivial)
  split
  · trivial
  next node _ =>
  refine (contents_of_brace _ w).mono (fun _ w _ => ?_) fun _ _ _ => trivial
  split
  · trivial
  next content hcontent =>
  split
  · trivial
  next header hheader =>
  split
  · trivial
  refine (contents_of_brace _ w).mono (fun _ v hv => ?_) fun _ _ _ => trivial
  split
  · trivial
  · next entries hentries =>
    exact ⟨header, content, (Disk.read_congr hv node).trans hcontent, hheader, hentries⟩

end Reader

/-- **An index is read if it fits its header.** Reading gives the entries of the index, one for each
message that the header counts, if the index has the length for that and lies within the content; an
index of another length is reported as a corruption, one that is not there as a fault of the medium.
But an index of no bytes is read as empty whatever the header counts. An opened file has the entries
that were read in this way. -/
theorem readIndex_exact (h : Header) (content : ByteArray) (farthest : Nat) :
    (∀ es, readIndex h content farthest = .ok es ↔
      (h.indexLength = 0 ∧ es = []) ∨ (h.indexLength ≠ 0 ∧ h.Indexes content farthest es)) ∧
    (h.indexLength ≠ 0 → ¬h.IndexFits → readIndex h content farthest = .error (.corrupted
      s!"spill file index length {h.indexLength.toNat} does not match {h.messages.toNat} messages")) ∧
    (h.indexLength ≠ 0 → h.IndexFits → ¬h.IndexWithin content farthest →
      readIndex h content farthest = .error (.io "seek to spill file index" .invalidArgument) ∨
        readIndex h content farthest = .error (.io "read spill file index entry" .shortRead)) ∧
    ∀ (path : String) (schema : Schema) (w : Workspace),
      Gives (Reader.open path schema)
        (fun r v => ∃ header content, r.Indexed v.disk header content ∧
          ((header.indexLength = 0 ∧ r.pending = []) ∨
            r.pending.length = header.messages.toNat))
        (fun _ _ => True) w :=
  ⟨fun _ => readIndex_ok_iff_or, readIndex_of_not_fits, readIndex_of_not_within,
    fun path schema w => (Reader.open_indexed path schema w).mono
      (fun _ _ ⟨_, _, h⟩ => ⟨_, _, h, h.length_pending⟩) fun _ _ _ => trivial⟩

namespace Sample

/-- The header of a file with some messages, whose index of some bytes is behind the header. -/
def counting (messages : UInt32) (indexLength : UInt64) : Header :=
  { codec := .lz4, messages, indexOffset := 40, indexLength, schemaHash := 0 }

/-- A file that ends behind its header. -/
def headerOnly (h : Header) : ByteArray := ⟨h.encode.toArray⟩

theorem readHeader_headerOnly (h : Header) : readHeader (headerOnly h) = .ok h := by
  have hparts : (headerOnly h).data.toList = [] ++ (h.encode ++ []) := by
    rw [List.append_nil, List.nil_append]
    rfl
  have hbytes := bytesAt?_append h.encode hparts
  rw [Header.length_encode, List.length_nil] at hbytes
  rw [readHeader, hbytes]
  simp only [Header.decode_encode, Except.mapError]

end Sample

/-- An index for two messages does not fit a header that counts one, and one that is cut off is not
read. -/
theorem readIndex_exact_one_message :
    readIndex (Sample.counting 1 64) (Sample.headerOnly (Sample.counting 1 64)) farthestSeek =
      .error (.corrupted "spill file index length 64 does not match 1 messages") ∧
    (readIndex (Sample.counting 1 32) (Sample.headerOnly (Sample.counting 1 32)) farthestSeek =
        .error (.io "seek to spill file index" .invalidArgument) ∨
      readIndex (Sample.counting 1 32) (Sample.headerOnly (Sample.counting 1 32)) farthestSeek =
        .error (.io "read spill file index entry" .shortRead)) := by
  have hsize : (Sample.headerOnly (Sample.counting 1 32)).size = 40 := rfl
  constructor
  · refine (readIndex_exact _ _ _).2.1 (by decide) ?_
    rw [Header.IndexFits]
    decide
  · refine (readIndex_exact _ _ _).2.2.1 (by decide) rfl ?_
    rw [Header.IndexWithin, hsize]
    decide

/-- Three messages are counted, and no entry is missed. -/
theorem messages_dropped : ∃ content, readHeader content = .ok (Sample.counting 3 0) ∧
    (Sample.counting 3 0).messages = 3 ∧ ¬(Sample.counting 3 0).IndexFits ∧
    readIndex (Sample.counting 3 0) content farthestSeek = .ok [] := by
  refine ⟨_, Sample.readHeader_headerOnly _, rfl, ?_, readIndex_of_zero rfl⟩
  rw [Header.IndexFits]
  decide

end SpillSort.Spill
