import SpillSort.Spill.Block

/-!
# Reading back the layout

The header and the index entries of a spill file are read back as they were written, wherever they
stand in the bytes of a file.

* `Header.decode_encode` and `Entry.decode_encode` are the two layouts.
* `bytesAt?_append` and `entriesAt?_append` find bytes and entries between other bytes.
-/

namespace SpillSort.Spill

/-! ## Words -/

section Words

variable {bytes u v : List UInt8} {position : Nat}

/-- A word between other bytes. -/
theorem wordAt_eq {width n : Nat} (hb : bytes = u ++ (littleEndian width n ++ v))
    (h : u.length = position) : wordAt bytes position width = n % Nat.pow 256 width := by
  rw [hb, wordAt, ← h, List.drop_left, List.take_left' (length_littleEndian width n),
    ofLittleEndian_littleEndian]

theorem ofNat_wordAt_32 {x : UInt32} (hb : bytes = u ++ (littleEndian 4 x.toNat ++ v))
    (h : u.length = position) : UInt32.ofNat (wordAt bytes position 4) = x := by
  have hx : x.toNat % Nat.pow 256 4 = x.toNat := Nat.mod_eq_of_lt x.toNat_lt
  rw [wordAt_eq hb h, hx, UInt32.ofNat_toNat]

theorem ofNat_wordAt_64 {x : UInt64} (hb : bytes = u ++ (littleEndian 8 x.toNat ++ v))
    (h : u.length = position) : UInt64.ofNat (wordAt bytes position 8) = x := by
  have hx : x.toNat % Nat.pow 256 8 = x.toNat := Nat.mod_eq_of_lt x.toNat_lt
  rw [wordAt_eq hb h, hx, UInt64.ofNat_toNat]

end Words

theorem Codec.ofByte?_toByte (c : Codec) : Codec.ofByte? c.toByte = some c := by
  cases c <;> rfl

/-! ## Headers and entries -/

theorem length_magic : magic.length = 4 := rfl

namespace Header

@[simp] theorem length_encode (h : Header) : h.encode.length = headerLength := by
  simp [encode, length_magic, headerLength]

theorem decode_encode (h : Header) : Header.decode h.encode = .ok h := by
  have hmagic : h.encode.take 4 = magic := by
    simp only [encode, List.append_assoc]
    exact List.take_left' length_magic
  have hversion : wordAt h.encode 4 2 = version :=
    wordAt_eq (n := version) (u := magic) (by simp only [encode, List.append_assoc]; rfl) rfl
  have hlength : wordAt h.encode 6 2 = headerLength :=
    wordAt_eq (n := headerLength) (u := magic ++ littleEndian 2 version)
      (by simp only [encode, List.append_assoc]; rfl) (by simp [length_magic])
  have hcodec : UInt8.ofNat (wordAt h.encode 8 1) = h.codec.toByte := by
    simp [encode, wordAt, magic, littleEndian, ofLittleEndian]
  let start := magic ++ littleEndian 2 version ++ littleEndian 2 headerLength
    ++ [h.codec.toByte, 0, 0, 0]
  have hmessages : UInt32.ofNat (wordAt h.encode 12 4) = h.messages :=
    ofNat_wordAt_32 (u := start) (by simp only [encode, start, List.append_assoc]; rfl)
      (by simp [start, length_magic])
  have hoffset : UInt64.ofNat (wordAt h.encode 16 8) = h.indexOffset :=
    ofNat_wordAt_64 (u := start ++ littleEndian 4 h.messages.toNat)
      (by simp only [encode, start, List.append_assoc]; rfl) (by simp [start, length_magic])
  have hindex : UInt64.ofNat (wordAt h.encode 24 8) = h.indexLength :=
    ofNat_wordAt_64
      (u := start ++ littleEndian 4 h.messages.toNat ++ littleEndian 8 h.indexOffset.toNat)
      (by simp only [encode, start, List.append_assoc]; rfl) (by simp [start, length_magic])
  have hhash : UInt64.ofNat (wordAt h.encode 32 8) = h.schemaHash :=
    ofNat_wordAt_64 (v := [])
      (u := start ++ littleEndian 4 h.messages.toNat ++ littleEndian 8 h.indexOffset.toNat
        ++ littleEndian 8 h.indexLength.toNat)
      (by simp only [encode, start, List.append_assoc, List.append_nil])
      (by simp [start, length_magic])
  unfold decode
  rw [if_neg (by simp [hmagic]), if_neg (by simp [hversion]), if_neg (by simp [hlength]), hcodec,
    Codec.ofByte?_toByte, hmessages, hoffset, hindex, hhash]

end Header

namespace Entry

@[simp] theorem length_encode (e : Entry) : e.encode.length = entryLength := by
  simp [encode, entryLength]

theorem decode_encode (e : Entry) : Entry.decode e.encode = e := by
  have hoffset : UInt64.ofNat (wordAt e.encode 0 8) = e.offset :=
    ofNat_wordAt_64 (u := []) (by simp only [encode, List.append_assoc, List.nil_append]; rfl) rfl
  have hlength : UInt64.ofNat (wordAt e.encode 8 8) = e.length :=
    ofNat_wordAt_64 (u := littleEndian 8 e.offset.toNat)
      (by simp only [encode, List.append_assoc]; rfl) (by simp)
  have hrows : UInt32.ofNat (wordAt e.encode 16 4) = e.rows :=
    ofNat_wordAt_32 (u := littleEndian 8 e.offset.toNat ++ littleEndian 8 e.length.toNat)
      (by simp only [encode, List.append_assoc]; rfl) (by simp)
  rw [decode, hoffset, hlength, hrows]

end Entry

/-! ## Contents -/

section Contents

variable {content : ByteArray} {u v : List UInt8}

/-- Bytes that stand between other bytes of a content. -/
theorem bytesAt?_append (bytes : List UInt8)
    (h : content.data.toList = u ++ (bytes ++ v)) :
    bytesAt? content u.length bytes.length = some bytes := by
  have hsize : content.size = u.length + (bytes.length + v.length) := by
    rw [← List.length_append, ← List.length_append, ← h, Array.length_toList]
    rfl
  rw [bytesAt?, if_pos (.inr (by omega)), ByteArray.data_extract, Array.toList_extract, h]
  simp [List.extract]

/-- Entries that stand one behind the other between other bytes of a content. -/
theorem entriesAt?_append (entries : List Entry)
    (h : content.data.toList = u ++ (entries.flatMap Entry.encode ++ v)) :
    entriesAt? content u.length entries.length = some entries := by
  induction entries generalizing u with
  | nil => rfl
  | cons e entries ih =>
    rw [List.flatMap_cons, List.append_assoc] at h
    have hrest := ih (u := u ++ e.encode) (by rw [List.append_assoc]; exact h)
    rw [List.length_append, Entry.length_encode] at hrest
    have hfirst := bytesAt?_append _ h
    rw [Entry.length_encode] at hfirst
    rw [List.length_cons, entriesAt?, hfirst]
    simp only [hrest, Option.map_some, Entry.decode_encode]

end Contents

end SpillSort.Spill
