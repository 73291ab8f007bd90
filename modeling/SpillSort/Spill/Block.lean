import SpillSort.Spill.Codec
import SpillSort.Spill.LittleEndian

/-!
# Layout of spill files

A spill file is a header of 40 bytes, the messages, and an index with one entry of 32 bytes for each
message. The header says where the index is; all words are little-endian.

* `Header.encode` and `Header.decode`, `Entry.encode` and `Entry.decode` are the two layouts.
* `readHeader` and `readIndex` read them out of the bytes of a file.
-/

namespace SpillSort.Spill

/-- What a spill file begins with. -/
def magic : List UInt8 := [0x58, 0x53, 0x52, 0x54]

/-- The version of the layout. -/
def version : Nat := 1

/-- Bytes of a header. -/
def headerLength : Nat := 40

/-- Bytes of an index entry. -/
def entryLength : Nat := 32

/-- Why bytes are not those of a spill file. -/
inductive BlockFault where
  | magic
  | version (found : Nat)
  | headerLength (found : Nat)
  | codec (found : Nat)
  /-- The length of the index and the number of messages disagree. -/
  | indexLength (found messages : Nat)
  deriving DecidableEq, Repr

/-- A layout fault as a failure. -/
def BlockFault.failure : BlockFault → Failure
  | magic => .corrupted "spill file magic mismatch"
  | version v => .corrupted s!"unsupported spill file version: {v}"
  | headerLength n => .corrupted s!"unsupported spill file header length: {n}"
  | codec v => .corrupted s!"unknown spill codec value: {v}"
  | indexLength n m => .corrupted s!"spill file index length {n} does not match {m} messages"

/-- The header of a spill file. -/
structure Header where
  codec : Codec
  messages : UInt32
  indexOffset : UInt64
  indexLength : UInt64
  schemaHash : UInt64
  deriving DecidableEq, Repr

/-- Where a message lies in its file, and how many rows it holds. -/
structure Entry where
  offset : UInt64
  length : UInt64
  rows : UInt32
  deriving DecidableEq, Repr

/-- The word of `width` bytes at a position. -/
def wordAt (bytes : List UInt8) (position width : Nat) : Nat :=
  ofLittleEndian ((bytes.drop position).take width)

namespace Header

/-- The header of a file whose index is not there yet. -/
def placeholder (codec : Codec) (schemaHash : UInt64) : Header :=
  { codec, messages := 0, indexOffset := 0, indexLength := 0, schemaHash }

/-- The 40 bytes of a header; three bytes behind the codec are unused. -/
def encode (h : Header) : List UInt8 :=
  magic ++ littleEndian 2 version ++ littleEndian 2 headerLength ++ [h.codec.toByte, 0, 0, 0]
    ++ littleEndian 4 h.messages.toNat ++ littleEndian 8 h.indexOffset.toNat
    ++ littleEndian 8 h.indexLength.toNat ++ littleEndian 8 h.schemaHash.toNat

/-- The header in 40 bytes. Magic, version, length and codec are checked in this order. -/
def decode (bytes : List UInt8) : Except BlockFault Header :=
  if bytes.take 4 ≠ magic then .error .magic
  else if wordAt bytes 4 2 ≠ version then .error (.version (wordAt bytes 4 2))
  else if wordAt bytes 6 2 ≠ headerLength then .error (.headerLength (wordAt bytes 6 2))
  else
    match Codec.ofByte? (UInt8.ofNat (wordAt bytes 8 1)) with
    | none => .error (.codec (wordAt bytes 8 1))
    | some codec =>
      .ok { codec
            messages := UInt32.ofNat (wordAt bytes 12 4)
            indexOffset := UInt64.ofNat (wordAt bytes 16 8)
            indexLength := UInt64.ofNat (wordAt bytes 24 8)
            schemaHash := UInt64.ofNat (wordAt bytes 32 8) }

end Header

namespace Entry

/-- The 32 bytes of an entry; the last twelve are unused. -/
def encode (e : Entry) : List UInt8 :=
  littleEndian 8 e.offset.toNat ++ littleEndian 8 e.length.toNat ++ littleEndian 4 e.rows.toNat
    ++ List.replicate 12 0

/-- The entry in 32 bytes. -/
def decode (bytes : List UInt8) : Entry :=
  { offset := UInt64.ofNat (wordAt bytes 0 8)
    length := UInt64.ofNat (wordAt bytes 8 8)
    rows := UInt32.ofNat (wordAt bytes 16 4) }

end Entry

/-- The `length` bytes of a content from `position` on, if it has that many. No bytes are had
everywhere. -/
def bytesAt? (content : ByteArray) (position length : Nat) : Option (List UInt8) :=
  if length = 0 ∨ position + length ≤ content.size then
    some (content.extract position (position + length)).data.toList
  else none

/-- The header at the start of a content. -/
def readHeader (content : ByteArray) : Except Failure Header :=
  match bytesAt? content 0 headerLength with
  | none => .error (.io "read spill file header" .shortRead)
  | some bytes => (Header.decode bytes).mapError BlockFault.failure

/-- `count` entries from `position` on, if the content holds them all. -/
def entriesAt? (content : ByteArray) : (position count : Nat) → Option (List Entry)
  | _, 0 => some []
  | position, count + 1 =>
    match bytesAt? content position entryLength with
    | none => none
    | some bytes =>
      (entriesAt? content (position + entryLength) count).map (Entry.decode bytes :: ·)

/-- The index a header points to. An index of no bytes is empty, whatever the header counts;
otherwise its length has to be that of the counted entries, which have to lie within the content.
A medium cannot be asked for positions from `farthest` on. -/
def readIndex (h : Header) (content : ByteArray) (farthest : Nat := 18446744073709551616) :
    Except Failure (List Entry) :=
  let length := h.indexLength.toNat
  let messages := h.messages.toNat
  if length = 0 then .ok []
  else if length % entryLength ≠ 0 ∨ length / entryLength ≠ messages then
    .error (BlockFault.indexLength length messages).failure
  else if farthest ≤ h.indexOffset.toNat then
    .error (.io "seek to spill file index" .invalidArgument)
  else
    match entriesAt? content h.indexOffset.toNat messages with
    | none => .error (.io "read spill file index entry" .shortRead)
    | some entries => .ok entries

end SpillSort.Spill
