import SpillSort.Data.Batch
import SpillSort.Spill.Block

/-!
# Formats of messages

A spill file holds a message for each batch: a stream that begins with the schema, so that it is read
without knowing anything of the batch. How streams are written is left to a format.

* `MessageFormat` is a format, and what is relied on: a stream of one batch reads as this batch.
* `Message.decode` reads a message that holds exactly one batch; `Message.decode_encode` says that
  this undoes the writing.
-/

namespace SpillSort.Spill

/-- A format of streams. -/
class MessageFormat where
  /-- The stream of one batch, in a codec. -/
  encode : Codec → Batch → List UInt8
  /-- What a stream holds, one batch or fault after the other, if it is a stream at all. -/
  read : List UInt8 → Except ColumnFault (List (Except ColumnFault Batch))
  /-- In every codec a batch is read back, with columns in buffers of their own. -/
  read_encode (codec : Codec) (b : Batch) :
    read (encode codec b) = .ok [.ok (Batch.ofColumns b.schema b.rows b.columns)]
  /-- No stream is shorter than its entry in the index of a file. -/
  entryLength_le (codec : Codec) (b : Batch) : entryLength ≤ (encode codec b).length

namespace Message

variable [MessageFormat]

/-- The only batch of a message. -/
def decode (bytes : List UInt8) : Except Failure Batch :=
  match MessageFormat.read bytes with
  | .error fault => .error (.column fault)
  | .ok [] => .error (.corrupted "spill message did not contain a record batch")
  | .ok (.error fault :: _) => .error (.column fault)
  | .ok [.ok b] => .ok b
  | .ok (.ok _ :: _ :: _) =>
    .error (.corrupted "spill message contained more than one record batch")

theorem decode_encode (codec : Codec) (b : Batch) :
    decode (MessageFormat.encode codec b) = .ok (Batch.ofColumns b.schema b.rows b.columns) := by
  rw [decode, MessageFormat.read_encode]

end Message

end SpillSort.Spill
