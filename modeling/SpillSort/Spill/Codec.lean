import SpillSort.Failure
import SpillSort.Text.Blank

/-!
# Spill codecs

The compression a spill file declares, by name in the configuration and by number in the file.
-/

namespace SpillSort.Spill

/-- How the messages of a spill file are compressed. -/
inductive Codec where
  | none
  | lz4
  | zstd
  deriving DecidableEq, Repr

namespace Codec

/-- The name of a codec. -/
def name : Codec → String
  | none => "none"
  | lz4 => "lz4"
  | zstd => "zstd"

/-- The number of a codec in a file header. -/
def toByte : Codec → UInt8
  | none => 0
  | lz4 => 1
  | zstd => 2

/-- The codec with a number. -/
def ofByte? : UInt8 → Option Codec
  | 0 => some none
  | 1 => some lz4
  | 2 => some zstd
  | _ => Option.none

/-- The codec called `text`: capitals and white space around the name do not matter, and no name at
all means no compression. -/
def ofName (text : String) : Except Failure Codec :=
  match Text.lowerAscii (Text.trim text) with
  | "none" => .ok none
  | "" => .ok none
  | "lz4" => .ok lz4
  | "zstd" => .ok zstd
  | _ => .error (.config s!"unsupported sort.spill_compression: {text}")

end Codec

/-- The scheme of a local file system. -/
def localScheme : String := "file://"

/-- Accepts the location of a local file system, and nothing else. -/
def checkLocation (uri : String) : Except Failure Unit :=
  let uri := Text.trim uri
  if Text.lowerAscii (String.ofList (uri.toList.take localScheme.length)) = localScheme then .ok ()
  else .error (.config s!"sort.spill_fs must be a {localScheme} URI, got '{uri}'")

end SpillSort.Spill
