import BootAssembly.Checked
import BootAssembly.Crc32
import BootAssembly.Deflate.Decoder
import BootAssembly.Endian

namespace BootAssembly.Gzip

def magic : Bytes := [0x1f, 0x8b]

def headerSize : Nat := 10

def trailerSize : Nat := 8

def deflateMethod : UInt8 := 8

def hasHeaderCrc (flags : UInt8) : Bool := flags &&& 0x02 != 0

def hasExtra (flags : UInt8) : Bool := flags &&& 0x04 != 0

def hasName (flags : UInt8) : Bool := flags &&& 0x08 != 0

def hasComment (flags : UInt8) : Bool := flags &&& 0x10 != 0

def hasReserved (flags : UInt8) : Bool := flags &&& 0xE0 != 0

def isMember (bytes : Bytes) : Bool := headerSize < bytes.length && bytes.take 2 == magic

def skipText (bytes : Bytes) (start : Nat) : Except Fault Nat :=
  if bytes.length < start then .error (.decompressFailed "truncated gzip header")
  else
    match splitNul (bytes.drop start) with
    | none => .error (.decompressFailed "unterminated gzip string")
    | some (text, _) => addSize start (text.length + 1) "gzip header string"

def skipExtra (bytes : Bytes) (start : Nat) : Except Fault Nat := do
  let lengthEnd ← addSize start 2 "gzip extra field"
  if bytes.length < lengthEnd then .error (.decompressFailed "truncated gzip extra field")
  else addSize lengthEnd (le16At bytes start).toNat "gzip extra field"

def skipIf (present : Bool) (skip : Nat → Except Fault Nat) (start : Nat) : Except Fault Nat :=
  if present then skip start else .ok start

def bodyOffset (bytes : Bytes) : Except Fault Nat := do
  if bytes.length < headerSize ∨ bytes.take 2 ≠ magic then
    throw (.decompressFailed "not a gzip member")
  if bytes.getD 2 0 ≠ deflateMethod then throw (.decompressFailed "unsupported gzip method")
  let flags := bytes.getD 3 0
  if hasReserved flags then throw (.decompressFailed "reserved gzip flags set")
  let start ← skipIf (hasExtra flags) (skipExtra bytes) headerSize
  let start ← skipIf (hasName flags) (skipText bytes) start
  let start ← skipIf (hasComment flags) (skipText bytes) start
  let start ← skipIf (hasHeaderCrc flags) (addSize · 2 "gzip header crc") start
  if bytes.length < start then throw (.decompressFailed "truncated gzip header")
  return start

def gunzip (input : Bytes) (limit : Nat) : Except Fault (Bytes × Nat) := do
  let body ← bodyOffset input
  let deflated := input.drop body
  let (data, taken) ← Deflate.inflateInto (.initial limit deflated) deflated
  let trailer ← addSize body taken "gzip trailer"
  let stop ← addSize trailer trailerSize "gzip trailer"
  if input.length < stop then throw (.decompressFailed "missing gzip trailer")
  if le32At input (trailer + 4) ≠ UInt32.ofNat data.length then
    throw (.decompressFailed "gzip length mismatch")
  if le32At input trailer ≠ crc32 data then throw (.decompressFailed "gzip crc mismatch")
  return (data, stop)

end BootAssembly.Gzip
