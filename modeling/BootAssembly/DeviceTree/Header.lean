import BootAssembly.Checked
import BootAssembly.Endian

namespace BootAssembly.DeviceTree

def blobMagic : UInt32 := 0xd00dfeed

def headerSize : Nat := 40

def currentVersion : UInt32 := 17

def oldestVersion : UInt32 := 16

structure Header where
  totalSize : UInt32
  structOffset : UInt32
  stringsOffset : UInt32
  reserveOffset : UInt32
  version : UInt32
  lastCompatible : UInt32
  bootCpu : UInt32
  stringsSize : UInt32
  structSize : UInt32
deriving DecidableEq, Repr

namespace Header

def ofBytes (blob : Bytes) : Header where
  totalSize := be32At blob 4
  structOffset := be32At blob 8
  stringsOffset := be32At blob 12
  reserveOffset := be32At blob 16
  version := be32At blob 20
  lastCompatible := be32At blob 24
  bootCpu := be32At blob 28
  stringsSize := be32At blob 32
  structSize := be32At blob 36

def structBlock (h : Header) : Except Fault Span :=
  let total := h.totalSize.toNat
  let start := h.structOffset.toNat
  if currentVersion ≤ h.version then span start h.structSize.toNat total "fdt struct block"
  else if start ≤ total then span start (total - start) total "fdt struct block"
  else .error (.invalidFormat "fdt struct block out of bounds")

def stringsBlock (h : Header) : Except Fault Span :=
  span h.stringsOffset.toNat h.stringsSize.toNat h.totalSize.toNat "fdt strings block"

def check (h : Header) : Except Fault Unit := do
  if h.version < oldestVersion ∨ currentVersion < h.lastCompatible then
    throw (.invalidFormat "unsupported fdt version")
  if h.totalSize.toNat < headerSize then
    throw (.invalidFormat "fdt totalsize smaller than header")
  discard h.structBlock
  discard h.stringsBlock
  if h.reserveOffset.toNat < headerSize ∨ h.totalSize ≤ h.reserveOffset then
    throw (.invalidFormat "fdt reserve map out of bounds")

def read (blob : Bytes) : Except Fault Header := do
  if (blob.take headerSize).length < headerSize then
    throw (.invalidFormat "buffer too small for fdt header")
  if be32At blob 0 ≠ blobMagic then throw (.invalidFormat "fdt magic mismatch")
  let header := ofBytes blob
  header.check
  return header

def probe? (blob : Bytes) : Option Header := (read blob).toOption

end Header

end BootAssembly.DeviceTree
