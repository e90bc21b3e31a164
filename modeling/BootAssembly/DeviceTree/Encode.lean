import BootAssembly.DeviceTree.Header
import BootAssembly.DeviceTree.Path

namespace BootAssembly.DeviceTree

def entryOffset? (table name : Bytes) : Option Nat :=
  if table = [] then none
  else
    let entry := untilNul table
    if entry = name then some 0
    else
      (entryOffset? (table.drop (entry.length + 1)) name).map (· + (entry.length + 1))
termination_by table.length
decreasing_by
  have := List.length_pos_iff.mpr ‹table ≠ []›
  simp only [List.length_drop]
  omega

def intern (table name : Bytes) : Nat × Bytes :=
  match entryOffset? table name with
  | some offset => (offset, table)
  | none => (table.length, table ++ name ++ [0])

def beginTag : Bytes := be32 1

def endTag : Bytes := be32 2

def propertyTag : Bytes := be32 3

def finishTag : Bytes := be32 9

def encodeProperty (offset : Nat) (value : Bytes) : Bytes :=
  propertyTag ++ be32 (UInt32.ofNat value.length) ++ be32 (UInt32.ofNat offset) ++ padded value

def encodeProperties (table : Bytes) : Properties → Bytes × Bytes
  | [] => ([], table)
  | p :: ps =>
    let (offset, table) := intern table (utf8 p.name)
    let (rest, table) := encodeProperties table ps
    (encodeProperty offset p.value ++ rest, table)

mutual

def encodeNode (table : Bytes) : Node → Bytes × Bytes
  | ⟨name, properties, children⟩ =>
    let (own, table) := encodeProperties table properties
    let (below, table) := encodeForest table children
    (beginTag ++ padded (nulTerminated name) ++ own ++ below ++ endTag, table)

def encodeForest (table : Bytes) : List Node → Bytes × Bytes
  | [] => ([], table)
  | c :: cs =>
    let (first, table) := encodeNode table c
    let (rest, table) := encodeForest table cs
    (first ++ rest, table)

end

def encodeReservations (rs : List Reservation) : Bytes :=
  rs.flatMap (fun r => be64 r.address ++ be64 r.size) ++ List.replicate 16 0

def encodeHeader (h : Header) : Bytes :=
  ofCells [blobMagic, h.totalSize, h.structOffset, h.stringsOffset, h.reserveOffset, h.version,
    h.lastCompatible, h.bootCpu, h.stringsSize, h.structSize]

def toBytes (t : DeviceTree) : Except Fault Bytes := do
  let (nodes, strings) := encodeNode [] t.root
  let block := nodes ++ finishTag
  let reserved := encodeReservations t.reservations
  let structOffset ← addSize headerSize reserved.length "fdt layout"
  let stringsOffset ← addSize structOffset block.length "fdt layout"
  let total ← addSize stringsOffset strings.length "fdt layout"
  if UInt32.size ≤ total then throw (.integerOverflow "fdt totalsize")
  let header : Header := {
    totalSize := UInt32.ofNat total
    structOffset := UInt32.ofNat structOffset
    stringsOffset := UInt32.ofNat stringsOffset
    reserveOffset := UInt32.ofNat headerSize
    version := currentVersion
    lastCompatible := oldestVersion
    bootCpu := t.bootCpu
    stringsSize := UInt32.ofNat strings.length
    structSize := UInt32.ofNat block.length }
  return encodeHeader header ++ reserved ++ block ++ strings

end BootAssembly.DeviceTree
