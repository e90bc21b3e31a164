import BootAssembly.Checked
import BootAssembly.Endian
import BootAssembly.Report
import BootAssembly.Text

namespace BootAssembly.Overlay

structure Entry where
  size : UInt32
  offset : UInt32
  id : UInt32
  revision : UInt32
  custom : List UInt32
deriving DecidableEq, Repr

structure Table where
  totalSize : UInt32
  pageSize : UInt32
  version : UInt32
  entries : List Entry
deriving DecidableEq, Repr

namespace Entry

def byteSize : Nat := 32

def span (e : Entry) : Span := ⟨e.offset.toNat, e.offset.toNat + e.size.toNat⟩

def ofBytes (row : Bytes) : Entry where
  size := be32At row 0
  offset := be32At row 4
  id := be32At row 8
  revision := be32At row 12
  custom := [be32At row 16, be32At row 20, be32At row 24, be32At row 28]

end Entry

namespace Table

def magic : UInt32 := 0xd7b7ab1e

def headerSize : Nat := 32

def readEntry (table : Bytes) (start : Nat) : Except Fault Entry := do
  let row := (table.drop start).take Entry.byteSize
  if row.length < Entry.byteSize then throw (.malformedSizes "dt_table entry truncated")
  let entry := Entry.ofBytes row
  discard (BootAssembly.span entry.offset.toNat entry.size.toNat table.length "dt_table blob")
  return entry

def parse (bytes : Bytes) : Report Table := do
  if (bytes.take headerSize).length < headerSize then
    Traced.fail (.invalidFormat "buffer too small for dt_table header")
  if be32At bytes 0 ≠ magic then Traced.fail (.invalidFormat "dt_table magic mismatch")
  let total := (be32At bytes 4).toNat
  if bytes.length < total ∨ total < headerSize then
    Traced.fail (.malformedSizes "dt_table total_size")
  if (be32At bytes 8).toNat < headerSize then Traced.fail (.malformedSizes "dt_table header_size")
  let stride := (be32At bytes 12).toNat
  if stride < Entry.byteSize then Traced.fail (.malformedSizes "dt_table entry size")
  let count := (be32At bytes 16).toNat
  let first := (be32At bytes 20).toNat
  let rows ← mulSize count stride "dt_table entries"
  discard (BootAssembly.span first rows total "dt_table entries" : Except Fault Span)
  let table := bytes.take total
  let entries ← (List.range count).mapM fun i => do
    let start ← addSize first (i * stride) "dt_table entry"
    readEntry table start
  let version := be32At bytes 28
  Report.debug "dtbo"
    s!"dt_table v{decimal version.toNat} with {decimal count} entries, {hex total} bytes"
  return ⟨be32At bytes 4, be32At bytes 24, version, entries⟩

def blob (t : Table) (bytes : Bytes) (i : Nat) : Except Fault Bytes :=
  match t.entries[i]? with
  | none => .error (.invalidFormat "dt_table index out of range")
  | some entry =>
    match slice? entry.span bytes with
    | none => .error (.malformedSizes "dt_table blob beyond buffer")
    | some blob => .ok blob

end Table

end BootAssembly.Overlay
