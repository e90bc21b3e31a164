import BootAssembly.Board.Match
import BootAssembly.DeviceTree.Decode
import BootAssembly.DeviceTree.Encode
import BootAssembly.Kernel
import BootAssembly.Overlay
import BootAssembly.Overlay.Table

namespace BootAssembly

inductive Origin where
  | single
  | matched
  | exact
  | overlay
deriving DecidableEq, Repr

def Origin.text : Origin → String
  | single => "Single"
  | matched => "Matched"
  | exact => "Exact"
  | overlay => "Overlay"

structure Resolved where
  blob : Bytes
  origin : Origin
  overlayIndex : Option Nat
deriving DecidableEq, Repr

namespace Resolve

/-- The blobs that follow one another from `start`. The search ends at the first place where no
header stands or the blob does not fit. -/
def scan (region : Bytes) (start : Nat) : Except Fault (List Span) :=
  if sizeLimit ≤ start + DeviceTree.headerSize then .error (.integerOverflow "dtb scan")
  else if start + DeviceTree.headerSize < region.length then
    match DeviceTree.Header.probe? (region.drop start) with
    | none => .ok []
    | some header =>
      let stop := start + header.totalSize.toNat
      if sizeLimit ≤ stop then .error (.integerOverflow "dtb scan")
      else if start < stop ∧ stop ≤ region.length then
        match scan region stop with
        | .error e => .error e
        | .ok spans => .ok (⟨start, stop⟩ :: spans)
      else .ok []
  else .ok []
termination_by region.length - start

def candidatesOf (region : Bytes) (blob : Span) (index : Nat) : Report (List Candidate) :=
  match DeviceTree.parse (slice blob region) with
  | .error e => do
    Report.debug "dtb" s!"blob {decimal index} does not parse: {e.message}"
    return []
  | .ok tree =>
    match Candidate.expand tree.root blob index with
    | .error e => do
      Report.debug "dtb" s!"blob {decimal index} identity ignored: {e.message}"
      return []
    | .ok cs => pure cs

def candidates (region : Bytes) (blobs : List Span) : Report (List Candidate) :=
  List.flatten <$> blobs.zipIdx.mapM fun (blob, index) => candidatesOf region blob index

def tableCandidates (table : Overlay.Table) (bytes : Bytes) :
    List (Overlay.Entry × Nat) → Report (List Candidate)
  | [] => pure []
  | (entry, i) :: rest => do
    let blob ← table.blob bytes i
    if (DeviceTree.Header.probe? blob).isNone then
      Report.warn "dtbo" s!"entry {decimal i} is not a device tree, stopping"
      return []
    let expanded := do
      let tree ← DeviceTree.parse blob
      Candidate.expand tree.root entry.span i
    let cs ← match expanded with
      | .ok cs => pure cs
      | .error e => do
        Report.debug "dtbo" s!"entry {decimal i} skipped: {e.message}"
        pure []
    return cs ++ (← tableCandidates table bytes rest)

/-- The best overlay of the table merged into the best tree for the chip; a blob that matches the
board exactly needs no overlay. -/
def withOverlay (region : Bytes) (blobs : List Span) (board : Board) (overlays : Bytes) :
    Report Resolved := do
  let cs ← candidates region blobs
  match cs.find? (·.isExact board) with
  | some c =>
    Report.info "dtb" "exact device tree match, overlay not required"
    return ⟨← copyBuffer (slice c.location region) "device tree", .exact, none⟩
  | none =>
    let soc ← Match.select cs board .soc
    let base ← (DeviceTree.parse (slice soc.location region) : Except Fault _)
    let table ← Overlay.Table.parse overlays
    let best ← Match.select (← tableCandidates table overlays table.entries.zipIdx) board .full
    let overlay ← (DeviceTree.parse (slice best.location overlays) : Except Fault _)
    let merged ← Overlay.apply base overlay
    Report.info "dtb"
      s!"applied dtbo entry {decimal best.index} onto soc blob {decimal soc.index}"
    return ⟨← (merged.toBytes : Except Fault _), .overlay, some best.index⟩

/-- The bytes in which trees are looked for and where the search starts: behind the kernel, or in
the image's own tree slot. -/
def searchArea (image : Bytes) (kernel : Kernel) (layout : BootImage.Layout) :
    Except Fault (Bytes × Nat) :=
  match kernel.appendedTree with
  | some start =>
    match slice? kernel.treeRegion image with
    | none => .error (.malformedSizes "kernel region beyond image")
    | some region => .ok (region, start)
  | none =>
    if layout.deviceTree.isEmpty then .ok ([], 0)
    else do
      let region ← BootImage.Layout.payload layout.deviceTree image
      return (region, 0)

def choose (region : Bytes) (blobs : List Span) (board : Board) (overlays : Option Bytes) :
    Report Resolved :=
  match overlays, blobs with
  | some overlays, _ => withOverlay region blobs board overlays
  | none, [blob] => do
    Report.debug "dtb" "single appended device tree"
    return ⟨← copyBuffer (slice blob region) "device tree", .single, none⟩
  | none, _ => do
    let best ← Match.select (← candidates region blobs) board .full
    return ⟨← copyBuffer (slice best.location region) "device tree", .matched, none⟩

def resolve (board : Board) (windows : Windows) (image : Bytes) (kernel : Kernel)
    (layout : BootImage.Layout) (overlays : Option Bytes) : Report Resolved := do
  let (region, start) ← searchArea image kernel layout
  let blobs ← scan region start
  Report.info "dtb" s!"found {decimal blobs.length} device tree blob(s)"
  let resolved ← choose region blobs board overlays
  windows.checkTreeFits resolved.blob.length
  let index := Kernel.optionText resolved.overlayIndex
  Report.info "dtb"
    s!"device tree {resolved.origin.text}, {hex resolved.blob.length} bytes, dtbo entry {index}"
  return resolved

end Resolve

end BootAssembly
