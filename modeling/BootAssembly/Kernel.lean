import BootAssembly.BootImage.Layout
import BootAssembly.Gzip
import BootAssembly.Memory.Windows

namespace BootAssembly

/-- A kernel ready to be placed. `appendedTree` is where the first appended device tree starts in
`treeRegion`, the part of the image in which appended trees are looked for; `imageSize` is the
memory the running kernel occupies. -/
structure Kernel where
  bytes : Bytes
  is32bit : Bool
  appendedTree : Option Nat
  treeRegion : Span
  imageSize : UInt64
deriving DecidableEq, Repr

namespace Kernel

def wrapperMagic : Bytes := utf8 "UNCOMPRESSED_IMG"

def wrapperSize : Nat := 20

def magic64 : UInt32 := 0x644d5241

def magic64Offset : Nat := 0x38

def imageSize64Offset : Nat := 0x10

def treeOffset32Offset : Nat := 0x2C

structure Payload where
  bytes : Bytes
  appendedTree : Option Nat
  treeRegion : Span
deriving DecidableEq, Repr

def decompress (raw : Bytes) (region : Span) (windows : Windows) : Report Payload := do
  let room ← windows.kernelRoom false
  Report.info "kernel" s!"decompressing kernel, window {hex room}"
  let (bytes, taken) ← Gzip.gunzip raw room
  Report.info "kernel" s!"decompressed {hex taken} -> {hex bytes.length} bytes"
  return ⟨bytes, some taken, region⟩

def unwrap (raw : Bytes) : Except Fault Bytes :=
  match le32At? raw wrapperMagic.length with
  | none => .error (.malformedSizes "patched kernel header truncated")
  | some length => do
    let stop ← addSize wrapperSize length.toNat "patched kernel length"
    match slice? ⟨wrapperSize, stop⟩ raw with
    | none => .error (.malformedSizes "patched kernel length beyond payload")
    | some body => .ok body

def unpack (raw : Bytes) (region : Span) (windows : Windows) : Report Payload :=
  if Gzip.isMember raw then decompress raw region windows
  else if raw.take wrapperMagic.length = wrapperMagic then do
    let body ← unwrap raw
    let start ← addSize region.start wrapperSize "patched kernel start"
    Report.debug "kernel" s!"patched kernel, {hex body.length} bytes"
    let bytes ← copyBuffer body "kernel copy"
    return ⟨bytes, some body.length, ⟨start, region.stop⟩⟩
  else do
    let bytes ← copyBuffer raw "kernel copy"
    return ⟨bytes, none, region⟩

def is64bit (bytes : Bytes) : Bool := le32At? bytes magic64Offset == some magic64

def runningSize (bytes : Bytes) (windows : Windows) : Report UInt64 := do
  match le64At? bytes imageSize64Offset with
  | none => .fail (.malformedSizes "arm64 header truncated")
  | some declared =>
    let size := if declared = 0 then UInt64.ofNat bytes.length
      else max declared (UInt64.ofNat bytes.length)
    let stop ← addAddress windows.kernel size "kernel end"
    if windows.deviceTree ≤ stop then
      Report.warn "kernel"
        s!"kernel end {hex stop.toNat} reaches device tree {hex windows.deviceTree.toNat}"
      Traced.fail (.layoutOverflow "kernel overlaps device tree window")
    return size

def declaredTree (bytes : Bytes) : Except Fault (Option Nat) :=
  match le32At? bytes treeOffset32Offset with
  | none => .error (.malformedSizes "32-bit kernel header truncated")
  | some offset =>
    if bytes.length < offset.toNat then .error (.malformedSizes "32-bit dtb offset beyond kernel")
    else .ok (if offset = 0 then none else some offset.toNat)

def optionText : Option Nat → String
  | none => "None"
  | some n => "Some(" ++ decimal n ++ ")"

def ofPayload (p : Payload) (windows : Windows) : Report Kernel := do
  let kernel ←
    if is64bit p.bytes then do
      let size ← runningSize p.bytes windows
      pure ⟨p.bytes, false, p.appendedTree, p.treeRegion, size⟩
    else do
      let appended ← match p.appendedTree with
        | some offset => (pure (some offset) : Except Fault _)
        | none => declaredTree p.bytes
      pure ⟨p.bytes, true, appended, p.treeRegion, UInt64.ofNat p.bytes.length⟩
  let width := if kernel.is32bit then "32-bit" else "64-bit"
  let appended := optionText kernel.appendedTree
  Report.debug "kernel"
    s!"{width} kernel, {hex kernel.bytes.length} bytes, appended dtb at {appended}"
  return kernel

def extract (image : Bytes) (layout : BootImage.Layout) (windows : Windows) : Report Kernel := do
  let raw ← BootImage.Layout.payload layout.kernel image
  let payload ← unpack raw layout.kernel.span windows
  ofPayload payload windows

end Kernel

end BootAssembly
