import BootAssembly.BootImage.Header
import BootAssembly.Checked
import BootAssembly.Report

namespace BootAssembly.BootImage

structure Region where
  offset : UInt32
  size : UInt32
  actual : UInt32
deriving DecidableEq, Repr

def Region.isEmpty (r : Region) : Bool := r.size == 0

def Region.span (r : Region) : Span := ⟨r.offset.toNat, r.offset.toNat + r.size.toNat⟩

/-- Where the payloads lie, in page units behind the header page. -/
structure Layout where
  pageSize : UInt32
  kernel : Region
  ramdisk : Region
  second : Region
  deviceTree : Region
  imageSize : UInt32
deriving DecidableEq, Repr

namespace Layout

def ofHeader (h : Header) : Except Fault Layout := do
  let page := h.pageSize
  let kernelActual ← roundUp h.kernelSize page "kernel size"
  let ramdiskActual ← roundUp h.ramdiskSize page "ramdisk size"
  let secondActual ← roundUp h.secondSize page "second size"
  let treeActual ← roundUp h.deviceTreeSize page "device tree size"
  let ramdiskOffset ← addWord page kernelActual "ramdisk offset"
  let secondOffset ← addWord ramdiskOffset ramdiskActual "second offset"
  let treeOffset ← addWord secondOffset secondActual "device tree offset"
  let parts := [page, kernelActual, ramdiskActual, secondActual, treeActual]
  let imageSize ← sumWords parts "image size"
  return {
    pageSize := page
    kernel := ⟨page, h.kernelSize, kernelActual⟩
    ramdisk := ⟨ramdiskOffset, h.ramdiskSize, ramdiskActual⟩
    second := ⟨secondOffset, h.secondSize, secondActual⟩
    deviceTree := ⟨treeOffset, h.deviceTreeSize, treeActual⟩
    imageSize := imageSize }

def checkFits (l : Layout) (length : Nat) : Report Unit :=
  if l.imageSize.toNat ≤ length then pure ()
  else do
    let needed := decimal l.imageSize.toNat
    Report.warn "bootimg" s!"image truncated: need {needed} bytes, have {decimal length}"
    .fail (.malformedSizes "image shorter than header sizes")

def payload (r : Region) (image : Bytes) : Except Fault Bytes :=
  match slice? r.span image with
  | some bytes => .ok bytes
  | none => .error (.malformedSizes "payload beyond image end")

theorem payload_eq_ok {r : Region} {image bytes : Bytes} (h : payload r image = .ok bytes) :
    slice? r.span image = some bytes := by
  unfold payload at h
  split at h
  · rename_i part hpart
    cases h
    exact hpart
  · cases h

end Layout

structure Limits where
  maxPageSize : UInt32
  expectedPageSize : Option UInt32
deriving DecidableEq, Repr

namespace Limits

def check (limits : Limits) (h : Header) : Except Fault Unit :=
  if h.kernelSize = 0 ∨ h.pageSize = 0 then .error (.malformedSizes "zero kernel or page size")
  else if h.ramdiskSize = 0 then .error (.malformedSizes "zero ramdisk size")
  else if h.pageSize > limits.maxPageSize then
    .error (.malformedSizes "page size above platform maximum")
  else if limits.expectedPageSize.any (h.pageSize ≠ ·) then
    .error (.malformedSizes "page size differs from expected")
  else .ok ()

end Limits

def Layout.summary (l : Layout) : String :=
  let place (r : Region) := hex r.size.toNat ++ "@" ++ hex r.offset.toNat
  s!"page {decimal l.pageSize.toNat} kernel {place l.kernel} ramdisk {place l.ramdisk} " ++
    s!"dt {place l.deviceTree} total {hex l.imageSize.toNat}"

def inspect (limits : Limits) (image : Bytes) : Report (Header × Layout) := do
  if (image.take headerSize).length < headerSize then
    Traced.fail (.invalidFormat "buffer too small for boot header")
  if image.take 8 ≠ magic then
    Report.warn "bootimg" "boot magic mismatch"
    Traced.fail (.invalidFormat "boot magic mismatch")
  let header := Header.ofBytes image
  limits.check header
  let layout ← Layout.ofHeader header
  Report.debug "bootimg" layout.summary
  return (header, layout)

end BootAssembly.BootImage
