import BootAssembly.Kernel

namespace BootAssembly

structure MemoryPlan where
  kernelAddr : UInt64
  kernelSize : UInt64
  ramdiskAddr : UInt64
  ramdiskSize : UInt64
  ramdiskEnd : UInt64
  deviceTreeAddr : UInt64
  is32bit : Bool
deriving DecidableEq, Repr

namespace MemoryPlan

def kernelRegion (p : MemoryPlan) : Span :=
  ⟨p.kernelAddr.toNat, p.kernelAddr.toNat + p.kernelSize.toNat⟩

def ramdiskRegion (p : MemoryPlan) : Span :=
  ⟨p.ramdiskAddr.toNat, p.ramdiskAddr.toNat + p.ramdiskSize.toNat⟩

def treeWindow (p : MemoryPlan) : Span := ⟨p.deviceTreeAddr.toNat, p.ramdiskAddr.toNat⟩

def checkTreeFits (p : MemoryPlan) (size : Nat) : Except Fault Unit :=
  if size ≤ (p.ramdiskAddr - p.deviceTreeAddr).toNat then .ok ()
  else .error (.layoutOverflow "device tree overruns ramdisk")

def summary (p : MemoryPlan) : String :=
  s!"kernel {hex p.kernelAddr.toNat}+{hex p.kernelSize.toNat} dt {hex p.deviceTreeAddr.toNat} " ++
    s!"ramdisk {hex p.ramdiskAddr.toNat}+{hex p.ramdiskSize.toNat} (end {hex p.ramdiskEnd.toNat})"

/-- A 32-bit kernel is copied with its whole padded slot, which must end by the device tree; a
64-bit one was measured when it was extracted. -/
def placedSize (layout : BootImage.Layout) (kernel : Kernel) (windows : Windows) :
    Except Fault UInt64 :=
  if kernel.is32bit then
    let placed := max layout.kernel.actual.toUInt64 (UInt64.ofNat kernel.bytes.length)
    match addAddress windows.kernel32 placed "32-bit kernel end" with
    | .error _ => .error (.layoutOverflow "32-bit kernel end")
    | .ok stop =>
      if windows.deviceTree < stop then
        .error (.layoutOverflow "32-bit kernel overruns device tree")
      else .ok placed
  else .ok kernel.imageSize

def make (layout : BootImage.Layout) (kernel : Kernel) (base : UInt64)
    (offsets : AddressConfig) : Report MemoryPlan := do
  let windows ← Windows.derive base offsets
  let ramdiskSize := layout.ramdisk.size.toUInt64
  if windows.ramdiskEnd < windows.ramdisk then
    Traced.fail (.layoutOverflow "ramdisk window inverted")
  let room := windows.ramdiskEnd - windows.ramdisk
  if room < ramdiskSize then
    Report.warn "layout" s!"ramdisk {hex ramdiskSize.toNat} bytes, window {hex room.toNat}"
    Traced.fail (.layoutOverflow "ramdisk exceeds reserved window")
  let kernelSize ← placedSize layout kernel windows
  let plan : MemoryPlan := {
    kernelAddr := windows.kernelFor kernel.is32bit
    kernelSize := kernelSize
    ramdiskAddr := windows.ramdisk
    ramdiskSize := ramdiskSize
    ramdiskEnd := windows.ramdiskEnd
    deviceTreeAddr := windows.deviceTree
    is32bit := kernel.is32bit }
  Report.debug "layout" plan.summary
  return plan

end MemoryPlan

end BootAssembly
