import BootAssembly.Memory.Plan

namespace BootAssembly

structure Handoff where
  magic : UInt64
  kernelEntry : UInt64
  deviceTree : UInt64
  ramdiskBase : UInt64
  ramdiskSize : UInt64
  bootFlags : UInt32
  reserved : UInt32
deriving DecidableEq, Repr

namespace Handoff

def signature : UInt64 := 0x4E4F4E4F5341424C

def recovery : UInt32 := 0x01

def arch32 : UInt32 := 0x02

def unlocked : UInt32 := 0x04

def verified : UInt32 := 0x08

def overlayApplied : UInt32 := 0x10

def ofPlan (plan : MemoryPlan) (flags : UInt32) : Handoff where
  magic := signature
  kernelEntry := plan.kernelAddr
  deviceTree := plan.deviceTreeAddr
  ramdiskBase := plan.ramdiskAddr
  ramdiskSize := plan.ramdiskSize
  bootFlags := if plan.is32bit then flags ||| arch32 else flags
  reserved := 0

def has (h : Handoff) (flag : UInt32) : Bool := h.bootFlags &&& flag == flag

end Handoff

end BootAssembly
