import BootAssembly.CommandLine
import BootAssembly.Config.Capability
import BootAssembly.DeviceTree.Decode
import BootAssembly.DeviceTree.Encode
import BootAssembly.Memory.Plan
import BootAssembly.Patch.Fstab
import BootAssembly.Patch.Memory
import BootAssembly.Patch.PartialGoods

namespace BootAssembly.Patch

open DeviceTree

structure Splash where
  address : UInt64
  size : UInt64
deriving DecidableEq, Repr

structure Request where
  commandLine : CommandLine
  plan : MemoryPlan
  ram : List RamRegion
  kaslrSeed : Option UInt64
  splash : Option Splash
  bootDevice : Option String
  disabledSubsystems : UInt32
  capabilities : Capabilities
deriving DecidableEq, Repr

def chosenPath : String := "/chosen"

def splashPath : String := "/reserved-memory/splash_region"

def splashRegLength : Nat := 16

def narrow (v : UInt64) (what : String) : Except Fault UInt32 :=
  if v.toNat < UInt32.size then .ok v.toUInt32 else .error (.integerOverflow what)

def updateSplash (splash : Splash) : TreeEdit Unit := do
  match ← TreeEdit.node? splashPath with
  | none => Report.warn "dtpatch" "no splash_region node, splash not reserved"
  | some n =>
    match n.value? "reg" with
    | none => Report.warn "dtpatch" "splash_region has no reg"
    | some reg =>
      if reg.length ≠ splashRegLength then
        TreeEdit.fail (.invalidFormat "splash_region reg is not four cells")
      let address ← narrow splash.address "splash address"
      let size ← narrow splash.size "splash size"
      TreeEdit.modifyNode splashPath
        (·.modifyValue "reg" fun reg => putCell 12 size (putCell 4 address reg))
      Report.debug "dtpatch" s!"splash at {hex address.toNat}, {hex size.toNat} bytes"

def setChosen (name : String) (value : Bytes) : TreeEdit Unit :=
  TreeEdit.modifyNode chosenPath (·.setValue name value)

def updateChosen (r : Request) : TreeEdit Unit := do
  if (← TreeEdit.node? chosenPath).isNone then
    TreeEdit.fail (.invalidFormat "device tree has no /chosen node")
  setChosen "bootargs" r.commandLine.buffer
  if r.capabilities.has .kaslrSeed then
    match r.kaslrSeed with
    | some seed => setChosen "kaslr-seed" (be64 seed)
    | none => Report.warn "dtpatch" "no kaslr seed available"
  if r.plan.ramdiskSize ≠ 0 then
    let stop ← addAddress r.plan.ramdiskAddr r.plan.ramdiskSize "initrd end"
    setChosen "linux,initrd-start" (be64 r.plan.ramdiskAddr)
    setChosen "linux,initrd-end" (be64 stop)

def edit (r : Request) : TreeEdit Unit := do
  updateMemory r.ram (!r.plan.is32bit)
  if r.capabilities.has .splashUpdate then
    match r.splash with
    | some splash => updateSplash splash
    | none => pure ()
  updateChosen r
  if r.capabilities.has .fstabUpdate then
    match r.bootDevice with
    | some device => updateFstab device
    | none => pure ()
  if r.capabilities.has .partialGoods ∧ r.disabledSubsystems ≠ 0 then
    discard (hideFused r.disabledSubsystems fusedBlocks)

def patch (blob : Bytes) (r : Request) : Report Bytes := do
  let tree ← (DeviceTree.parse blob : Except Fault _)
  let (report, tree) := edit r tree
  report
  let out ← (tree.toBytes : Except Fault _)
  Report.debug "dtpatch" s!"patched tree {hex blob.length} -> {hex out.length} bytes"
  return out

end BootAssembly.Patch
