import BootAssembly.Checked
import BootAssembly.Config
import BootAssembly.Report
import BootAssembly.Text

namespace BootAssembly

structure Windows where
  kernel : UInt64
  kernel32 : UInt64
  deviceTree : UInt64
  ramdisk : UInt64
  ramdiskEnd : UInt64
deriving DecidableEq, Repr

namespace Windows

/-- Offsets are set as bits in the RAM base, never added to it. -/
def above (base : UInt64) (offsets : AddressConfig) : Windows where
  kernel := base ||| offsets.kernel
  kernel32 := base ||| offsets.kernel32
  deviceTree := base ||| offsets.deviceTree
  ramdisk := base ||| offsets.ramdisk
  ramdiskEnd := base ||| offsets.ramdiskEnd

def Ordered (w : Windows) : Prop :=
  w.kernel < w.deviceTree ∧ w.kernel32 < w.deviceTree ∧ w.deviceTree < w.ramdisk ∧
    w.ramdisk < w.ramdiskEnd

instance (w : Windows) : Decidable w.Ordered := inferInstanceAs (Decidable (_ ∧ _ ∧ _ ∧ _))

def layoutText (w : Windows) : String :=
  let field (name : String) (address : UInt64) := name ++ ": " ++ hexDigits address.toNat
  "LoadAddresses \x7b " ++ ", ".intercalate
    [field "kernel" w.kernel, field "kernel_32" w.kernel32, field "device_tree" w.deviceTree,
      field "ramdisk" w.ramdisk, field "ramdisk_end" w.ramdiskEnd] ++ " \x7d"

def derive (base : UInt64) (offsets : AddressConfig) : Report Windows :=
  let w := above base offsets
  if w.Ordered then pure w
  else do
    Report.warn "layout" ("reserved windows out of order: " ++ w.layoutText)
    .fail (.layoutOverflow "reserved windows out of order")

def kernelFor (w : Windows) (is32bit : Bool) : UInt64 := if is32bit then w.kernel32 else w.kernel

def kernelRoom (w : Windows) (is32bit : Bool) : Except Fault Nat := do
  let length ← subAddress w.deviceTree (w.kernelFor is32bit) "kernel window"
  positionOf length "kernel window"

def treeRoom (w : Windows) : UInt64 := w.ramdisk - w.deviceTree

def checkTreeFits (w : Windows) (size : Nat) : Report Unit :=
  if size ≤ w.treeRoom.toNat then pure ()
  else do
    Report.warn "layout" s!"device tree {hex size} bytes exceeds window {hex w.treeRoom.toNat}"
    .fail (.layoutOverflow "device tree overruns ramdisk")

end Windows

end BootAssembly
