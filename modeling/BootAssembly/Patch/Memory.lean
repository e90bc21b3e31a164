import BootAssembly.Patch.TreeEdit

namespace BootAssembly

structure RamRegion where
  base : UInt64
  size : UInt64
deriving DecidableEq, Repr

namespace Patch

open DeviceTree

/-- Builds a node's `reg` over several writes: the first pair replaces what was there. A wide
writer takes two cells for a value. -/
structure RegWriter where
  wide : Bool
  written : Nat := 0
deriving DecidableEq, Repr

namespace RegWriter

def encode (w : RegWriter) (v : UInt64) : Except Fault Bytes :=
  if w.wide then .ok (be64 v)
  else if v.toNat < UInt32.size then .ok (be32 v.toUInt32)
  else .error (.integerOverflow "32-bit memory cell")

def push (w : RegWriter) (region : RamRegion) (n : Node) : Except Fault (RegWriter × Node) := do
  let pair := (← w.encode region.base) ++ (← w.encode region.size)
  let properties := if w.written = 0 then n.properties.set "reg" pair
    else n.properties.extend "reg" pair
  return ({ w with written := w.written + 1 }, { n with properties })

end RegWriter

def memoryPath : String := "/memory"

def pushRegion (w : RegWriter) (region : RamRegion) : TreeEdit RegWriter := do
  match ← TreeEdit.node? memoryPath with
  | none => TreeEdit.fail (.invalidFormat "device tree has no /memory node")
  | some n =>
    let (w, n) ← w.push region n
    TreeEdit.modifyNode memoryPath fun _ => n
    return w

def updateMemory (ram : List RamRegion) (wide : Bool) : TreeEdit Unit := do
  if ram.isEmpty then TreeEdit.fail (.collaborator "no ram regions reported")
  let w ← ram.foldlM pushRegion { wide }
  Report.debug "dtpatch" s!"/memory: {decimal w.written} region(s)"

end Patch

end BootAssembly
