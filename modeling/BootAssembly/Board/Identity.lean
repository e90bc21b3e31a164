import BootAssembly.Checked
import BootAssembly.DeviceTree.Path

namespace BootAssembly

structure Quad where
  first : UInt32
  second : UInt32
  third : UInt32
  fourth : UInt32
deriving DecidableEq, Repr

namespace Quad

def zero : Quad := ⟨0, 0, 0, 0⟩

def toList (q : Quad) : List UInt32 := [q.first, q.second, q.third, q.fourth]

def map (f : UInt32 → UInt32) (q : Quad) : Quad := ⟨f q.first, f q.second, f q.third, f q.fourth⟩

end Quad

inductive Slot where
  | first
  | second
  | third
  | fourth
deriving DecidableEq, Repr

def Slot.index : Slot → Nat
  | first => 0
  | second => 1
  | third => 2
  | fourth => 3

def Quad.get (q : Quad) : Slot → UInt32
  | .first => q.first
  | .second => q.second
  | .third => q.third
  | .fourth => q.fourth

/-- What the running board is. Of `platformId` the low sixteen bits name the chip; `variantId`
holds the board type in its low byte and the version in the two bytes above. -/
structure Board where
  platformId : UInt32
  socRev : UInt32
  foundryId : UInt32
  variantId : UInt32
  subtype : UInt32
  pmicRev : Quad
  pmicModel : Quad
deriving DecidableEq, Repr

namespace Board

def platformMask : UInt32 := 0x0000ffff

def foundryMask : UInt32 := 0x00ff0000

def foundryShift : UInt32 := 16

def variantTypeMask : UInt32 := 0x000000ff

def variantVersionMask : UInt32 := 0x00ffff00

def variantMatchMask : UInt32 := 0x00ffffff

def subtypeMask : UInt32 := 0x000000ff

def pmicModelMask : UInt32 := 0x000000ff

def foundryBits (b : Board) : UInt32 := b.foundryId <<< foundryShift

end Board

end BootAssembly
