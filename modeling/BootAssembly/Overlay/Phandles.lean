import BootAssembly.DeviceTree.Path
import BootAssembly.Checked

namespace BootAssembly.Overlay

open DeviceTree

def handleNames : List String := ["phandle", "linux,phandle"]

def raiseFault? (delta : UInt32) (value : Bytes) : Option Fault :=
  if value.length ≠ 4 then some (.invalidFormat "malformed phandle")
  else if (ofBe32 value).toNat + delta.toNat < UInt32.size then none
  else some (.integerOverflow "phandle shift")

def raiseFaults (delta : UInt32) (root : Node) : List Fault :=
  root.toList.flatMap fun n =>
    handleNames.filterMap fun name => (n.value? name).bind (raiseFault? delta)

def raiseHandles (delta : UInt32) (ps : Properties) : Properties :=
  handleNames.foldl (fun ps name => ps.modify name fun value => be32 (ofBe32 value + delta)) ps

/-- Raises every handle of the overlay. Of several bad handles the last one visited is reported. -/
def raiseAll (delta : UInt32) (root : Node) : Except Fault Node :=
  match (raiseFaults delta root).getLast? with
  | some fault => .error fault
  | none => .ok (root.mapProperties (raiseHandles delta))

def raiseCell (delta : UInt32) (value : Bytes) (offset : UInt32) : Except Fault Bytes := do
  let s ← span offset.toNat 4 value.length "local fixup offset"
  let cell ← addWord (be32At value s.start) delta "local fixup"
  return putCell s.start cell value

def raiseReferences (delta : UInt32) (ps : Properties) (fixup : Property) :
    Except Fault Properties :=
  match ps.get? fixup.name with
  | none => .error (.invalidFormat "local fixup names a missing property")
  | some value => do
    let value ← (cellsOf fixup.value).foldlM (raiseCell delta) value
    return ps.modify fixup.name fun _ => value

mutual

def raiseLocal (delta : UInt32) : Node → Node → Except Fault Node
  | ⟨_, fixups, below⟩, n => do
    let properties ← fixups.foldlM (raiseReferences delta) n.properties
    let children ← raiseLocalForest delta below n.children
    return { n with properties, children }

def raiseLocalForest (delta : UInt32) : List Node → List Node → Except Fault (List Node)
  | [], children => .ok children
  | fixup :: fixups, children =>
    match children.find? (·.name = fixup.name) with
    | none => .error (.invalidFormat "local fixup names a missing node")
    | some child => do
      let child ← raiseLocal delta fixup child
      raiseLocalForest delta fixups
        (Node.modifyFirst (·.name = fixup.name) (fun _ => child) children)

end

end BootAssembly.Overlay
