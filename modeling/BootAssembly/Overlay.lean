import BootAssembly.Overlay.Labels
import BootAssembly.Overlay.Merge
import BootAssembly.Report

namespace BootAssembly.Overlay

open DeviceTree

def fixupsName : String := "__fixups__"

def localFixupsName : String := "__local_fixups__"

def bodyName : String := "__overlay__"

def isMeta (name : String) : Bool :=
  name == fixupsName || name == localFixupsName || name == symbolsName

def targetPath (base : DeviceTree) (fragment : Node) : Except Fault String :=
  match fragment.properties.cell? "target" with
  | some phandle =>
    match pathOf? phandle "" base.root with
    | some path => .ok path
    | none => .error (.invalidFormat "overlay target phandle not in base")
  | none =>
    match fragment.value? "target-path" with
    | some value => textOf value
    | none => .error (.invalidFormat "overlay fragment without target")

structure Placed where
  body : String
  target : String
deriving DecidableEq, Repr

def placeFragment (state : DeviceTree × List Placed) (fragment : Node) :
    Report (DeviceTree × List Placed) :=
  match fragment.child? bodyName with
  | none => pure state
  | some body => do
    let (base, placed) := state
    let path ← targetPath base fragment
    if (base.node? path).isNone then Traced.fail (.invalidFormat "overlay target path not in base")
    Report.debug "fdt" s!"overlay fragment {fragment.name} -> {path}"
    let source := "/" ++ fragment.name ++ "/" ++ bodyName
    return (base.modifyNode path (merge body), placed ++ [⟨source, path⟩])

def rebase? (placed : List Placed) (path : String) : Option String :=
  placed.findSome? fun p =>
    match p.body.toList.isPrefixOf? path.toList with
    | none => none
    | some rest =>
      if rest = [] then some p.target
      else if rest.head? = some '/' then
        some (if p.target = "/" then .ofList rest else p.target ++ .ofList rest)
      else none

def addLabel (placed : List Placed) (symbols : Properties) (label : Property) :
    Except Fault Properties := do
  match rebase? placed (← textOf label.value) with
  | none => return symbols
  | some path => return symbols.set label.name (nulTerminated path)

def addLabels (placed : List Placed) (labels : Node) (t : DeviceTree) :
    Except Fault DeviceTree := do
  let own := ((t.root.children.find? (·.name = symbolsName)).map Node.properties).getD []
  let properties ← labels.properties.foldlM (addLabel placed) own
  return { t with
    root := t.root.modifyChildOrNew symbolsName fun n => { n with properties } }

def prepare (base overlay : DeviceTree) : Except Fault DeviceTree := do
  let delta := base.maxPhandle
  let root ← raiseAll delta overlay.root
  let root ← match overlay.root.child? localFixupsName with
    | some fixups => raiseLocal delta fixups root
    | none => pure root
  match overlay.root.child? fixupsName with
  | some fixups => resolveLabels base { overlay with root } fixups
  | none => return { overlay with root }

def apply (base overlay : DeviceTree) : Report DeviceTree := do
  let overlay ← prepare base overlay
  let fragments := overlay.root.children.filter (!isMeta ·.name)
  let (merged, placed) ← fragments.foldlM placeFragment (base, [])
  match overlay.root.child? symbolsName with
  | some labels => addLabels placed labels merged
  | none => return merged

end BootAssembly.Overlay
