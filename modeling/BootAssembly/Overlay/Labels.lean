import BootAssembly.Overlay.Phandles

namespace BootAssembly.Overlay

open DeviceTree

def symbolsName : String := "__symbols__"

def textOf (value : Bytes) : Except Fault String :=
  match ofUtf8? (untilNul value) with
  | some text => .ok text
  | none => .error (.invalidFormat "overlay string not utf-8")

def cutLast? (separator : Char) (text : List Char) : Option (List Char × List Char) :=
  match text.reverse.dropWhile (· ≠ separator) with
  | [] => none
  | _ :: front => some (front.reverse, (text.reverse.takeWhile (· ≠ separator)).reverse)

structure Reference where
  path : String
  property : String
  offset : Nat
deriving DecidableEq, Repr

def Reference.parse (entry : Bytes) : Except Fault Reference :=
  match ofUtf8? entry with
  | none => .error (.invalidFormat "fixup entry not utf-8")
  | some text =>
    match cutLast? ':' text.toList with
    | none => .error (.invalidFormat "malformed fixup entry")
    | some (front, offset) =>
      match cutLast? ':' front with
      | none => .error (.invalidFormat "malformed fixup entry")
      | some (path, property) =>
        match readSize? offset with
        | none => .error (.invalidFormat "malformed fixup offset")
        | some offset => .ok ⟨.ofList path, .ofList property, offset⟩

def writeReference (phandle : UInt32) (overlay : DeviceTree) (entry : Bytes) :
    Except Fault DeviceTree := do
  let r ← Reference.parse entry
  match (overlay.node? r.path).bind (·.value? r.property) with
  | none => throw (.invalidFormat "fixup names a missing property")
  | some value =>
    let s ← span r.offset 4 value.length "fixup offset"
    return overlay.modifyNode r.path (·.modifyValue r.property fun _ => putCell s.start phandle value)

def labelPhandle (base : DeviceTree) (symbols : Node) (label : String) : Except Fault UInt32 := do
  match symbols.value? label with
  | none => throw (.invalidFormat "overlay label not in base symbols")
  | some value =>
    let path ← textOf value
    match (base.node? path).bind Node.phandle? with
    | none => throw (.invalidFormat "overlay label target has no phandle")
    | some phandle => return phandle

def entriesOf (value : Bytes) : List Bytes := (value.splitOn 0).filter (· ≠ [])

def resolveLabel (base : DeviceTree) (symbols : Node) (overlay : DeviceTree) (label : Property) :
    Except Fault DeviceTree := do
  let phandle ← labelPhandle base symbols label.name
  (entriesOf label.value).foldlM (writeReference phandle) overlay

def resolveLabels (base overlay : DeviceTree) (fixups : Node) : Except Fault DeviceTree :=
  match base.root.child? symbolsName with
  | none => .error (.invalidFormat "overlay needs base __symbols__")
  | some symbols => fixups.properties.foldlM (resolveLabel base symbols) overlay

end BootAssembly.Overlay
