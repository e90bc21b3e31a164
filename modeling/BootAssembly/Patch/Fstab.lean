import BootAssembly.Patch.TreeEdit

namespace BootAssembly.Patch

open DeviceTree

def fstabPath : String := "/firmware/android/fstab"

def controllerParent : Bytes := utf8 "/soc/"

def slash : UInt8 := 0x2F

def space : UInt8 := 0x20

def splitAfter? (pattern : Bytes) (text : Bytes) : Option (Bytes × Bytes) :=
  if text.take pattern.length = pattern then some (pattern, text.drop pattern.length)
  else
    match text with
    | [] => none
    | b :: text => (splitAfter? pattern text).map fun (front, rest) => (b :: front, rest)

/-- Replaces the path component behind the first `/soc/`. The value keeps its length: a shorter
name is made up for by spaces behind the path. -/
def renameController (device value : Bytes) : Except String Bytes :=
  let text := untilNul value
  match splitAfter? controllerParent text with
  | none => .error "no /soc/ component"
  | some (_, []) => .error "no path after device"
  | some (front, b :: rest) =>
    let component := b :: rest.takeWhile (· ≠ slash)
    let below := rest.dropWhile (· ≠ slash)
    if below = [] then .error "no path after device"
    else if component.length < device.length then
      .error "device name longer than the existing one"
    else
      .ok (front ++ device ++ below ++ List.replicate (component.length - device.length) space ++
        value.drop text.length)

def renameEntry (device : String) (entry : Node) : Node × List Note :=
  match entry.value? "dev" with
  | none => (entry, [])
  | some value =>
    match renameController (utf8 device) value with
    | .ok value =>
      (entry.modifyValue "dev" fun _ => value,
        [⟨.debug, "dtpatch", s!"fstab {entry.name} -> {device}"⟩])
    | .error why =>
      (entry, [⟨.warn, "dtpatch", s!"fstab {entry.name} left as is: {why}"⟩])

def updateFstab (device : String) : TreeEdit Unit := do
  match ← TreeEdit.node? fstabPath with
  | none => Report.debug "dtpatch" "no fstab node"
  | some parent =>
    let renamed := parent.children.map (renameEntry device)
    TreeEdit.modifyNode fstabPath fun n => { n with children := renamed.map (·.1) }
    TreeEdit.ofReport ⟨.ok (), renamed.flatMap (·.2)⟩
    Report.info "dtpatch" s!"fstab boot device {device}"

end BootAssembly.Patch
