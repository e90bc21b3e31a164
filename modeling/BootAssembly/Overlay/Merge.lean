import BootAssembly.DeviceTree.Path

namespace BootAssembly.Overlay

open DeviceTree

mutual

/-- Lays a node over another: its properties replace or join the other's, and its children are
merged into those of the same name. -/
def merge : Node → Node → Node
  | ⟨_, properties, children⟩, target =>
    mergeForest children
      { target with
        properties := properties.foldl (fun ps p => ps.set p.name p.value) target.properties }

def mergeForest : List Node → Node → Node
  | [], target => target
  | c :: cs, target => mergeForest cs (target.modifyChildOrNew c.name (merge c))

end

def pathBelow (parent name : String) : String :=
  if parent = "" ∧ name = "" then "/"
  else if parent = "/" then "/" ++ name
  else parent ++ "/" ++ name

mutual

def pathOf? (phandle : UInt32) (parent : String) : Node → Option String
  | ⟨name, properties, children⟩ =>
    let here := pathBelow parent name
    if Node.phandle? ⟨name, properties, children⟩ = some phandle then some here
    else forestPathOf? phandle here children

def forestPathOf? (phandle : UInt32) (parent : String) : List Node → Option String
  | [] => none
  | c :: cs => (pathOf? phandle parent c).or (forestPathOf? phandle parent cs)

end

end BootAssembly.Overlay
