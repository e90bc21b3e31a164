import BootAssembly.DeviceTree.Node

namespace BootAssembly.DeviceTree

def segments (path : String) : List String :=
  ((path.toList.splitOn '/').filter (· ≠ [])).map String.ofList

namespace Node

def descend? : List String → Node → Option Node
  | [], n => some n
  | name :: names, n => (n.child? name).bind (descend? names)

def modifyAt (f : Node → Node) : List String → Node → Node
  | [], n => f n
  | name :: names, n =>
    { n with children := modifyFirst (·.answersTo name) (modifyAt f names) n.children }

end Node

structure Reservation where
  address : UInt64
  size : UInt64
deriving DecidableEq, Repr

end BootAssembly.DeviceTree

namespace BootAssembly

structure DeviceTree where
  bootCpu : UInt32
  reservations : List DeviceTree.Reservation
  root : DeviceTree.Node
deriving DecidableEq, Repr

end BootAssembly

namespace BootAssembly.DeviceTree

def empty : DeviceTree := ⟨0, [], .new ""⟩

def node? (t : DeviceTree) (path : String) : Option Node := t.root.descend? (segments path)

def modifyNode (path : String) (f : Node → Node) (t : DeviceTree) : DeviceTree :=
  { t with root := t.root.modifyAt f (segments path) }

def maxPhandle (t : DeviceTree) : UInt32 := t.root.maxPhandle

end BootAssembly.DeviceTree
