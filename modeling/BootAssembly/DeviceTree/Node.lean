import BootAssembly.DeviceTree.Property

namespace BootAssembly.DeviceTree

structure Node where
  name : String
  properties : Properties
  children : List Node
deriving Repr

namespace Node

mutual

def decEq : (m n : Node) → Decidable (m = n)
  | ⟨name, properties, children⟩, ⟨name', properties', children'⟩ =>
    if hn : name = name' then
      if hp : properties = properties' then
        match forestDecEq children children' with
        | isTrue hc => isTrue (by rw [hn, hp, hc])
        | isFalse hc => isFalse fun e => hc (Node.mk.inj e).2.2
      else isFalse fun e => hp (Node.mk.inj e).2.1
    else isFalse fun e => hn (Node.mk.inj e).1

def forestDecEq : (ms ns : List Node) → Decidable (ms = ns)
  | [], [] => isTrue rfl
  | [], _ :: _ => isFalse nofun
  | _ :: _, [] => isFalse nofun
  | m :: ms, n :: ns =>
    match decEq m n with
    | isTrue hm =>
      match forestDecEq ms ns with
      | isTrue hs => isTrue (by rw [hm, hs])
      | isFalse hs => isFalse fun e => hs (List.cons.inj e).2
    | isFalse hm => isFalse fun e => hm (List.cons.inj e).1

end

instance : DecidableEq Node := decEq

def new (name : String) : Node := ⟨name, [], []⟩

def value? (n : Node) (name : String) : Option Bytes := n.properties.get? name

def setValue (name : String) (value : Bytes) (n : Node) : Node :=
  { n with properties := n.properties.set name value }

def modifyValue (name : String) (f : Bytes → Bytes) (n : Node) : Node :=
  { n with properties := n.properties.modify name f }

def phandle? (n : Node) : Option UInt32 :=
  (n.properties.cell? "phandle").or (n.properties.cell? "linux,phandle")

/-- A name without its unit address. -/
def stem (name : String) : String := String.ofList (name.toList.takeWhile (· ≠ '@'))

/-- A wanted name without a unit address also stands for any node with that stem. -/
def answersTo (n : Node) (wanted : String) : Bool :=
  n.name == wanted || (!wanted.toList.contains '@' && stem n.name == wanted)

def child? (n : Node) (wanted : String) : Option Node := n.children.find? (·.answersTo wanted)

def modifyFirst (p : Node → Bool) (f : Node → Node) : List Node → List Node
  | [] => []
  | c :: cs => if p c then f c :: cs else c :: modifyFirst p f cs

def modifyOrAdd (name : String) (f : Node → Node) : List Node → List Node
  | [] => [f (new name)]
  | c :: cs => if c.name = name then f c :: cs else c :: modifyOrAdd name f cs

def modifyChildOrNew (name : String) (f : Node → Node) (n : Node) : Node :=
  { n with children := modifyOrAdd name f n.children }

mutual

def toList : Node → List Node
  | ⟨name, properties, children⟩ => ⟨name, properties, children⟩ :: forestToList children

def forestToList : List Node → List Node
  | [] => []
  | c :: cs => toList c ++ forestToList cs

end

mutual

def mapProperties (f : Properties → Properties) : Node → Node
  | ⟨name, properties, children⟩ => ⟨name, f properties, forestMapProperties f children⟩

def forestMapProperties (f : Properties → Properties) : List Node → List Node
  | [] => []
  | c :: cs => mapProperties f c :: forestMapProperties f cs

end

mutual

def mapNumbered (f : Nat → Properties → Properties) (start : Nat) : Node → Node × Nat
  | ⟨name, properties, children⟩ =>
    let (children, next) := forestMapNumbered f (start + 1) children
    (⟨name, f start properties, children⟩, next)

def forestMapNumbered (f : Nat → Properties → Properties) (start : Nat) :
    List Node → List Node × Nat
  | [] => ([], start)
  | c :: cs =>
    let (c, next) := mapNumbered f start c
    let (cs, next) := forestMapNumbered f next cs
    (c :: cs, next)

end

def findPhandle? (n : Node) (phandle : UInt32) : Option Node :=
  n.toList.find? (·.phandle? = some phandle)

def maxPhandle (n : Node) : UInt32 :=
  ((n.toList.filterMap phandle?).filter (· ≠ 0xFFFFFFFF)).foldl max 0

end Node

end BootAssembly.DeviceTree
