import BootAssembly.Endian
import BootAssembly.Text

namespace BootAssembly.DeviceTree

structure Property where
  name : String
  value : Bytes
deriving DecidableEq, Repr

/-- A node's properties in order. Where a name stands more than once, its first place counts. -/
abbrev Properties := List Property

namespace Properties

def get? (ps : Properties) (name : String) : Option Bytes :=
  (ps.find? (·.name = name)).map Property.value

def modify (name : String) (f : Bytes → Bytes) : Properties → Properties
  | [] => []
  | p :: ps => if p.name = name then { p with value := f p.value } :: ps else p :: modify name f ps

def set (name : String) (value : Bytes) : Properties → Properties
  | [] => [⟨name, value⟩]
  | p :: ps => if p.name = name then { p with value } :: ps else p :: set name value ps

def extend (name : String) (value : Bytes) : Properties → Properties
  | [] => [⟨name, value⟩]
  | p :: ps =>
    if p.name = name then { p with value := p.value ++ value } :: ps
    else p :: extend name value ps

def erase (name : String) : Properties → Properties
  | [] => []
  | p :: ps => if p.name = name then ps else p :: erase name ps

def cell? (ps : Properties) (name : String) : Option UInt32 :=
  match ps.get? name with
  | some value => if value.length = 4 then some (ofBe32 value) else none
  | none => none

def cells? (ps : Properties) (name : String) : Option (List UInt32) :=
  match ps.get? name with
  | some value => if value.length % 4 = 0 then some (cellsOf value) else none
  | none => none

def text? (ps : Properties) (name : String) : Option String :=
  (ps.get? name).bind fun value => ofUtf8? (untilNul value)

@[simp] theorem get?_nil (name : String) : get? [] name = none := rfl

theorem get?_cons (p : Property) (ps : Properties) (name : String) :
    get? (p :: ps) name = if p.name = name then some p.value else get? ps name := by
  by_cases h : p.name = name <;> simp [get?, h]

@[simp] theorem get?_set (ps : Properties) (name other : String) (value : Bytes) :
    (ps.set name value).get? other = if name = other then some value else ps.get? other := by
  induction ps with
  | nil => simp [set, get?_cons]
  | cons p ps ih =>
    by_cases h : p.name = name
    · by_cases ho : name = other <;> simp [set, get?_cons, h, ho]
    · simp only [set, h, if_false, get?_cons, ih]
      by_cases ho : p.name = other
      · have : name ≠ other := fun e => h (ho.trans e.symm)
        simp [ho, this]
      · simp [ho]

@[simp] theorem get?_modify (ps : Properties) (name other : String) (f : Bytes → Bytes) :
    (ps.modify name f).get? other =
      if name = other then (ps.get? other).map f else ps.get? other := by
  induction ps with
  | nil => simp [modify]
  | cons p ps ih =>
    by_cases h : p.name = name
    · by_cases ho : name = other <;> simp [modify, get?_cons, h, ho]
    · simp only [modify, h, if_false, get?_cons, ih]
      by_cases ho : p.name = other
      · have : name ≠ other := fun e => h (ho.trans e.symm)
        simp [ho, this]
      · simp [ho]

end Properties

end BootAssembly.DeviceTree
