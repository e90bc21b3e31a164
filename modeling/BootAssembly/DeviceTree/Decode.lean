import BootAssembly.DeviceTree.Header
import BootAssembly.DeviceTree.Path

namespace BootAssembly.DeviceTree

inductive Tag where
  | beginNode
  | endNode
  | property
  | nop
  | finish
  | unknown
deriving DecidableEq, Repr

def Tag.ofWord (word : UInt32) : Tag :=
  if word = 1 then beginNode
  else if word = 2 then endNode
  else if word = 3 then property
  else if word = 4 then nop
  else if word = 9 then finish
  else unknown

def maxDepth : Nat := 64

def takeWord : Bytes → Except Fault (UInt32 × Bytes)
  | a :: b :: c :: d :: rest => .ok (ofBe32 [a, b, c, d], rest)
  | _ => .error (.malformedSizes "fdt struct truncated")

def takeName (bytes : Bytes) : Except Fault (String × Bytes) :=
  match splitNul bytes with
  | none => .error (.invalidFormat "unterminated fdt node name")
  | some (text, rest) =>
    match ofUtf8? text with
    | none => .error (.invalidFormat "fdt node name not utf-8")
    | some name => .ok (name, rest.drop (gap (text.length + 1)))

def nameAt (strings : Bytes) (offset : Nat) : Except Fault String :=
  if strings.length < offset then .error (.malformedSizes "fdt string offset out of bounds")
  else
    match splitNul (strings.drop offset) with
    | none => .error (.invalidFormat "unterminated fdt string")
    | some (text, _) =>
      match ofUtf8? text with
      | none => .error (.invalidFormat "fdt string not utf-8")
      | some name => .ok name

def takeProperty (strings : Bytes) (bytes : Bytes) : Except Fault (Property × Bytes) :=
  match takeWord bytes with
  | .error e => .error e
  | .ok (length, bytes) =>
    match takeWord bytes with
    | .error e => .error e
    | .ok (offset, bytes) =>
      match splitExact length.toNat bytes with
      | none => .error (.malformedSizes "fdt property value")
      | some (value, rest) =>
        match nameAt strings offset.toNat with
        | .error e => .error e
        | .ok name => .ok (⟨name, value⟩, rest.drop (gap value.length))

inductive Item where
  | child (name : String)
  | property (property : Property)
  | close
  | skip

def takeItem (strings : Bytes) (depth : Nat) (bytes : Bytes) : Except Fault (Item × Bytes) :=
  match takeWord bytes with
  | .error e => .error e
  | .ok (word, rest) =>
    match Tag.ofWord word with
    | .property =>
      match takeProperty strings rest with
      | .error e => .error e
      | .ok (property, rest) => .ok (.property property, rest)
    | .beginNode =>
      if maxDepth < depth then .error (.invalidFormat "fdt nesting too deep")
      else
        match takeName rest with
        | .error e => .error e
        | .ok (name, rest) => .ok (.child name, rest)
    | .endNode => .ok (.close, rest)
    | .nop => .ok (.skip, rest)
    | .finish | .unknown => .error (.invalidFormat "unexpected fdt token")

theorem takeWord_length {bytes rest : Bytes} {word : UInt32}
    (h : takeWord bytes = .ok (word, rest)) : rest.length < bytes.length := by
  unfold takeWord at h
  split at h
  · cases h; simp only [List.length_cons]; omega
  · cases h

theorem takeName_length {bytes rest : Bytes} {name : String}
    (h : takeName bytes = .ok (name, rest)) : rest.length ≤ bytes.length := by
  unfold takeName at h
  split at h
  · cases h
  · rename_i text r hs
    obtain ⟨rfl, -⟩ := splitNul_eq_some.mp hs
    split at h
    · cases h
    · cases h
      simp only [List.length_drop, List.length_append, List.length_cons]
      omega

theorem takeProperty_length {strings bytes rest : Bytes} {property : Property}
    (h : takeProperty strings bytes = .ok (property, rest)) : rest.length ≤ bytes.length := by
  unfold takeProperty at h
  split at h
  · cases h
  rename_i hl
  split at h
  · cases h
  rename_i ho
  have hl := takeWord_length hl
  have ho := takeWord_length ho
  split at h
  · cases h
  rename_i value r hs
  obtain ⟨rfl, -⟩ := splitExact_eq_some.mp hs
  split at h
  · cases h
  · cases h
    simp only [List.length_drop, List.length_append] at *
    omega

theorem takeItem_length {strings bytes rest : Bytes} {depth : Nat} {item : Item}
    (h : takeItem strings depth bytes = .ok (item, rest)) : rest.length < bytes.length := by
  unfold takeItem at h
  split at h
  · cases h
  rename_i hw
  have hw := takeWord_length hw
  split at h
  · split at h
    · cases h
    · rename_i hp
      cases h
      exact Nat.lt_of_le_of_lt (takeProperty_length hp) hw
  · split at h
    · cases h
    split at h
    · cases h
    · rename_i hn
      cases h
      exact Nat.lt_of_le_of_lt (takeName_length hn) hw
  · cases h; exact hw
  · cases h; exact hw
  · cases h
  · cases h

def takeNode (strings : Bytes) (current : Node) (outer : List Node) (bytes : Bytes) :
    Except Fault (Node × Bytes) :=
  match _h : takeItem strings (outer.length + 1) bytes with
  | .error e => .error e
  | .ok (.skip, rest) => takeNode strings current outer rest
  | .ok (.property p, rest) =>
    takeNode strings { current with properties := current.properties ++ [p] } outer rest
  | .ok (.child name, rest) => takeNode strings (.new name) (current :: outer) rest
  | .ok (.close, rest) =>
    match outer with
    | [] => .ok (current, rest)
    | parent :: outer =>
      takeNode strings { parent with children := parent.children ++ [current] } outer rest
termination_by bytes.length
decreasing_by all_goals exact takeItem_length ‹_›

def takeTag (bytes : Bytes) : Except Fault (Tag × Bytes) :=
  match _h : takeWord bytes with
  | .error e => .error e
  | .ok (word, rest) =>
    if Tag.ofWord word = .nop then takeTag rest else .ok (Tag.ofWord word, rest)
termination_by bytes.length
decreasing_by exact takeWord_length ‹_›

def decodeStructure (strings block : Bytes) : Except Fault Node := do
  let (first, rest) ← takeTag block
  if first ≠ .beginNode then throw (.invalidFormat "fdt struct does not open with a node")
  let (name, rest) ← takeName rest
  let (root, rest) ← takeNode strings (.new name) [] rest
  let (last, _) ← takeTag rest
  if last ≠ .finish then throw (.invalidFormat "fdt trailing tokens after root")
  return root

def decodeReservations (bytes : Bytes) : Except Fault (List Reservation) :=
  match _h : splitExact 16 bytes with
  | none => .error (.malformedSizes "fdt reserve map")
  | some (entry, rest) =>
    let r : Reservation := ⟨be64At entry 0, be64At entry 8⟩
    if r.address = 0 ∧ r.size = 0 then .ok []
    else
      match decodeReservations rest with
      | .error e => .error e
      | .ok rs => .ok (r :: rs)
termination_by bytes.length
decreasing_by
  obtain ⟨rfl, hl⟩ := splitExact_eq_some.mp ‹_›
  simp only [List.length_append]
  omega

def parse (bytes : Bytes) : Except Fault DeviceTree := do
  let header ← Header.read bytes
  let (blob, _) ← match splitExact header.totalSize.toNat bytes with
    | none => throw (.malformedSizes "fdt totalsize beyond buffer")
    | some parts => pure parts
  let reservations ← decodeReservations (blob.drop header.reserveOffset.toNat)
  let strings := slice (← header.stringsBlock) blob
  let root ← decodeStructure strings (slice (← header.structBlock) blob)
  return ⟨header.bootCpu, reservations, root⟩

end BootAssembly.DeviceTree
