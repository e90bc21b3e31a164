import BootAssembly.Proofs.DeviceTree.Acceptance
import BootAssembly.Proofs.DeviceTree.Outline

namespace BootAssembly.DeviceTree

namespace Properties

variable {ps ps' ps'' : Properties} {name other : String} {value : Bytes}

def values (name : String) (ps : Properties) : List Bytes :=
  (ps.filter (·.name = name)).map Property.value

theorem values_cons (name : String) (p : Property) (ps : Properties) :
    values name (p :: ps) =
      if p.name = name then p.value :: values name ps else values name ps := by
  by_cases h : p.name = name <;> simp [values, h]

theorem get?_eq_head? (name : String) (ps : Properties) :
    ps.get? name = (ps.values name).head? := by
  rw [values, List.head?_map, List.head?_filter, get?]

theorem values_eq_nil_iff : ps.values name = [] ↔ ps.get? name = none := by
  rw [get?_eq_head?, List.head?_eq_none_iff]

theorem mem_map_name_iff : name ∈ ps.map Property.name ↔ ps.values name ≠ [] := by
  simp [values]

structure SameBut (touched : String → Prop) (ps ps' : Properties) : Prop where
  names : ps.map Property.name <+: ps'.map Property.name
  kept : ∀ name, ¬ touched name → ps'.values name = ps.values name
  later : ∀ name, (ps'.values name).tail = (ps.values name).tail

namespace SameBut

variable {touched touched' : String → Prop}

theorem refl (touched : String → Prop) (ps : Properties) : SameBut touched ps ps :=
  ⟨List.prefix_refl _, fun _ _ => rfl, fun _ => rfl⟩

theorem mono (h : SameBut touched ps ps') (hsub : ∀ name, touched name → touched' name) :
    SameBut touched' ps ps' :=
  ⟨h.names, fun name hname => h.kept name fun ht => hname (hsub name ht), h.later⟩

theorem trans (h : SameBut touched ps ps') (h' : SameBut touched ps' ps'') :
    SameBut touched ps ps'' where
  names := h.names.trans h'.names
  kept name hname := (h'.kept name hname).trans (h.kept name hname)
  later name := (h'.later name).trans (h.later name)

theorem get?_eq (h : SameBut touched ps ps') (hname : ¬ touched name) :
    ps'.get? name = ps.get? name := by
  rw [get?_eq_head?, get?_eq_head?, h.kept name hname]

theorem touched_or_mem (h : SameBut touched ps ps') (hname : name ∈ ps'.map Property.name) :
    touched name ∨ name ∈ ps.map Property.name := by
  by_cases htouched : touched name
  · exact .inl htouched
  · rw [mem_map_name_iff, h.kept name htouched] at hname
    exact .inr (mem_map_name_iff.mpr hname)

end SameBut

theorem values_modify (f : Bytes → Bytes) (ps : Properties) :
    (ps.modify name f).values other =
      if name = other then (ps.values name).modifyHead f else ps.values other := by
  induction ps with
  | nil => simp [modify, values]
  | cons p ps ih =>
    by_cases hp : p.name = name
    · by_cases ho : name = other <;> simp [modify, values_cons, hp, ho]
    · simp only [modify, hp, if_false, values_cons, ih]
      by_cases ho : p.name = other
      · have : name ≠ other := fun e => hp (ho.trans e.symm)
        simp [ho, this]
      · simp [ho]

theorem map_name_modify (f : Bytes → Bytes) (ps : Properties) :
    (ps.modify name f).map Property.name = ps.map Property.name := by
  induction ps with
  | nil => rfl
  | cons p ps ih =>
    rw [modify]
    split
    · rfl
    · rw [List.map_cons, List.map_cons, ih]

theorem sameBut_modify (name : String) (f : Bytes → Bytes) (ps : Properties) :
    ps.SameBut (· = name) (ps.modify name f) where
  names := map_name_modify f ps ▸ List.prefix_refl _
  kept other hother := by rw [values_modify, if_neg fun e => hother e.symm]
  later other := by
    rw [values_modify]
    by_cases ho : name = other
    · subst ho
      rw [if_pos rfl]
      cases ps.values name <;> rfl
    · rw [if_neg ho]

theorem sameBut_append (h : ps.get? name = none) (value : Bytes) :
    ps.SameBut (· = name) (ps ++ [⟨name, value⟩]) where
  names := by
    rw [List.map_append]
    exact List.prefix_append _ _
  kept other hother := by simp [values, Ne.symm hother]
  later other := by
    rw [← values_eq_nil_iff] at h
    by_cases ho : name = other
    · subst ho
      have hall : values name (ps ++ [⟨name, value⟩]) = values name ps ++ [value] := by
        simp [values]
      rw [hall, h]
      rfl
    · simp [values, ho]

theorem set_eq (name : String) (value : Bytes) (ps : Properties) :
    ps.set name value =
      if ps.get? name = none then ps ++ [⟨name, value⟩] else ps.modify name fun _ => value := by
  induction ps with
  | nil => rfl
  | cons p ps ih =>
    by_cases hp : p.name = name
    · simp [set, modify, get?_cons, hp]
    · simp only [set, modify, get?_cons, hp, if_false, ih]
      split <;> rfl

theorem extend_eq (name : String) (value : Bytes) (ps : Properties) :
    ps.extend name value =
      if ps.get? name = none then ps ++ [⟨name, value⟩] else ps.modify name (· ++ value) := by
  induction ps with
  | nil => rfl
  | cons p ps ih =>
    by_cases hp : p.name = name
    · simp [extend, modify, get?_cons, hp]
    · simp only [extend, modify, get?_cons, hp, if_false, ih]
      split <;> rfl

theorem get?_extend (h : ps.get? name = some value) (more : Bytes) :
    (ps.extend name more).get? name = some (value ++ more) := by
  rw [extend_eq, if_neg (by simp [h]), get?_modify, if_pos rfl, h]
  rfl

theorem sameBut_set (name : String) (value : Bytes) (ps : Properties) :
    ps.SameBut (· = name) (ps.set name value) := by
  rw [set_eq]
  split
  · exact sameBut_append ‹_› value
  · exact sameBut_modify name _ ps

theorem sameBut_extend (name : String) (value : Bytes) (ps : Properties) :
    ps.SameBut (· = name) (ps.extend name value) := by
  rw [extend_eq]
  split
  · exact sameBut_append ‹_› value
  · exact sameBut_modify name _ ps

end Properties

namespace Node

def shape : Node → Node := mapProperties fun _ => []

mutual

theorem height_mapProperties (f : Properties → Properties) : (n : Node) →
    (n.mapProperties f).height = n.height
  | ⟨name, properties, children⟩ => by
    rw [mapProperties, height, height, forestHeight_mapProperties f children]

theorem forestHeight_mapProperties (f : Properties → Properties) : (cs : List Node) →
    forestHeight (forestMapProperties f cs) = forestHeight cs
  | [] => rfl
  | c :: cs => by
    rw [forestMapProperties, forestHeight, forestHeight, height_mapProperties f c,
      forestHeight_mapProperties f cs]

end

variable {n n' n'' : Node} {touched touched' : Position → String → Prop}

theorem locate?_of_shape_eq (h : n'.shape = n.shape) (names : List String) :
    n'.locate? names = n.locate? names := by
  rw [← locate?_mapProperties (fun _ => []) names n', ← locate?_mapProperties (fun _ => []) names n]
  exact congrArg (locate? names) h

/-- The same nodes, in which only the first value under a touched name of a place differs. -/
structure SameBut (touched : Position → String → Prop) (n n' : Node) : Prop where
  shape : n'.shape = n.shape
  properties : ∀ pos m m', n.at? pos = some m → n'.at? pos = some m' →
    m.properties.SameBut (touched pos) m'.properties

namespace SameBut

theorem refl (touched : Position → String → Prop) (n : Node) : SameBut touched n n := by
  refine ⟨rfl, fun pos m m' hm hm' => ?_⟩
  rw [hm] at hm'
  cases hm'
  exact .refl _ _

theorem mono (h : SameBut touched n n')
    (hsub : ∀ pos name, touched pos name → touched' pos name) : SameBut touched' n n' :=
  ⟨h.shape, fun pos m m' hm hm' => (h.properties pos m m' hm hm').mono (hsub pos)⟩

theorem trans (h : SameBut touched n n') (h' : SameBut touched n' n'') :
    SameBut touched n n'' := by
  refine ⟨h'.shape.trans h.shape, fun pos m m'' hm hm'' => ?_⟩
  obtain ⟨m', hm', -⟩ := at?_of_mapProperties_eq h.shape hm
  exact (h.properties pos m m' hm hm').trans (h'.properties pos m' m'' hm' hm'')

theorem locate?_eq (h : SameBut touched n n') (names : List String) :
    n'.locate? names = n.locate? names := locate?_of_shape_eq h.shape names

theorem height_eq (h : SameBut touched n n') : n'.height = n.height := by
  rw [← height_mapProperties (fun _ => []) n', ← height_mapProperties (fun _ => []) n]
  exact congrArg height h.shape

theorem value?_eq (h : SameBut touched n n') {pos : Position} {name : String}
    (hname : ¬ touched pos name) :
    (n'.at? pos).bind (·.value? name) = (n.at? pos).bind (·.value? name) := by
  cases hm : n.at? pos with
  | some m =>
    obtain ⟨m', hm', -⟩ := at?_of_mapProperties_eq h.shape hm
    rw [hm']
    exact (h.properties pos m m' hm hm').get?_eq hname
  | none =>
    cases hm' : n'.at? pos with
    | none => rfl
    | some m' =>
      obtain ⟨m, hm'', -⟩ := at?_of_mapProperties_eq h.shape.symm hm'
      rw [hm] at hm''
      cases hm''

theorem nulFree (h : SameBut touched n n') (hn : ∀ m ∈ n.toList, m.NulFree)
    (htouched : ∀ pos name, touched pos name → 0 ∉ utf8 name) : ∀ m ∈ n'.toList, m.NulFree := by
  intro m' hm'
  obtain ⟨pos, hpos⟩ := (mem_toList_iff n' m').mp hm'
  obtain ⟨m, hm, hshape⟩ := at?_of_mapProperties_eq h.shape.symm hpos
  have hfree := hn m (mem_toList_of_at? hm)
  obtain ⟨hname, -, -⟩ := mapProperties_eq_iff.mp hshape
  refine ⟨hname ▸ hfree.1, fun p hp => ?_⟩
  rcases (h.properties pos m m' hm hpos).touched_or_mem (List.mem_map_of_mem hp) with ht | hmem
  · exact htouched pos p.name ht
  · obtain ⟨q, hq, hsame⟩ := List.mem_map.mp hmem
    exact hsame ▸ hfree.2 q hq

end SameBut

theorem sameBut_properties {ps : Properties} (h : n.properties.SameBut (touched []) ps) :
    n.SameBut touched { n with properties := ps } := by
  refine ⟨mapProperties_eq_iff.mpr ⟨rfl, rfl, rfl⟩, fun pos m m' hm hm' => ?_⟩
  cases pos with
  | nil =>
    cases hm
    cases hm'
    exact h
  | cons i pos =>
    rw [at?_cons] at hm hm'
    rw [hm] at hm'
    cases hm'
    exact .refl _ _

theorem sameBut_children {cs : List Node} (hlength : cs.length = n.children.length)
    (h : ∀ (i : Nat) (c c' : Node), n.children[i]? = some c → cs[i]? = some c' →
      c.SameBut (fun pos => touched (i :: pos)) c') :
    n.SameBut touched { n with children := cs } := by
  constructor
  · refine mapProperties_eq_iff.mpr ⟨rfl, rfl, List.ext_getElem (by simpa using hlength) ?_⟩
    intro i hi hi'
    rw [List.length_map] at hi hi'
    rw [List.getElem_map, List.getElem_map]
    exact (h i _ _ (List.getElem?_eq_getElem hi') (List.getElem?_eq_getElem hi)).shape
  · intro pos m m' hm hm'
    cases pos with
    | nil =>
      cases hm
      cases hm'
      exact .refl _ _
    | cons i pos =>
      obtain ⟨c, hc, hm⟩ := Option.bind_eq_some_iff.mp hm
      obtain ⟨c', hc', hm'⟩ := Option.bind_eq_some_iff.mp hm'
      exact (h i c c' hc hc').properties pos m m' hm hm'

theorem sameBut_modifyPosition {f : Node → Node} {m : Node} {pos : Position}
    (hm : n.at? pos = some m) (h : m.SameBut (fun below => touched (pos ++ below)) (f m)) :
    n.SameBut touched (n.modifyPosition f pos) := by
  induction pos generalizing n touched with
  | nil =>
    cases hm
    exact h
  | cons i pos ih =>
    obtain ⟨c, hc, hm⟩ := Option.bind_eq_some_iff.mp hm
    apply sameBut_children (List.length_modify _ _ _)
    intro j d d' hd hd'
    rw [List.getElem?_modify, hd] at hd'
    by_cases hij : i = j
    · subst hij
      rw [hc] at hd
      cases hd
      simp only [if_true] at hd'
      obtain rfl : c.modifyPosition f pos = d' := Option.some.inj hd'
      exact ih hm h
    · simp only [hij, if_false] at hd'
      obtain rfl : d = d' := Option.some.inj hd'
      exact .refl _ _

theorem modifyFirst_of_forall_eq {p : Node → Bool} {f : Node → Node} {cs : List Node}
    (h : ∀ c, cs.find? p = some c → f c = c) : modifyFirst p f cs = cs := by
  induction cs with
  | nil => rfl
  | cons c cs ih =>
    rw [List.find?_cons] at h
    rw [modifyFirst]
    split
    · rename_i hc
      rw [h c (by rw [hc])]
    · rename_i hc
      rw [Bool.not_eq_true] at hc
      rw [hc] at h
      rw [ih h]

theorem modifyAt_of_locate?_eq_none {f : Node → Node} {names : List String}
    (h : n.locate? names = none) : n.modifyAt f names = n := by
  induction names generalizing n with
  | nil => cases h
  | cons name names ih =>
    have hsame : modifyFirst (·.answersTo name) (modifyAt f names) n.children = n.children := by
      apply modifyFirst_of_forall_eq
      intro c hc
      rw [find?_eq_getElem?] at hc
      obtain ⟨i, hi, hc⟩ := Option.bind_eq_some_iff.mp hc
      rw [locate?, hi, Option.bind_some, hc, Option.bind_some, Option.map_eq_none_iff] at h
      exact ih h
    rw [modifyAt, hsame]
    cases n
    rfl

def AtPath (names : List String) (property : String) (n : Node) (pos : Position) (name : String) :
    Prop :=
  n.locate? names = some pos ∧ name = property

theorem AtPath.of_shape_eq {names : List String} {property name : String} {pos : Position}
    (hat : AtPath names property n' pos name) (h : n'.shape = n.shape) :
    AtPath names property n pos name := by
  rwa [AtPath, locate?_of_shape_eq h] at hat

theorem modifyAt_append (f : Node → Node) (names more : List String) (n : Node) :
    n.modifyAt f (names ++ more) = n.modifyAt (modifyAt f more) names := by
  induction names generalizing n with
  | nil => rfl
  | cons name names ih =>
    have hsame : modifyAt f (names ++ more) = modifyAt (modifyAt f more) names := funext ih
    rw [List.cons_append, modifyAt, modifyAt, hsame]

theorem sameBut_modifyAt {f : Node → Node} {update : Properties → Properties} {property : String}
    (hf : ∀ m, f m = { m with properties := update m.properties })
    (hupdate : ∀ ps : Properties, ps.SameBut (· = property) (update ps)) (names : List String)
    (n : Node) :
    n.SameBut (AtPath names property n) (n.modifyAt f names) := by
  cases hpos : n.locate? names with
  | none =>
    rw [modifyAt_of_locate?_eq_none hpos]
    exact .refl _ _
  | some pos =>
    obtain ⟨m, hm⟩ := isSome_at?_of_locate? hpos
    rw [modifyAt_eq_modifyPosition hpos]
    apply sameBut_modifyPosition hm
    rw [hf]
    apply sameBut_properties
    apply (hupdate m.properties).mono
    rintro name rfl
    rw [AtPath, List.append_nil]
    exact ⟨hpos, rfl⟩

end Node

variable {touched touched' : Position → String → Prop} {t t' t'' : DeviceTree}

structure SameBut (touched : Position → String → Prop) (t t' : DeviceTree) : Prop where
  bootCpu : t'.bootCpu = t.bootCpu
  reservations : t'.reservations = t.reservations
  root : t.root.SameBut touched t'.root

def valueAt? (t : DeviceTree) (path name : String) : Option Bytes :=
  (t.node? path).bind (·.value? name)

theorem valueAt?_eq (t : DeviceTree) (path name : String) :
    t.valueAt? path name =
      (t.root.locate? (segments path)).bind fun pos => (t.root.at? pos).bind (·.value? name) := by
  rw [valueAt?, node?, Node.descend?_eq_at?, Option.bind_assoc]

namespace SameBut

theorem refl (touched : Position → String → Prop) (t : DeviceTree) : SameBut touched t t :=
  ⟨rfl, rfl, .refl _ _⟩

theorem mono (h : SameBut touched t t')
    (hsub : ∀ pos name, touched pos name → touched' pos name) : SameBut touched' t t' :=
  ⟨h.bootCpu, h.reservations, h.root.mono hsub⟩

theorem trans (h : SameBut touched t t') (h' : SameBut touched t' t'') : SameBut touched t t'' :=
  ⟨h'.bootCpu.trans h.bootCpu, h'.reservations.trans h.reservations, h.root.trans h'.root⟩

theorem valueAt?_eq (h : SameBut touched t t') {path name : String}
    (hpath : ∀ pos, t.root.locate? (segments path) = some pos → ¬ touched pos name) :
    t'.valueAt? path name = t.valueAt? path name := by
  rw [DeviceTree.valueAt?_eq, DeviceTree.valueAt?_eq, h.root.locate?_eq]
  cases hpos : t.root.locate? (segments path) with
  | none => rfl
  | some pos => exact h.root.value?_eq (hpath pos hpos)

theorem portable (h : SameBut touched t t') (ht : t.Portable)
    (htouched : ∀ pos name, touched pos name → 0 ∉ utf8 name) : t'.Portable where
  nulFree := h.root.nulFree ht.nulFree htouched
  shallow := h.root.height_eq ▸ ht.shallow
  reserved := h.reservations ▸ ht.reserved

end SameBut

theorem modifyNode_sameBut {f : Node → Node} {update : Properties → Properties} {property : String}
    (hf : ∀ m, f m = { m with properties := update m.properties })
    (hupdate : ∀ ps : Properties, ps.SameBut (· = property) (update ps)) (path : String)
    (t : DeviceTree) :
    t.SameBut (Node.AtPath (segments path) property t.root) (t.modifyNode path f) :=
  ⟨rfl, rfl, Node.sameBut_modifyAt hf hupdate _ _⟩

theorem exists_position {path : String} {n : Node} (hn : t.node? path = some n) :
    ∃ pos, t.root.locate? (segments path) = some pos ∧ t.root.at? pos = some n := by
  rw [node?, Node.descend?_eq_at?] at hn
  exact Option.bind_eq_some_iff.mp hn

theorem exists_node? {path : String} {pos : Position}
    (hpos : t.root.locate? (segments path) = some pos) : ∃ n, t.node? path = some n := by
  obtain ⟨n, hn⟩ := Node.isSome_at?_of_locate? hpos
  exact ⟨n, by rw [node?, Node.descend?_eq_at?, hpos, Option.bind_some, hn]⟩

theorem modifyNode_eq {f g : Node → Node} {path : String} {n : Node} (hn : t.node? path = some n)
    (h : f n = g n) : t.modifyNode path f = t.modifyNode path g := by
  obtain ⟨pos, hpos, hn⟩ := exists_position hn
  rw [modifyNode, modifyNode, Node.modifyAt_eq_modifyPosition hpos,
    Node.modifyAt_eq_modifyPosition hpos, Node.modifyPosition_congr hn h]

theorem valueAt?_modifyNode {f : Node → Node} {path : String} {n : Node}
    (hn : t.node? path = some n) (h : t.SameBut touched (t.modifyNode path f)) (name : String) :
    (t.modifyNode path f).valueAt? path name = (f n).value? name := by
  obtain ⟨pos, hpos, hn⟩ := exists_position hn
  have hat : (t.modifyNode path f).root.at? pos = some (f n) := by
    have hmodified := Node.at?_modifyPosition f t.root pos []
    rw [List.append_nil, hn] at hmodified
    rwa [modifyNode, Node.modifyAt_eq_modifyPosition hpos]
  rw [valueAt?_eq, h.root.locate?_eq, hpos, Option.bind_some, hat, Option.bind_some]

theorem value_length_le_encodedSize {path name : String} {value : Bytes}
    (h : t.valueAt? path name = some value) : value.length ≤ encodedSize t := by
  obtain ⟨n, hn, hvalue⟩ := Option.bind_eq_some_iff.mp h
  obtain ⟨pos, -, hat⟩ := exists_position hn
  obtain ⟨p, hp, rfl⟩ := Option.map_eq_some_iff.mp hvalue
  have hlength := value_length_le_encodeNode (List.mem_of_find?_eq_some hp) t.root
    (Node.mem_toList_of_at? hat) []
  simp only [encodedSize, stringsStart, structBytes, List.length_append]
  omega

theorem parse_of_portable {b : Bytes} (ht : t.Portable) (hb : toBytes t = .ok b) :
    parse b = .ok t := by
  have hread := parse_written ht.nulFree ht.reserved hb []
  rwa [List.append_nil, if_pos ht.shallow] at hread

end BootAssembly.DeviceTree
