import BootAssembly.Proofs.DeviceTree.Position

namespace BootAssembly.DeviceTree

def Properties.outline (ps : Properties) : Properties :=
  ps.map fun p => ⟨p.name, List.replicate p.value.length 0⟩

def Node.outline : Node → Node := Node.mapProperties Properties.outline

namespace Properties

@[simp] theorem outline_cons (p : Property) (ps : Properties) :
    outline (p :: ps) = ⟨p.name, List.replicate p.value.length 0⟩ :: outline ps := rfl

theorem outline_modify {ps : Properties} {name : String} {f : Bytes → Bytes}
    (h : ∀ value, ps.get? name = some value → (f value).length = value.length) :
    (ps.modify name f).outline = ps.outline := by
  induction ps with
  | nil => rfl
  | cons p ps ih =>
    by_cases hp : p.name = name
    · have hlength := h p.value (by simp [get?_cons, hp])
      simp only [modify, hp, if_true, outline_cons, hlength]
    · simp only [get?_cons, hp, if_false] at h
      simp only [modify, hp, if_false, outline_cons, ih h]

theorem modify_congr {ps : Properties} {name : String} {value : Bytes} {f g : Bytes → Bytes}
    (hget : ps.get? name = some value) (h : f value = g value) : ps.modify name f = ps.modify name g := by
  induction ps with
  | nil => rfl
  | cons p ps ih =>
    rw [get?_cons] at hget
    by_cases hp : p.name = name
    · rw [if_pos hp] at hget
      cases hget
      simp only [modify, hp, if_true, h]
    · rw [if_neg hp] at hget
      simp only [modify, hp, if_false, ih hget]

theorem modify_self {ps : Properties} {name : String} {value : Bytes}
    (hget : ps.get? name = some value) : (ps.modify name fun _ => value) = ps := by
  induction ps with
  | nil => rfl
  | cons p ps ih =>
    rw [get?_cons] at hget
    by_cases hp : p.name = name
    · rw [if_pos hp] at hget
      cases hget
      rw [modify, if_pos hp]
    · rw [if_neg hp] at hget
      rw [modify, if_neg hp, ih hget]

theorem modify_modify (ps : Properties) (name : String) (f g : Bytes → Bytes) :
    (ps.modify name f).modify name g = ps.modify name (g ∘ f) := by
  induction ps with
  | nil => rfl
  | cons p ps ih =>
    by_cases hp : p.name = name
    · simp [modify, hp]
    · simp [modify, hp, ih]

theorem map_name_outline (ps : Properties) :
    ps.outline.map Property.name = ps.map Property.name := by
  simp [outline, Function.comp_def]

theorem get?_outline (ps : Properties) (name : String) :
    ps.outline.get? name = (ps.get? name).map fun value => List.replicate value.length 0 := by
  induction ps with
  | nil => rfl
  | cons p ps ih =>
    rw [outline_cons, get?_cons, get?_cons, ih]
    split <;> rfl

theorem get?_of_mem {ps : Properties} (h : (ps.map Property.name).Nodup) {p : Property}
    (hp : p ∈ ps) : ps.get? p.name = some p.value := by
  induction ps with
  | nil => cases hp
  | cons q ps ih =>
    rw [List.map_cons, List.nodup_cons] at h
    rw [get?_cons]
    rcases List.mem_cons.mp hp with rfl | hp
    · rw [if_pos rfl]
    · have hne : q.name ≠ p.name := fun he => h.1 (he ▸ List.mem_map_of_mem hp)
      rw [if_neg hne, ih h.2 hp]

end Properties

namespace Node

theorem forestMapProperties_eq (f : Properties → Properties) (cs : List Node) :
    forestMapProperties f cs = cs.map (mapProperties f) := by
  induction cs with
  | nil => rfl
  | cons c cs ih => rw [forestMapProperties, ih, List.map_cons]

@[simp] theorem name_mapProperties (f : Properties → Properties) (n : Node) :
    (n.mapProperties f).name = n.name := by
  cases n
  rfl

@[simp] theorem properties_mapProperties (f : Properties → Properties) (n : Node) :
    (n.mapProperties f).properties = f n.properties := by
  cases n
  rfl

@[simp] theorem children_mapProperties (f : Properties → Properties) (n : Node) :
    (n.mapProperties f).children = n.children.map (mapProperties f) := by
  cases n
  exact forestMapProperties_eq f _

@[simp] theorem at?_mapProperties (f : Properties → Properties) (n : Node) (pos : Position) :
    (n.mapProperties f).at? pos = (n.at? pos).map (mapProperties f) := by
  induction pos generalizing n with
  | nil => rfl
  | cons i pos ih =>
    rw [at?_cons, at?_cons, children_mapProperties, List.getElem?_map]
    cases n.children[i]? with
    | none => rfl
    | some c => exact ih c

theorem mapProperties_eq_iff {f : Properties → Properties} {m n : Node} :
    m.mapProperties f = n.mapProperties f ↔ m.name = n.name ∧ f m.properties = f n.properties ∧
      m.children.map (mapProperties f) = n.children.map (mapProperties f) := by
  constructor
  · intro h
    have hname := congrArg Node.name h
    have hproperties := congrArg Node.properties h
    have hchildren := congrArg Node.children h
    simp only [name_mapProperties, properties_mapProperties, children_mapProperties]
      at hname hproperties hchildren
    exact ⟨hname, hproperties, hchildren⟩
  · rintro ⟨hname, hproperties, hchildren⟩
    cases m
    cases n
    simp only [mapProperties, forestMapProperties_eq, mk.injEq]
    exact ⟨hname, hproperties, hchildren⟩

theorem at?_of_mapProperties_eq {f : Properties → Properties} {t t' : Node}
    (h : t'.mapProperties f = t.mapProperties f) {pos : Position} {n : Node}
    (hn : t.at? pos = some n) :
    ∃ n', t'.at? pos = some n' ∧ n'.mapProperties f = n.mapProperties f := by
  have := congrArg (at? pos) h
  rw [at?_mapProperties, at?_mapProperties, hn] at this
  exact Option.map_eq_some_iff.mp this

theorem mapProperties_modifyPosition {f : Properties → Properties} {g : Node → Node} {n : Node}
    {pos : Position} (h : ∀ m, n.at? pos = some m → (g m).mapProperties f = m.mapProperties f) :
    (n.modifyPosition g pos).mapProperties f = n.mapProperties f := by
  induction pos generalizing n with
  | nil => exact h n rfl
  | cons i pos ih =>
    rw [mapProperties_eq_iff]
    refine ⟨rfl, rfl, List.ext_getElem? fun j => ?_⟩
    rw [modifyPosition, List.getElem?_map, List.getElem?_map, List.getElem?_modify]
    cases hc : n.children[j]? with
    | none => rfl
    | some c =>
      by_cases hij : i = j
      · subst hij
        have hbelow : ∀ m, c.at? pos = some m → (g m).mapProperties f = m.mapProperties f :=
          fun m hm => h m (by simp [hc, hm])
        simpa using ih hbelow
      · simp [hij]

theorem locate?_mapProperties (f : Properties → Properties) (names : List String) (n : Node) :
    (n.mapProperties f).locate? names = n.locate? names := by
  induction names generalizing n with
  | nil => rfl
  | cons name names ih =>
    have hanswers : (fun c : Node => c.answersTo name) ∘ mapProperties f = (·.answersTo name) := by
      funext c
      simp [answersTo]
    rw [locate?, locate?, children_mapProperties, List.findIdx?_map, hanswers]
    cases n.children.findIdx? (·.answersTo name) with
    | none => rfl
    | some i =>
      rw [Option.bind_some, Option.bind_some, List.getElem?_map]
      cases n.children[i]? with
      | none => rfl
      | some c => simp [ih]

@[simp] theorem name_outline (n : Node) : n.outline.name = n.name := name_mapProperties _ n

@[simp] theorem children_outline (n : Node) : n.outline.children = n.children.map outline :=
  children_mapProperties _ n

theorem outline_eq_iff {m n : Node} :
    m.outline = n.outline ↔ m.name = n.name ∧ m.properties.outline = n.properties.outline ∧
      m.children.map outline = n.children.map outline := mapProperties_eq_iff

mutual

theorem outline_mapProperties {f : Properties → Properties} : (n : Node) →
    (∀ m ∈ n.toList, (f m.properties).outline = m.properties.outline) →
    (n.mapProperties f).outline = n.outline
  | ⟨name, properties, children⟩, h => by
    rw [toList, List.forall_mem_cons] at h
    rw [outline_eq_iff, name_mapProperties, properties_mapProperties, children_mapProperties,
      map_outline_mapProperties children h.2]
    exact ⟨rfl, h.1, rfl⟩

theorem map_outline_mapProperties {f : Properties → Properties} : (cs : List Node) →
    (∀ m ∈ forestToList cs, (f m.properties).outline = m.properties.outline) →
    (cs.map (mapProperties f)).map outline = cs.map outline
  | [], _ => rfl
  | c :: cs, h => by
    rw [forestToList, List.forall_mem_append] at h
    rw [List.map_cons, List.map_cons, List.map_cons, outline_mapProperties c h.1,
      map_outline_mapProperties cs h.2]

end

theorem at?_of_outline_eq {t t' : Node} (h : t'.outline = t.outline) {pos : Position} {n : Node}
    (hn : t.at? pos = some n) : ∃ n', t'.at? pos = some n' ∧ n'.outline = n.outline :=
  at?_of_mapProperties_eq h hn

theorem outline_modifyPosition {f : Node → Node} {n : Node} {pos : Position}
    (h : ∀ m, n.at? pos = some m → (f m).outline = m.outline) :
    (n.modifyPosition f pos).outline = n.outline := mapProperties_modifyPosition h

theorem findIdx?_outline {p : Node → Bool} (hp : ∀ n, p n.outline = p n) (cs : List Node) :
    (cs.map outline).findIdx? p = cs.findIdx? p := by
  rw [List.findIdx?_map]
  congr 1
  exact funext hp

theorem locate?_outline (names : List String) (n : Node) :
    n.outline.locate? names = n.locate? names := locate?_mapProperties _ names n

end Node

end BootAssembly.DeviceTree
