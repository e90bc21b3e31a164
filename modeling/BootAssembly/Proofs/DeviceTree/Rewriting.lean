import BootAssembly.Proofs.DeviceTree.Outline

namespace BootAssembly

section

variable {offset : Nat} {cell : UInt32} {bytes : Bytes}

theorem getElem?_putCell_of_outside (h : offset + 4 ≤ bytes.length) {i : Nat}
    (ho : i < offset ∨ offset + 4 ≤ i) : (putCell offset cell bytes)[i]? = bytes[i]? := by
  have hfront : (bytes.take offset).length = offset := by rw [List.length_take]; omega
  have hword := length_be32 cell
  rcases ho with ho | ho
  · rw [putCell, List.append_assoc, List.getElem?_append_left (by omega), List.getElem?_take_of_lt ho]
  · rw [putCell, List.getElem?_append_right (by rw [List.length_append]; omega),
      List.length_append, hfront, hword, List.getElem?_drop]
    congr 1
    omega

theorem be32At_putCell (h : offset + 4 ≤ bytes.length) :
    be32At (putCell offset cell bytes) offset = cell := by
  have hfront : (bytes.take offset).length = offset := by rw [List.length_take]; omega
  rw [be32At, putCell, List.append_assoc, List.drop_left' hfront,
    List.take_left' (length_be32 cell), ofBe32_be32]

theorem be32At_congr {bytes' : Bytes} (h : ∀ i, offset ≤ i → i < offset + 4 → bytes'[i]? = bytes[i]?) :
    be32At bytes' offset = be32At bytes offset := by
  rw [be32At, be32At]
  congr 1
  apply List.ext_getElem?
  intro i
  rw [List.getElem?_take, List.getElem?_take]
  split
  · rw [List.getElem?_drop, List.getElem?_drop]
    exact h _ (by omega) (by omega)
  · rfl

end

end BootAssembly

namespace BootAssembly.DeviceTree

structure Site where
  node : Position
  property : String
  offset : Nat
deriving DecidableEq, Repr

namespace Site

def under (i : Nat) (s : Site) : Site := { s with node := i :: s.node }

def value? (s : Site) (root : Node) : Option Bytes := (root.at? s.node).bind (·.value? s.property)

def cell? (s : Site) (root : Node) : Option UInt32 :=
  (s.value? root).bind fun value =>
    if s.offset + 4 ≤ value.length then some (be32At value s.offset) else none

def put (s : Site) (cell : UInt32) (root : Node) : Node :=
  root.modifyPosition (·.modifyValue s.property (putCell s.offset cell)) s.node

def Apart (s r : Site) : Prop :=
  s.node = r.node → s.property = r.property → s.offset + 4 ≤ r.offset ∨ r.offset + 4 ≤ s.offset

def Covers (s : Site) (pos : Position) (property : String) (i : Nat) : Prop :=
  s.node = pos ∧ s.property = property ∧ s.offset ≤ i ∧ i < s.offset + 4

theorem Apart.symm {s r : Site} (h : s.Apart r) : r.Apart s :=
  fun hnode hproperty => (h hnode.symm hproperty.symm).symm

theorem cell?_eq_some {s : Site} {root : Node} {cell : UInt32} :
    s.cell? root = some cell ↔ ∃ value, s.value? root = some value ∧
      s.offset + 4 ≤ value.length ∧ be32At value s.offset = cell := by
  simp [cell?, Option.bind_eq_some_iff]

end Site

namespace Node

theorem properties_at?_modifyPosition {f : Node → Node} (hf : ∀ m, (f m).children = m.children)
    (n : Node) (pos other : Position) :
    ((n.modifyPosition f pos).at? other).map Node.properties =
      if other = pos then (n.at? pos).map fun m => (f m).properties
      else (n.at? other).map Node.properties := by
  induction pos generalizing n other with
  | nil =>
    cases other with
    | nil => rfl
    | cons j other => simp [modifyPosition, hf]
  | cons i pos ih =>
    cases other with
    | nil => rfl
    | cons j other =>
      rw [modifyPosition, at?_cons, at?_cons, at?_cons, List.getElem?_modify]
      by_cases hij : i = j
      · subst hij
        cases n.children[i]? with
        | none => simp
        | some c => simpa using ih c other
      · have hji : j ≠ i := fun e => hij e.symm
        simp [hij, hji]

theorem outline_modifyValue {n : Node} {name : String} {f : Bytes → Bytes}
    (h : ∀ value, n.value? name = some value → (f value).length = value.length) :
    (n.modifyValue name f).outline = n.outline := by
  rw [outline_eq_iff]
  exact ⟨rfl, Properties.outline_modify h, rfl⟩

end Node

namespace Site

theorem value?_put (s r : Site) (cell : UInt32) (root : Node) :
    r.value? (s.put cell root) =
      if r.node = s.node ∧ r.property = s.property then
        (s.value? root).map (putCell s.offset cell)
      else r.value? root := by
  have hkeep : ∀ m : Node, (m.modifyValue s.property (putCell s.offset cell)).children = m.children :=
    fun m => rfl
  have hview : ∀ m : Node, ∀ q : Site, q.value? m =
      ((m.at? q.node).map Node.properties).bind (Properties.get? · q.property) := by
    intro m q
    cases h : m.at? q.node <;> simp [value?, Node.value?, h]
  rw [hview, put, Node.properties_at?_modifyPosition hkeep]
  by_cases hnode : r.node = s.node
  · rw [if_pos hnode, hview root s, hview root r, hnode]
    cases root.at? s.node with
    | none => simp
    | some m =>
      by_cases hproperty : r.property = s.property
      · simp [Node.modifyValue, hproperty]
      · have hother : s.property ≠ r.property := fun e => hproperty e.symm
        simp [Node.modifyValue, hproperty, hother]
  · rw [if_neg hnode, if_neg fun h => hnode h.1, hview]

theorem outline_put {s : Site} {cell old : UInt32} {root : Node} (h : s.cell? root = some old) :
    (s.put cell root).outline = root.outline := by
  obtain ⟨value, hvalue, hlength, -⟩ := cell?_eq_some.mp h
  obtain ⟨m, hm, hget⟩ := Option.bind_eq_some_iff.mp hvalue
  apply Node.outline_modifyPosition
  intro m' hm'
  rw [hm] at hm'
  cases hm'
  apply Node.outline_modifyValue
  intro value' hvalue'
  rw [hget] at hvalue'
  cases hvalue'
  exact length_putCell hlength

theorem cell?_put_self {s : Site} {cell old : UInt32} {root : Node} (h : s.cell? root = some old) :
    s.cell? (s.put cell root) = some cell := by
  obtain ⟨value, hvalue, hlength, -⟩ := cell?_eq_some.mp h
  refine cell?_eq_some.mpr ⟨putCell s.offset cell value, ?_, ?_, be32At_putCell hlength⟩
  · rw [value?_put, if_pos ⟨rfl, rfl⟩, hvalue]
    rfl
  · rwa [length_putCell hlength]

theorem cell?_put_of_apart {s r : Site} {cell old : UInt32} {root : Node}
    (h : s.cell? root = some old) (hapart : s.Apart r) :
    r.cell? (s.put cell root) = r.cell? root := by
  obtain ⟨value, hvalue, hlength, -⟩ := cell?_eq_some.mp h
  rw [cell?, cell?, value?_put]
  by_cases hsame : r.node = s.node ∧ r.property = s.property
  · have hshared : r.value? root = some value := by
      rw [value?, hsame.1, hsame.2]
      exact hvalue
    have hoffsets := hapart hsame.1.symm hsame.2.symm
    have hword : be32At (putCell s.offset cell value) r.offset = be32At value r.offset :=
      be32At_congr fun i hle hlt => getElem?_putCell_of_outside hlength (by omega)
    rw [if_pos hsame, hvalue, hshared, Option.map_some, Option.bind_some, Option.bind_some,
      length_putCell hlength, hword]
  · rw [if_neg hsame]

end Site

structure Edit where
  site : Site
  Meets : UInt32 → UInt32 → Prop

def Edit.under (i : Nat) (e : Edit) : Edit := { e with site := e.site.under i }

/-- One tree becomes another by these edits, made in turn. -/
inductive Rewrites : List Edit → Node → Node → Prop
  | nil (n : Node) : Rewrites [] n n
  | cons {e : Edit} {es : List Edit} {n n' : Node} {old new : UInt32}
      (read : e.site.cell? n = some old) (meets : e.Meets old new)
      (rest : Rewrites es (e.site.put new n) n') : Rewrites (e :: es) n n'

namespace Rewrites

variable {es fs : List Edit} {n n' n'' : Node}

theorem append (h : Rewrites es n n') (h' : Rewrites fs n' n'') : Rewrites (es ++ fs) n n'' := by
  induction h with
  | nil n => exact h'
  | cons hread hmeets _ ih => exact .cons hread hmeets (ih h')

theorem outline (h : Rewrites es n n') : n'.outline = n.outline := by
  induction h with
  | nil n => rfl
  | cons hread hmeets _ ih => rw [ih, Site.outline_put hread]

theorem cell?_of_apart (h : Rewrites es n n') {s : Site} (hapart : ∀ e ∈ es, e.site.Apart s) :
    s.cell? n' = s.cell? n := by
  induction h with
  | nil n => rfl
  | cons hread hmeets _ ih =>
    rw [List.forall_mem_cons] at hapart
    rw [ih hapart.2, Site.cell?_put_of_apart hread hapart.1]

theorem cell? (h : Rewrites es n n') (hapart : es.Pairwise fun e f => e.site.Apart f.site) :
    ∀ e ∈ es, ∃ old new, e.site.cell? n = some old ∧ e.site.cell? n' = some new ∧
      e.Meets old new := by
  induction h with
  | nil n => simp
  | @cons e es n n' old new hread hmeets hrest ih =>
    rw [List.pairwise_cons] at hapart
    intro f hf
    rcases List.mem_cons.mp hf with rfl | hf
    · refine ⟨old, new, hread, ?_, hmeets⟩
      rw [hrest.cell?_of_apart fun g hg => (hapart.1 g hg).symm, Site.cell?_put_self hread]
    · obtain ⟨old', new', hold, hnew, hmeets'⟩ := ih hapart.2 f hf
      rw [Site.cell?_put_of_apart hread (hapart.1 f hf)] at hold
      exact ⟨old', new', hold, hnew, hmeets'⟩

theorem value?_of_untouched (h : Rewrites es n n') {s : Site}
    (hno : ∀ e ∈ es, ¬ (s.node = e.site.node ∧ s.property = e.site.property)) :
    s.value? n' = s.value? n := by
  induction h with
  | nil n => rfl
  | cons hread hmeets _ ih =>
    rw [List.forall_mem_cons] at hno
    rw [ih hno.2, Site.value?_put, if_neg hno.1]

theorem getElem?_of_uncovered (h : Rewrites es n n') {s : Site} {i : Nat}
    (hno : ∀ e ∈ es, ¬ e.site.Covers s.node s.property i) :
    (s.value? n').bind (·[i]?) = (s.value? n).bind (·[i]?) := by
  induction h with
  | nil n => rfl
  | @cons e es n n' old new hread hmeets _ ih =>
    rw [List.forall_mem_cons] at hno
    rw [ih hno.2, Site.value?_put]
    obtain ⟨value, hvalue, hlength, -⟩ := Site.cell?_eq_some.mp hread
    by_cases hsame : s.node = e.site.node ∧ s.property = e.site.property
    · have hshared : s.value? n = some value := by
        rw [Site.value?, hsame.1, hsame.2]
        exact hvalue
      have houtside : i < e.site.offset ∨ e.site.offset + 4 ≤ i := by
        apply Decidable.byContradiction
        intro hin
        exact hno.1 ⟨hsame.1.symm, hsame.2.symm, by omega, by omega⟩
      rw [if_pos hsame, hvalue, hshared, Option.map_some, Option.bind_some, Option.bind_some,
        getElem?_putCell_of_outside hlength houtside]
    · rw [if_neg hsame]

theorem under (h : Rewrites es n n') {m : Node} {i : Nat} (hi : m.children[i]? = some n) :
    Rewrites (es.map (.under i)) m { m with children := m.children.set i n' } := by
  induction h generalizing m with
  | nil n =>
    obtain ⟨hlt, rfl⟩ := List.getElem?_eq_some_iff.mp hi
    cases m
    rw [List.set_getElem_self]
    exact .nil _
  | @cons e es n n' old new hread hmeets _ ih =>
    have hread' : (e.under i).site.cell? m = some old := by
      obtain ⟨value, hvalue, hrest⟩ := Site.cell?_eq_some.mp hread
      refine Site.cell?_eq_some.mpr ⟨value, ?_, hrest⟩
      simpa [Edit.under, Site.under, Site.value?, hi] using hvalue
    have hput : (e.under i).site.put new m =
        { m with children := m.children.set i (e.site.put new n) } := by
      show { m with children := m.children.modify i _ } = _
      congr 1
      apply List.ext_getElem?
      intro j
      rw [List.getElem?_modify, List.getElem?_set]
      by_cases hij : i = j
      · subst hij
        obtain ⟨hlt, rfl⟩ := List.getElem?_eq_some_iff.mp hi
        simp [hlt, Site.put, Edit.under, Site.under]
      · simp [hij]
    have hnext : ((e.under i).site.put new m).children[i]? = some (e.site.put new n) := by
      obtain ⟨hlt, -⟩ := List.getElem?_eq_some_iff.mp hi
      rw [hput]
      simp [hlt]
    have hrest := ih hnext
    rw [hput] at hrest
    refine .cons hread' hmeets ?_
    rw [hput]
    simpa using hrest

end Rewrites

end BootAssembly.DeviceTree
