import BootAssembly.Proofs.DeviceTree.ByName
import BootAssembly.Proofs.Overlay.Rebasing

namespace BootAssembly.Overlay

open DeviceTree

def SetByFragment (base prepared : DeviceTree) (pos : Position) (name : String) : Prop :=
  ∃ fragment ∈ prepared.root.children, isMeta fragment.name = false ∧
    ∃ p ∈ placements base (prepared.root.children.filter (!isMeta ·.name)),
      fragment.child? bodyName = some p.2.body ∧
        ∃ d ∈ p.2.reaching base.root pos, ∃ q ∈ d.properties, q.name = name

def SetByLabel (base prepared : DeviceTree) (pos : Position) (name : String) : Prop :=
  ∃ i labels, pos = [i] ∧ base.root.children.findIdx? (·.name = symbolsName) = some i ∧
    prepared.root.child? symbolsName = some labels ∧ ∃ q ∈ labels.properties, q.name = name

structure Preserved (base prepared : DeviceTree) (pos : Position) (n n' : Node) : Prop extends
    Overlaid (mergedInto base prepared pos) n n' where
  propertyNames : n.properties.map Property.name <+: n'.properties.map Property.name
  childNames : n.children.map Node.name <+: n'.children.map Node.name
  values : ∀ (j : Nat) (p p' : Property), n.properties[j]? = some p → n'.properties[j]? = some p' →
    p'.value ≠ p.value →
      SetByFragment base prepared pos p.name ∨ SetByLabel base prepared pos p.name

theorem foldl_lay_eq (sources : List Node) (ps : Properties) :
    sources.foldl lay ps =
      (sources.flatMap Node.properties).foldl (fun ps p => ps.set p.name p.value) ps := by
  rw [List.foldl_flatMap]
  rfl

theorem Overlaid.map_name_prefix {sources : List Node} {n n' : Node} (h : Overlaid sources n n') :
    n.properties.map Property.name <+: n'.properties.map Property.name := by
  rw [h.properties, foldl_lay_eq]
  exact Properties.putByName_set.prefix_map_name _ _

theorem Overlaid.exists_of_value_ne {sources : List Node} {n n' : Node} (h : Overlaid sources n n')
    {j : Nat} {p p' : Property} (hp : n.properties[j]? = some p) (hp' : n'.properties[j]? = some p')
    (hne : p'.value ≠ p.value) : ∃ s ∈ sources, ∃ q ∈ s.properties, q.name = p.name := by
  rw [h.properties, foldl_lay_eq] at hp'
  obtain ⟨q, hq, hname⟩ := Properties.putByName_set.exists_of_getElem?_ne hp hp'
    fun he => hne (congrArg Property.value he)
  obtain ⟨s, hs, hq⟩ := List.mem_flatMap.mp hq
  exact ⟨s, hs, q, hq, hname⟩

theorem of_mem_reaching_labelGraft {placed : List Placed} {labels root s : Node} {pos : Position}
    (hs : s ∈ (labelGraft placed labels).reaching root pos) {q : Property} (hq : q ∈ s.properties) :
    ∃ i, pos = [i] ∧ root.children.findIdx? (·.name = symbolsName) = some i ∧
      q ∈ rebased placed labels.properties := by
  rw [Graft.reaching, labelGraft] at hs
  simp only [List.isPrefixOf?, Node.at?_nil, Option.map_some, Option.getD_some] at hs
  cases pos with
  | nil =>
    rw [landing, List.mem_singleton] at hs
    subst hs
    cases hq
  | cons i pos =>
    simp only [landing, List.flatMap_cons, List.flatMap_nil, List.append_nil] at hs
    split at hs
    · rename_i hi
      obtain ⟨c, hc⟩ : ∃ c, root.children[i]? = some c := by
        obtain ⟨hlt, -⟩ := List.findIdx?_eq_some_iff_getElem.mp hi
        exact ⟨_, List.getElem?_eq_getElem hlt⟩
      rw [hc, Option.map_some, Option.getD_some] at hs
      cases pos with
      | nil =>
        rw [landing, List.mem_singleton] at hs
        subst hs
        exact ⟨i, rfl, hi, hq⟩
      | cons j pos => simp [landing] at hs
    · cases hs

theorem set_of_mem_mergedInto {base prepared : DeviceTree} {pos : Position} {s : Node}
    (hs : s ∈ mergedInto base prepared pos) {q : Property} (hq : q ∈ s.properties) :
    SetByFragment base prepared pos q.name ∨ SetByLabel base prepared pos q.name := by
  obtain ⟨g, hg, hs⟩ := List.mem_flatMap.mp hs
  rcases List.mem_append.mp hg with hg | hg
  · left
    obtain ⟨p, hp, rfl⟩ := List.mem_map.mp hg
    obtain ⟨fragment, hfragment, hbody, -⟩ := mem_placements hp
    obtain ⟨hchild, hmeta⟩ := List.mem_filter.mp hfragment
    exact ⟨fragment, hchild, by simpa using hmeta, p, hp, hbody, s, hs, q, hq, rfl⟩
  · right
    obtain ⟨labels, hlabels, rfl⟩ := List.mem_map.mp hg
    obtain ⟨i, hpos, hi, hq⟩ := of_mem_reaching_labelGraft hs hq
    obtain ⟨label, hlabel, hname, -⟩ := mem_rebased hq
    exact ⟨i, labels, hpos, hi, Option.mem_toList.mp hlabels, label, hlabel, hname⟩

/-- An overlay takes nothing away: the base's nodes, properties and children stay in their order,
and a value changes only where the overlay sets it. -/
theorem apply_preserves_base {base overlay merged : DeviceTree}
    (h : (apply base overlay).outcome = .ok merged) :
    merged.bootCpu = base.bootCpu ∧ merged.reservations = base.reservations ∧
      ∃ prepared, prepare base overlay = .ok prepared ∧
        prepared.root.outline = overlay.root.outline ∧
        ∀ pos n, base.root.at? pos = some n →
          ∃ n', merged.root.at? pos = some n' ∧ Preserved base prepared pos n n' := by
  obtain ⟨prepared, hprepared, hmerged⟩ := apply_eq_ok h
  rw [hmerged, foldl_onto_eq, ← hmerged]
  refine ⟨rfl, rfl, prepared, hprepared, outline_prepared hprepared, fun pos n hn => ?_⟩
  have hdraws := draws_foldl_onto (grafts base prepared) base
  rw [← hmerged] at hdraws
  obtain ⟨n', hn', hlaid⟩ := at?_apply h hprepared hn
  obtain ⟨n'', hn'', hgrows⟩ := hdraws.grows.below hn
  rw [hn'] at hn''
  cases hn''
  refine ⟨n', hn', hlaid, hlaid.map_name_prefix, hgrows.map_name_children, ?_⟩
  intro j p p' hp hp' hne
  obtain ⟨s, hs, q, hq, hname⟩ := hlaid.exists_of_value_ne hp hp' hne
  rw [← hname]
  exact set_of_mem_mergedInto hs hq

def labelledPort : DeviceTree where
  bootCpu := 2
  reservations := []
  root := ⟨"", [], [⟨"uart", [⟨"status", nulTerminated "disabled"⟩], []⟩,
    ⟨"__symbols__", [⟨"port0", nulTerminated "/uart"⟩], []⟩]⟩

def relabelPort : DeviceTree where
  bootCpu := 0
  reservations := []
  root := ⟨"", [], [
    ⟨"fragment@0", [⟨"target-path", nulTerminated "/uart"⟩],
      [⟨"__overlay__", [⟨"status", nulTerminated "okay"⟩], [⟨"port", [], []⟩]⟩]⟩,
    ⟨"__symbols__", [⟨"port0", nulTerminated "/fragment@0/__overlay__/port"⟩], []⟩]⟩

theorem apply_preserves_labelledPort :
    ∃ prepared, prepare labelledPort relabelPort = .ok prepared ∧
      (apply labelledPort relabelPort).outcome = .ok { labelledPort with
        root := ⟨"", [], [⟨"uart", [⟨"status", nulTerminated "okay"⟩], [⟨"port", [], []⟩]⟩,
          ⟨"__symbols__", [⟨"port0", nulTerminated "/uart/port"⟩], []⟩]⟩ } ∧
      SetByFragment labelledPort prepared [0] "status" := by
  have happly : (apply labelledPort relabelPort).outcome = .ok { labelledPort with
      root := ⟨"", [], [⟨"uart", [⟨"status", nulTerminated "okay"⟩], [⟨"port", [], []⟩]⟩,
        ⟨"__symbols__", [⟨"port0", nulTerminated "/uart/port"⟩], []⟩]⟩ } := by decide +kernel
  obtain ⟨-, -, prepared, hprepared, -, hall⟩ := apply_preserves_base happly
  refine ⟨prepared, hprepared, happly, ?_⟩
  obtain ⟨n', hn', hpreserved⟩ := hall [0] ⟨"uart", [⟨"status", nulTerminated "disabled"⟩], []⟩ rfl
  cases hn'
  rcases hpreserved.values 0 _ _ rfl rfl (by decide) with hfragment | ⟨i, labels, hpos, hi, -⟩
  · exact hfragment
  · -- the base's labels are the second child
    cases hpos
    exact absurd hi (by decide)

end BootAssembly.Overlay
