import BootAssembly.Proofs.Overlay.Merging
import BootAssembly.Proofs.Overlay.Target
import Mathlib.Data.List.Basic

namespace BootAssembly.Overlay

open DeviceTree

structure Graft where
  position : Position
  body : Node

def Graft.onto (g : Graft) (t : DeviceTree) : DeviceTree :=
  { t with root := t.root.modifyPosition (merge g.body) g.position }

def Graft.reaching (root : Node) (pos : Position) (g : Graft) : List Node :=
  match g.position.isPrefixOf? pos with
  | some rest => ((root.at? g.position).map (landing rest g.body)).getD []
  | none => []

def placement? (t : DeviceTree) (fragment : Node) : Option (Placed × Graft) :=
  match fragment.child? bodyName, targetPath t fragment with
  | some body, .ok path => (t.root.locate? (segments path)).map fun pos =>
      (⟨"/" ++ fragment.name ++ "/" ++ bodyName, path⟩, ⟨pos, body⟩)
  | _, _ => none

def placements (t : DeviceTree) : List Node → List (Placed × Graft)
  | [] => []
  | fragment :: fragments =>
    match placement? t fragment with
    | some p => p :: placements (p.2.onto t) fragments
    | none => placements t fragments

def rebased (placed : List Placed) (labels : Properties) : Properties :=
  labels.filterMap fun label =>
    match textOf label.value with
    | .ok path => (rebase? placed path).map fun path => ⟨label.name, nulTerminated path⟩
    | .error _ => none

def labelGraft (placed : List Placed) (labels : Node) : Graft :=
  ⟨[], ⟨"", [], [⟨symbolsName, rebased placed labels.properties, []⟩]⟩⟩

def grafts (base prepared : DeviceTree) : List Graft :=
  let placed := placements base (prepared.root.children.filter (!isMeta ·.name))
  placed.map Prod.snd ++
    (prepared.root.child? symbolsName).toList.map (labelGraft (placed.map Prod.fst))

def mergedInto (base prepared : DeviceTree) (pos : Position) : List Node :=
  (grafts base prepared).flatMap (Graft.reaching base.root pos)

theorem placement?_of_placeFragment {t : DeviceTree} {placed : List Placed} {fragment : Node}
    {result : DeviceTree × List Placed}
    (h : (placeFragment (t, placed) fragment).outcome = .ok result) :
    result = match placement? t fragment with
      | some p => (p.2.onto t, placed ++ [p.1])
      | none => (t, placed) := by
  cases hbody : fragment.child? bodyName with
  | none =>
    simp only [placeFragment, hbody, Traced.outcome_pure, Except.ok.injEq] at h
    simp only [placement?, hbody, ← h]
  | some body =>
    obtain ⟨path, pos, hpath, hpos, rfl⟩ := (placeFragment_eq_ok hbody).mp h
    simp only [placement?, hbody, hpath, hpos, Option.map_some, Graft.onto]

theorem placements_of_foldlM {fragments : List Node} {t : DeviceTree} {placed : List Placed}
    {result : DeviceTree × List Placed}
    (h : (fragments.foldlM placeFragment (t, placed)).outcome = .ok result) :
    result = (((placements t fragments).map Prod.snd).foldl (fun t g => g.onto t) t,
      placed ++ (placements t fragments).map Prod.fst) := by
  induction fragments generalizing t placed with
  | nil =>
    cases h
    simp [placements]
  | cons fragment fragments ih =>
    rw [List.foldlM_cons, Traced.outcome_bind_eq_ok] at h
    obtain ⟨next, hnext, h⟩ := h
    have hstep := placement?_of_placeFragment hnext
    rw [placements]
    cases hp : placement? t fragment with
    | none =>
      rw [hp] at hstep
      cases hstep
      exact ih h
    | some p =>
      rw [hp] at hstep
      cases hstep
      simpa using ih h

theorem foldlM_addLabel_eq_ok {placed : List Placed} {labels ps ps' : Properties}
    (h : labels.foldlM (addLabel placed) ps = .ok ps') :
    ps' = (rebased placed labels).foldl (fun ps p => ps.set p.name p.value) ps := by
  induction labels generalizing ps with
  | nil =>
    cases h
    rfl
  | cons label labels ih =>
    rw [List.foldlM_cons] at h
    obtain ⟨next, hnext, h⟩ := bind_eq_ok.mp h
    obtain ⟨path, hpath, hnext⟩ := bind_eq_ok.mp hnext
    rw [ih h]
    cases hrebase : rebase? placed path with
    | none =>
      rw [hrebase] at hnext
      cases hnext
      simp [rebased, hpath, hrebase]
    | some moved =>
      rw [hrebase] at hnext
      cases hnext
      simp [rebased, hpath, hrebase]

theorem modifyOrAdd_congr {name : String} {f g : Node → Node} {cs : List Node}
    (h : f ((cs.find? (·.name = name)).getD (.new name)) =
      g ((cs.find? (·.name = name)).getD (.new name))) :
    Node.modifyOrAdd name f cs = Node.modifyOrAdd name g cs := by
  induction cs with
  | nil => exact congrArg (fun n => [n]) h
  | cons c cs ih =>
    rw [Node.modifyOrAdd, Node.modifyOrAdd]
    by_cases hc : c.name = name
    · simp only [List.find?_cons, hc, decide_true, Option.getD_some] at h
      rw [if_pos hc, if_pos hc, h]
    · simp only [List.find?_cons, hc, decide_false] at h
      rw [if_neg hc, if_neg hc, ih h]

theorem addLabels_eq_onto {placed : List Placed} {labels : Node} {t t' : DeviceTree}
    (h : addLabels placed labels t = .ok t') : t' = (labelGraft placed labels).onto t := by
  obtain ⟨properties, hproperties, h⟩ := bind_eq_ok.mp h
  cases h
  have hfold := foldlM_addLabel_eq_ok hproperties
  have hmerged : t.root.modifyChildOrNew symbolsName (fun n => { n with properties }) =
      t.root.modifyChildOrNew symbolsName
        (merge ⟨symbolsName, rebased placed labels.properties, []⟩) := by
    rw [Node.modifyChildOrNew, Node.modifyChildOrNew]
    congr 1
    apply modifyOrAdd_congr
    rw [merge, mergeForest, hfold]
    cases t.root.children.find? (·.name = symbolsName) <;> rfl
  rw [hmerged]
  rfl

theorem apply_eq_ok {base overlay merged : DeviceTree}
    (h : (apply base overlay).outcome = .ok merged) :
    ∃ prepared, prepare base overlay = .ok prepared ∧
      merged = (grafts base prepared).foldl (fun t g => g.onto t) base := by
  obtain ⟨prepared, hprepared, h⟩ := Traced.outcome_bind_eq_ok.mp h
  obtain ⟨⟨spliced, placed⟩, hplaced, h⟩ := Traced.outcome_bind_eq_ok.mp h
  refine ⟨prepared, hprepared, ?_⟩
  have hpair := placements_of_foldlM hplaced
  rw [List.nil_append, Prod.mk.injEq] at hpair
  obtain ⟨rfl, rfl⟩ := hpair
  rw [grafts, List.foldl_append]
  cases hlabels : prepared.root.child? symbolsName with
  | none =>
    rw [hlabels] at h
    cases h
    rfl
  | some labels =>
    rw [hlabels] at h
    exact addLabels_eq_onto h

theorem Draws.modifyPosition {pool : List Node} {f : Node → Node} (h : ∀ n, Draws pool n (f n))
    (t : Node) (pos : Position) : Draws pool t (t.modifyPosition f pos) := by
  induction pos generalizing t with
  | nil => exact h t
  | cons i pos ih => exact Draws.modifyChild ih t i

theorem Graft.draws_onto (g : Graft) (t : DeviceTree) :
    Draws g.body.toList t.root (g.onto t).root :=
  Draws.modifyPosition (draws_merge g.body) t.root g.position

theorem Graft.at?_onto (g : Graft) {t : DeviceTree} {pos : Position} {n : Node}
    (hn : t.root.at? pos = some n) :
    ∃ n', (g.onto t).root.at? pos = some n' ∧ Overlaid (g.reaching t.root pos) n n' := by
  rw [Graft.onto, Graft.reaching]
  cases hp : g.position.isPrefixOf? pos with
  | some rest =>
    obtain rfl := List.isPrefixOf?_eq_some_iff_append_eq.mp hp
    rw [Node.at?_append] at hn
    obtain ⟨m, hm, hn⟩ := Option.bind_eq_some_iff.mp hn
    obtain ⟨n', hn', hlaid⟩ := at?_merge g.body m rest n hn
    refine ⟨n', ?_, by simpa [hm] using hlaid⟩
    rw [Node.at?_modifyPosition, hm]
    exact hn'
  | none =>
    have hnot : ¬ g.position <+: pos := by
      rintro ⟨rest, hrest⟩
      rw [List.isPrefixOf?_eq_some_iff_append_eq.mpr hrest] at hp
      cases hp
    by_cases hbelow : pos <+: g.position
    · obtain ⟨rest, hrest⟩ := hbelow
      cases rest with
      | nil => exact absurd ⟨[], by simpa using hrest.symm⟩ hnot
      | cons i rest =>
        rw [← hrest, Node.at?_modifyPosition_above, hn]
        exact ⟨_, rfl, rfl, rfl⟩
    · exact ⟨n, by rw [Node.at?_modifyPosition_of_apart hnot hbelow, hn], .refl n⟩

theorem Graft.reaching_of_grows (g : Graft) {root root' : Node} (h : root.Grows root')
    {pos : Position} {n : Node} (hn : root.at? pos = some n) :
    g.reaching root' pos = g.reaching root pos := by
  rw [Graft.reaching, Graft.reaching]
  cases hp : g.position.isPrefixOf? pos with
  | none => rfl
  | some rest =>
    obtain rfl := List.isPrefixOf?_eq_some_iff_append_eq.mp hp
    rw [Node.at?_append] at hn
    obtain ⟨m, hm, hn⟩ := Option.bind_eq_some_iff.mp hn
    obtain ⟨m', hm', hgrows⟩ := h.below hm
    simp only [hm, hm', Option.map_some, landing_of_grows hgrows hn]

theorem at?_foldl_onto (gs : List Graft) {t : DeviceTree} {pos : Position} {n : Node}
    (hn : t.root.at? pos = some n) :
    ∃ n', (gs.foldl (fun t g => g.onto t) t).root.at? pos = some n' ∧
      Overlaid (gs.flatMap (Graft.reaching t.root pos)) n n' := by
  induction gs generalizing t n with
  | nil => exact ⟨n, hn, .refl n⟩
  | cons g gs ih =>
    obtain ⟨n₁, hn₁, hfirst⟩ := g.at?_onto hn
    obtain ⟨n', hn', hrest⟩ := ih hn₁
    have hsame : Graft.reaching (g.onto t).root pos = Graft.reaching t.root pos :=
      funext fun g' => g'.reaching_of_grows (g.draws_onto t).grows hn
    rw [hsame] at hrest
    exact ⟨n', hn', hfirst.append hrest⟩

theorem foldl_onto_eq (gs : List Graft) (t : DeviceTree) :
    gs.foldl (fun t g => g.onto t) t =
      { t with root := (gs.foldl (fun t g => g.onto t) t).root } := by
  induction gs generalizing t with
  | nil => rfl
  | cons g gs ih => exact ih (g.onto t)

theorem draws_foldl_onto (gs : List Graft) (t : DeviceTree) :
    Draws (gs.flatMap (·.body.toList)) t.root (gs.foldl (fun t g => g.onto t) t).root := by
  induction gs generalizing t with
  | nil => exact .refl _ _
  | cons g gs ih =>
    rw [List.flatMap_cons]
    exact ((g.draws_onto t).mono (List.subset_append_left _ _)).trans
      ((ih (g.onto t)).mono (List.subset_append_right _ _))

theorem at?_apply {base overlay merged prepared : DeviceTree}
    (h : (apply base overlay).outcome = .ok merged) (hprepared : prepare base overlay = .ok prepared)
    {pos : Position} {n : Node} (hn : base.root.at? pos = some n) :
    ∃ n', merged.root.at? pos = some n' ∧ Overlaid (mergedInto base prepared pos) n n' := by
  obtain ⟨prepared', hprepared', rfl⟩ := apply_eq_ok h
  rw [hprepared] at hprepared'
  cases hprepared'
  exact at?_foldl_onto _ hn

theorem mem_of_child? {n c : Node} {name : String} (h : n.child? name = some c) :
    c ∈ n.children := List.mem_of_find?_eq_some h

theorem body_of_placement? {t : DeviceTree} {fragment : Node} {p : Placed × Graft}
    (h : placement? t fragment = some p) : fragment.child? bodyName = some p.2.body ∧
      p.1.body = "/" ++ fragment.name ++ "/" ++ bodyName := by
  unfold placement? at h
  split at h
  · obtain ⟨pos, -, rfl⟩ := Option.map_eq_some_iff.mp h
    exact ⟨‹_›, rfl⟩
  · cases h

theorem mem_placements {t : DeviceTree} {fragments : List Node} {p : Placed × Graft}
    (h : p ∈ placements t fragments) : ∃ fragment ∈ fragments,
      fragment.child? bodyName = some p.2.body ∧
        p.1.body = "/" ++ fragment.name ++ "/" ++ bodyName := by
  induction fragments generalizing t with
  | nil => simp [placements] at h
  | cons fragment fragments ih =>
    have hrest : ∀ t', p ∈ placements t' fragments → ∃ f ∈ fragment :: fragments,
        f.child? bodyName = some p.2.body ∧ p.1.body = "/" ++ f.name ++ "/" ++ bodyName := by
      intro t' hp
      obtain ⟨f, hf, hboth⟩ := ih hp
      exact ⟨f, List.mem_cons_of_mem _ hf, hboth⟩
    rw [placements] at h
    cases hq : placement? t fragment with
    | none => exact hrest t (by simpa only [hq] using h)
    | some q =>
      rw [hq, List.mem_cons] at h
      rcases h with rfl | h
      · exact ⟨fragment, List.mem_cons_self, body_of_placement? hq⟩
      · exact hrest _ h

theorem body_of_mem_placed {t : DeviceTree} {fragments : List Node} {p : Placed}
    (hp : p ∈ (placements t fragments).map Prod.fst) :
    ∃ name, p.body = "/" ++ name ++ "/" ++ bodyName := by
  obtain ⟨q, hq, rfl⟩ := List.mem_map.mp hp
  obtain ⟨fragment, -, -, hbody⟩ := mem_placements hq
  exact ⟨fragment.name, hbody⟩

theorem mem_rebased {placed : List Placed} {labels : Properties} {p : Property}
    (h : p ∈ rebased placed labels) : ∃ label ∈ labels, label.name = p.name ∧
      ∃ path moved, textOf label.value = .ok path ∧ rebase? placed path = some moved := by
  obtain ⟨label, hlabel, hp⟩ := List.mem_filterMap.mp h
  split at hp
  · obtain ⟨moved, hmoved, rfl⟩ := Option.map_eq_some_iff.mp hp
    exact ⟨label, hlabel, rfl, _, moved, ‹_›, hmoved⟩
  · cases hp

theorem mergedInto_subset (base prepared : DeviceTree) (pos : Position) :
    mergedInto base prepared pos ⊆ (grafts base prepared).flatMap (·.body.toList) := by
  intro s hs
  obtain ⟨g, hg, hs⟩ := List.mem_flatMap.mp hs
  refine List.mem_flatMap.mpr ⟨g, hg, ?_⟩
  rw [Graft.reaching] at hs
  split at hs
  · rename_i rest _
    cases ht : base.root.at? g.position with
    | none => simp [ht] at hs
    | some t =>
      rw [ht, Option.map_some, Option.getD_some] at hs
      exact landing_subset rest g.body t hs
  · simp at hs

theorem mem_bodies {base prepared : DeviceTree} {s : Node}
    (hs : s ∈ (grafts base prepared).flatMap (·.body.toList)) :
    s ∈ prepared.root.toList ∨ ∃ labels ∈ prepared.root.toList, ∃ placed : List Placed,
      (∀ p ∈ placed, ∃ name, p.body = "/" ++ name ++ "/" ++ bodyName) ∧
        (s = (labelGraft placed labels).body ∨
          s = ⟨symbolsName, rebased placed labels.properties, []⟩) := by
  obtain ⟨g, hg, hs⟩ := List.mem_flatMap.mp hs
  rcases List.mem_append.mp hg with hg | hg
  · obtain ⟨p, hp, rfl⟩ := List.mem_map.mp hg
    obtain ⟨fragment, hf, hbody, -⟩ := mem_placements hp
    have hbelow := Node.toList_subset_of_mem_children (mem_of_child? hbody) hs
    exact .inl (Node.toList_subset_of_mem_children (List.mem_filter.mp hf).1 hbelow)
  · obtain ⟨labels, hlabels, rfl⟩ := List.mem_map.mp hg
    have hmem : labels ∈ prepared.root.toList :=
      Node.toList_subset_of_mem_children (mem_of_child? (Option.mem_toList.mp hlabels))
        (Node.mem_toList_self labels)
    refine .inr ⟨labels, hmem, (placements base
      (prepared.root.children.filter (!isMeta ·.name))).map Prod.fst,
      fun p hp => body_of_mem_placed hp, ?_⟩
    simpa [labelGraft, Node.toList, Node.forestToList] using hs

end BootAssembly.Overlay
