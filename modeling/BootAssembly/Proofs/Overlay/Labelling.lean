import BootAssembly.Proofs.Overlay.BodyPath
import BootAssembly.Proofs.Overlay.Handles
import BootAssembly.Proofs.Overlay.Preservation
import BootAssembly.Proofs.Overlay.Trails
import Mathlib.Data.List.Nodup

namespace BootAssembly.Overlay

open DeviceTree

def labelOf? (t : DeviceTree) (label : String) : Option Bytes :=
  (t.root.child? symbolsName).bind (·.value? label)

abbrev placedFragments (base prepared : DeviceTree) : List (Placed × Graft) :=
  placements base (prepared.root.children.filter (!isMeta ·.name))

def withPlaced (base : DeviceTree) (placed : List (Placed × Graft)) : DeviceTree :=
  (placed.map Prod.snd).foldl (fun t g => g.onto t) base

theorem exists_split_of_mem_placements {t : DeviceTree} {fragments : List Node}
    {p : Placed × Graft} (h : p ∈ placements t fragments) :
    ∃ front back, placements t fragments = front ++ p :: back ∧
      ∃ fragment ∈ fragments, placement? (withPlaced t front) fragment = some p := by
  induction fragments generalizing t with
  | nil => simp [placements] at h
  | cons first fragments ih =>
    have hlater : ∀ t', p ∈ placements t' fragments →
        ∃ front back, placements t' fragments = front ++ p :: back ∧
          ∃ fragment ∈ first :: fragments, placement? (withPlaced t' front) fragment = some p := by
      intro t' hp
      obtain ⟨front, back, hsplit, fragment, hmem, hplace⟩ := ih hp
      exact ⟨front, back, hsplit, fragment, List.mem_cons_of_mem first hmem, hplace⟩
    rw [placements] at h ⊢
    cases hq : placement? t first with
    | none =>
      rw [hq] at h
      exact hlater t h
    | some q =>
      rw [hq, List.mem_cons] at h
      rcases h with rfl | h
      · exact ⟨[], _, rfl, first, List.mem_cons_self, hq⟩
      · obtain ⟨front, back, hsplit, hplace⟩ := hlater _ h
        exact ⟨q :: front, back, congrArg (q :: ·) hsplit, hplace⟩

theorem placement?_eq_some {t : DeviceTree} {fragment : Node} {p : Placed × Graft} :
    placement? t fragment = some p ↔
      p.1.body = bodyPath fragment.name ∧ fragment.child? bodyName = some p.2.body ∧
        targetPath t fragment = .ok p.1.target ∧
        t.root.locate? (segments p.1.target) = some p.2.position := by
  unfold placement?
  split
  · rename_i body path hbody hpath
    rw [hbody, hpath, Option.map_eq_some_iff]
    constructor
    · rintro ⟨pos, hpos, rfl⟩
      exact ⟨rfl, rfl, rfl, hpos⟩
    · obtain ⟨⟨source, target⟩, ⟨position, graft⟩⟩ := p
      rintro ⟨rfl, ⟨⟩, ⟨⟩, hpos⟩
      exact ⟨position, hpos, rfl⟩
  · rename_i hnot
    simp only [reduceCtorEq, false_iff]
    rintro ⟨-, hbody, hpath, -⟩
    exact hnot _ _ hbody hpath

theorem exists_placed_of_foldlM {fragments : List Node} {t : DeviceTree} {placed : List Placed}
    {result : DeviceTree × List Placed}
    (h : (fragments.foldlM placeFragment (t, placed)).outcome = .ok result) {fragment body : Node}
    (hfragment : fragment ∈ fragments) (hbody : fragment.child? bodyName = some body) :
    ∃ p ∈ placements t fragments, p.1.body = bodyPath fragment.name := by
  induction fragments generalizing t placed with
  | nil => cases hfragment
  | cons first fragments ih =>
    rw [List.foldlM_cons, Traced.outcome_bind_eq_ok] at h
    obtain ⟨next, hnext, h⟩ := h
    have hstep := placement?_of_placeFragment hnext
    rw [placements]
    rcases List.mem_cons.mp hfragment with rfl | hlater
    · obtain ⟨path, pos, hpath, hpos, -⟩ := (placeFragment_eq_ok hbody).mp hnext
      have hplace : placement? t fragment = some (⟨bodyPath fragment.name, path⟩, ⟨pos, body⟩) :=
        placement?_eq_some.mpr ⟨rfl, hbody, hpath, hpos⟩
      rw [hplace]
      exact ⟨_, List.mem_cons_self, rfl⟩
    · cases hq : placement? t first with
      | none =>
        rw [hq] at hstep
        cases hstep
        exact ih h hlater
      | some q =>
        rw [hq] at hstep
        cases hstep
        obtain ⟨p, hp, hpbody⟩ := ih h hlater
        exact ⟨p, List.mem_cons_of_mem q hp, hpbody⟩

theorem labelOf?_labelGraft {placed : List Placed} {labels : Node} {t : DeviceTree}
    (hunique : (labels.properties.map Property.name).Nodup)
    (hclear : ((labelGraft placed labels).onto t).root.Unelided) (label : String) :
    labelOf? ((labelGraft placed labels).onto t) label =
      ((rebased placed labels.properties).get? label).or (labelOf? t label) := by
  have hroot : ((labelGraft placed labels).onto t).root =
      merge (labelGraft placed labels).body t.root := rfl
  have hgrows := ((labelGraft placed labels).draws_onto t).grows
  obtain ⟨own, hown, hname⟩ : ∃ own : Node,
      (t.root.children.find? (·.name = symbolsName)).getD (.new symbolsName) = own ∧
        own.name = symbolsName := by
    refine ⟨_, rfl, ?_⟩
    cases hfind : t.root.children.find? (·.name = symbolsName) with
    | none => rfl
    | some c =>
      have hfirst := List.find?_some hfind
      exact of_decide_eq_true hfirst
  have hfind : ((labelGraft placed labels).onto t).root.children.find? (·.name = symbolsName) =
      some (merge ⟨symbolsName, rebased placed labels.properties, []⟩ own) := by
    rw [hroot, find?_children_merge (by simp [labelGraft]), ← hown]
    rfl
  have hmem := List.mem_of_find?_eq_some hfind
  have hafter := hclear.child?_eq_find? (.refl _) hmem
  have hbefore := hclear.child?_eq_find? hgrows hmem
  rw [name_merge, hname] at hafter hbefore
  have hnodup : ((rebased placed labels.properties).map Property.name).Nodup :=
    (map_name_rebased_sublist placed labels.properties).nodup hunique
  rw [labelOf?, labelOf?, hafter, hbefore, hfind, Option.bind_some, merge_eq, Node.value?,
    get?_lay hnodup, Node.value?, ← hown]
  cases t.root.children.find? (·.name = symbolsName) <;> rfl

structure IsFragment (overlay : DeviceTree) (fragment body : Node) : Prop where
  mem : fragment ∈ overlay.root.children
  plain : isMeta fragment.name = false
  body : fragment.child? bodyName = some body

theorem mem_toList_of_child? {n c : Node} {name : String} (h : n.child? name = some c) :
    c ∈ n.toList :=
  Node.toList_subset_of_mem_children (mem_of_child? h) (Node.mem_toList_self c)

section

variable {base overlay merged prepared : DeviceTree}

theorem exists_fragment_of_placed {p : Placed × Graft} (hp : p ∈ placedFragments base prepared) :
    ∃ fragment, IsFragment prepared fragment p.2.body ∧ p.1.body = bodyPath fragment.name := by
  obtain ⟨fragment, hfragment, hbody, hsource⟩ := mem_placements hp
  obtain ⟨hmem, hplain⟩ := List.mem_filter.mp hfragment
  exact ⟨fragment, ⟨hmem, by simpa using hplain, hbody⟩, hsource⟩

theorem exists_placed_of_apply (h : (apply base overlay).outcome = .ok merged)
    (hprepared : prepare base overlay = .ok prepared) {fragment body : Node}
    (hfragment : IsFragment prepared fragment body) :
    ∃ p ∈ placedFragments base prepared, p.1.body = bodyPath fragment.name := by
  obtain ⟨prepared', hprepared', h⟩ := Traced.outcome_bind_eq_ok.mp h
  obtain ⟨result, hplaced, -⟩ := Traced.outcome_bind_eq_ok.mp h
  have hsame : prepared' = prepared := Except.ok.inj (hprepared'.symm.trans hprepared)
  subst hsame
  exact exists_placed_of_foldlM hplaced
    (List.mem_filter.mpr ⟨hfragment.mem, by simp [hfragment.plain]⟩) hfragment.body

theorem merged_eq (h : (apply base overlay).outcome = .ok merged)
    (hprepared : prepare base overlay = .ok prepared) :
    merged = ((prepared.root.child? symbolsName).toList.map
      (labelGraft ((placedFragments base prepared).map Prod.fst))).foldl (fun t g => g.onto t)
        (withPlaced base (placedFragments base prepared)) := by
  obtain ⟨prepared', hprepared', rfl⟩ := apply_eq_ok h
  rw [hprepared] at hprepared'
  cases hprepared'
  rw [grafts, List.foldl_append]
  rfl

def movedLabels (base prepared : DeviceTree) : Properties :=
  match prepared.root.child? symbolsName with
  | some labels => rebased ((placedFragments base prepared).map Prod.fst) labels.properties
  | none => []

theorem labelOf?_merged (h : (apply base overlay).outcome = .ok merged)
    (hprepared : prepare base overlay = .ok prepared) (hunique : prepared.root.Unambiguous)
    (hclear : merged.root.Unelided) (label : String) :
    labelOf? merged label = ((movedLabels base prepared).get? label).or
      (labelOf? (withPlaced base (placedFragments base prepared)) label) := by
  have hmerged := merged_eq h hprepared
  rw [movedLabels]
  cases hlabels : prepared.root.child? symbolsName with
  | none =>
    rw [hlabels] at hmerged
    rw [hmerged]
    rfl
  | some labels =>
    rw [hlabels] at hmerged
    have hmem := mem_toList_of_child? hlabels
    rw [hmerged] at hclear ⊢
    exact labelOf?_labelGraft (hunique.properties labels hmem) hclear label

theorem grows_merged (h : (apply base overlay).outcome = .ok merged)
    (hprepared : prepare base overlay = .ok prepared) {front back : List (Placed × Graft)}
    {p : Placed × Graft} (hsplit : placedFragments base prepared = front ++ p :: back) :
    (p.2.onto (withPlaced base front)).root.Grows merged.root := by
  have hmerged := merged_eq h hprepared
  rw [hsplit, withPlaced, List.map_append, List.map_cons, List.foldl_append, List.foldl_cons,
    ← List.foldl_append] at hmerged
  rw [hmerged]
  exact (draws_foldl_onto _ _).grows

theorem get?_movedLabels (hunique : prepared.root.Unambiguous) {label : String} {value : Bytes}
    {path moved : String} (hvalue : labelOf? prepared label = some value)
    (hpath : textOf value = .ok path)
    (hmoved : rebase? ((placedFragments base prepared).map Prod.fst) path = some moved) :
    (movedLabels base prepared).get? label = some (nulTerminated moved) := by
  obtain ⟨labels, hlabels, hvalue⟩ := Option.bind_eq_some_iff.mp hvalue
  have hnodup := (map_name_rebased_sublist ((placedFragments base prepared).map Prod.fst)
    labels.properties).nodup (hunique.properties labels (mem_toList_of_child? hlabels))
  obtain ⟨own, hown, rfl⟩ := Option.map_eq_some_iff.mp hvalue
  have hname : own.name = label := by
    have hfirst := List.find?_some hown
    exact of_decide_eq_true hfirst
  have hlabel : (⟨label, nulTerminated moved⟩ : Property) ∈ movedLabels base prepared := by
    rw [movedLabels, hlabels]
    exact List.mem_filterMap.mpr
      ⟨own, List.mem_of_find?_eq_some hown, by simp [hpath, hmoved, hname]⟩
  rw [movedLabels, hlabels] at hlabel ⊢
  exact Properties.get?_of_mem hnodup hlabel

theorem get?_movedLabels_eq_none (hunique : prepared.root.Unambiguous) {label : String}
    (hout : ∀ value path, labelOf? prepared label = some value → textOf value = .ok path →
      ∀ fragment body, IsFragment prepared fragment body → ¬ PointsInto fragment.name path) :
    (movedLabels base prepared).get? label = none := by
  rw [Properties.get?, Option.map_eq_none_iff, List.find?_eq_none]
  intro q hq hname
  rw [decide_eq_true_eq] at hname
  rw [movedLabels] at hq
  split at hq
  · rename_i labels hlabels
    have hmem := mem_toList_of_child? hlabels
    obtain ⟨own, hown, hsame, path, moved, hpath, hmoved⟩ := mem_rebased hq
    have hvalue : labelOf? prepared label = some own.value := by
      rw [labelOf?, hlabels, ← hname, ← hsame]
      exact Properties.get?_of_mem (hunique.properties labels hmem) hown
    obtain ⟨placed, hplaced, hby⟩ := List.exists_of_findSome?_eq_some hmoved
    obtain ⟨p, hp, rfl⟩ := List.mem_map.mp hplaced
    obtain ⟨fragment, hfragment, hsource⟩ := exists_fragment_of_placed hp
    exact hout own.value path hvalue hpath fragment p.2.body hfragment
      (pointsInto_of_rebaseBy? hsource hby)
  · cases hq

theorem get?_foldl_set_of_forall_ne {qs ps : Properties} {name : String}
    (h : ∀ q ∈ qs, q.name ≠ name) :
    (qs.foldl (fun ps p => ps.set p.name p.value) ps).get? name = Properties.get? ps name := by
  induction qs generalizing ps with
  | nil => rfl
  | cons q qs ih =>
    rw [List.forall_mem_cons] at h
    rw [List.foldl_cons, ih h.2, Properties.get?_set, if_neg h.1]

theorem labelOf?_withPlaced {label : String} {value : Bytes}
    (hvalue : labelOf? base label = some value)
    (hfragments : ∀ i, base.root.children.findIdx? (·.answersTo symbolsName) = some i →
      ¬ SetByFragment base prepared [i] label) :
    labelOf? (withPlaced base (placedFragments base prepared)) label = some value := by
  obtain ⟨own, hown, hvalue⟩ := Option.bind_eq_some_iff.mp hvalue
  rw [Node.child?, Node.find?_eq_getElem?] at hown
  obtain ⟨i, hi, hown⟩ := Option.bind_eq_some_iff.mp hown
  have hat : base.root.at? [i] = some own := by rw [Node.at?_singleton, hown]
  obtain ⟨own', hown', hlaid⟩ :=
    at?_foldl_onto ((placedFragments base prepared).map Prod.snd) hat
  have hgrows := (draws_foldl_onto ((placedFragments base prepared).map Prod.snd) base).grows
  have hi' := hgrows.findIdx? (fun m n hname => Node.answersTo_congr symbolsName hname) hi
  have hchild : (withPlaced base (placedFragments base prepared)).root.child? symbolsName =
      some own' := by
    rw [Node.at?_singleton] at hown'
    rw [Node.child?, Node.find?_eq_getElem?, withPlaced, hi']
    exact hown'
  rw [labelOf?, hchild, Option.bind_some, Node.value?, hlaid.properties, foldl_lay_eq,
    get?_foldl_set_of_forall_ne]
  · exact hvalue
  · intro q hq hname
    obtain ⟨s, hs, hq⟩ := List.mem_flatMap.mp hq
    obtain ⟨g, hg, hs⟩ := List.mem_flatMap.mp hs
    obtain ⟨p, hp, rfl⟩ := List.mem_map.mp hg
    obtain ⟨fragment, hfragment, -⟩ := exists_fragment_of_placed hp
    exact hfragments i hi
      ⟨fragment, hfragment.mem, hfragment.plain, p, hp, hfragment.body, s, hs, q, hq, hname⟩

theorem unambiguous_prepared (hprepared : prepare base overlay = .ok prepared)
    (hunique : overlay.root.Unambiguous) : prepared.root.Unambiguous := by
  constructor
  · intro n hn
    obtain ⟨-, m, -, -, hm, houtline⟩ := exists_of_mem_prepared hprepared hn
    have hnames := congrArg (List.map Property.name) (Node.outline_eq_iff.mp houtline).2.1
    rw [Properties.map_name_outline, Properties.map_name_outline] at hnames
    exact hnames ▸ hunique.properties m hm
  · intro n hn
    obtain ⟨-, m, -, -, hm, houtline⟩ := exists_of_mem_prepared hprepared hn
    have hnames := congrArg (List.map Node.name) (Node.outline_eq_iff.mp houtline).2.2
    simp only [List.map_map, Function.comp_def, Node.name_outline] at hnames
    exact hnames ▸ hunique.children m hm

theorem named_prepared (hprepared : prepare base overlay = .ok prepared)
    (hnamed : ∀ n ∈ Node.forestToList overlay.root.children, n.name ≠ "" ∧ '/' ∉ n.name.toList) :
    ∀ n ∈ Node.forestToList prepared.root.children, n.name ≠ "" ∧ '/' ∉ n.name.toList := by
  intro n hn
  obtain ⟨i, pos, c, hc, hpos⟩ := (Node.mem_forestToList_iff _ n).mp hn
  have hat : prepared.root.at? (i :: pos) = some n := by rw [Node.at?_cons, hc]; exact hpos
  obtain ⟨m, hm, houtline⟩ := Node.at?_of_outline_eq (outline_prepared hprepared).symm hat
  obtain ⟨d, hd, hm⟩ := Option.bind_eq_some_iff.mp hm
  have hmem := (Node.mem_forestToList_iff _ m).mpr ⟨i, pos, d, hd, hm⟩
  rw [← (Node.outline_eq_iff.mp houtline).1]
  exact hnamed m hmem

theorem labelOf?_eq_value? (t : DeviceTree) (label : String) :
    labelOf? t label = (t.root.locate? [symbolsName]).bind fun pos =>
      (Site.mk pos label 0).value? t.root := by
  have hchild : t.root.child? symbolsName = (t.root.locate? [symbolsName]).bind (t.root.at? ·) := by
    rw [← Node.descend?_eq_at?, Node.descend?]
    cases t.root.child? symbolsName <;> rfl
  rw [labelOf?, hchild, Option.bind_assoc]
  rfl

theorem labelOf?_prepared (hprepared : prepare base overlay = .ok prepared) {label : String}
    (hhandle : label ∉ handleNames) (hwritten : ∀ s ∈ references overlay, s.property = label →
      overlay.root.locate? [symbolsName] ≠ some s.node) :
    labelOf? prepared label = labelOf? overlay label := by
  obtain ⟨-, hrewrites⟩ := prepare_rewrites hprepared
  have hsame : prepared.root.locate? [symbolsName] = overlay.root.locate? [symbolsName] := by
    rw [← Node.locate?_outline, outline_prepared hprepared, Node.locate?_outline]
  rw [labelOf?_eq_value?, labelOf?_eq_value?, hsame]
  cases hpos : overlay.root.locate? [symbolsName] with
  | none => rfl
  | some pos =>
    rw [Option.bind_some, Option.bind_some, hrewrites.root.value?_of_untouched,
      value?_raiseHandles, if_neg hhandle]
    rintro e he ⟨hnode, hproperty⟩
    exact hwritten e.site (site_mem_references he) hproperty.symm (hnode ▸ hpos)

/-- The node at `pos` is the one that `s`, the node that `names` lead to in a fragment's body, was
merged into when the fragment was placed. -/
def MergedAt (base prepared merged : DeviceTree) (fragment : Node) (names : List String) (s : Node)
    (pos : Position) : Prop :=
  ∃ front p back rest, placedFragments base prepared = front ++ p :: back ∧
    p.1.body = bodyPath fragment.name ∧ fragment.child? bodyName = some p.2.body ∧
    pos = p.2.position ++ rest ∧
    (merged.root.at? p.2.position).bind (Node.trail? names) = some rest ∧
    (p.2.onto (withPlaced base front)).root.at? pos =
      some (merge s (((withPlaced base front).root.at? pos).getD (.new s.name)))

theorem exists_mergedAt (h : (apply base overlay).outcome = .ok merged)
    (hprepared : prepare base overlay = .ok prepared) (hunique : prepared.root.Unambiguous)
    (hclear : merged.root.Unelided) {fragment body s : Node}
    (hfragment : IsFragment prepared fragment body) {names : List String}
    (hs : body.follow? names = some s) {front back : List (Placed × Graft)} {p : Placed × Graft}
    (hsplit : placedFragments base prepared = front ++ p :: back)
    (hplace : placement? (withPlaced base front) fragment = some p) :
    ∃ pos n, merged.root.locate? (segments p.1.target ++ names) = some pos ∧
      merged.root.at? pos = some n ∧ MergedAt base prepared merged fragment names s pos := by
  obtain ⟨hsource, hbody, -, hpos⟩ := placement?_eq_some.mp hplace
  have hsame : p.2.body = body := Option.some.inj (hbody.symm.trans hfragment.body)
  have hbelow : body ∈ prepared.root.toList :=
    Node.toList_subset_of_mem_children hfragment.mem (mem_toList_of_child? hfragment.body)
  obtain ⟨target, htarget⟩ := Node.isSome_at?_of_locate? hpos
  obtain ⟨rest, htrail, hat⟩ := trail?_merge (hunique.below hbelow) hs target
  have hplaced : ∀ below, (p.2.onto (withPlaced base front)).root.at? (p.2.position ++ below) =
      (merge body target).at? below := by
    intro below
    rw [Graft.onto, Node.at?_modifyPosition, htarget, Option.bind_some, hsame]
  have hgrows := grows_merged h hprepared hsplit
  have hroot := hplaced []
  rw [List.append_nil, Node.at?_nil] at hroot
  obtain ⟨target', htarget', hbelow'⟩ := hgrows.below hroot
  have htrail' := hbelow'.trail? htrail
  have hlocate : merged.root.locate? (segments p.1.target) = some p.2.position :=
    ((p.2.draws_onto (withPlaced base front)).grows.trans hgrows).locate? hpos
  have hunder := (hclear.below (Node.mem_toList_of_at? htarget')).locate?_of_trail? htrail'
  have hall := Node.locate?_append hlocate htarget' hunder
  obtain ⟨n, hn⟩ := Node.isSome_at?_of_locate? hall
  refine ⟨p.2.position ++ rest, n, hall, hn,
    front, p, back, rest, hsplit, hsource, hbody, rfl, ?_, ?_⟩
  · rw [htarget']
    exact htrail'
  · rw [hplaced, hat, Node.at?_append, htarget]
    rfl

theorem exists_split_of_path (h : (apply base overlay).outcome = .ok merged)
    (hprepared : prepare base overlay = .ok prepared) (hunique : prepared.root.Unambiguous)
    (hnamed : ∀ n ∈ Node.forestToList prepared.root.children, n.name ≠ "" ∧ '/' ∉ n.name.toList)
    {fragment body : Node} (hfragment : IsFragment prepared fragment body) {names : List String}
    (hnames : ∀ name ∈ names, name ≠ "") :
    ∃ front p back, placedFragments base prepared = front ++ p :: back ∧
      placement? (withPlaced base front) fragment = some p ∧
      rebase? ((placedFragments base prepared).map Prod.fst)
        (names.foldl pathBelow (bodyPath fragment.name)) =
          some (names.foldl pathBelow p.1.target) := by
  have hslash : ∀ c ∈ prepared.root.children, '/' ∉ c.name.toList := by
    intro c hc
    obtain ⟨i, hi⟩ := List.mem_iff_getElem?.mp hc
    exact (hnamed c ((Node.mem_forestToList_iff _ c).mpr ⟨i, [], c, hi, rfl⟩)).2
  have hplaced : ∀ q ∈ (placedFragments base prepared).map Prod.fst,
      ∃ name, '/' ∉ name.toList ∧ q.body = bodyPath name := by
    intro q hq
    obtain ⟨p, hp, rfl⟩ := List.mem_map.mp hq
    obtain ⟨c, hc, hbody⟩ := exists_fragment_of_placed hp
    exact ⟨c.name, hslash c hc.mem, hbody⟩
  obtain ⟨first, hfirst, hbody⟩ := exists_placed_of_apply h hprepared hfragment
  obtain ⟨q, hq, hqbody, hrebase⟩ := rebase?_foldl_pathBelow hplaced hnames
    (hslash fragment hfragment.mem) (List.mem_map_of_mem hfirst) hbody
  obtain ⟨p, hp, rfl⟩ := List.mem_map.mp hq
  obtain ⟨front, back, hsplit, other, hother, hplace⟩ := exists_split_of_mem_placements hp
  obtain ⟨hmem, -⟩ := List.mem_filter.mp hother
  have hpath : bodyPath other.name = bodyPath fragment.name :=
    (placement?_eq_some.mp hplace).1.symm.trans hqbody
  have hname : other.name = fragment.name :=
    eq_of_pointsInto (hslash other hmem) (hslash fragment hfragment.mem)
      (.inl hpath.symm) (.inl rfl)
  have hsame : other = fragment :=
    List.inj_on_of_nodup_map (hunique.children _ (Node.mem_toList_self _)) hmem hfragment.mem hname
  exact ⟨front, p, back, hsplit, hsame ▸ hplace, hrebase⟩

theorem named_of_follow?
    (hnamed : ∀ n ∈ Node.forestToList prepared.root.children, n.name ≠ "" ∧ '/' ∉ n.name.toList)
    {fragment body s : Node} (hfragment : IsFragment prepared fragment body) {names : List String}
    (hs : body.follow? names = some s) : ∀ name ∈ names, name ≠ "" ∧ '/' ∉ name.toList := by
  intro name hname
  obtain ⟨c, hc, rfl⟩ := Node.name_of_follow? hs hname
  apply hnamed c
  have hbody := mem_of_child? hfragment.body
  rw [Node.forestToList_eq] at hc ⊢
  obtain ⟨d, hd, hc⟩ := List.mem_flatMap.mp hc
  exact List.mem_flatMap.mpr ⟨fragment, hfragment.mem,
    Node.toList_subset_of_mem_children hbody (Node.toList_subset_of_mem_children hd hc)⟩

theorem nul_not_mem_target (h : (apply base overlay).outcome = .ok merged)
    (hprepared : prepare base overlay = .ok prepared) {front back : List (Placed × Graft)}
    {p : Placed × Graft} (hsplit : placedFragments base prepared = front ++ p :: back)
    {fragment : Node} (hplace : placement? (withPlaced base front) fragment = some p)
    (hnul : ∀ d ∈ merged.root.toList, 0 ∉ utf8 d.name) : 0 ∉ utf8 p.1.target := by
  obtain ⟨-, -, htarget, -⟩ := placement?_eq_some.mp hplace
  have hgrows := (p.2.draws_onto (withPlaced base front)).grows.trans
    (grows_merged h hprepared hsplit)
  apply nul_not_mem_targetPath _ htarget
  intro d hd
  obtain ⟨pos, hpos⟩ := (Node.mem_toList_iff _ d).mp hd
  obtain ⟨d', hd', hsame⟩ := hgrows pos d hpos
  exact hsame ▸ hnul d' (Node.mem_toList_of_at? hd')

theorem label_resolves (h : (apply base overlay).outcome = .ok merged)
    (hprepared : prepare base overlay = .ok prepared) (hunique : prepared.root.Unambiguous)
    (hnamed : ∀ n ∈ Node.forestToList prepared.root.children, n.name ≠ "" ∧ '/' ∉ n.name.toList)
    (hclear : merged.root.Unelided) {fragment body s : Node}
    (hfragment : IsFragment prepared fragment body) {names : List String}
    (hs : body.follow? names = some s) {label : String} {value : Bytes}
    (hvalue : labelOf? prepared label = some value)
    (hpath : textOf value = .ok (names.foldl pathBelow (bodyPath fragment.name))) :
    ∃ path pos n, labelOf? merged label = some (nulTerminated path) ∧
      ((∀ d ∈ merged.root.toList, 0 ∉ utf8 d.name) → textOf (nulTerminated path) = .ok path) ∧
      merged.root.locate? (segments path) = some pos ∧ merged.root.at? pos = some n ∧
      merged.node? path = some n ∧ MergedAt base prepared merged fragment names s pos := by
  have hnames := named_of_follow? hnamed hfragment hs
  obtain ⟨front, p, back, hsplit, hplace, hrebase⟩ :=
    exists_split_of_path h hprepared hunique hnamed hfragment
      fun name hname => (hnames name hname).1
  obtain ⟨pos, n, hpos, hn, hmerged⟩ :=
    exists_mergedAt h hprepared hunique hclear hfragment hs hsplit hplace
  rw [← segments_foldl_pathBelow hnames] at hpos
  have hlabel := labelOf?_merged h hprepared hunique hclear label
  rw [get?_movedLabels hunique hvalue hpath hrebase, Option.some_or] at hlabel
  refine ⟨_, pos, n, hlabel, fun hnul => ?_, hpos, hn, ?_, hmerged⟩
  · apply textOf_nulTerminated
    have hsource := nul_not_mem_of_textOf hpath
    rw [nul_mem_foldl_pathBelow, not_or] at hsource ⊢
    exact ⟨nul_not_mem_target h hprepared hsplit hplace hnul, hsource.2⟩
  · rw [node?, Node.descend?_eq_at?, hpos]
    exact hn

/-- A label that the overlay gives to a node of a fragment's body leads to what this node was merged
into. A label that points into no fragment changes nothing, and a base label keeps its value unless
such a label or a fragment sets it. -/
theorem apply_labels_resolve {base overlay merged : DeviceTree}
    (h : (apply base overlay).outcome = .ok merged)
    (hnamed : ∀ n ∈ Node.forestToList overlay.root.children, n.name ≠ "" ∧ '/' ∉ n.name.toList)
    (hunique : overlay.root.Unambiguous) (hclear : merged.root.Unelided) :
    ∃ prepared, prepare base overlay = .ok prepared ∧
      prepared.root.outline = overlay.root.outline ∧
      (∀ label, label ∉ handleNames → (∀ s ∈ references overlay, s.property = label →
          overlay.root.locate? [symbolsName] ≠ some s.node) →
        labelOf? prepared label = labelOf? overlay label) ∧
      (∀ fragment body names s label value, IsFragment prepared fragment body →
        body.follow? names = some s → labelOf? prepared label = some value →
        textOf value = .ok (names.foldl pathBelow (bodyPath fragment.name)) →
        ∃ path pos n, labelOf? merged label = some (nulTerminated path) ∧
          ((∀ d ∈ merged.root.toList, 0 ∉ utf8 d.name) →
            textOf (nulTerminated path) = .ok path) ∧
          merged.root.locate? (segments path) = some pos ∧ merged.root.at? pos = some n ∧
          merged.node? path = some n ∧ MergedAt base prepared merged fragment names s pos) ∧
      ∀ label, (∀ value path, labelOf? prepared label = some value → textOf value = .ok path →
          ∀ fragment body, IsFragment prepared fragment body → ¬ PointsInto fragment.name path) →
        labelOf? merged label =
            labelOf? (withPlaced base (placedFragments base prepared)) label ∧
          ∀ value, labelOf? base label = some value →
            (∀ i, base.root.children.findIdx? (·.answersTo symbolsName) = some i →
              ¬ SetByFragment base prepared [i] label) →
            labelOf? merged label = some value := by
  obtain ⟨prepared, hprepared, -⟩ := apply_eq_ok h
  have hclean := unambiguous_prepared hprepared hunique
  have hnames := named_prepared hprepared hnamed
  refine ⟨prepared, hprepared, outline_prepared hprepared,
    fun label => labelOf?_prepared hprepared, ?_, ?_⟩
  · intro fragment body names s label value hfragment hs hvalue hpath
    exact label_resolves h hprepared hclean hnames hclear hfragment hs hvalue hpath
  · intro label hout
    have hkept := labelOf?_merged h hprepared hclean hclear label
    rw [get?_movedLabels_eq_none hclean hout, Option.none_or] at hkept
    exact ⟨hkept, fun value hvalue hset => hkept.trans (labelOf?_withPlaced hvalue hset)⟩

end

def sensor : Node := ⟨"sensor@48", [⟨"reg", be32 0x48⟩], []⟩

def sensorFragment : Node :=
  ⟨"fragment@10", [⟨"target", be32 3⟩], [⟨"__overlay__", [], [sensor]⟩]⟩

def sensorBoard : DeviceTree where
  bootCpu := 0
  reservations := []
  root := ⟨"", [], [⟨"soc", [], [⟨"i2c@100", [⟨"phandle", be32 3⟩], []⟩]⟩,
    ⟨"__symbols__", [⟨"i2c0", nulTerminated "/soc/i2c@100"⟩], []⟩]⟩

def addSensor : DeviceTree where
  bootCpu := 0
  reservations := []
  root := ⟨"", [], [
    ⟨"fragment@1", [⟨"target-path", nulTerminated "/"⟩],
      [⟨"__overlay__", [], [⟨"leds", [], []⟩]⟩]⟩,
    sensorFragment,
    ⟨"__symbols__", [⟨"sensor", nulTerminated "/fragment@10/__overlay__/sensor@48"⟩], []⟩]⟩

def sensedBoard : DeviceTree where
  bootCpu := 0
  reservations := []
  root := ⟨"", [], [⟨"soc", [], [⟨"i2c@100", [⟨"phandle", be32 3⟩], [sensor]⟩]⟩,
    ⟨"__symbols__", [⟨"i2c0", nulTerminated "/soc/i2c@100"⟩,
      ⟨"sensor", nulTerminated "/soc/i2c@100/sensor@48"⟩], []⟩,
    ⟨"leds", [], []⟩]⟩

theorem apply_labels_resolve_sensor :
    (apply sensorBoard addSensor).outcome = .ok sensedBoard ∧
      (∃ path pos n, labelOf? sensedBoard "sensor" = some (nulTerminated path) ∧
        sensedBoard.node? path = some n ∧
        MergedAt sensorBoard addSensor sensedBoard sensorFragment ["sensor@48"] sensor pos) ∧
      labelOf? sensedBoard "i2c0" = some (nulTerminated "/soc/i2c@100") := by
  have happly : (apply sensorBoard addSensor).outcome = .ok sensedBoard := by decide +kernel
  have hprepare : prepare sensorBoard addSensor = .ok addSensor := by decide +kernel
  have hclear : sensedBoard.root.Unelided := by
    unfold Node.Unelided
    decide +kernel
  obtain ⟨prepared, hprepared, -, -, hresolve, hrest⟩ :=
    apply_labels_resolve happly (by decide +kernel) ⟨by decide, by decide⟩ hclear
  rw [hprepare, Except.ok.injEq] at hprepared
  subst hprepared
  refine ⟨happly, ?_, ?_⟩
  · have hfragment : IsFragment addSensor sensorFragment ⟨"__overlay__", [], [sensor]⟩ :=
      ⟨by decide, by decide, by decide⟩
    obtain ⟨path, pos, n, hlabel, -, -, -, hnode, hmerged⟩ :=
      hresolve sensorFragment _ ["sensor@48"] sensor "sensor" _ hfragment (by decide) rfl
        (by decide +kernel)
    exact ⟨path, pos, n, hlabel, hnode, hmerged⟩
  · have hplaced : ∀ p ∈ placedFragments sensorBoard addSensor,
        p.2.reaching sensorBoard.root [1] = [] := by decide +kernel
    refine (hrest "i2c0" ?_).2 _ rfl ?_
    · have hnone : labelOf? addSensor "i2c0" = none := by decide +kernel
      intro value path hvalue
      rw [hnone] at hvalue
      cases hvalue
    · rintro i hi ⟨fragment, -, -, p, hp, -, d, hd, -⟩
      have hfirst : sensorBoard.root.children.findIdx? (·.answersTo symbolsName) = some 1 := by
        decide +kernel
      rw [hfirst] at hi
      cases hi
      rw [hplaced p hp] at hd
      cases hd

def uartBoard : DeviceTree where
  bootCpu := 0
  reservations := []
  root := ⟨"", [], [⟨"uart", [⟨"phandle", be32 1⟩], []⟩,
    ⟨"__symbols__", [⟨"uart0", nulTerminated "/uart"⟩, ⟨"port0", nulTerminated "/uart"⟩], []⟩]⟩

def strayLabels : DeviceTree where
  bootCpu := 0
  reservations := []
  root := ⟨"", [], [
    ⟨"fragment@0", [⟨"target-path", nulTerminated "/uart"⟩],
      [⟨"__overlay__", [], [⟨"port", [], []⟩]⟩]⟩,
    ⟨"__symbols__", [⟨"port0", nulTerminated "/fragment@0/__overlay__/ghost"⟩,
      ⟨"port1", nulTerminated "/fragment@0/__overlay__/port"⟩], []⟩,
    ⟨"__fixups__", [⟨"uart0", nulTerminated "/__symbols__:port1:0"⟩], []⟩]⟩

def strayBoard : DeviceTree where
  bootCpu := 0
  reservations := []
  root := ⟨"", [], [⟨"uart", [⟨"phandle", be32 1⟩], [⟨"port", [], []⟩]⟩,
    ⟨"__symbols__", [⟨"uart0", nulTerminated "/uart"⟩, ⟨"port0", nulTerminated "/uart/ghost"⟩],
      []⟩]⟩

theorem stray_labels_moved :
    (∀ t ∈ [uartBoard, strayLabels], ∀ n ∈ Node.forestToList t.root.children,
      n.name ≠ "" ∧ '/' ∉ n.name.toList) ∧
    uartBoard.root.Unambiguous ∧ strayLabels.root.Unambiguous ∧
    strayLabels.root.Unelided ∧ strayBoard.root.Unelided ∧
    (apply uartBoard strayLabels).outcome = .ok strayBoard ∧
    (labelOf? strayLabels "port1" = some (nulTerminated "/fragment@0/__overlay__/port") ∧
      strayLabels.node? "/fragment@0/__overlay__/port" = some ⟨"port", [], []⟩ ∧
      labelOf? strayBoard "port1" = none) ∧
    labelOf? strayLabels "port0" = some (nulTerminated "/fragment@0/__overlay__/ghost") ∧
      strayLabels.node? "/fragment@0/__overlay__/ghost" = none ∧
      labelOf? uartBoard "port0" = some (nulTerminated "/uart") ∧
      labelOf? strayBoard "port0" = some (nulTerminated "/uart/ghost") ∧
      strayBoard.node? "/uart/ghost" = none := by
  refine ⟨by decide, ⟨by decide, by decide⟩, ⟨by decide, by decide⟩, ?_, ?_, by decide +kernel,
    ⟨rfl, by decide +kernel, by decide +kernel⟩, rfl, by decide +kernel, rfl, rfl,
    by decide +kernel⟩
  · unfold Node.Unelided
    decide +kernel
  · unfold Node.Unelided
    decide +kernel

end BootAssembly.Overlay
