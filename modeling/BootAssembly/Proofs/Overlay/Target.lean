import BootAssembly.Overlay
import BootAssembly.Proofs.DeviceTree.Position
import Mathlib.Data.List.TakeWhile

namespace BootAssembly.Overlay

open DeviceTree

structure Spellable (root : Node) : Prop where
  nameless : root.name = ""
  named : ∀ n ∈ Node.forestToList root.children, n.name ≠ "" ∧ '/' ∉ n.name.toList
  distinct : ∀ n ∈ root.toList, (n.children.map Node.name).Nodup

def carrier? (phandle : UInt32) (root : Node) : Option (Position × Node) :=
  root.positioned.find? (·.2.phandle? = some phandle)

def namesAlong : Position → Node → List String
  | [], _ => []
  | i :: pos, n =>
    match n.children[i]? with
    | none => []
    | some c => c.name :: namesAlong pos c

/-- No node on the way has for its whole name what an earlier sibling has before its unit
address: such a sibling would answer in its place. -/
def Unshadowed : Position → Node → Prop
  | [], _ => True
  | i :: pos, n => ∀ c, n.children[i]? = some c →
      (∀ s ∈ n.children.take i, Node.stem s.name ≠ c.name) ∧ Unshadowed pos c

theorem segments_slash (front back : String) :
    segments (front ++ "/" ++ back) = segments front ++ segments back := by
  have hsplit : (front ++ "/" ++ back).toList.splitOn '/' =
      front.toList.splitOn '/' ++ back.toList.splitOn '/' := by
    rw [String.toList_append, String.toList_append, List.append_assoc]
    exact List.splitOnP_append_cons _ _ (beq_self_eq_true '/')
  rw [segments, hsplit, List.filter_append, List.map_append]
  rfl

theorem segments_name {name : String} (h : name ≠ "") (hs : '/' ∉ name.toList) :
    segments name = [name] := by
  have hsplit : name.toList.splitOn '/' = [name.toList] := by
    have hparts : ∀ part ∈ [name.toList], '/' ∉ part := by simpa using hs
    have := List.splitOn_intercalate '/' hparts (by simp)
    simpa [List.intercalate] using this
  have hne : name.toList ≠ [] := by simpa using h
  simp [segments, hsplit, hne]

theorem segments_pathBelow {parent name : String} (h : name ≠ "") (hs : '/' ∉ name.toList) :
    segments (pathBelow parent name) = segments parent ++ [name] := by
  unfold pathBelow
  rw [if_neg fun hroot => h hroot.2]
  split
  · rename_i hparent
    subst hparent
    have hname := segments_slash "" name
    rwa [segments_name h hs] at hname
  · rw [segments_slash, segments_name h hs]

theorem segments_foldl_pathBelow {names : List String} {parent : String}
    (h : ∀ name ∈ names, name ≠ "" ∧ '/' ∉ name.toList) :
    segments (names.foldl pathBelow parent) = segments parent ++ names := by
  induction names generalizing parent with
  | nil => simp
  | cons name names ih =>
    simp only [List.forall_mem_cons] at h
    rw [List.foldl_cons, ih h.2, segments_pathBelow h.1.1 h.1.2]
    simp

mutual

theorem pathOf?_eq (phandle : UInt32) (parent : String) : (n : Node) →
    pathOf? phandle parent n = (carrier? phandle n).map fun p =>
      (namesAlong p.1 n).foldl pathBelow (pathBelow parent n.name)
  | ⟨name, properties, children⟩ => by
    rw [pathOf?, carrier?, Node.positioned, List.find?_cons]
    by_cases h : Node.phandle? ⟨name, properties, children⟩ = some phandle
    · simp [h, namesAlong]
    · simp only [h, if_false, decide_false]
      exact forestPathOf?_eq phandle (pathBelow parent name) ⟨name, properties, children⟩ children []
        rfl

theorem forestPathOf?_eq (phandle : UInt32) (parent : String) (n : Node) :
    (cs front : List Node) → n.children = front ++ cs →
    forestPathOf? phandle parent cs =
      ((Node.forestPositioned front.length cs).find? (·.2.phandle? = some phandle)).map fun p =>
        (namesAlong p.1 n).foldl pathBelow parent
  | [], _, _ => rfl
  | c :: cs, front, hn => by
    have hc : n.children[front.length]? = some c := by simp [hn]
    have hrest := forestPathOf?_eq phandle parent n cs (front ++ [c]) (by simp [hn])
    rw [List.length_append, List.length_singleton] at hrest
    rw [forestPathOf?, pathOf?_eq phandle parent c, hrest, Node.forestPositioned,
      List.find?_append, List.find?_map, Option.map_or, Option.map_map]
    simp only [carrier?, Function.comp_def, namesAlong, hc, List.foldl_cons]

end

theorem answersTo_own_name (n : Node) : n.answersTo n.name = true := by simp [Node.answersTo]

theorem not_at_mem_stem (name : String) : '@' ∉ (Node.stem name).toList := by
  rw [Node.stem, String.toList_ofList]
  intro h
  have := List.mem_takeWhile_imp h
  simp at this

theorem answersTo_iff_of_ne {s c : Node} (h : s.name ≠ c.name) :
    s.answersTo c.name = true ↔ Node.stem s.name = c.name := by
  simp only [Node.answersTo, Bool.or_eq_true, beq_iff_eq, h, false_or, Bool.and_eq_true,
    Bool.not_eq_true', List.contains_eq_mem, decide_eq_false_iff_not]
  constructor
  · exact And.right
  · intro hstem
    exact ⟨hstem ▸ not_at_mem_stem s.name, hstem⟩

theorem findIdx?_own_name_iff {cs : List Node} (h : (cs.map Node.name).Nodup) {i : Nat} {c : Node}
    (hc : cs[i]? = some c) :
    cs.findIdx? (·.answersTo c.name) = some i ↔ ∀ s ∈ cs.take i, Node.stem s.name ≠ c.name := by
  obtain ⟨hi, rfl⟩ := List.getElem?_eq_some_iff.mp hc
  have hne : ∀ j (hj : j < i), cs[j].name ≠ cs[i].name := by
    intro j hj
    have := List.pairwise_iff_getElem.mp h j i (by simp; omega) (by simpa) hj
    rwa [List.getElem_map, List.getElem_map] at this
  rw [List.findIdx?_eq_some_iff_getElem]
  constructor
  · rintro ⟨_, _, hbefore⟩ s hs
    obtain ⟨j, hj, rfl⟩ := List.mem_take_iff_getElem.mp hs
    rw [Ne, ← answersTo_iff_of_ne (hne j (by omega))]
    exact hbefore j (by omega)
  · intro hstems
    refine ⟨hi, answersTo_own_name _, fun j hj => ?_⟩
    rw [answersTo_iff_of_ne (hne j hj)]
    exact hstems _ (List.mem_take_iff_getElem.mpr ⟨j, by omega, rfl⟩)

theorem locate?_namesAlong_iff {n m : Node} {pos : Position}
    (h : ∀ d ∈ n.toList, (d.children.map Node.name).Nodup) (hm : n.at? pos = some m) :
    n.locate? (namesAlong pos n) = some pos ↔ Unshadowed pos n := by
  induction pos generalizing n with
  | nil => simp [namesAlong, Node.locate?, Unshadowed]
  | cons i pos ih =>
    obtain ⟨c, hc, hm⟩ := Option.bind_eq_some_iff.mp hm
    have hchild : n.at? [i] = some c := by simp [hc]
    have hbelow : ∀ d ∈ c.toList, (d.children.map Node.name).Nodup :=
      fun d hd => h d (Node.toList_subset_of_at? hchild hd)
    have hown := h n (Node.mem_toList_self n)
    simp only [namesAlong, hc, Unshadowed, Option.some.injEq, forall_eq']
    rw [← findIdx?_own_name_iff hown hc, ← ih hbelow hm, Node.locate?]
    constructor
    · intro hl
      obtain ⟨j, hj, hl⟩ := Option.bind_eq_some_iff.mp hl
      obtain ⟨d, hd, hl⟩ := Option.bind_eq_some_iff.mp hl
      obtain ⟨rest, hrest, heq⟩ := Option.map_eq_some_iff.mp hl
      cases heq
      rw [hc] at hd
      cases hd
      exact ⟨hj, hrest⟩
    · rintro ⟨hi, hrest⟩
      simp [hi, hc, hrest]

theorem mem_namesAlong {n : Node} {pos : Position} {name : String} (h : name ∈ namesAlong pos n) :
    ∃ m ∈ Node.forestToList n.children, m.name = name := by
  induction pos generalizing n with
  | nil => simp [namesAlong] at h
  | cons i pos ih =>
    rw [namesAlong] at h
    cases hc : n.children[i]? with
    | none => simp [hc] at h
    | some c =>
      simp only [hc, List.mem_cons] at h
      rcases h with rfl | h
      · exact ⟨c, (Node.mem_forestToList_iff _ c).mpr ⟨i, [], c, hc, rfl⟩, rfl⟩
      · obtain ⟨m, hm, rfl⟩ := ih h
        obtain ⟨j, rest, d, hd, hm⟩ := (Node.mem_forestToList_iff _ m).mp hm
        exact ⟨m, (Node.mem_forestToList_iff _ m).mpr ⟨i, j :: rest, c, hc, by simp [hd, hm]⟩, rfl⟩

theorem exists_carrier? {root n : Node} (hn : n ∈ root.toList) {phandle : UInt32}
    (h : n.phandle? = some phandle) :
    ∃ pos m, carrier? phandle root = some (pos, m) := by
  obtain ⟨pos, hpos⟩ := (Node.mem_toList_iff root n).mp hn
  have hsome : (carrier? phandle root).isSome := by
    rw [carrier?, List.find?_isSome]
    exact ⟨(pos, n), (Node.mem_positioned root pos n).mpr hpos, by simpa using h⟩
  obtain ⟨⟨pos, m⟩, h⟩ := Option.isSome_iff_exists.mp hsome
  exact ⟨pos, m, h⟩

theorem at?_of_carrier? {root m : Node} {phandle : UInt32} {pos : Position}
    (h : carrier? phandle root = some (pos, m)) : root.at? pos = some m :=
  (Node.mem_positioned root pos m).mp (List.mem_of_find?_eq_some h)

theorem segments_pathOf? {root m : Node} (h : Spellable root) {phandle : UInt32} {pos : Position}
    (hc : carrier? phandle root = some (pos, m)) :
    ∃ path, pathOf? phandle "" root = some path ∧ segments path = namesAlong pos root := by
  refine ⟨_, by rw [pathOf?_eq, hc]; rfl, ?_⟩
  have hnames : ∀ name ∈ namesAlong pos root, name ≠ "" ∧ '/' ∉ name.toList := by
    intro name hmem
    obtain ⟨n, hn, rfl⟩ := mem_namesAlong hmem
    exact h.named n hn
  rw [segments_foldl_pathBelow hnames, h.nameless]
  rfl

theorem isNone_node?_iff (t : DeviceTree) (path : String) :
    (t.node? path).isNone = true ↔ t.root.locate? (segments path) = none := by
  rw [node?, Node.descend?_eq_at?, Option.isNone_iff_eq_none]
  cases h : t.root.locate? (segments path) with
  | none => simp
  | some pos =>
    obtain ⟨m, hm⟩ := Node.isSome_at?_of_locate? h
    simp [hm]

theorem placeFragment_eq_ok {t : DeviceTree} {placed : List Placed} {fragment body : Node}
    (hbody : fragment.child? bodyName = some body) {result : DeviceTree × List Placed} :
    (placeFragment (t, placed) fragment).outcome = .ok result ↔
      ∃ path pos, targetPath t fragment = .ok path ∧ t.root.locate? (segments path) = some pos ∧
        result = ({ t with root := t.root.modifyPosition (merge body) pos },
          placed ++ [⟨"/" ++ fragment.name ++ "/" ++ bodyName, path⟩]) := by
  simp only [placeFragment, hbody]
  rw [Traced.outcome_bind_eq_ok]
  apply exists_congr
  intro path
  rw [Traced.outcome_guard_eq_ok (by simp), isNone_node?_iff, Traced.outcome_bind_eq_ok]
  cases hpos : t.root.locate? (segments path) with
  | none => simp
  | some pos =>
    have hmodify : t.modifyNode path (merge body) =
        { t with root := t.root.modifyPosition (merge body) pos } := by
      rw [modifyNode, Node.modifyAt_eq_modifyPosition hpos]
    simp only [hmodify, reduceCtorEq, not_false_eq_true, true_and, Option.some.injEq]
    constructor
    · rintro ⟨hpath, _, -, hresult⟩
      cases hresult
      exact ⟨pos, hpath, rfl, rfl⟩
    · rintro ⟨_, hpath, rfl, rfl⟩
      exact ⟨hpath, (), rfl, rfl⟩

/-- The path of a handle leads back to the first node that carries the handle just when no node on
the way is shadowed, and then the fragment that the handle targets goes into that very node. -/
theorem handle_target_iff (t : DeviceTree) (h : Spellable t.root) {n : Node}
    (hn : n ∈ t.root.toList) {phandle : UInt32} (hphandle : n.phandle? = some phandle) :
    ∃ path pos m, carrier? phandle t.root = some (pos, m) ∧
      pathOf? phandle "" t.root = some path ∧
      (t.root.locate? (segments path) = some pos ↔ Unshadowed pos t.root) ∧
      (Unshadowed pos t.root →
        (∀ f, t.modifyNode path f = { t with root := t.root.modifyPosition f pos }) ∧
        ∀ fragment body placed, fragment.child? bodyName = some body →
          fragment.properties.cell? "target" = some phandle →
          (placeFragment (t, placed) fragment).outcome =
            .ok ({ t with root := t.root.modifyPosition (merge body) pos },
              placed ++ [⟨"/" ++ fragment.name ++ "/" ++ bodyName, path⟩])) := by
  obtain ⟨pos, m, hcarrier⟩ := exists_carrier? hn hphandle
  obtain ⟨path, hpath, hsegments⟩ := segments_pathOf? h hcarrier
  have hiff : t.root.locate? (segments path) = some pos ↔ Unshadowed pos t.root := by
    rw [hsegments]
    exact locate?_namesAlong_iff h.distinct (at?_of_carrier? hcarrier)
  refine ⟨path, pos, m, hcarrier, hpath, hiff, fun hclear => ?_⟩
  have hpos := hiff.mpr hclear
  constructor
  · intro f
    rw [modifyNode, Node.modifyAt_eq_modifyPosition hpos]
  · intro fragment body placed hbody htarget
    have htargetPath : targetPath t fragment = .ok path := by
      simp only [targetPath, htarget, hpath]
    exact (placeFragment_eq_ok hbody).mpr ⟨path, pos, htargetPath, hpos, rfl⟩

def orderedPorts : DeviceTree where
  bootCpu := 0
  reservations := []
  root := ⟨"", [], [⟨"uart", [⟨"phandle", be32 1⟩], []⟩, ⟨"uart@100", [], []⟩]⟩

theorem handle_target_orderedPorts :
    Spellable orderedPorts.root ∧ Unshadowed [0] orderedPorts.root ∧
      ∃ path, pathOf? 1 "" orderedPorts.root = some path ∧
        orderedPorts.root.locate? (segments path) = some [0] := by
  have hspell : Spellable orderedPorts.root := ⟨rfl, by decide, by decide⟩
  have hclear : Unshadowed [0] orderedPorts.root := by simp [Unshadowed, orderedPorts]
  have hphandle : Node.phandle? ⟨"uart", [⟨"phandle", be32 1⟩], []⟩ = some 1 := by decide
  obtain ⟨path, pos, m, hcarrier, hpath, hiff, -⟩ :=
    handle_target_iff orderedPorts hspell (by decide) hphandle
  have hpos : pos = [0] := by
    have hfirst : carrier? 1 orderedPorts.root =
        some ([0], ⟨"uart", [⟨"phandle", be32 1⟩], []⟩) := by decide
    rw [hfirst] at hcarrier
    cases hcarrier
    rfl
  subst hpos
  exact ⟨hspell, hclear, path, hpath, hiff.mpr hclear⟩

def shadowedPorts : DeviceTree where
  bootCpu := 0
  reservations := []
  root := ⟨"", [], [⟨"uart@100", [], []⟩, ⟨"uart", [⟨"phandle", be32 1⟩], []⟩]⟩

def enablePort : DeviceTree where
  bootCpu := 0
  reservations := []
  root := ⟨"", [], [⟨"fragment@0", [⟨"target", be32 1⟩],
    [⟨"__overlay__", [⟨"status", nulTerminated "okay"⟩], []⟩]⟩]⟩

theorem merged_into_shadowing_sibling :
    Spellable shadowedPorts.root ∧ (carrier? 1 shadowedPorts.root).map Prod.fst = some [1] ∧
    pathOf? 1 "" shadowedPorts.root = some "/uart" ∧
    shadowedPorts.root.locate? (segments "/uart") = some [0] ∧
    (apply shadowedPorts enablePort).outcome = .ok { shadowedPorts with
      root := ⟨"", [], [⟨"uart@100", [⟨"status", nulTerminated "okay"⟩], []⟩,
        ⟨"uart", [⟨"phandle", be32 1⟩], []⟩]⟩ } :=
  ⟨⟨rfl, by decide, by decide⟩, by decide, by decide, by decide, by decide⟩

end BootAssembly.Overlay
