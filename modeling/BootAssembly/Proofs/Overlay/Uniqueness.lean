import BootAssembly.Proofs.Overlay.Handles
import Mathlib.Data.List.Flatten

namespace BootAssembly.Overlay

open DeviceTree

def carriers (phandle : UInt32) (ns : List Node) : Nat :=
  ns.countP fun n => n.phandle? == some phandle

def AddsAtMost (phandle : UInt32) (k : Nat) (f : Node → Node) : Prop :=
  ∀ n, carriers phandle (f n).toList ≤ carriers phandle n.toList + k

section

variable (phandle : UInt32)

theorem carriers_append (ns ms : List Node) :
    carriers phandle (ns ++ ms) = carriers phandle ns + carriers phandle ms := List.countP_append

theorem carriers_toList (n : Node) : carriers phandle n.toList =
    carriers phandle [n] + carriers phandle (Node.forestToList n.children) := by
  cases n
  rw [Node.toList, ← List.singleton_append, carriers_append]

theorem carriers_with_children (n : Node) (cs : List Node) :
    carriers phandle (Node.toList { n with children := cs }) =
      carriers phandle [n] + carriers phandle (Node.forestToList cs) :=
  carriers_toList _ _

theorem carriers_forestToList_cons (c : Node) (cs : List Node) :
    carriers phandle (Node.forestToList (c :: cs)) =
      carriers phandle c.toList + carriers phandle (Node.forestToList cs) := by
  rw [Node.forestToList, carriers_append]

theorem nodup_handles_iff (ns : List Node) :
    (ns.filterMap Node.phandle?).Nodup ↔ ∀ phandle, carriers phandle ns ≤ 1 := by
  simp only [List.nodup_iff_count, List.count_filterMap, carriers]

end

namespace AddsAtMost

variable {phandle : UInt32} {k : Nat} {f : Node → Node} (h : AddsAtMost phandle k f)

include h

theorem modify (cs : List Node) (i : Nat) :
    carriers phandle (Node.forestToList (cs.modify i f)) ≤
      carriers phandle (Node.forestToList cs) + k := by
  induction cs generalizing i with
  | nil => simp
  | cons c cs ih =>
    cases i with
    | zero =>
      have := h c
      rw [List.modify_zero_cons, carriers_forestToList_cons, carriers_forestToList_cons]
      omega
    | succ i =>
      have := ih i
      rw [List.modify_succ_cons, carriers_forestToList_cons, carriers_forestToList_cons]
      omega

theorem modifyPosition (pos : Position) : AddsAtMost phandle k (Node.modifyPosition f pos) := by
  induction pos with
  | nil => exact h
  | cons i pos ih =>
    intro n
    have := ih.modify n.children i
    rw [Node.modifyPosition, carriers_with_children, carriers_toList _ n]
    omega

theorem modifyChildOrNew (name : String) :
    AddsAtMost phandle k (Node.modifyChildOrNew name f) := by
  intro n
  have hchildren : carriers phandle (Node.forestToList (Node.modifyOrAdd name f n.children)) ≤
      carriers phandle (Node.forestToList n.children) + k := by
    rw [Node.modifyOrAdd_eq]
    cases n.children.findIdx? (·.name = name) with
    | some i => exact h.modify n.children i
    | none =>
      -- a new node carries no handle
      have hnew : carriers phandle (f (.new name)).toList ≤ 0 + k := h (.new name)
      dsimp only
      rw [Node.forestToList_append, carriers_append, Node.forestToList, Node.forestToList,
        List.append_nil]
      omega
  rw [Node.modifyChildOrNew, carriers_with_children, carriers_toList _ n]
  omega

end AddsAtMost

section

variable (phandle : UInt32)

theorem carriers_lay_le {s : Node} (h : Tidy s) (t : Node) :
    carriers phandle (Node.toList { t with properties := lay t.properties s }) ≤
      carriers phandle t.toList + carriers phandle [s] := by
  have hlaid : Overlaid [s] t { t with properties := lay t.properties s } := ⟨rfl, rfl⟩
  have hown : carriers phandle [{ t with properties := lay t.properties s }] ≤
      carriers phandle [t] + carriers phandle [s] := by
    rw [carriers, carriers, carriers, List.countP_singleton, List.countP_singleton,
      List.countP_singleton]
    rcases phandle?_of_overlaid hlaid (by simpa using h) with hsame | ⟨d, hd, other, hother, hnew⟩
    · rw [hsame]
      omega
    · rw [List.mem_singleton.mp hd] at hother
      rw [hnew, hother]
      omega
  rw [carriers_toList, carriers_toList _ t]
  dsimp only
  omega

mutual

theorem addsAtMost_merge : (source : Node) → (∀ s ∈ source.toList, Tidy s) →
    AddsAtMost phandle (carriers phandle source.toList) (merge source)
  | ⟨name, properties, children⟩, h, target => by
    have hself := carriers_with_children phandle ⟨name, properties, children⟩ children
    rw [Node.toList, List.forall_mem_cons] at h
    have hown := carriers_lay_le phandle h.1 target
    have hbelow := addsAtMost_mergeForest children h.2
      { target with properties := lay target.properties ⟨name, properties, children⟩ }
    rw [hself]
    apply Nat.le_trans hbelow
    omega

theorem addsAtMost_mergeForest : (sources : List Node) →
    (∀ s ∈ Node.forestToList sources, Tidy s) →
    AddsAtMost phandle (carriers phandle (Node.forestToList sources)) (mergeForest sources)
  | [], _, target => Nat.le_add_right _ _
  | s :: sources, h, target => by
    rw [Node.forestToList, List.forall_mem_append] at h
    have hfirst := (addsAtMost_merge s h.1).modifyChildOrNew s.name target
    have hrest := addsAtMost_mergeForest sources h.2 (target.modifyChildOrNew s.name (merge s))
    rw [mergeForest, Node.forestToList, carriers_append]
    omega

end

theorem carriers_foldl_onto_le {gs : List Graft} (h : ∀ s ∈ gs.flatMap (·.body.toList), Tidy s)
    (t : DeviceTree) :
    carriers phandle (gs.foldl (fun t g => g.onto t) t).root.toList ≤
      carriers phandle t.root.toList + carriers phandle (gs.flatMap (·.body.toList)) := by
  induction gs generalizing t with
  | nil => exact Nat.le_add_right _ _
  | cons g gs ih =>
    rw [List.flatMap_cons, List.forall_mem_append] at h
    have hfirst : carriers phandle (g.onto t).root.toList ≤
        carriers phandle t.root.toList + carriers phandle g.body.toList :=
      (addsAtMost_merge phandle g.body h.1).modifyPosition g.position t.root
    have hrest := ih h.2 (g.onto t)
    rw [List.flatMap_cons, carriers_append, List.foldl_cons]
    omega

end

theorem bodies_sublist (t : DeviceTree) (fragments : List Node) :
    ((placements t fragments).flatMap (·.2.body.toList)).Sublist (Node.forestToList fragments) := by
  induction fragments generalizing t with
  | nil => exact List.Sublist.refl _
  | cons fragment fragments ih =>
    rw [placements, Node.forestToList]
    cases hp : placement? t fragment with
    | none => exact (ih t).trans (List.sublist_append_right _ _)
    | some p =>
      have hbody := mem_of_child? (body_of_placement? hp).1
      exact (Node.toList_sublist_of_mem_children hbody).append (ih _)

theorem carriers_labelGraft (phandle : UInt32) (t : DeviceTree) (fragments : List Node)
    {labels : Node} (h : Tidy labels) :
    carriers phandle (labelGraft ((placements t fragments).map Prod.fst) labels).body.toList = 0 := by
  obtain ⟨-, hnone⟩ := tidy_labels (fun p hp => body_of_mem_placed hp) h
  rw [carriers, List.countP_eq_zero]
  intro n hn
  simp only [labelGraft, Node.toList, Node.forestToList, List.append_nil, List.mem_cons,
    List.not_mem_nil, or_false] at hn
  rcases hn with rfl | rfl
  · exact Bool.false_ne_true
  · rw [hnone]
    exact Bool.false_ne_true

theorem nodup_handles_of_sole {root : Node}
    (h : ∀ pos n pos' n' phandle, root.at? pos = some n → root.at? pos' = some n' →
      n.phandle? = some phandle → n'.phandle? = some phandle → pos = pos') :
    (root.toList.filterMap Node.phandle?).Nodup := by
  rw [← Node.map_snd_positioned, List.filterMap_map, List.Nodup, List.pairwise_filterMap]
  apply (List.pairwise_map.mp (Node.nodup_positions root)).imp_of_mem
  rintro ⟨pos, n⟩ ⟨pos', n'⟩ hn hn' hne phandle hp _ hp' rfl
  apply hne
  exact h pos n pos' n' phandle ((Node.mem_positioned root pos n).mp hn)
    ((Node.mem_positioned root pos' n').mp hn') hp hp'

theorem findPhandle?_of_sole {root n : Node} {pos : Position} {phandle : UInt32}
    (hn : root.at? pos = some n) (hp : n.phandle? = some phandle)
    (hsole : ∀ pos' n', root.at? pos' = some n' → n'.phandle? = some phandle → pos' = pos) :
    root.findPhandle? phandle = some n := by
  cases hfind : root.toList.find? (·.phandle? = some phandle) with
  | none =>
    have := List.find?_eq_none.mp hfind n (Node.mem_toList_of_at? hn)
    simp [hp] at this
  | some m =>
    obtain ⟨pos', hm⟩ := (Node.mem_toList_iff root m).mp (List.mem_of_find?_eq_some hfind)
    have hcarried := List.find?_some hfind
    obtain rfl := hsole pos' m hm (of_decide_eq_true hcarried)
    rw [hm] at hn
    cases hn
    exact hfind

section

variable {base overlay prepared : DeviceTree} (h : prepare base overlay = .ok prepared)
  (hunique : ∀ n ∈ overlay.root.toList, (n.properties.map Property.name).Nodup)
  (hnames : ∀ s ∈ references overlay, s.property ∉ handleNames)

include h

include hunique in
theorem carriers_bodies_le (phandle : UInt32) :
    carriers phandle ((grafts base prepared).flatMap (·.body.toList)) ≤
      carriers phandle prepared.root.toList := by
  have hsub : (((placements base (prepared.root.children.filter (!isMeta ·.name))).map
      Prod.snd).flatMap (·.body.toList)).Sublist prepared.root.toList := by
    rw [List.flatMap_map]
    apply (bodies_sublist base _).trans
    cases prepared.root
    rw [Node.toList, Node.forestToList_eq, Node.forestToList_eq]
    exact (List.filter_sublist.flatMap _).cons _
  rw [grafts, List.flatMap_append, carriers_append]
  cases hlabels : prepared.root.child? symbolsName with
  | none => exact hsub.countP_le
  | some labels =>
    have hmem := Node.toList_subset_of_mem_children (mem_of_child? hlabels)
      (Node.mem_toList_self labels)
    have htidy := tidy_prepared h hunique hmem
    rw [Option.toList_some, List.map_singleton, List.flatMap_singleton, carriers_labelGraft _ _ _ htidy]
    exact hsub.countP_le

include hnames in
theorem nodup_handles_prepared (hoverlay : (overlay.root.toList.filterMap Node.phandle?).Nodup) :
    (prepared.root.toList.filterMap Node.phandle?).Nodup := by
  apply nodup_handles_of_sole
  intro pos s pos' s' phandle hs hs' hp hp'
  obtain ⟨n, hn, -⟩ := Node.at?_of_outline_eq (outline_prepared h).symm hs
  obtain ⟨n', hn', -⟩ := Node.at?_of_outline_eq (outline_prepared h).symm hs'
  rw [phandle?_prepared h hnames hn hs] at hp
  rw [phandle?_prepared h hnames hn' hs'] at hp'
  obtain ⟨own, hown, rfl⟩ := Option.map_eq_some_iff.mp hp
  obtain ⟨own', hown', hsame⟩ := Option.map_eq_some_iff.mp hp'
  rw [UInt32.add_left_inj] at hsame
  exact eq_of_handle hoverlay hn hn' hown (hsame ▸ hown')

include hnames in
theorem carriers_apart (hvalid : ∀ n ∈ base.root.toList, n.phandle? ≠ some 0xffffffff)
    (hnonzero : ∀ n ∈ overlay.root.toList, n.phandle? ≠ some 0) (phandle : UInt32) :
    carriers phandle base.root.toList = 0 ∨ carriers phandle prepared.root.toList = 0 := by
  rcases UInt32.lt_or_le base.maxPhandle phandle with habove | hle
  · left
    rw [carriers, List.countP_eq_zero]
    intro n hn hcarried
    have hp := eq_of_beq hcarried
    have hle := le_maxPhandle hn hp fun hones => hvalid n hn (hones ▸ hp)
    exact UInt32.not_le.mpr habove hle
  · right
    rw [carriers, List.countP_eq_zero]
    intro s hs hcarried
    have habove := phandle?_prepared_above h hnames hnonzero hs (eq_of_beq hcarried)
    exact UInt32.not_le.mpr habove hle

end

/-- If the handles of the base and those of the overlay are each distinct, so are the handles of the
merged tree, and looking for a handle finds the only node that carries it. -/
theorem apply_handles_unique {base overlay merged : DeviceTree}
    (h : (apply base overlay).outcome = .ok merged)
    (hbase : (base.root.toList.filterMap Node.phandle?).Nodup)
    (hvalid : ∀ n ∈ base.root.toList, n.phandle? ≠ some 0xffffffff)
    (hoverlay : (overlay.root.toList.filterMap Node.phandle?).Nodup)
    (hunique : ∀ n ∈ overlay.root.toList, (n.properties.map Property.name).Nodup)
    (hnonzero : ∀ n ∈ overlay.root.toList, n.phandle? ≠ some 0)
    (hnames : ∀ s ∈ references overlay, s.property ∉ handleNames) :
    (merged.root.toList.filterMap Node.phandle?).Nodup ∧
      ∀ pos n phandle, merged.root.at? pos = some n → n.phandle? = some phandle →
        merged.root.findPhandle? phandle = some n ∧
          ∀ pos' n', merged.root.at? pos' = some n' → n'.phandle? = some phandle → pos' = pos := by
  obtain ⟨prepared, hprepared, hmerged⟩ := apply_eq_ok h
  have htidy := fun s hs => (tidy_of_mem_bodies hprepared hunique hnames hnonzero (s := s) hs).1
  have hdistinct : (merged.root.toList.filterMap Node.phandle?).Nodup := by
    rw [nodup_handles_iff]
    intro phandle
    have hmerge := carriers_foldl_onto_le phandle htidy base
    rw [← hmerged] at hmerge
    have hbodies := carriers_bodies_le hprepared hunique phandle
    have hb := (nodup_handles_iff _).mp hbase phandle
    have hp := (nodup_handles_iff _).mp (nodup_handles_prepared hprepared hnames hoverlay) phandle
    have hapart := carriers_apart hprepared hnames hvalid hnonzero phandle
    omega
  refine ⟨hdistinct, fun pos n phandle hn hp => ?_⟩
  have hsole : ∀ pos' n', merged.root.at? pos' = some n' → n'.phandle? = some phandle → pos' = pos :=
    fun pos' n' hn' hp' => eq_of_handle hdistinct hn' hn hp' hp
  exact ⟨findPhandle?_of_sole hn hp hsole, hsole⟩

theorem apply_handles_unique_panel :
    ∃ merged, (apply board panel).outcome = .ok merged ∧
      (merged.root.toList.filterMap Node.phandle?).Nodup ∧
      ∀ pos n, merged.root.at? pos = some n → n.phandle? = some 4 →
        merged.root.findPhandle? 4 = some n := by
  obtain ⟨merged, hmerged⟩ := exists_apply_panel
  obtain ⟨hdistinct, hfound⟩ := apply_handles_unique hmerged (by decide +kernel)
    (by decide +kernel) (by decide +kernel) (by decide +kernel) (by decide +kernel)
    (by rw [references_panel]; decide)
  exact ⟨merged, hmerged, hdistinct, fun pos n hn hp => (hfound pos n 4 hn hp).1⟩

end BootAssembly.Overlay
