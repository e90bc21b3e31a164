import BootAssembly.Proofs.DeviceTree.ByName
import BootAssembly.Proofs.DeviceTree.Portable
import BootAssembly.Proofs.Overlay.Merging

namespace BootAssembly.DeviceTree

def Node.follow? : List String → Node → Option Node
  | [], n => some n
  | name :: names, n => (n.children.find? (·.name = name)).bind (follow? names)

structure Node.Unambiguous (root : Node) : Prop where
  properties : ∀ n ∈ root.toList, (n.properties.map Property.name).Nodup
  children : ∀ n ∈ root.toList, (n.children.map Node.name).Nodup

theorem Properties.foldl_value_twice (qs : Properties) (p : Property) :
    qs.foldl (fun p q => { p with value := q.value })
        (qs.foldl (fun p q => { p with value := q.value }) p) =
      qs.foldl (fun (p : Property) q => { p with value := q.value }) p := by
  rcases List.eq_nil_or_concat qs with rfl | ⟨qs, q, rfl⟩
  · rfl
  · have hname := fun p => Properties.putByName_set.name_foldl qs p
    simp only [List.concat_eq_append, List.foldl_append, List.foldl_cons, List.foldl_nil, hname]

end BootAssembly.DeviceTree

namespace BootAssembly.Overlay

open DeviceTree

theorem name_merge (source target : Node) : (merge source target).name = target.name := by
  cases source
  exact name_mergeForest _ _

def mergeChild (children : List Node) (source : Node) : List Node :=
  Node.modifyOrAdd source.name (merge source) children

theorem putByName_mergeChild :
    PutByName Node.name Node.name Node.new (fun n s => merge s n) mergeChild where
  put_nil _ := rfl
  put_cons _ _ _ := rfl
  name_new _ := rfl
  name_update n s := name_merge s n

theorem mergeForest_eq (sources : List Node) (target : Node) :
    mergeForest sources target =
      { target with children := sources.foldl mergeChild target.children } := by
  induction sources generalizing target with
  | nil =>
    cases target
    rfl
  | cons s sources ih =>
    rw [mergeForest, ih]
    rfl

theorem merge_eq (source target : Node) : merge source target =
    ⟨target.name, lay target.properties source, source.children.foldl mergeChild target.children⟩ := by
  cases source
  rw [merge, mergeForest_eq]
  rfl

theorem foldl_merge_eq (sources : List Node) (target : Node) :
    sources.foldl (fun n s => merge s n) target =
      ⟨target.name,
        (sources.flatMap Node.properties).foldl (fun ps p => ps.set p.name p.value) target.properties,
        (sources.flatMap Node.children).foldl mergeChild target.children⟩ := by
  induction sources generalizing target with
  | nil =>
    cases target
    rfl
  | cons s sources ih =>
    rw [List.foldl_cons, ih, merge_eq, List.flatMap_cons, List.flatMap_cons, List.foldl_append,
      List.foldl_append]
    rfl

theorem foldl_merge_twice {height : Nat} {sources : List Node}
    (hheight : ∀ s ∈ sources, s.height < height) (target : Node) :
    sources.foldl (fun n s => merge s n) (sources.foldl (fun n s => merge s n) target) =
      sources.foldl (fun n s => merge s n) target := by
  induction height generalizing sources target with
  | zero =>
    obtain rfl := List.eq_nil_iff_forall_not_mem.mpr fun s hs => Nat.not_lt_zero _ (hheight s hs)
    rfl
  | succ height ih =>
    have hbelow : ∀ c ∈ sources.flatMap Node.children, c.height < height := by
      intro c hc
      obtain ⟨s, hs, hc⟩ := List.mem_flatMap.mp hc
      have hlt := Node.height_lt_of_mem_children hc
      have := hheight s hs
      omega
    have hproperties := Properties.putByName_set.foldl_twice
      (fun same (_ : same ⊆ sources.flatMap Node.properties) p =>
        Properties.foldl_value_twice same p) target.properties
    have hchildren := putByName_mergeChild.foldl_twice
      (fun same (hsame : same ⊆ sources.flatMap Node.children) n =>
        ih (fun c hc => hbelow c (hsame hc)) n) target.children
    rw [foldl_merge_eq, foldl_merge_eq, hproperties, hchildren]

theorem follow?_getD_new (o : Option Node) (name next : String) (path : List String) :
    (o.getD (.new name)).follow? (next :: path) = o.bind (Node.follow? (next :: path)) := by
  cases o <;> rfl

theorem mem_toList_of_follow? {path : List String} {n m : Node} (h : n.follow? path = some m) :
    m ∈ n.toList := by
  induction path generalizing n with
  | nil =>
    cases h
    exact Node.mem_toList_self m
  | cons name path ih =>
    obtain ⟨c, hc, h⟩ := Option.bind_eq_some_iff.mp h
    exact Node.toList_subset_of_mem_children (List.mem_of_find?_eq_some hc) (ih h)

theorem filter_name_eq {cs : List Node} (h : (cs.map Node.name).Nodup) (name : String) :
    cs.filter (·.name = name) = (cs.find? (·.name = name)).toList := by
  induction cs with
  | nil => rfl
  | cons c cs ih =>
    rw [List.map_cons, List.nodup_cons] at h
    rw [List.filter_cons, List.find?_cons]
    by_cases hc : c.name = name
    · have hnone : cs.filter (·.name = name) = [] := by
        rw [List.filter_eq_nil_iff]
        intro d hd hsame
        apply h.1
        rw [hc, ← of_decide_eq_true hsame]
        exact List.mem_map_of_mem hd
      simp [hc, hnone]
    · simp [hc, ih h.2]

theorem find?_children_merge {source : Node} (h : (source.children.map Node.name).Nodup)
    (target : Node) (name : String) :
    (merge source target).children.find? (·.name = name) =
      match source.children.find? (·.name = name) with
      | none => target.children.find? (·.name = name)
      | some c => some (merge c ((target.children.find? (·.name = name)).getD (.new name))) := by
  rw [merge_eq, putByName_mergeChild.find?_foldl, filter_name_eq h]
  cases source.children.find? (·.name = name) <;> rfl

theorem follow?_merge {source : Node} (h : source.Unambiguous) (target : Node) (path : List String) :
    (merge source target).follow? path =
      match source.follow? path with
      | none => target.follow? path
      | some s => some (merge s ((target.follow? path).getD (.new s.name))) := by
  induction path generalizing source target with
  | nil => rfl
  | cons name path ih =>
    have hown := h.children source (Node.mem_toList_self source)
    rw [Node.follow?, Node.follow?, Node.follow?, find?_children_merge hown]
    cases hc : source.children.find? (·.name = name) with
    | none => rfl
    | some c =>
      have hsub := Node.toList_subset_of_mem_children (List.mem_of_find?_eq_some hc)
      have hbelow : c.Unambiguous :=
        ⟨fun n hn => h.properties n (hsub hn), fun n hn => h.children n (hsub hn)⟩
      have hname : c.name = name := by simpa using List.find?_some hc
      dsimp only [Option.bind_some]
      cases path with
      | nil => cases target.children.find? (·.name = name) <;> simp [Node.follow?, hname]
      | cons next path => rw [ih hbelow, follow?_getD_new]

/-- A merge is a union of trees in which the source comes first, and merging the source once more
changes nothing. -/
theorem merge_union (source target : Node) :
    (source.Unambiguous → ∀ path,
      (((merge source target).follow? path).isSome ↔
        (target.follow? path).isSome ∨ (source.follow? path).isSome) ∧
      ∀ name, ((merge source target).follow? path).bind (·.value? name) =
        ((source.follow? path).bind (·.value? name)).or
          ((target.follow? path).bind (·.value? name))) ∧
    merge source (merge source target) = merge source target := by
  constructor
  · intro h path
    rw [follow?_merge h]
    cases hs : source.follow? path with
    | none => simp
    | some s =>
      have hunique := h.properties s (mem_toList_of_follow? hs)
      refine ⟨by simp, fun name => ?_⟩
      dsimp only [Option.bind_some]
      rw [merge_eq, Node.value?, get?_lay hunique]
      cases target.follow? path <;> rfl
  · have hheight : ∀ s ∈ [source], s.height < source.height + 1 := by simp
    exact foldl_merge_twice hheight target

def twins : Node := ⟨"", [⟨"reg", be32 1⟩, ⟨"reg", be32 2⟩],
  [⟨"uart", [⟨"status", nulTerminated "disabled"⟩], []⟩, ⟨"uart", [], []⟩]⟩

def twinPatch : Node := ⟨"__overlay__", [⟨"reg", be32 3⟩],
  [⟨"uart", [⟨"status", nulTerminated "okay"⟩], []⟩, ⟨"clock", [], []⟩]⟩

theorem merge_union_twins :
    twinPatch.Unambiguous ∧ ((merge twinPatch twins).follow? ["clock"]).isSome ∧
      (merge twinPatch twins).value? "reg" = some (be32 3) ∧
      merge twinPatch (merge twinPatch twins) = merge twinPatch twins := by
  have hclear : twinPatch.Unambiguous := ⟨by decide, by decide⟩
  obtain ⟨hunion, htwice⟩ := merge_union twinPatch twins
  have hclock := (hunion hclear ["clock"]).1.mpr (.inr (by decide))
  have hreg := (hunion hclear []).2 "reg"
  exact ⟨hclear, hclock, hreg.trans (by decide), htwice⟩

end BootAssembly.Overlay
