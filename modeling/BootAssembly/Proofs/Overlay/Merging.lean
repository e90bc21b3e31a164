import BootAssembly.Overlay.Merge
import BootAssembly.Proofs.DeviceTree.Position

namespace BootAssembly.DeviceTree

def Node.Grows (t t' : Node) : Prop :=
  ∀ pos n, t.at? pos = some n → ∃ n', t'.at? pos = some n' ∧ n'.name = n.name

namespace Node.Grows

variable {t t' t'' : Node}

theorem refl (t : Node) : t.Grows t := fun _ n hn => ⟨n, hn, rfl⟩

theorem trans (h : t.Grows t') (h' : t'.Grows t'') : t.Grows t'' := by
  intro pos n hn
  obtain ⟨n', hn', hname⟩ := h pos n hn
  obtain ⟨n'', hn'', hname'⟩ := h' pos n' hn'
  exact ⟨n'', hn'', hname'.trans hname⟩

theorem below (h : t.Grows t') {pos : Position} {n : Node} (hn : t.at? pos = some n) :
    ∃ n', t'.at? pos = some n' ∧ n.Grows n' := by
  obtain ⟨n', hn', -⟩ := h pos n hn
  refine ⟨n', hn', fun rest m hm => ?_⟩
  have := h (pos ++ rest) m (by rw [at?_append, hn]; exact hm)
  rwa [at?_append, hn'] at this

theorem child (h : t.Grows t') {i : Nat} {c : Node} (hc : t.children[i]? = some c) :
    ∃ c', t'.children[i]? = some c' ∧ c.Grows c' := by
  rw [← at?_singleton] at hc
  obtain ⟨c', hc', hgrows⟩ := h.below hc
  rw [at?_singleton] at hc'
  exact ⟨c', hc', hgrows⟩

theorem map_name_children (h : t.Grows t') :
    t.children.map Node.name <+: t'.children.map Node.name := by
  rw [List.prefix_iff_getElem?]
  intro i hi
  rw [List.length_map] at hi
  obtain ⟨c', hc', hgrows⟩ := h.child (List.getElem?_eq_getElem hi)
  obtain ⟨_, hsame, hname⟩ := hgrows [] _ rfl
  cases hsame
  rw [List.getElem?_map, List.getElem_map, hc', Option.map_some, hname]

theorem findIdx?_name_iff (h : t.Grows t') {i : Nat} {c : Node} (hc : t.children[i]? = some c)
    (name : String) :
    t'.children.findIdx? (·.name = name) = some i ↔
      t.children.findIdx? (·.name = name) = some i := by
  obtain ⟨hi, -⟩ := List.getElem?_eq_some_iff.mp hc
  obtain ⟨c', hc', -⟩ := h.child hc
  obtain ⟨hi', -⟩ := List.getElem?_eq_some_iff.mp hc'
  have hname : ∀ j (hj : j ≤ i), t'.children[j].name = t.children[j].name := by
    intro j hj
    have hj' : t.children[j]? = some t.children[j] := List.getElem?_eq_getElem (by omega)
    obtain ⟨d, hd, hsame⟩ := h [j] t.children[j] (by rw [at?_singleton, hj'])
    rw [at?_singleton, List.getElem?_eq_getElem (by omega)] at hd
    cases hd
    exact hsame
  rw [List.findIdx?_eq_some_iff_getElem, List.findIdx?_eq_some_iff_getElem]
  constructor
  · rintro ⟨_, hfirst, hbefore⟩
    refine ⟨hi, by rwa [hname i (Nat.le_refl i)] at hfirst, fun j hj => ?_⟩
    have := hbefore j hj
    rwa [hname j (by omega)] at this
  · rintro ⟨_, hfirst, hbefore⟩
    refine ⟨hi', by rwa [hname i (Nat.le_refl i)], fun j hj => ?_⟩
    rw [hname j (by omega)]
    exact hbefore j hj

end Node.Grows

theorem Node.modifyOrAdd_eq (name : String) (f : Node → Node) (cs : List Node) :
    modifyOrAdd name f cs = match cs.findIdx? (·.name = name) with
      | some i => cs.modify i f
      | none => cs ++ [f (new name)] := by
  induction cs with
  | nil => rfl
  | cons c cs ih =>
    rw [modifyOrAdd, List.findIdx?_cons]
    by_cases hc : c.name = name
    · simp [hc]
    · rw [if_neg hc, ih, decide_eq_false hc]
      cases cs.findIdx? (·.name = name) with
      | none => rfl
      | some i => simp

end BootAssembly.DeviceTree

namespace BootAssembly.Overlay

open DeviceTree

def lay (ps : Properties) (source : Node) : Properties :=
  source.properties.foldl (fun ps p => ps.set p.name p.value) ps

structure Overlaid (sources : List Node) (n n' : Node) : Prop where
  name : n'.name = n.name
  properties : n'.properties = sources.foldl lay n.properties

def landing : Position → Node → Node → List Node
  | [], source, _ => [source]
  | i :: pos, source, target =>
    source.children.flatMap fun c =>
      if target.children.findIdx? (·.name = c.name) = some i then
        ((target.children[i]?).map (landing pos c)).getD []
      else []

/-- A tree has grown by nodes from a pool: each of its nodes stood there before or is new, and has
had properties from the pool laid over its own. -/
structure Draws (pool : List Node) (t t' : Node) : Prop where
  grows : t.Grows t'
  origin : ∀ pos n', t'.at? pos = some n' → ∃ n sources, (∀ s ∈ sources, s ∈ pool) ∧
    Overlaid sources n n' ∧
    (t.at? pos = some n ∨ t.at? pos = none ∧ ∃ s ∈ pool, n = .new s.name)

theorem Overlaid.refl (n : Node) : Overlaid [] n n := ⟨rfl, rfl⟩

theorem Overlaid.append {first second : List Node} {n n' n'' : Node} (h : Overlaid first n n')
    (h' : Overlaid second n' n'') : Overlaid (first ++ second) n n'' := by
  refine ⟨h'.name.trans h.name, ?_⟩
  rw [List.foldl_append, ← h.properties, ← h'.properties]

theorem get?_lay {ps : Properties} {s : Node} (h : (s.properties.map Property.name).Nodup)
    (name : String) : (lay ps s).get? name = (s.value? name).or (ps.get? name) := by
  rw [lay, Node.value?]
  generalize s.properties = qs at h
  induction qs generalizing ps with
  | nil => rfl
  | cons q qs ih =>
    rw [List.map_cons, List.nodup_cons] at h
    rw [List.foldl_cons, ih h.2, Properties.get?_set, Properties.get?_cons]
    by_cases hq : q.name = name
    · have hnone : Properties.get? qs name = none := by
        simp only [Properties.get?, Option.map_eq_none_iff, List.find?_eq_none, decide_eq_true_eq]
        rintro p hp rfl
        exact h.1 (hq ▸ List.mem_map_of_mem hp)
      simp [hq, hnone]
    · simp [hq]

namespace Draws

variable {pool other : List Node} {t t' t'' : Node}

theorem refl (pool : List Node) (t : Node) : Draws pool t t :=
  ⟨.refl t, fun _ n hn => ⟨n, [], by simp, .refl n, .inl hn⟩⟩

theorem mono (h : Draws pool t t') (hsub : pool ⊆ other) : Draws other t t' := by
  refine ⟨h.grows, fun pos n' hn' => ?_⟩
  obtain ⟨n, sources, hsources, hlaid, hn⟩ := h.origin pos n' hn'
  refine ⟨n, sources, fun s hs => hsub (hsources s hs), hlaid, hn.imp_right ?_⟩
  rintro ⟨hnew, s, hs, rfl⟩
  exact ⟨hnew, s, hsub hs, rfl⟩

theorem trans (h : Draws pool t t') (h' : Draws pool t' t'') : Draws pool t t'' := by
  refine ⟨h.grows.trans h'.grows, fun pos n'' hn'' => ?_⟩
  obtain ⟨n', second, hsecond, hlaid', hn' | ⟨hnone, s, hs, rfl⟩⟩ := h'.origin pos n'' hn''
  · obtain ⟨n, first, hfirst, hlaid, hn⟩ := h.origin pos n' hn'
    refine ⟨n, first ++ second, ?_, hlaid.append hlaid', hn⟩
    simp only [List.mem_append]
    rintro s (hs | hs)
    · exact hfirst s hs
    · exact hsecond s hs
  · -- A place that is free in the second tree was free in the first, for trees only grow.
    refine ⟨_, second, hsecond, hlaid', .inr ⟨?_, s, hs, rfl⟩⟩
    cases hn : t.at? pos with
    | none => rfl
    | some n =>
      obtain ⟨n', hn', -⟩ := h.grows pos n hn
      rw [hnone] at hn'
      cases hn'

theorem own {s : Node} (hs : s ∈ pool) (t : Node) :
    Draws pool t { t with properties := lay t.properties s } := by
  constructor
  · intro pos n hn
    cases pos with
    | nil =>
      cases hn
      exact ⟨_, rfl, rfl⟩
    | cons i pos => exact ⟨n, hn, rfl⟩
  · intro pos n' hn'
    cases pos with
    | nil =>
      cases hn'
      exact ⟨t, [s], by simpa using hs, ⟨rfl, rfl⟩, .inl rfl⟩
    | cons i pos => exact ⟨n', [], by simp, .refl n', .inl hn'⟩

theorem modifyChild {f : Node → Node} (h : ∀ c, Draws pool c (f c)) (t : Node) (i : Nat) :
    Draws pool t { t with children := t.children.modify i f } := by
  constructor
  · intro pos n hn
    cases pos with
    | nil =>
      cases hn
      exact ⟨_, rfl, rfl⟩
    | cons j pos =>
      obtain ⟨c, hc, hn⟩ := Option.bind_eq_some_iff.mp hn
      by_cases hij : i = j
      · obtain ⟨n', hn', hname⟩ := (h c).grows pos n hn
        exact ⟨n', by simp [hc, hij, hn'], hname⟩
      · exact ⟨n, by simp [hc, hij, hn], rfl⟩
  · intro pos n' hn'
    cases pos with
    | nil =>
      cases hn'
      exact ⟨t, [], by simp, ⟨rfl, rfl⟩, .inl rfl⟩
    | cons j pos =>
      rw [Node.at?_cons, List.getElem?_modify] at hn'
      cases hc : t.children[j]? with
      | none => simp [hc] at hn'
      | some c =>
        rw [hc, Option.map_eq_map, Option.map_some, Option.bind_some] at hn'
        by_cases hij : i = j
        · rw [if_pos hij] at hn'
          obtain ⟨n, sources, hsources, hlaid, hn⟩ := (h c).origin pos n' hn'
          exact ⟨n, sources, hsources, hlaid, by simpa [hc] using hn⟩
        · rw [if_neg hij] at hn'
          exact ⟨n', [], by simp, .refl n', .inl (by simpa [hc] using hn')⟩

theorem addChild {s : Node} (hs : s ∈ pool) {f : Node → Node} (h : ∀ c, Draws pool c (f c))
    (t : Node) : Draws pool t { t with children := t.children ++ [f (.new s.name)] } := by
  constructor
  · intro pos n hn
    cases pos with
    | nil =>
      cases hn
      exact ⟨_, rfl, rfl⟩
    | cons i pos =>
      obtain ⟨c, hc, hn⟩ := Option.bind_eq_some_iff.mp hn
      obtain ⟨hi, -⟩ := List.getElem?_eq_some_iff.mp hc
      exact ⟨n, by simp [List.getElem?_append_left hi, hc, hn], rfl⟩
  · intro pos n' hn'
    cases pos with
    | nil =>
      cases hn'
      exact ⟨t, [], by simp, ⟨rfl, rfl⟩, .inl rfl⟩
    | cons i pos =>
      rcases Nat.lt_or_ge i t.children.length with hi | hi
      · rw [Node.at?_cons, List.getElem?_append_left hi] at hn'
        exact ⟨n', [], by simp, .refl n', .inl hn'⟩
      · obtain ⟨c, hc, hn'⟩ := Option.bind_eq_some_iff.mp hn'
        rw [List.getElem?_append_right hi] at hc
        cases List.mem_singleton.mp (List.mem_of_getElem? hc)
        obtain ⟨n, sources, hsources, hlaid, hn⟩ := (h (.new s.name)).origin pos n' hn'
        refine ⟨n, sources, hsources, hlaid, .inr ⟨by simp [List.getElem?_eq_none hi], ?_⟩⟩
        rcases hn with hn | ⟨-, hnew⟩
        · cases pos with
          | nil =>
            cases hn
            exact ⟨s, hs, rfl⟩
          | cons j pos => simp [Node.new] at hn
        · exact hnew

theorem modifyChildOrNew {s : Node} (hs : s ∈ pool) {f : Node → Node}
    (h : ∀ c, Draws pool c (f c)) (t : Node) : Draws pool t (t.modifyChildOrNew s.name f) := by
  rw [Node.modifyChildOrNew, Node.modifyOrAdd_eq]
  cases t.children.findIdx? (·.name = s.name) with
  | some i => exact modifyChild h t i
  | none => exact addChild hs h t

end Draws

mutual

theorem draws_merge : (source target : Node) → Draws source.toList target (merge source target)
  | ⟨name, properties, children⟩, target => by
    rw [merge, Node.toList]
    apply (Draws.own (s := ⟨name, properties, children⟩) (by simp) target).trans
    exact (draws_mergeForest children _).mono (List.subset_cons_self _ _)

theorem draws_mergeForest : (sources : List Node) → (target : Node) →
    Draws (Node.forestToList sources) target (mergeForest sources target)
  | [], target => .refl _ target
  | s :: sources, target => by
    rw [mergeForest, Node.forestToList]
    have hself : s ∈ s.toList := Node.mem_toList_self s
    have hfirst := Draws.modifyChildOrNew hself (draws_merge s) target
    have hrest := draws_mergeForest sources (target.modifyChildOrNew s.name (merge s))
    exact (hfirst.mono (List.subset_append_left _ _)).trans
      (hrest.mono (List.subset_append_right _ _))

end

theorem landing_of_grows {t t' n : Node} (h : t.Grows t') {pos : Position}
    (hn : t.at? pos = some n) (source : Node) : landing pos source t' = landing pos source t := by
  induction pos generalizing t t' source with
  | nil => rfl
  | cons i pos ih =>
    obtain ⟨c, hc, hn⟩ := Option.bind_eq_some_iff.mp hn
    obtain ⟨c', hc', hgrows⟩ := h.child hc
    simp only [landing, h.findIdx?_name_iff hc, hc, hc', Option.map_some, Option.getD_some,
      ih hgrows hn]

theorem landing_subset (pos : Position) (source target : Node) :
    landing pos source target ⊆ source.toList := by
  induction pos generalizing source target with
  | nil =>
    intro s hs
    rw [List.mem_singleton.mp hs]
    exact Node.mem_toList_self source
  | cons i pos ih =>
    intro s hs
    obtain ⟨c, hc, hs⟩ := List.mem_flatMap.mp hs
    split at hs
    · cases ht : target.children[i]? with
      | none => simp [ht] at hs
      | some t =>
        rw [ht, Option.map_some, Option.getD_some] at hs
        exact Node.toList_subset_of_mem_children hc (ih c t hs)
    · simp at hs

theorem name_mergeForest (sources : List Node) (target : Node) :
    (mergeForest sources target).name = target.name := by
  induction sources generalizing target with
  | nil => rfl
  | cons s sources ih => rw [mergeForest, ih, Node.modifyChildOrNew]

theorem properties_mergeForest (sources : List Node) (target : Node) :
    (mergeForest sources target).properties = target.properties := by
  induction sources generalizing target with
  | nil => rfl
  | cons s sources ih => rw [mergeForest, ih, Node.modifyChildOrNew]

theorem modifyChildOrNew_overlaid {name : String} {f : Node → Node}
    {sources : Position → Node → List Node}
    (hf : ∀ c pos n, c.at? pos = some n →
      ∃ n', (f c).at? pos = some n' ∧ Overlaid (sources pos c) n n')
    {t n : Node} {i : Nat} {pos : Position} (hn : t.at? (i :: pos) = some n) :
    ∃ n', (t.modifyChildOrNew name f).at? (i :: pos) = some n' ∧
      Overlaid (if t.children.findIdx? (·.name = name) = some i then
        ((t.children[i]?).map (sources pos)).getD [] else []) n n' := by
  obtain ⟨c, hc, hn⟩ := Option.bind_eq_some_iff.mp hn
  obtain ⟨hi, -⟩ := List.getElem?_eq_some_iff.mp hc
  rw [Node.modifyChildOrNew, Node.modifyOrAdd_eq, Node.at?_cons]
  cases hj : t.children.findIdx? (·.name = name) with
  | none =>
    rw [if_neg (by simp)]
    exact ⟨n, by simp [List.getElem?_append_left hi, hc, hn], .refl n⟩
  | some j =>
    by_cases hij : j = i
    · obtain ⟨n', hn', hlaid⟩ := hf c pos n hn
      refine ⟨n', by simp [hc, hij, hn'], ?_⟩
      simpa [hij, hc] using hlaid
    · rw [if_neg (by simpa using hij)]
      exact ⟨n, by simp [hc, hij, hn], .refl n⟩

mutual

theorem at?_merge : (source target : Node) → (pos : Position) → (n : Node) →
    target.at? pos = some n →
    ∃ n', (merge source target).at? pos = some n' ∧ Overlaid (landing pos source target) n n'
  | ⟨name, properties, children⟩, target, [], n, hn => by
    cases hn
    rw [merge]
    exact ⟨_, rfl, name_mergeForest _ _, properties_mergeForest _ _⟩
  | ⟨name, properties, children⟩, target, i :: pos, n, hn => by
    rw [merge]
    exact at?_mergeForest children _ i pos n hn

theorem at?_mergeForest : (sources : List Node) → (target : Node) → (i : Nat) →
    (pos : Position) → (n : Node) → target.at? (i :: pos) = some n →
    ∃ n', (mergeForest sources target).at? (i :: pos) = some n' ∧
      Overlaid (landing (i :: pos) ⟨"", [], sources⟩ target) n n'
  | [], target, i, pos, n, hn => ⟨n, hn, .refl n⟩
  | s :: sources, target, i, pos, n, hn => by
    have hstep := @modifyChildOrNew_overlaid s.name _ _ (at?_merge s) _ _ _ _ hn
    obtain ⟨n₁, hn₁, hfirst⟩ := hstep
    have hself : s ∈ s.toList := Node.mem_toList_self s
    have hgrows := (Draws.modifyChildOrNew hself (draws_merge s) target).grows
    obtain ⟨n', hn', hrest⟩ := at?_mergeForest sources _ i pos n₁ hn₁
    -- New children stand behind the old ones, so the rest of the sources land where they would have.
    rw [landing_of_grows hgrows hn] at hrest
    exact ⟨n', hn', hfirst.append hrest⟩

end

end BootAssembly.Overlay
