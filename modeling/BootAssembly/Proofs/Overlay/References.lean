import BootAssembly.Overlay
import BootAssembly.Proofs.DeviceTree.Rewriting
import Mathlib.Data.List.Basic

namespace BootAssembly.Overlay

open DeviceTree

mutual

def listed : Node → Node → List Site
  | ⟨_, fixups, below⟩, n =>
    (fixups.flatMap fun p => (cellsOf p.value).map fun offset => ⟨[], p.name, offset.toNat⟩) ++
      forestListed below n

def forestListed : List Node → Node → List Site
  | [], _ => []
  | fixup :: fixups, n =>
    ((n.children.findIdx? (·.name = fixup.name)).bind fun i =>
      n.children[i]?.map fun c => (listed fixup c).map (.under i)).getD [] ++ forestListed fixups n

end

def localReferences (overlay : DeviceTree) : List Site :=
  match overlay.root.child? localFixupsName with
  | some fixups => listed fixups overlay.root
  | none => []

def siteOf? (root : Node) (entry : Bytes) : Option Site :=
  match Reference.parse entry with
  | .error _ => none
  | .ok r => (root.locate? (segments r.path)).map fun pos => ⟨pos, r.property, r.offset⟩

def labelReferences (overlay : DeviceTree) : List (String × Site) :=
  match overlay.root.child? fixupsName with
  | some fixups => fixups.properties.flatMap fun label =>
      ((entriesOf label.value).filterMap (siteOf? overlay.root)).map (label.name, ·)
  | none => []

def references (overlay : DeviceTree) : List Site :=
  localReferences overlay ++ (labelReferences overlay).map Prod.snd

def raising (delta : UInt32) (s : Site) : Edit :=
  ⟨s, fun old new => new.toNat = old.toNat + delta.toNat⟩

def filling (base : DeviceTree) (label : String) (s : Site) : Edit :=
  ⟨s, fun _ new => ∃ symbols, base.root.child? symbolsName = some symbols ∧
    labelPhandle base symbols label = .ok new⟩

def edits (base overlay : DeviceTree) : List Edit :=
  (localReferences overlay).map (raising base.maxPhandle) ++
    (labelReferences overlay).map fun r => filling base r.1 r.2

mutual

theorem listed_outline : (fixup n : Node) → listed fixup n.outline = listed fixup n
  | ⟨name, fixups, below⟩, n => by rw [listed, listed, forestListed_outline below n]

theorem forestListed_outline : (fixups : List Node) → (n : Node) →
    forestListed fixups n.outline = forestListed fixups n
  | [], _ => rfl
  | fixup :: fixups, n => by
    have hname : ∀ c : Node, decide (c.outline.name = fixup.name) = decide (c.name = fixup.name) :=
      fun c => by rw [Node.name_outline]
    rw [forestListed, forestListed, forestListed_outline fixups n, Node.children_outline,
      Node.findIdx?_outline hname]
    congr 2
    cases n.children.findIdx? (·.name = fixup.name) with
    | none => rfl
    | some i =>
      rw [Option.bind_some, Option.bind_some, List.getElem?_map]
      cases n.children[i]? with
      | none => rfl
      | some c => simp [listed_outline fixup c]

end

theorem raiseCell_eq_ok {delta : UInt32} {value value' : Bytes} {offset : UInt32} :
    raiseCell delta value offset = .ok value' ↔
      offset.toNat + 4 < sizeLimit ∧ offset.toNat + 4 ≤ value.length ∧
      (be32At value offset.toNat).toNat + delta.toNat < UInt32.size ∧
      value' = putCell offset.toNat (be32At value offset.toNat + delta) value := by
  simp only [raiseCell, bind_eq_ok, span_eq_ok, addWord_eq_ok]
  constructor
  · rintro ⟨_, ⟨hlimit, hlength, rfl⟩, _, ⟨hsum, rfl⟩, hvalue⟩
    cases hvalue
    exact ⟨hlimit, hlength, hsum, rfl⟩
  · rintro ⟨hlimit, hlength, hsum, rfl⟩
    exact ⟨_, ⟨hlimit, hlength, rfl⟩, _, ⟨hsum, rfl⟩, rfl⟩

theorem foldlM_raiseCell_rewrites {delta : UInt32} {property : String} {offsets : List UInt32}
    {n : Node} {value value' : Bytes} (hn : n.value? property = some value)
    (h : offsets.foldlM (raiseCell delta) value = .ok value') :
    Rewrites (offsets.map fun offset => raising delta ⟨[], property, offset.toNat⟩) n
      (n.modifyValue property fun _ => value') := by
  induction offsets generalizing n value with
  | nil =>
    cases h
    have hsame : (n.modifyValue property fun _ => value') = n := by
      cases n
      rw [Node.modifyValue, Properties.modify_self hn]
    rw [hsame]
    exact .nil n
  | cons offset offsets ih =>
    rw [List.foldlM_cons] at h
    obtain ⟨next, hnext, h⟩ := bind_eq_ok.mp h
    obtain ⟨-, hlength, hsum, rfl⟩ := raiseCell_eq_ok.mp hnext
    have hput : (Site.mk [] property offset.toNat).put (be32At value offset.toNat + delta) n =
        n.modifyValue property fun _ =>
          putCell offset.toNat (be32At value offset.toNat + delta) value := by
      rw [Site.put, Node.modifyPosition, Node.modifyValue, Node.modifyValue]
      congr 1
      exact Properties.modify_congr hn rfl
    have hraised : (be32At value offset.toNat + delta).toNat =
        (be32At value offset.toNat).toNat + delta.toNat := by
      rw [UInt32.toNat_add, Nat.mod_eq_of_lt hsum]
    rw [List.map_cons]
    refine .cons (Site.cell?_eq_some.mpr ⟨value, hn, hlength, rfl⟩) hraised ?_
    show Rewrites _ ((Site.mk [] property offset.toNat).put _ n) _
    rw [hput]
    have hvalue : (n.modifyValue property fun _ =>
        putCell offset.toNat (be32At value offset.toNat + delta) value).value? property =
        some (putCell offset.toNat (be32At value offset.toNat + delta) value) := by
      rw [Node.value?] at hn
      simp [Node.value?, Node.modifyValue, hn]
    have hrest := ih hvalue h
    rwa [Node.modifyValue, Node.modifyValue, Properties.modify_modify] at hrest

theorem raiseReferences_rewrites {delta : UInt32} {n : Node} {fixup : Property} {ps : Properties}
    (h : raiseReferences delta n.properties fixup = .ok ps) :
    Rewrites ((cellsOf fixup.value).map fun offset => raising delta ⟨[], fixup.name, offset.toNat⟩)
      n { n with properties := ps } := by
  unfold raiseReferences at h
  split at h
  · cases h
  · rename_i value hvalue
    obtain ⟨value', hfold, h⟩ := bind_eq_ok.mp h
    cases h
    exact foldlM_raiseCell_rewrites hvalue hfold

theorem foldlM_raiseReferences_rewrites {delta : UInt32} {fixups : Properties} {n : Node}
    {ps : Properties} (h : fixups.foldlM (raiseReferences delta) n.properties = .ok ps) :
    Rewrites (fixups.flatMap fun p =>
        (cellsOf p.value).map fun offset => raising delta ⟨[], p.name, offset.toNat⟩)
      n { n with properties := ps } := by
  induction fixups generalizing n with
  | nil =>
    cases h
    cases n
    exact .nil _
  | cons fixup fixups ih =>
    rw [List.foldlM_cons] at h
    obtain ⟨next, hnext, h⟩ := bind_eq_ok.mp h
    rw [List.flatMap_cons]
    exact (raiseReferences_rewrites hnext).append (ih (n := { n with properties := next }) h)

mutual

theorem raiseLocal_rewrites {delta : UInt32} : (fixup n n' : Node) →
    raiseLocal delta fixup n = .ok n' →
    Rewrites ((listed fixup n).map (raising delta)) n n'
  | ⟨name, fixups, below⟩, n, n', h => by
    rw [raiseLocal] at h
    obtain ⟨ps, hps, h⟩ := bind_eq_ok.mp h
    obtain ⟨children, hchildren, h⟩ := bind_eq_ok.mp h
    cases h
    have hown := foldlM_raiseReferences_rewrites hps
    have hbelow := raiseLocalForest_rewrites below { n with properties := ps } children hchildren
    have hlisted : forestListed below { n with properties := ps } = forestListed below n := by
      rw [← forestListed_outline below n, ← hown.outline, forestListed_outline]
    rw [listed, List.map_append, List.map_flatMap, ← hlisted]
    simpa [Function.comp_def] using hown.append hbelow

theorem raiseLocalForest_rewrites {delta : UInt32} : (fixups : List Node) → (n : Node) →
    (children : List Node) → raiseLocalForest delta fixups n.children = .ok children →
    Rewrites ((forestListed fixups n).map (raising delta)) n { n with children }
  | [], n, children, h => by
    cases h
    cases n
    exact .nil _
  | fixup :: fixups, n, children, h => by
    rw [raiseLocalForest, Node.find?_eq_getElem?] at h
    cases hi : n.children.findIdx? (·.name = fixup.name) with
    | none => simp [hi] at h
    | some i =>
      cases hc : n.children[i]? with
      | none => simp [hi, hc] at h
      | some c =>
        simp only [hi, hc, Option.bind_some] at h
        obtain ⟨c', hc', h⟩ := bind_eq_ok.mp h
        rw [Node.modifyFirst_eq_modify hi, ← List.set_eq_modify] at h
        have hfirst := (raiseLocal_rewrites fixup c c' hc').under hc
        have hrest := raiseLocalForest_rewrites fixups { n with children := n.children.set i c' }
          children h
        have hlisted : forestListed fixups { n with children := n.children.set i c' } =
            forestListed fixups n := by
          rw [← forestListed_outline fixups n, ← hfirst.outline, forestListed_outline]
        rw [hlisted] at hrest
        rw [forestListed, hi, Option.bind_some, hc, Option.map_some, Option.getD_some,
          List.map_append, List.map_map]
        rw [List.map_map] at hfirst
        exact hfirst.append hrest

end

theorem siteOf?_outline (root : Node) (entry : Bytes) :
    siteOf? root.outline entry = siteOf? root entry := by
  unfold siteOf?
  cases Reference.parse entry with
  | error e => rfl
  | ok r => simp only [Node.locate?_outline]

theorem siteOf?_congr {root root' : Node} (h : root'.outline = root.outline) :
    siteOf? root' = siteOf? root := by
  funext entry
  rw [← siteOf?_outline, h, siteOf?_outline]

structure RewritesTree (es : List Edit) (t t' : DeviceTree) : Prop where
  root : Rewrites es t.root t'.root
  bootCpu : t'.bootCpu = t.bootCpu
  reservations : t'.reservations = t.reservations

theorem writeReference_rewrites {base : DeviceTree} {label : String} {phandle : UInt32}
    (hlabel : ∃ symbols, base.root.child? symbolsName = some symbols ∧
      labelPhandle base symbols label = .ok phandle)
    {overlay overlay' : DeviceTree} {entry : Bytes}
    (h : writeReference phandle overlay entry = .ok overlay') :
    ∃ s, siteOf? overlay.root entry = some s ∧
      RewritesTree [filling base label s] overlay overlay' := by
  obtain ⟨r, hr, h⟩ := bind_eq_ok.mp h
  split at h
  · cases h
  · rename_i value hvalue
    obtain ⟨m, hm, hvalue⟩ := Option.bind_eq_some_iff.mp hvalue
    obtain ⟨w, hw, h⟩ := bind_eq_ok.mp h
    obtain ⟨-, hlength, rfl⟩ := span_eq_ok.mp hw
    cases h
    rw [node?, Node.descend?_eq_at?] at hm
    obtain ⟨pos, hpos, hm⟩ := Option.bind_eq_some_iff.mp hm
    refine ⟨⟨pos, r.property, r.offset⟩, by simp [siteOf?, hr, hpos], ?_, rfl, rfl⟩
    have hput : (overlay.modifyNode r.path (·.modifyValue r.property fun _ =>
        putCell r.offset phandle value)).root =
        (Site.mk pos r.property r.offset).put phandle overlay.root := by
      rw [modifyNode, Node.modifyAt_eq_modifyPosition hpos, Site.put]
      apply Node.modifyPosition_congr hm
      rw [Node.modifyValue, Node.modifyValue]
      congr 1
      exact Properties.modify_congr hvalue rfl
    rw [hput]
    have hcell : (Site.mk pos r.property r.offset).cell? overlay.root =
        some (be32At value r.offset) := by
      refine Site.cell?_eq_some.mpr ⟨value, ?_, hlength, rfl⟩
      simp [Site.value?, hm, hvalue]
    exact .cons hcell hlabel (.nil _)

namespace RewritesTree

variable {es fs : List Edit} {t t' t'' : DeviceTree}

theorem refl (t : DeviceTree) : RewritesTree [] t t := ⟨.nil _, rfl, rfl⟩

theorem append (h : RewritesTree es t t') (h' : RewritesTree fs t' t'') :
    RewritesTree (es ++ fs) t t'' :=
  ⟨h.root.append h'.root, h'.bootCpu.trans h.bootCpu, h'.reservations.trans h.reservations⟩

end RewritesTree

theorem foldlM_writeReference_rewrites {base : DeviceTree} {label : String} {phandle : UInt32}
    (hlabel : ∃ symbols, base.root.child? symbolsName = some symbols ∧
      labelPhandle base symbols label = .ok phandle)
    {entries : List Bytes} {overlay overlay' : DeviceTree}
    (h : entries.foldlM (writeReference phandle) overlay = .ok overlay') :
    RewritesTree ((entries.filterMap (siteOf? overlay.root)).map (filling base label)) overlay
      overlay' := by
  induction entries generalizing overlay with
  | nil =>
    cases h
    exact .refl _
  | cons entry entries ih =>
    rw [List.foldlM_cons] at h
    obtain ⟨next, hnext, h⟩ := bind_eq_ok.mp h
    obtain ⟨s, hs, hfirst⟩ := writeReference_rewrites hlabel hnext
    have hrest := ih h
    rw [siteOf?_congr hfirst.root.outline] at hrest
    rw [List.filterMap_cons_some hs, List.map_cons]
    exact hfirst.append hrest

theorem resolveLabel_rewrites {base overlay overlay' : DeviceTree} {symbols : Node}
    (hsymbols : base.root.child? symbolsName = some symbols) {label : Property}
    (h : resolveLabel base symbols overlay label = .ok overlay') :
    RewritesTree (((entriesOf label.value).filterMap (siteOf? overlay.root)).map
      (filling base label.name)) overlay overlay' := by
  obtain ⟨phandle, hphandle, h⟩ := bind_eq_ok.mp h
  exact foldlM_writeReference_rewrites ⟨symbols, hsymbols, hphandle⟩ h

theorem foldlM_resolveLabel_rewrites {base overlay overlay' : DeviceTree} {symbols : Node}
    (hsymbols : base.root.child? symbolsName = some symbols) {labels : Properties}
    (h : labels.foldlM (resolveLabel base symbols) overlay = .ok overlay') :
    RewritesTree (labels.flatMap fun label =>
      ((entriesOf label.value).filterMap (siteOf? overlay.root)).map (filling base label.name))
      overlay overlay' := by
  induction labels generalizing overlay with
  | nil =>
    cases h
    exact .refl _
  | cons label labels ih =>
    rw [List.foldlM_cons] at h
    obtain ⟨next, hnext, h⟩ := bind_eq_ok.mp h
    have hfirst := resolveLabel_rewrites hsymbols hnext
    have hrest := ih h
    rw [siteOf?_congr hfirst.root.outline] at hrest
    rw [List.flatMap_cons]
    exact hfirst.append hrest

theorem resolveLabels_rewrites {base overlay overlay' : DeviceTree} {fixups : Node}
    (h : resolveLabels base overlay fixups = .ok overlay') :
    RewritesTree (fixups.properties.flatMap fun label =>
      ((entriesOf label.value).filterMap (siteOf? overlay.root)).map (filling base label.name))
      overlay overlay' := by
  unfold resolveLabels at h
  split at h
  · cases h
  · exact foldlM_resolveLabel_rewrites ‹_› h

def Raisable (delta : UInt32) (root : Node) : Prop :=
  ∀ n ∈ root.toList, ∀ name ∈ handleNames, ∀ value, n.value? name = some value →
    value.length = 4 ∧ (ofBe32 value).toNat + delta.toNat < UInt32.size

theorem raiseFault?_eq_none {delta : UInt32} {value : Bytes} :
    raiseFault? delta value = none ↔
      value.length = 4 ∧ (ofBe32 value).toNat + delta.toNat < UInt32.size := by
  unfold raiseFault?
  split
  · simp_all
  · split <;> simp_all

theorem raiseFaults_eq_nil {delta : UInt32} {root : Node} :
    raiseFaults delta root = [] ↔ Raisable delta root := by
  simp only [raiseFaults, List.flatMap_eq_nil_iff, List.filterMap_eq_nil_iff,
    Option.bind_eq_none_iff, raiseFault?_eq_none, Raisable]

theorem raiseAll_eq_ok {delta : UInt32} {root root' : Node} :
    raiseAll delta root = .ok root' ↔
      Raisable delta root ∧ root' = root.mapProperties (raiseHandles delta) := by
  unfold raiseAll
  cases h : (raiseFaults delta root).getLast? with
  | none =>
    rw [List.getLast?_eq_none_iff, raiseFaults_eq_nil] at h
    simp [h, eq_comm]
  | some fault =>
    have hne : ¬ Raisable delta root := by
      rw [← raiseFaults_eq_nil]
      intro hnil
      simp [hnil] at h
    simp [hne]

theorem get?_raiseHandles (delta : UInt32) (ps : Properties) (name : String) :
    (raiseHandles delta ps).get? name =
      if name ∈ handleNames then (ps.get? name).map fun value => be32 (ofBe32 value + delta)
      else ps.get? name := by
  simp only [raiseHandles, handleNames, List.foldl_cons, List.foldl_nil, Properties.get?_modify,
    List.mem_cons, List.not_mem_nil, or_false]
  by_cases h₁ : name = "phandle"
  · subst h₁
    simp
  · by_cases h₂ : name = "linux,phandle"
    · subst h₂
      simp
    · simp [h₁, h₂, eq_comm]

theorem outline_raiseHandles {delta : UInt32} {root : Node} (h : Raisable delta root) :
    (root.mapProperties (raiseHandles delta)).outline = root.outline := by
  apply Node.outline_mapProperties
  intro m hm
  have hlength := h m hm
  simp only [handleNames, List.forall_mem_cons] at hlength
  have hsame : ∀ value : Bytes, value.length = 4 →
      (be32 (ofBe32 value + delta)).length = value.length := by
    intro value hvalue
    rw [length_be32, hvalue]
  simp only [raiseHandles, handleNames, List.foldl_cons, List.foldl_nil]
  rw [Properties.outline_modify, Properties.outline_modify]
  · exact fun value hvalue => hsame value (hlength.1 value hvalue).1
  · intro value hvalue
    rw [Properties.get?_modify, if_neg (by decide)] at hvalue
    exact hsame value (hlength.2.1 value hvalue).1

theorem prepare_rewrites {base overlay prepared : DeviceTree}
    (h : prepare base overlay = .ok prepared) :
    Raisable base.maxPhandle overlay.root ∧
      RewritesTree (edits base overlay)
        { overlay with root := overlay.root.mapProperties (raiseHandles base.maxPhandle) }
        prepared := by
  obtain ⟨raised, hraised, h⟩ := bind_eq_ok.mp h
  obtain ⟨hable, rfl⟩ := raiseAll_eq_ok.mp hraised
  refine ⟨hable, ?_⟩
  have houtline := outline_raiseHandles hable
  obtain ⟨moved, hmoved, h⟩ : ∃ moved : Node, Rewrites
      ((localReferences overlay).map (raising base.maxPhandle))
      (overlay.root.mapProperties (raiseHandles base.maxPhandle)) moved ∧
      (match overlay.root.child? fixupsName with
        | some fixups => resolveLabels base { overlay with root := moved } fixups
        | none => return { overlay with root := moved }) = .ok prepared := by
    cases hlocal : overlay.root.child? localFixupsName with
    | none =>
      rw [hlocal] at h
      refine ⟨_, ?_, h⟩
      simp only [localReferences, hlocal]
      exact .nil _
    | some fixups =>
      rw [hlocal] at h
      obtain ⟨moved, hmoved, h⟩ := bind_eq_ok.mp h
      refine ⟨moved, ?_, h⟩
      have hrewrites := raiseLocal_rewrites _ _ _ hmoved
      rw [← listed_outline, houtline, listed_outline] at hrewrites
      simpa only [localReferences, hlocal] using hrewrites
  have hsites : siteOf? moved = siteOf? overlay.root :=
    siteOf?_congr (hmoved.outline.trans houtline)
  have hfirst : RewritesTree ((localReferences overlay).map (raising base.maxPhandle))
      { overlay with root := overlay.root.mapProperties (raiseHandles base.maxPhandle) }
      { overlay with root := moved } := ⟨hmoved, rfl, rfl⟩
  apply hfirst.append
  cases hlabels : overlay.root.child? fixupsName with
  | none =>
    rw [hlabels] at h
    cases h
    simp only [labelReferences, hlabels]
    exact .refl _
  | some fixups =>
    rw [hlabels] at h
    have hrewrites := resolveLabels_rewrites h
    simp only [hsites] at hrewrites
    simpa [labelReferences, hlabels, List.map_flatMap, Function.comp_def] using hrewrites

theorem outline_prepared {base overlay prepared : DeviceTree}
    (h : prepare base overlay = .ok prepared) : prepared.root.outline = overlay.root.outline := by
  obtain ⟨hable, hrewrites⟩ := prepare_rewrites h
  exact hrewrites.root.outline.trans (outline_raiseHandles hable)

theorem exists_of_mem_prepared {base overlay prepared : DeviceTree}
    (h : prepare base overlay = .ok prepared) {s : Node} (hs : s ∈ prepared.root.toList) :
    ∃ pos n, prepared.root.at? pos = some s ∧ overlay.root.at? pos = some n ∧
      n ∈ overlay.root.toList ∧ s.outline = n.outline := by
  obtain ⟨pos, hpos⟩ := (Node.mem_toList_iff _ s).mp hs
  obtain ⟨n, hn, houtline⟩ := Node.at?_of_outline_eq (outline_prepared h).symm hpos
  exact ⟨pos, n, hpos, hn, Node.mem_toList_of_at? hn, houtline.symm⟩

end BootAssembly.Overlay
