import BootAssembly.Proofs.Overlay.References
import BootAssembly.Proofs.Overlay.Splicing

namespace BootAssembly.Overlay

open DeviceTree

def RaisedAt (delta : UInt32) (s : Site) (before after : Node) : Prop :=
  ∃ old new, s.cell? before = some old ∧ s.cell? after = some new ∧
    new.toNat = old.toNat + delta.toNat

def IsHandle (root : Node) (s : Site) : Prop :=
  s.property ∈ handleNames ∧ s.offset = 0 ∧ ∃ value, s.value? root = some value

/-- How an overlay differs from itself once it is ready to be merged. -/
structure Rebased (base overlay prepared : DeviceTree) : Prop where
  bootCpu : prepared.bootCpu = overlay.bootCpu
  reservations : prepared.reservations = overlay.reservations
  outline : prepared.root.outline = overlay.root.outline
  handles : ∀ s, IsHandle overlay.root s →
    RaisedAt base.maxPhandle s overlay.root prepared.root
  locals : ∀ s ∈ localReferences overlay,
    RaisedAt base.maxPhandle s overlay.root prepared.root
  labels : ∀ label s, (label, s) ∈ labelReferences overlay →
    ∃ symbols value path n phandle, base.root.child? symbolsName = some symbols ∧
      symbols.value? label = some value ∧ textOf value = .ok path ∧
      base.node? path = some n ∧ n.phandle? = some phandle ∧
      s.cell? prepared.root = some phandle
  rest : ∀ pos n n', overlay.root.at? pos = some n → prepared.root.at? pos = some n' →
    ∀ (j : Nat) (p p' : Property), n.properties[j]? = some p → n'.properties[j]? = some p' →
      ∀ i, (∀ s, IsHandle overlay.root s ∨ s ∈ references overlay → ¬ s.Covers pos p.name i) →
        p'.value[i]? = p.value[i]?
  referents : ∀ s ∈ localReferences overlay, ∀ pos n, overlay.root.at? pos = some n →
    n.phandle? = s.cell? overlay.root →
      (prepared.root.at? pos).bind Node.phandle? = s.cell? prepared.root

theorem map_site_edits (base overlay : DeviceTree) :
    (edits base overlay).map Edit.site = references overlay := by
  simp only [edits, references, List.map_append, List.map_map]
  congr 1
  exact List.map_id' _

theorem site_mem_references {base overlay : DeviceTree} {e : Edit} (he : e ∈ edits base overlay) :
    e.site ∈ references overlay := by
  rw [← map_site_edits base]
  exact List.mem_map_of_mem he

theorem value?_raiseHandles (delta : UInt32) (s : Site) (root : Node) :
    s.value? (root.mapProperties (raiseHandles delta)) =
      if s.property ∈ handleNames then
        (s.value? root).map fun value => be32 (ofBe32 value + delta)
      else s.value? root := by
  rw [Site.value?, Site.value?, Node.at?_mapProperties]
  cases root.at? s.node with
  | none => simp
  | some n =>
    simp only [Option.map_some, Option.bind_some, Node.value?, Node.properties_mapProperties,
      get?_raiseHandles]

section

variable {base overlay prepared : DeviceTree} (h : prepare base overlay = .ok prepared)
  (hnames : ∀ s ∈ references overlay, s.property ∉ handleNames)

include h hnames

theorem value?_handle {s : Site} (hs : s.property ∈ handleNames) :
    s.value? prepared.root =
      (s.value? overlay.root).map fun value => be32 (ofBe32 value + base.maxPhandle) := by
  obtain ⟨-, hrewrites⟩ := prepare_rewrites h
  have hno : ∀ e ∈ edits base overlay, ¬ (s.node = e.site.node ∧ s.property = e.site.property) :=
    fun e he hsame => hnames e.site (site_mem_references he) (hsame.2 ▸ hs)
  rw [hrewrites.root.value?_of_untouched hno, value?_raiseHandles, if_pos hs]

theorem raised_handle {s : Site} (hs : IsHandle overlay.root s) :
    RaisedAt base.maxPhandle s overlay.root prepared.root := by
  obtain ⟨pos, property, offset⟩ := s
  obtain ⟨hproperty, hoffset, value, hvalue⟩ := hs
  cases hoffset
  obtain ⟨hable, -⟩ := prepare_rewrites h
  obtain ⟨n, hn, hget⟩ := Option.bind_eq_some_iff.mp hvalue
  obtain ⟨hlength, hsum⟩ := hable n (Node.mem_toList_of_at? hn) property hproperty
    value hget
  have hword : be32At value 0 = ofBe32 value := by
    rw [be32At, List.drop_zero, List.take_of_length_le (by omega)]
  have hafter := value?_handle h hnames hproperty (s := ⟨pos, property, 0⟩)
  rw [hvalue] at hafter
  refine ⟨ofBe32 value, ofBe32 value + base.maxPhandle,
    Site.cell?_eq_some.mpr ⟨value, hvalue, by simp [hlength], hword⟩,
    Site.cell?_eq_some.mpr ⟨_, hafter, by simp, ?_⟩, ?_⟩
  · have := be32At_zero (ofBe32 value + base.maxPhandle) []
    rwa [List.append_nil] at this
  · rw [UInt32.toNat_add, Nat.mod_eq_of_lt hsum]

theorem phandle?_prepared {pos : Position} {n n' : Node} (hn : overlay.root.at? pos = some n)
    (hn' : prepared.root.at? pos = some n') :
    n'.phandle? = n.phandle?.map (· + base.maxPhandle) := by
  obtain ⟨hable, -⟩ := prepare_rewrites h
  have hmem := Node.mem_toList_of_at? hn
  have hcell : ∀ name ∈ handleNames, n'.properties.cell? name =
      (n.properties.cell? name).map (· + base.maxPhandle) := by
    intro name hname
    have hafter := value?_handle h hnames hname (s := ⟨pos, name, 0⟩)
    simp only [Site.value?, hn, hn', Option.bind_some, Node.value?] at hafter
    rw [Properties.cell?, Properties.cell?, hafter]
    cases hvalue : n.properties.get? name with
    | none => rfl
    | some value =>
      have hlength := (hable n hmem name hname value hvalue).1
      simp [hlength]
  rw [Node.phandle?, Node.phandle?, hcell _ (by simp [handleNames]),
    hcell _ (by simp [handleNames]), Option.map_or]

omit hnames in
theorem byte_of_uncovered
    (hunique : ∀ n ∈ overlay.root.toList, (n.properties.map Property.name).Nodup)
    {pos : Position} {n n' : Node} (hn : overlay.root.at? pos = some n)
    (hn' : prepared.root.at? pos = some n') (houtline : n'.outline = n.outline) {j : Nat}
    {p p' : Property} (hp : n.properties[j]? = some p) (hp' : n'.properties[j]? = some p') {i : Nat}
    (hno : ∀ s, IsHandle overlay.root s ∨ s ∈ references overlay → ¬ s.Covers pos p.name i) :
    p'.value[i]? = p.value[i]? := by
  obtain ⟨hable, hrewrites⟩ := prepare_rewrites h
  have hmem := Node.mem_toList_of_at? hn
  have hproperties := (Node.outline_eq_iff.mp houtline).2.1
  have hnames' : n'.properties.map Property.name = n.properties.map Property.name := by
    rw [← Properties.map_name_outline, hproperties, Properties.map_name_outline]
  have hentry := congrArg (·[j]?) hproperties
  simp only [Properties.outline, List.getElem?_map, hp, hp', Option.map_some, Option.some.injEq,
    Property.mk.injEq] at hentry
  have hlength : p'.value.length = p.value.length := by
    simpa using congrArg List.length hentry.2
  have hvalue : (Site.mk pos p.name 0).value? overlay.root = some p.value := by
    simp only [Site.value?, hn, Option.bind_some]
    exact Properties.get?_of_mem (hunique n hmem) (List.mem_of_getElem? hp)
  have hvalue' : (Site.mk pos p.name 0).value? prepared.root = some p'.value := by
    simp only [Site.value?, hn', Option.bind_some, ← hentry.1]
    exact Properties.get?_of_mem (hnames' ▸ hunique n hmem) (List.mem_of_getElem? hp')
  by_cases hhandle : p.name ∈ handleNames
  · -- All four bytes of a handle are one word, which is covered.
    have hout := hno ⟨pos, p.name, 0⟩ (.inl ⟨hhandle, rfl, p.value, hvalue⟩)
    have hfour := (hable n hmem p.name hhandle p.value
      (Properties.get?_of_mem (hunique n hmem) (List.mem_of_getElem? hp))).1
    have hbeyond : 4 ≤ i := by
      apply Decidable.byContradiction
      intro hlt
      exact hout ⟨rfl, rfl, Nat.zero_le i, by omega⟩
    rw [List.getElem?_eq_none (by omega), List.getElem?_eq_none (by omega)]
  · have hbyte := hrewrites.root.getElem?_of_uncovered (s := ⟨pos, p.name, 0⟩) (i := i)
      fun e he => hno e.site (.inr (site_mem_references he))
    rw [value?_raiseHandles, if_neg hhandle, hvalue, hvalue'] at hbyte
    exact hbyte

end

theorem labelPhandle_eq_ok {base : DeviceTree} {symbols : Node} {label : String}
    {phandle : UInt32} (h : labelPhandle base symbols label = .ok phandle) :
    ∃ value path n, symbols.value? label = some value ∧ textOf value = .ok path ∧
      base.node? path = some n ∧ n.phandle? = some phandle := by
  unfold labelPhandle at h
  split at h
  · cases h
  · rename_i value hvalue
    obtain ⟨path, hpath, h⟩ := bind_eq_ok.mp h
    split at h
    · cases h
    · rename_i found hfound
      cases h
      obtain ⟨n, hn, hphandle⟩ := Option.bind_eq_some_iff.mp hfound
      exact ⟨value, path, n, hvalue, hpath, hn, hphandle⟩

theorem cell?_raiseHandles {delta : UInt32} {s : Site} (hs : s.property ∉ handleNames)
    (root : Node) : s.cell? (root.mapProperties (raiseHandles delta)) = s.cell? root := by
  rw [Site.cell?, Site.cell?, value?_raiseHandles, if_neg hs]

theorem apply_rebases {base overlay merged : DeviceTree}
    (h : (apply base overlay).outcome = .ok merged)
    (hunique : ∀ n ∈ overlay.root.toList, (n.properties.map Property.name).Nodup)
    (hapart : (references overlay).Pairwise Site.Apart)
    (hnames : ∀ s ∈ references overlay, s.property ∉ handleNames) :
    ∃ prepared, prepare base overlay = .ok prepared ∧ Rebased base overlay prepared := by
  obtain ⟨prepared, hprepared, -⟩ := apply_eq_ok h
  obtain ⟨hable, hrewrites⟩ := prepare_rewrites hprepared
  have houtline := outline_prepared hprepared
  have hedits : (edits base overlay).Pairwise fun e f => e.site.Apart f.site := by
    rwa [← List.pairwise_map, map_site_edits]
  have hcell := hrewrites.root.cell? hedits
  have hlocals : ∀ s ∈ localReferences overlay,
      RaisedAt base.maxPhandle s overlay.root prepared.root := by
    intro s hs
    have hmem : raising base.maxPhandle s ∈ edits base overlay :=
      List.mem_append_left _ (List.mem_map_of_mem hs)
    obtain ⟨old, new, hold, hnew, hraised⟩ := hcell _ hmem
    refine ⟨old, new, ?_, hnew, hraised⟩
    exact (cell?_raiseHandles (hnames s (List.mem_append_left _ hs)) _).symm.trans hold
  refine ⟨prepared, hprepared, hrewrites.bootCpu, hrewrites.reservations, houtline,
    fun s hs => raised_handle hprepared hnames hs, hlocals, ?_, ?_, ?_⟩
  · intro label s hs
    have hmem : filling base label s ∈ edits base overlay :=
      List.mem_append_right _ (List.mem_map.mpr ⟨(label, s), hs, rfl⟩)
    obtain ⟨old, new, -, hnew, symbols, hsymbols, hphandle⟩ := hcell _ hmem
    obtain ⟨value, path, n, hvalue, hpath, hn, hcarried⟩ := labelPhandle_eq_ok hphandle
    exact ⟨symbols, value, path, n, new, hsymbols, hvalue, hpath, hn, hcarried, hnew⟩
  · intro pos n n' hn hn' j p p' hp hp' i hno
    obtain ⟨m, hm, hsame⟩ := Node.at?_of_outline_eq houtline hn
    rw [hn'] at hm
    cases hm
    exact byte_of_uncovered hprepared hunique hn hn' hsame hp hp' hno
  · intro s hs pos n hn hrefers
    obtain ⟨old, new, hold, hnew, hraised⟩ := hlocals s hs
    obtain ⟨n', hn', -⟩ := Node.at?_of_outline_eq houtline hn
    have hsum : new = old + base.maxPhandle := by
      apply UInt32.toNat_inj.mp
      have := new.toNat_lt
      rw [UInt32.toNat_add, ← hraised, Nat.mod_eq_of_lt this]
    rw [hn', Option.bind_some, phandle?_prepared hprepared hnames hn hn', hrefers, hold, hnew, hsum]
    rfl

def board : DeviceTree where
  bootCpu := 0
  reservations := []
  root := ⟨"", [], [⟨"soc", [], [⟨"i2c@100", [⟨"phandle", be32 3⟩], []⟩]⟩,
    ⟨"__symbols__", [⟨"i2c0", nulTerminated "/soc/i2c@100"⟩], []⟩]⟩

def panel : DeviceTree where
  bootCpu := 0
  reservations := []
  root := ⟨"", [], [
    ⟨"fragment@0", [⟨"target", be32 0xffffffff⟩], [⟨"__overlay__", [], [
      ⟨"touch@20", [⟨"phandle", be32 1⟩, ⟨"pads", be32 7 ++ be32 1⟩], []⟩]⟩]⟩,
    ⟨"__fixups__", [⟨"i2c0", nulTerminated "/fragment@0:target:0"⟩], []⟩,
    ⟨"__local_fixups__", [], [⟨"fragment@0", [], [⟨"__overlay__", [], [
      ⟨"touch@20", [⟨"pads", be32 4⟩], []⟩]⟩]⟩]⟩]⟩

theorem references_panel : references panel =
    [⟨[0, 0, 0], "pads", 4⟩, ⟨[0], "target", 0⟩] := by decide +kernel

theorem exists_apply_panel : ∃ merged, (apply board panel).outcome = .ok merged := by
  have hok : (apply board panel).outcome.isOk = true := by decide +kernel
  cases h : (apply board panel).outcome with
  | ok merged => exact ⟨merged, rfl⟩
  | error e =>
    rw [h] at hok
    cases hok

theorem apply_rebases_panel :
    ∃ prepared, prepare board panel = .ok prepared ∧ Rebased board panel prepared := by
  obtain ⟨merged, hmerged⟩ := exists_apply_panel
  apply apply_rebases hmerged
  · decide +kernel
  · rw [references_panel]
    simp [Site.Apart]
  · rw [references_panel]
    decide

end BootAssembly.Overlay
