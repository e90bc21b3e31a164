import BootAssembly.Proofs.Overlay.Rebasing
import Mathlib.Data.List.Pairwise

namespace BootAssembly.Overlay

open DeviceTree

structure Tidy (s : Node) : Prop where
  unique : (s.properties.map Property.name).Nodup
  word : ∀ name ∈ handleNames, ∀ value, s.value? name = some value → value.length = 4

/-- What becomes of a base node at a position and of the references to its handle. -/
structure HandleKept (base prepared merged : DeviceTree) (pos : Position) (n : Node)
    (phandle : UInt32) : Prop where
  place : ∃ n', merged.root.at? pos = some n' ∧ n'.name = n.name ∧
    (n'.phandle? = some phandle ∨ ∃ other, n'.phandle? = some other ∧ base.maxPhandle < other)
  kept : (∀ s ∈ mergedInto base prepared pos, s.phandle? = none) →
    ∃ n', carrier? phandle merged.root = some (pos, n')
  sole : ∀ pos' n', merged.root.at? pos' = some n' → n'.phandle? = some phandle → pos' = pos
  references : ∀ s : Site, s.cell? base.root = some phandle →
    (∀ d ∈ mergedInto base prepared s.node, d.value? s.property = none) →
      s.cell? merged.root = some phandle

theorem le_foldl_max (l : List UInt32) (a : UInt32) :
    a ≤ l.foldl max a ∧ ∀ x ∈ l, x ≤ l.foldl max a := by
  induction l generalizing a with
  | nil => exact ⟨UInt32.le_refl a, nofun⟩
  | cons b l ih =>
    have hmax : a ≤ max a b ∧ b ≤ max a b := by
      have hdef : max a b = if a ≤ b then b else a := rfl
      rw [hdef]
      split
      · exact ⟨‹_›, UInt32.le_refl b⟩
      · exact ⟨UInt32.le_refl a, UInt32.le_of_lt (UInt32.not_le.mp ‹_›)⟩
    obtain ⟨hstart, hrest⟩ := ih (max a b)
    refine ⟨UInt32.le_trans hmax.1 hstart, List.forall_mem_cons.mpr ⟨?_, hrest⟩⟩
    exact UInt32.le_trans hmax.2 hstart

theorem le_maxPhandle {root n : Node} (hn : n ∈ root.toList) {phandle : UInt32}
    (h : n.phandle? = some phandle) (hvalid : phandle ≠ 0xffffffff) :
    phandle ≤ root.maxPhandle := by
  apply (le_foldl_max _ 0).2
  rw [List.mem_filter, List.mem_filterMap]
  exact ⟨⟨n, hn, h⟩, by simpa using hvalid⟩

theorem cell?_eq_some {ps : Properties} {name : String} {word : UInt32} :
    ps.cell? name = some word ↔
      ∃ value, ps.get? name = some value ∧ value.length = 4 ∧ ofBe32 value = word := by
  unfold Properties.cell?
  cases ps.get? name with
  | none => simp
  | some value => simp

theorem exists_value_of_phandle? {n : Node} {phandle : UInt32} (h : n.phandle? = some phandle) :
    ∃ name ∈ handleNames, ∃ value, n.value? name = some value ∧ ofBe32 value = phandle := by
  rw [Node.phandle?, Option.or_eq_some_iff] at h
  rcases h with h | ⟨-, h⟩
  · obtain ⟨value, hvalue, -, hword⟩ := cell?_eq_some.mp h
    exact ⟨"phandle", by simp [handleNames], value, hvalue, hword⟩
  · obtain ⟨value, hvalue, -, hword⟩ := cell?_eq_some.mp h
    exact ⟨"linux,phandle", by simp [handleNames], value, hvalue, hword⟩

theorem cell?_lay {s : Node} (h : Tidy s) (ps : Properties) {name : String}
    (hname : name ∈ handleNames) :
    (lay ps s).cell? name = (s.properties.cell? name).or (ps.cell? name) := by
  have hget := @get?_lay ps s h.unique name
  rw [Node.value?] at hget
  rw [Properties.cell?, Properties.cell?, hget]
  cases hvalue : s.properties.get? name with
  | none => rfl
  | some value => simp [h.word name hname value hvalue]

theorem phandle?_of_overlaid {sources : List Node} {n n' : Node} (h : Overlaid sources n n')
    (htidy : ∀ s ∈ sources, Tidy s) :
    n'.phandle? = n.phandle? ∨
      ∃ s ∈ sources, ∃ phandle, s.phandle? = some phandle ∧ n'.phandle? = some phandle := by
  induction sources generalizing n with
  | nil =>
    left
    rw [Node.phandle?, Node.phandle?, h.properties]
    rfl
  | cons s sources ih =>
    rw [List.forall_mem_cons] at htidy
    have hstep : Overlaid sources { n with properties := lay n.properties s } n' :=
      ⟨h.name, h.properties⟩
    have hcell : ∀ name ∈ handleNames, (lay n.properties s).cell? name =
        (s.properties.cell? name).or (n.properties.cell? name) :=
      fun name hname => cell?_lay htidy.1 n.properties hname
    have hphandle : Node.phandle? { n with properties := lay n.properties s } = n.phandle? ∨
        ∃ phandle, s.phandle? = some phandle ∧
          Node.phandle? { n with properties := lay n.properties s } = some phandle := by
      rw [Node.phandle?, Node.phandle?, Node.phandle?, hcell _ (by simp [handleNames]),
        hcell _ (by simp [handleNames])]
      cases s.properties.cell? "phandle" with
      | some phandle => simp
      | none => cases n.properties.cell? "phandle" <;> cases s.properties.cell? "linux,phandle" <;> simp
    rcases ih hstep htidy.2 with hsame | ⟨d, hd, phandle, hcarried, hnew⟩
    · rw [hsame]
      rcases hphandle with hkept | ⟨phandle, hcarried, hnew⟩
      · exact .inl hkept
      · exact .inr ⟨s, List.mem_cons_self, phandle, hcarried, hnew⟩
    · exact .inr ⟨d, List.mem_cons_of_mem s hd, phandle, hcarried, hnew⟩

theorem phandle?_of_draws {pool : List Node} {t t' n' : Node} (h : Draws pool t t')
    (htidy : ∀ s ∈ pool, Tidy s) {pos : Position} (hn' : t'.at? pos = some n') :
    n'.phandle? = (t.at? pos).bind Node.phandle? ∨
      ∃ s ∈ pool, ∃ phandle, s.phandle? = some phandle ∧ n'.phandle? = some phandle := by
  obtain ⟨n, sources, hsources, hlaid, hn⟩ := h.origin pos n' hn'
  rcases phandle?_of_overlaid hlaid fun s hs => htidy s (hsources s hs) with
    hsame | ⟨s, hs, phandle, hcarried, hnew⟩
  · left
    rw [hsame]
    rcases hn with hn | ⟨hn, s, -, rfl⟩
    · rw [hn, Option.bind_some]
    · rw [hn]
      rfl
  · exact .inr ⟨s, hsources s hs, phandle, hcarried, hnew⟩

theorem value?_of_overlaid {sources : List Node} {n n' : Node} (h : Overlaid sources n n')
    (htidy : ∀ s ∈ sources, Tidy s) {name : String} (hnone : ∀ s ∈ sources, s.value? name = none) :
    n'.value? name = n.value? name := by
  rw [Node.value?, Node.value?, h.properties]
  generalize n.properties = ps
  clear h
  induction sources generalizing ps with
  | nil => rfl
  | cons s sources ih =>
    rw [List.forall_mem_cons] at htidy hnone
    rw [List.foldl_cons, ih htidy.2 hnone.2, get?_lay htidy.1.unique, hnone.1, Option.none_or]

theorem map_name_rebased_sublist (placed : List Placed) (labels : Properties) :
    ((rebased placed labels).map Property.name).Sublist (labels.map Property.name) := by
  induction labels with
  | nil => simp [rebased]
  | cons label labels ih =>
    rw [rebased, List.filterMap_cons, List.map_cons]
    split
    · exact ih.cons _
    · rename_i p hp
      split at hp
      · obtain ⟨moved, -, rfl⟩ := Option.map_eq_some_iff.mp hp
        exact ih.cons_cons _
      · cases hp

theorem length_of_rebase? {placed : List Placed}
    (hplaced : ∀ p ∈ placed, ∃ name, p.body = "/" ++ name ++ "/" ++ bodyName) {value : Bytes}
    {path moved : String} (hpath : textOf value = .ok path)
    (hmoved : rebase? placed path = some moved) : 4 < value.length := by
  obtain ⟨p, hp, hrest⟩ := List.exists_of_findSome?_eq_some hmoved
  obtain ⟨name, hname⟩ := hplaced p hp
  have htext : utf8 path = untilNul value := by
    unfold textOf at hpath
    split at hpath
    · cases hpath
      exact utf8_of_ofUtf8? ‹_›
    · cases hpath
  split at hrest
  · cases hrest
  · rename_i rest hprefix
    have hsplit : path = p.body ++ String.ofList rest := by
      rw [← String.toList_inj, String.toList_append, String.toList_ofList]
      exact (List.isPrefixOf?_eq_some_iff_append_eq.mp hprefix).symm
    have hbody : (utf8 bodyName).length = 11 := by decide
    have hslash : (utf8 "/").length = 1 := by decide
    have hlength := congrArg List.length htext
    have huntil : (untilNul value).length ≤ value.length := (List.takeWhile_prefix _).length_le
    rw [hsplit, hname, utf8_append, utf8_append, utf8_append, utf8_append] at hlength
    simp only [List.length_append] at hlength
    omega

theorem tidy_labels {placed : List Placed}
    (hplaced : ∀ p ∈ placed, ∃ name, p.body = "/" ++ name ++ "/" ++ bodyName) {labels : Node}
    (h : Tidy labels) : Tidy ⟨symbolsName, rebased placed labels.properties, []⟩ ∧
      Node.phandle? ⟨symbolsName, rebased placed labels.properties, []⟩ = none := by
  have hnone : ∀ name ∈ handleNames, Properties.get? (rebased placed labels.properties) name = none := by
    intro name hname
    rw [Properties.get?, Option.map_eq_none_iff, List.find?_eq_none]
    intro p hp hsame
    obtain ⟨label, hlabel, hlabelName, path, moved, hpath, hmoved⟩ := mem_rebased hp
    have hlong := length_of_rebase? hplaced hpath hmoved
    have hvalue := Properties.get?_of_mem h.unique hlabel
    have hword := h.word label.name (by simpa [hlabelName] using (of_decide_eq_true hsame) ▸ hname) _ hvalue
    omega
  refine ⟨⟨(map_name_rebased_sublist _ _).nodup h.unique, ?_⟩, ?_⟩
  · intro name hname value hvalue
    rw [Node.value?, hnone name hname] at hvalue
    cases hvalue
  · rw [Node.phandle?, Properties.cell?, Properties.cell?, hnone _ (by simp [handleNames]),
      hnone _ (by simp [handleNames])]
    rfl

section

variable {base overlay prepared : DeviceTree} (h : prepare base overlay = .ok prepared)
  (hunique : ∀ n ∈ overlay.root.toList, (n.properties.map Property.name).Nodup)
  (hnames : ∀ s ∈ references overlay, s.property ∉ handleNames)
  (hnonzero : ∀ n ∈ overlay.root.toList, n.phandle? ≠ some 0)

include h

include hunique in
theorem tidy_prepared {s : Node} (hs : s ∈ prepared.root.toList) : Tidy s := by
  obtain ⟨pos, n, -, -, hmem, houtline⟩ := exists_of_mem_prepared h hs
  have hproperties := (Node.outline_eq_iff.mp houtline).2.1
  constructor
  · rw [← Properties.map_name_outline, hproperties, Properties.map_name_outline]
    exact hunique n hmem
  · intro name hname value hvalue
    have hget := congrArg (Properties.get? · name) hproperties.symm
    simp only [Properties.get?_outline] at hget
    rw [← Node.value?, ← Node.value?, hvalue] at hget
    obtain ⟨old, hold, hlength⟩ := Option.map_eq_some_iff.mp hget
    have hfour := ((prepare_rewrites h).1 n hmem name hname old hold).1
    have := congrArg List.length hlength
    simp only [List.length_replicate] at this
    omega

include hnames hnonzero in
theorem phandle?_prepared_above {s : Node} (hs : s ∈ prepared.root.toList) {phandle : UInt32}
    (hphandle : s.phandle? = some phandle) : base.maxPhandle < phandle := by
  obtain ⟨pos, n, hpos, hn, hmem, -⟩ := exists_of_mem_prepared h hs
  rw [phandle?_prepared h hnames hn hpos] at hphandle
  obtain ⟨own, hown, rfl⟩ := Option.map_eq_some_iff.mp hphandle
  obtain ⟨name, hname, value, hvalue, rfl⟩ := exists_value_of_phandle? hown
  have hsum := ((prepare_rewrites h).1 n hmem name hname value hvalue).2
  have hpositive : (ofBe32 value).toNat ≠ 0 := by
    intro hzero
    have : ofBe32 value = 0 := UInt32.toNat_inj.mp hzero
    exact hnonzero n hmem (by rw [hown, this])
  rw [UInt32.lt_iff_toNat_lt, UInt32.toNat_add, Nat.mod_eq_of_lt hsum]
  omega

include hunique hnames hnonzero in
theorem tidy_of_mem_bodies {s : Node} (hs : s ∈ (grafts base prepared).flatMap (·.body.toList)) :
    Tidy s ∧ ∀ phandle, s.phandle? = some phandle → base.maxPhandle < phandle := by
  rcases mem_bodies hs with hmem | ⟨labels, hlabels, placed, hplaced, rfl | rfl⟩
  · exact ⟨tidy_prepared h hunique hmem, fun _ => phandle?_prepared_above h hnames hnonzero hmem⟩
  · exact ⟨⟨by simp [labelGraft], by simp [labelGraft, Node.value?]⟩,
      by simp [labelGraft, Node.phandle?, Properties.cell?]⟩
  · obtain ⟨htidy, hnone⟩ := tidy_labels hplaced (tidy_prepared h hunique hlabels)
    exact ⟨htidy, by simp [hnone]⟩

end

def HandlesDiffer (a b : Position × Node) : Prop :=
  ∀ phandle, a.2.phandle? = some phandle → ∀ other, b.2.phandle? = some other → phandle ≠ other

instance : Std.Symm HandlesDiffer where
  symm _ _ h phandle hp other ho := (h other ho phandle hp).symm

theorem eq_of_handle {root n n' : Node} (h : (root.toList.filterMap Node.phandle?).Nodup)
    {pos pos' : Position} (hn : root.at? pos = some n) (hn' : root.at? pos' = some n')
    {phandle : UInt32} (hp : n.phandle? = some phandle) (hp' : n'.phandle? = some phandle) :
    pos = pos' := by
  have hpairwise : root.positioned.Pairwise HandlesDiffer := by
    rwa [← Node.map_snd_positioned, List.filterMap_map, List.Nodup, List.pairwise_filterMap] at h
  apply Decidable.byContradiction
  intro hne
  have hdiffer : HandlesDiffer (pos, n) (pos', n') :=
    hpairwise.forall ((Node.mem_positioned root pos n).mpr hn)
      ((Node.mem_positioned root pos' n').mpr hn') fun heq => hne (congrArg Prod.fst heq)
  exact hdiffer phandle hp phandle hp' rfl

/-- A base node keeps its place, and it keeps its handle unless a node that is merged into it
carries one. No other node takes the handle over. -/
theorem apply_keeps_handles {base overlay merged : DeviceTree}
    (h : (apply base overlay).outcome = .ok merged)
    (hdistinct : (base.root.toList.filterMap Node.phandle?).Nodup)
    (hvalid : ∀ n ∈ base.root.toList, n.phandle? ≠ some 0xffffffff)
    (hunique : ∀ n ∈ overlay.root.toList, (n.properties.map Property.name).Nodup)
    (hnonzero : ∀ n ∈ overlay.root.toList, n.phandle? ≠ some 0)
    (hnames : ∀ s ∈ references overlay, s.property ∉ handleNames) :
    ∃ prepared, prepare base overlay = .ok prepared ∧
      ∀ pos n phandle, base.root.at? pos = some n → n.phandle? = some phandle →
        HandleKept base prepared merged pos n phandle := by
  obtain ⟨prepared, hprepared, hmerged⟩ := apply_eq_ok h
  refine ⟨prepared, hprepared, fun pos n phandle hn hphandle => ?_⟩
  have hpool := fun s hs => tidy_of_mem_bodies hprepared hunique hnames hnonzero (s := s) hs
  have hsource : ∀ pos, ∀ s ∈ mergedInto base prepared pos,
      Tidy s ∧ ∀ phandle, s.phandle? = some phandle → base.maxPhandle < phandle :=
    fun pos s hs => hpool s (mergedInto_subset base prepared pos hs)
  have hdraws : Draws ((grafts base prepared).flatMap (·.body.toList)) base.root merged.root :=
    hmerged ▸ draws_foldl_onto _ base
  have hmem := Node.mem_toList_of_at? hn
  have hle : phandle ≤ base.maxPhandle :=
    le_maxPhandle hmem hphandle fun hones => hvalid n hmem (hones ▸ hphandle)
  obtain ⟨n', hn', hlaid⟩ := at?_apply h hprepared hn
  have hcarried := phandle?_of_overlaid hlaid fun s hs => (hsource pos s hs).1
  have hsole : ∀ pos' x, merged.root.at? pos' = some x → x.phandle? = some phandle →
      pos' = pos := by
    intro pos' x hx hxp
    rcases phandle?_of_draws hdraws (fun s hs => (hpool s hs).1) hx with
      hsame | ⟨s, hs, other, hother, hnew⟩
    · obtain ⟨m, hm, hmp⟩ := Option.bind_eq_some_iff.mp (hsame.symm.trans hxp)
      exact eq_of_handle hdistinct hm hn hmp hphandle
    · -- A handle that comes with the overlay is above all those of the base.
      have habove := (hpool s hs).2 other hother
      rw [hxp, Option.some.injEq] at hnew
      subst hnew
      exact absurd hle (UInt32.not_le.mpr habove)
  refine ⟨⟨n', hn', hlaid.name, ?_⟩, ?_, hsole, ?_⟩
  · rcases hcarried with hsame | ⟨s, hs, other, hother, hnew⟩
    · exact .inl (hsame.trans hphandle)
    · exact .inr ⟨other, hnew, (hsource pos s hs).2 other hother⟩
  · intro hnone
    have hkept : n'.phandle? = some phandle := by
      rcases hcarried with hsame | ⟨s, hs, other, hother, -⟩
      · exact hsame.trans hphandle
      · rw [hnone s hs] at hother
        cases hother
    obtain ⟨pos', m, hcarrier⟩ :=
      exists_carrier? (Node.mem_toList_of_at? hn') hkept
    have hm := List.find?_some hcarrier
    rw [hsole pos' m (at?_of_carrier? hcarrier) (of_decide_eq_true hm)] at hcarrier
    exact ⟨m, hcarrier⟩
  · intro s hword hunwritten
    obtain ⟨value, hvalue, hlength, hat⟩ := Site.cell?_eq_some.mp hword
    obtain ⟨r, hr, hget⟩ := Option.bind_eq_some_iff.mp hvalue
    obtain ⟨r', hr', hlaid'⟩ := at?_apply h hprepared hr
    have hsame := value?_of_overlaid hlaid' (fun d hd => (hsource s.node d hd).1) hunwritten
    refine Site.cell?_eq_some.mpr ⟨value, ?_, hlength, hat⟩
    rw [Site.value?, hr', Option.bind_some, hsame, hget]

theorem apply_keeps_handles_panel :
    ∃ prepared merged, prepare board panel = .ok prepared ∧
      (apply board panel).outcome = .ok merged ∧
      HandleKept board prepared merged [0, 0] ⟨"i2c@100", [⟨"phandle", be32 3⟩], []⟩ 3 := by
  obtain ⟨merged, hmerged⟩ := exists_apply_panel
  obtain ⟨prepared, hprepared, hkept⟩ := apply_keeps_handles hmerged (by decide +kernel)
    (by decide +kernel) (by decide +kernel) (by decide +kernel)
    (by rw [references_panel]; decide)
  exact ⟨prepared, merged, hprepared, hmerged, hkept _ _ _ (by decide) (by decide)⟩

def bus : DeviceTree where
  bootCpu := 0
  reservations := []
  root := ⟨"", [⟨"console", be32 3⟩], [⟨"i2c", [⟨"phandle", be32 3⟩], []⟩]⟩

def renumberBus : DeviceTree where
  bootCpu := 0
  reservations := []
  root := ⟨"", [], [⟨"fragment@0", [⟨"target-path", nulTerminated "/i2c"⟩],
    [⟨"__overlay__", [⟨"phandle", be32 1⟩], []⟩]⟩]⟩

theorem handle_overwritten_by_overlay :
    (bus.root.toList.filterMap Node.phandle?).Nodup ∧
    (∀ n ∈ bus.root.toList, n.phandle? ≠ some 0 ∧ n.phandle? ≠ some 0xffffffff ∧
      (n.properties.map Property.name).Nodup) ∧
    (renumberBus.root.toList.filterMap Node.phandle?).Nodup ∧
    (∀ n ∈ renumberBus.root.toList, n.phandle? ≠ some 0 ∧
      (n.properties.map Property.name).Nodup) ∧
    references renumberBus = [] ∧
    (apply bus renumberBus).outcome = .ok { bus with
      root := ⟨"", [⟨"console", be32 3⟩], [⟨"i2c", [⟨"phandle", be32 4⟩], []⟩]⟩ } := by
  refine ⟨by decide, by decide, by decide, by decide, by decide, by decide +kernel⟩

end BootAssembly.Overlay
