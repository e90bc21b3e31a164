import BootAssembly.Proofs.Patch.Edits
import Mathlib.Data.List.Dedup

namespace BootAssembly.Patch

open DeviceTree TreeEdit

def Disable.property : Disable → String
  | status => "status"
  | deviceType => "device_type"

def Disable.value : Disable → Bytes
  | status => nulTerminated "disabled"
  | deviceType => nulTerminated "nak"

theorem Disable.apply_eq (how : Disable) (n : Node) :
    how.apply n = n.setValue how.property how.value := by
  cases how <;> rfl

theorem Disable.property_inj {how other : Disable} (h : how.property = other.property) :
    how = other := by
  cases how <;> cases other <;> first | rfl | exact absurd h (by decide)

def Disable.Hides (how : Disable) (t : DeviceTree) (pos : Position) : Prop :=
  (t.root.at? pos).bind (·.value? how.property) = some how.value

structure Mark where
  position : Position
  how : Disable

namespace Mark

variable {t : DeviceTree} {m : Mark} {how : Disable} {pos : Position}

def apply (m : Mark) (t : DeviceTree) : DeviceTree :=
  { t with root := t.root.modifyPosition m.how.apply m.position }

def Touches (m : Mark) (pos : Position) (name : String) : Prop :=
  pos = m.position ∧ name = m.how.property

theorem sameBut_apply (m : Mark) (t : DeviceTree) : t.SameBut m.Touches (m.apply t) := by
  refine ⟨rfl, rfl, ?_⟩
  cases hn : t.root.at? m.position with
  | none =>
    rw [apply, Node.modifyPosition_of_at?_eq_none hn]
    exact .refl _ _
  | some n =>
    apply Node.sameBut_modifyPosition hn
    rw [Disable.apply_eq]
    apply Node.sameBut_properties
    apply (Properties.sameBut_set _ _ _).mono
    rintro name rfl
    exact ⟨List.append_nil _, rfl⟩

theorem hides_apply (h : (t.root.at? m.position).isSome) : m.how.Hides (m.apply t) m.position := by
  obtain ⟨n, hn⟩ := Option.isSome_iff_exists.mp h
  have hat := Node.at?_modifyPosition m.how.apply t.root m.position []
  rw [List.append_nil, hn] at hat
  rw [Disable.Hides, apply, hat, Option.bind_some, Node.at?_nil, Option.bind_some, Disable.apply_eq,
    Node.value?, Node.setValue, Properties.get?_set, if_pos rfl]

theorem hides_apply_of_hides (m : Mark) (h : how.Hides t pos) : how.Hides (m.apply t) pos := by
  by_cases hsame : m.Touches pos how.property
  · obtain ⟨rfl, hproperty⟩ := hsame
    obtain ⟨n, hn, -⟩ := Option.bind_eq_some_iff.mp h
    cases Disable.property_inj hproperty
    exact hides_apply (by rw [hn, Option.isSome_some])
  · exact ((sameBut_apply m t).root.value?_eq hsame).trans h

def applyAll (ms : List Mark) (t : DeviceTree) : DeviceTree := ms.foldl (fun t m => m.apply t) t

theorem sameBut_applyAll (ms : List Mark) (t : DeviceTree) :
    t.SameBut (fun pos name => ∃ m ∈ ms, m.Touches pos name) (applyAll ms t) := by
  induction ms generalizing t with
  | nil => exact .refl _ t
  | cons m ms ih =>
    apply ((sameBut_apply m t).mono _).trans ((ih (m.apply t)).mono _)
    · exact fun pos name htouches => ⟨m, List.mem_cons_self, htouches⟩
    · rintro pos name ⟨m', hm', htouches⟩
      exact ⟨m', List.mem_cons_of_mem m hm', htouches⟩

theorem hides_applyAll_of_hides (ms : List Mark) (h : how.Hides t pos) :
    how.Hides (applyAll ms t) pos := by
  induction ms generalizing t with
  | nil => exact h
  | cons m ms ih => exact ih (hides_apply_of_hides m h)

theorem hides_applyAll {ms : List Mark} (h : ∀ m ∈ ms, (t.root.at? m.position).isSome)
    (hm : m ∈ ms) : m.how.Hides (applyAll ms t) m.position := by
  induction ms generalizing t with
  | nil => cases hm
  | cons first ms ih =>
    rw [List.forall_mem_cons] at h
    rcases List.mem_cons.mp hm with rfl | hm
    · exact hides_applyAll_of_hides ms (hides_apply h.1)
    · refine ih (fun m hm => ?_) hm
      obtain ⟨n, hn⟩ := Option.isSome_iff_exists.mp (h.2 m hm)
      obtain ⟨n', hn', -⟩ := Node.at?_of_mapProperties_eq (sameBut_apply first t).root.shape hn
      exact Option.isSome_iff_exists.mpr ⟨n', hn'⟩

theorem applyAll_append (ms more : List Mark) (t : DeviceTree) :
    applyAll (ms ++ more) t = applyAll more (applyAll ms t) := List.foldl_append

end Mark

def FusedBlock.places (block : FusedBlock) (t : DeviceTree) : List Position :=
  block.nodes.filterMap fun name => t.root.locate? (segments block.parent ++ [name])

def FusedBlock.AnswersAt (block : FusedBlock) (t : DeviceTree) (name : String) (parent : Position)
    (i : Nat) : Prop :=
  name ∈ block.nodes ∧ t.root.locate? (segments block.parent) = some parent ∧
    ∃ c, t.root.at? (parent ++ [i]) = some c ∧ c.answersTo name

def FusedBlock.Matches (block : FusedBlock) (t : DeviceTree) (pos : Position) : Prop :=
  ∃ name parent i, pos = parent ++ [i] ∧ block.AnswersAt t name parent i

/-- The first of its siblings to answer to one of the block's names. -/
def FusedBlock.Leads (block : FusedBlock) (t : DeviceTree) (pos : Position) : Prop :=
  ∃ name parent i, pos = parent ++ [i] ∧ block.AnswersAt t name parent i ∧
    ∀ j < i, ¬ block.AnswersAt t name parent j

def FusedBlock.marks (block : FusedBlock) (t : DeviceTree) : List Mark :=
  (block.places t).map (⟨·, block.how⟩)

def blown (mask : UInt32) (blocks : List FusedBlock) : List FusedBlock :=
  blocks.filter fun b => mask &&& b.mask ≠ 0

def marksOf (mask : UInt32) (blocks : List FusedBlock) (t : DeviceTree) : List Mark :=
  (blown mask blocks).flatMap (·.marks t)

theorem mem_blown {mask : UInt32} {blocks : List FusedBlock} {block : FusedBlock} :
    block ∈ blown mask blocks ↔ block ∈ blocks ∧ mask &&& block.mask ≠ 0 := by
  rw [blown, List.mem_filter, decide_eq_true_eq]

variable {t t₁ : DeviceTree}

def markOf? (block : FusedBlock) (t : DeviceTree) (name : String) : Option Mark :=
  (t.root.locate? (segments block.parent ++ [name])).map (⟨·, block.how⟩)

theorem hideChild_eq (block : FusedBlock) (name : String)
    (hshape : t₁.root.shape = t.root.shape) :
    (hideChild block name).run t₁ =
      .ok ((markOf? block t name).toList.length, Mark.applyAll (markOf? block t name).toList t₁) := by
  have hchild : (t₁.node? block.parent).bind (·.child? name) =
      (t₁.root.locate? (segments block.parent ++ [name])).bind (t₁.root.at? ·) := by
    rw [← Node.descend?_eq_at?, Node.descend?_concat, DeviceTree.node?]
  rw [markOf?, ← Node.locate?_of_shape_eq hshape, hideChild]
  refine run_bind_eq_ok.mpr ⟨_, t₁, run_node?_eq_ok.mpr ⟨rfl, rfl⟩, ?_⟩
  rw [hchild]
  cases hpos : t₁.root.locate? (segments block.parent ++ [name]) with
  | none =>
    refine run_bind_eq_ok.mpr ⟨(), t₁, run_ofReport_eq_ok.mpr ⟨rfl, rfl⟩, ?_⟩
    exact run_pure_eq_ok.mpr ⟨rfl, rfl⟩
  | some pos =>
    obtain ⟨c, hc⟩ := Node.isSome_at?_of_locate? hpos
    rw [Option.bind_some, hc]
    refine run_bind_eq_ok.mpr ⟨(), _, run_modifyNode_eq_ok.mpr rfl, run_pure_eq_ok.mpr ⟨rfl, ?_⟩⟩
    have hmodified := Node.modifyAt_eq_modifyPosition (f := block.how.apply) hpos
    rw [Node.modifyAt_append] at hmodified
    exact congrArg (fun root => { t₁ with root }) hmodified

theorem run_mapM_eq {α : Type} {f : α → TreeEdit Nat} {marks : α → List Mark}
    (hf : ∀ a t₁, t₁.root.shape = t.root.shape →
      (f a).run t₁ = .ok ((marks a).length, Mark.applyAll (marks a) t₁))
    (as : List α) (hshape : t₁.root.shape = t.root.shape) :
    (as.mapM f).run t₁ =
      .ok (as.map fun a => (marks a).length, Mark.applyAll (as.flatMap marks) t₁) := by
  -- marks leave the names alone, so that later steps find the places they would have found before
  induction as generalizing t₁ with
  | nil => rfl
  | cons a as ih =>
    have hmarked := (Mark.sameBut_applyAll (marks a) t₁).root.shape
    rw [List.mapM_cons, List.map_cons, List.flatMap_cons, Mark.applyAll_append]
    refine run_bind_eq_ok.mpr ⟨_, _, hf a t₁ hshape, ?_⟩
    exact run_bind_eq_ok.mpr ⟨_, _, ih (hmarked.trans hshape), run_pure_eq_ok.mpr ⟨rfl, rfl⟩⟩

theorem hideBlock_eq (block : FusedBlock) (hshape : t₁.root.shape = t.root.shape) :
    (hideBlock block).run t₁ =
      .ok ((block.marks t).length, Mark.applyAll (block.marks t) t₁) := by
  have hmarks : block.marks t = block.nodes.flatMap fun name => (markOf? block t name).toList := by
    rw [FusedBlock.marks, FusedBlock.places, List.map_filterMap, List.filterMap_eq_flatMap_toList]
    rfl
  rw [hideBlock]
  refine run_bind_eq_ok.mpr ⟨_, t₁, run_node?_eq_ok.mpr ⟨rfl, rfl⟩, ?_⟩
  cases hparent : t₁.node? block.parent with
  | none =>
    have hnone : block.marks t = [] := by
      rw [FusedBlock.marks, List.map_eq_nil_iff, FusedBlock.places, List.filterMap_eq_nil_iff]
      intro name _
      rw [← Node.locate?_of_shape_eq hshape, Option.eq_none_iff_forall_ne_some]
      intro pos hpos
      obtain ⟨parent, m, i, hlocated, -⟩ := Node.locate?_concat_eq_some.mp hpos
      obtain ⟨n, hn⟩ := exists_node? hlocated
      rw [hparent] at hn
      cases hn
    refine run_bind_eq_ok.mpr ⟨(), t₁, run_ofReport_eq_ok.mpr ⟨rfl, rfl⟩, ?_⟩
    rw [hnone]
    exact run_pure_eq_ok.mpr ⟨rfl, rfl⟩
  | some n =>
    rw [hmarks, List.length_flatMap]
    refine run_bind_eq_ok.mpr ⟨_, _, run_mapM_eq (fun name _ => hideChild_eq block name) _ hshape, ?_⟩
    exact run_pure_eq_ok.mpr ⟨List.sum_eq_foldl.symm, rfl⟩

theorem hideFused_eq (mask : UInt32) (blocks : List FusedBlock) (t : DeviceTree) :
    (hideFused mask blocks).run t =
      .ok ((marksOf mask blocks t).length, Mark.applyAll (marksOf mask blocks t) t) := by
  rw [hideFused, marksOf, List.length_flatMap]
  refine run_bind_eq_ok.mpr ⟨_, _, run_mapM_eq (fun block _ => hideBlock_eq block) _ rfl, ?_⟩
  refine run_bind_eq_ok.mpr ⟨(), _, run_ofReport_eq_ok.mpr ⟨rfl, rfl⟩, ?_⟩
  exact run_pure_eq_ok.mpr ⟨List.sum_eq_foldl.symm, rfl⟩

theorem mem_marksOf {mask : UInt32} {blocks : List FusedBlock} {m : Mark} :
    m ∈ marksOf mask blocks t ↔
      ∃ block ∈ blown mask blocks, m.position ∈ block.places t ∧ m.how = block.how := by
  simp only [marksOf, FusedBlock.marks, List.mem_flatMap, List.mem_map]
  constructor
  · rintro ⟨block, hblock, pos, hpos, rfl⟩
    exact ⟨block, hblock, hpos, rfl⟩
  · rintro ⟨block, hblock, hpos, hhow⟩
    exact ⟨block, hblock, m.position, hpos, by rw [← hhow]⟩

theorem length_marksOf (mask : UInt32) (blocks : List FusedBlock) (t : DeviceTree) :
    (marksOf mask blocks t).length = ((blown mask blocks).flatMap (·.places t)).length := by
  simp only [marksOf, FusedBlock.marks, List.length_flatMap, List.length_map]

theorem sameBut_marksOf (mask : UInt32) (blocks : List FusedBlock) (t : DeviceTree) :
    t.SameBut (fun pos name => ∃ block ∈ blown mask blocks, pos ∈ block.places t ∧
      name = block.how.property) (Mark.applyAll (marksOf mask blocks t) t) := by
  apply (Mark.sameBut_applyAll (marksOf mask blocks t) t).mono
  rintro pos name ⟨m, hm, rfl, rfl⟩
  obtain ⟨block, hblock, hplace, hhow⟩ := mem_marksOf.mp hm
  exact ⟨block, hblock, hplace, by rw [hhow]⟩

theorem hides_marksOf {mask : UInt32} {blocks : List FusedBlock} {block : FusedBlock}
    {pos : Position} (hblock : block ∈ blown mask blocks) (hpos : pos ∈ block.places t) :
    block.how.Hides (Mark.applyAll (marksOf mask blocks t) t) pos := by
  have hplaces : ∀ m ∈ marksOf mask blocks t, (t.root.at? m.position).isSome := by
    intro m hm
    obtain ⟨_, -, hplace, -⟩ := mem_marksOf.mp hm
    obtain ⟨_, -, hlocated⟩ := List.mem_filterMap.mp hplace
    exact Option.isSome_iff_exists.mpr (Node.isSome_at?_of_locate? hlocated)
  have hmark : (⟨pos, block.how⟩ : Mark) ∈ marksOf mask blocks t :=
    mem_marksOf.mpr ⟨block, hblock, hpos, rfl⟩
  exact Mark.hides_applyAll hplaces hmark

theorem findIdx?_children_iff {m : Node} {name : String} {parent : Position} {i : Nat}
    (hm : t.root.at? parent = some m) :
    m.children.findIdx? (·.answersTo name) = some i ↔
      (∃ c, t.root.at? (parent ++ [i]) = some c ∧ c.answersTo name) ∧
        ∀ j < i, ¬ ∃ c, t.root.at? (parent ++ [j]) = some c ∧ c.answersTo name := by
  have hat (j : Nat) : t.root.at? (parent ++ [j]) = m.children[j]? := by
    rw [Node.at?_append, hm, Option.bind_some, Node.at?_singleton]
  simp only [hat]
  rw [List.findIdx?_eq_some_iff_getElem]
  constructor
  · rintro ⟨hi, hanswers, hearlier⟩
    refine ⟨⟨_, List.getElem?_eq_getElem hi, hanswers⟩, ?_⟩
    rintro j hj ⟨c, hc, hanswers⟩
    obtain ⟨_, rfl⟩ := List.getElem?_eq_some_iff.mp hc
    exact hearlier j hj hanswers
  · rintro ⟨⟨c, hc, hanswers⟩, hearlier⟩
    obtain ⟨hi, rfl⟩ := List.getElem?_eq_some_iff.mp hc
    exact ⟨hi, hanswers, fun j hj h => hearlier j hj ⟨_, List.getElem?_eq_getElem _, h⟩⟩

theorem FusedBlock.mem_places_iff {block : FusedBlock} {pos : Position} :
    pos ∈ block.places t ↔ block.Leads t pos := by
  rw [places, List.mem_filterMap]
  constructor
  · rintro ⟨name, hname, hpos⟩
    obtain ⟨parent, m, i, hparent, hm, hi, rfl⟩ := Node.locate?_concat_eq_some.mp hpos
    obtain ⟨hanswers, hearlier⟩ := (findIdx?_children_iff hm).mp hi
    exact ⟨name, parent, i, rfl, ⟨hname, hparent, hanswers⟩, fun j hj h => hearlier j hj h.2.2⟩
  · rintro ⟨name, parent, i, rfl, ⟨hname, hparent, hanswers⟩, hearlier⟩
    obtain ⟨m, hm⟩ := Node.isSome_at?_of_locate? hparent
    refine ⟨name, hname, Node.locate?_concat_eq_some.mpr ⟨parent, m, i, hparent, hm, ?_, rfl⟩⟩
    exact (findIdx?_children_iff hm).mpr ⟨hanswers, fun j hj h => hearlier j hj ⟨hname, hparent, h⟩⟩

theorem length_flatMap_dedup {α β : Type} [DecidableEq β] (f : α → List β) (as : List α) :
    (as.flatMap fun a => (f a).dedup).length ≤ (as.flatMap f).length ∧
      ((as.flatMap f).length = (as.flatMap fun a => (f a).dedup).length ↔
        ∀ a ∈ as, (f a).Nodup) := by
  induction as with
  | nil => simp
  | cons a as ih =>
    have hle := (List.dedup_sublist (f a)).length_le
    have hnodup : (f a).dedup.length = (f a).length ↔ (f a).Nodup := by
      rw [← List.dedup_eq_self]
      exact ⟨(List.dedup_sublist (f a)).eq_of_length, congrArg List.length⟩
    rw [List.forall_mem_cons, ← ih.2, ← hnodup]
    simp only [List.flatMap_cons, List.length_append]
    omega

/-- Of the children that a block is about, the first to answer to each of its names is hidden, and
nothing else is changed. So all of them are hidden exactly when each one was hidden before or comes
first for some name. What is counted are the names that lead to a child, which are as many as the
children exactly when no two names of a block lead to the same one. -/
theorem hideFused_hides_first (mask : UInt32) (blocks : List FusedBlock) (t : DeviceTree) :
    ∃ k t', (hideFused mask blocks).run t = .ok (k, t') ∧
      t.SameBut (fun pos name => ∃ block ∈ blown mask blocks, block.Leads t pos ∧
        name = block.how.property) t' ∧
      (∀ block ∈ blown mask blocks, ∀ pos, block.Leads t pos → block.how.Hides t' pos) ∧
      k = ((blown mask blocks).flatMap (·.places t)).length ∧
      ((∀ block ∈ blown mask blocks, ∀ pos, block.Matches t pos → block.how.Hides t' pos) ↔
        ∀ block ∈ blown mask blocks, ∀ pos, block.Matches t pos →
          block.how.Hides t pos ∨
            ∃ other ∈ blown mask blocks, other.how = block.how ∧ other.Leads t pos) ∧
      (k = ((blown mask blocks).flatMap fun block => (block.places t).dedup).length ↔
        ∀ block ∈ blown mask blocks, (block.places t).Nodup) := by
  have hsame := sameBut_marksOf mask blocks t
  simp only [FusedBlock.mem_places_iff] at hsame
  have hhides : ∀ block ∈ blown mask blocks, ∀ pos, block.Leads t pos →
      block.how.Hides (Mark.applyAll (marksOf mask blocks t) t) pos := by
    intro block hblock pos hleads
    exact hides_marksOf hblock (FusedBlock.mem_places_iff.mpr hleads)
  refine ⟨_, _, hideFused_eq mask blocks t, hsame, hhides, length_marksOf mask blocks t, ?_, ?_⟩
  · constructor
    · intro h block hblock pos hmatches
      by_cases htouched : ∃ other ∈ blown mask blocks, other.Leads t pos ∧
          block.how.property = other.how.property
      · obtain ⟨other, hother, hleads, hproperty⟩ := htouched
        exact .inr ⟨other, hother, (Disable.property_inj hproperty).symm, hleads⟩
      · exact .inl ((hsame.root.value?_eq htouched).symm.trans (h block hblock pos hmatches))
    · intro h block hblock pos hmatches
      rcases h block hblock pos hmatches with hhidden | ⟨other, hother, hhow, hleads⟩
      · exact Mark.hides_applyAll_of_hides _ hhidden
      · exact hhow ▸ hhides other hother pos hleads
  · rw [length_marksOf]
    exact (length_flatMap_dedup (·.places t) (blown mask blocks)).2

def twinUnits : DeviceTree where
  bootCpu := 0
  reservations := []
  root := ⟨"", [], [⟨"soc", [], [⟨"qcom,gmu@1", [], []⟩, ⟨"qcom,gmu@2", [], []⟩]⟩]⟩

theorem second_twin_not_hidden : ∃ t', (hideFused 2 fusedBlocks).run twinUnits = .ok (1, t') ∧
    ∃ block ∈ blown 2 fusedBlocks, block.Matches twinUnits [0, 1] ∧
      ¬ block.how.Hides t' [0, 1] := by
  refine ⟨_, hideFused_eq 2 fusedBlocks twinUnits, fusedBlocks[1], by decide, ?_, ?_⟩
  · exact ⟨"qcom,gmu", [0], 1, rfl, by decide, by decide +kernel, _, rfl, by decide⟩
  · unfold Disable.Hides
    decide +kernel

end BootAssembly.Patch
