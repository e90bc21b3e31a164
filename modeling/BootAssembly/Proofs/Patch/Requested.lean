import BootAssembly.Proofs.Patch.Controller
import BootAssembly.Proofs.Patch.Outcome

namespace BootAssembly.Patch

open DeviceTree TreeEdit

theorem ThroughFirst.unique {pattern text front front' : Bytes}
    (h : ThroughFirst pattern text front) (h' : ThroughFirst pattern text front') :
    front = front' := by
  have hle := h.shortest front' h'.begins h'.ends
  have hge := h'.shortest front h.begins h.ends
  have hprefix := List.prefix_of_prefix_length_le h.begins h'.begins hle
  exact hprefix.eq_of_length (Nat.le_antisymm hle hge)

theorem exists_splitAfter? {pattern text : Bytes} (h : pattern <:+: text) :
    ∃ front rest, splitAfter? pattern text = some (front, rest) := by
  induction text with
  | nil =>
    obtain rfl := List.infix_nil.mp h
    exact ⟨_, _, rfl⟩
  | cons b text ih =>
    rw [splitAfter?]
    split
    · exact ⟨_, _, rfl⟩
    · rename_i hhere
      rcases List.infix_cons_iff.mp h with hbegins | hbelow
      · exact absurd (List.prefix_iff_eq_take.mp hbegins).symm hhere
      · obtain ⟨front, rest, hsplit⟩ := ih hbelow
        exact ⟨_, _, by rw [hsplit, Option.map_some]⟩

theorem splitAfter?_eq_some_iff {pattern text front rest : Bytes} :
    splitAfter? pattern text = some (front, rest) ↔
      text = front ++ rest ∧ ThroughFirst pattern text front := by
  constructor
  · exact splitAfter?_eq_some
  · rintro ⟨htext, hfirst⟩
    have hinfix : pattern <:+: text := hfirst.ends.isInfix.trans hfirst.begins.isInfix
    obtain ⟨front', rest', hsplit⟩ := exists_splitAfter? hinfix
    obtain ⟨htext', hfirst'⟩ := splitAfter?_eq_some hsplit
    obtain rfl := hfirst.unique hfirst'
    rw [hsplit, List.append_cancel_left (htext.symm.trans htext')]

structure ControllerAt (path front component below : Bytes) : Prop where
  path_eq : path = front ++ (component ++ slash :: below)
  first : ThroughFirst controllerParent path front
  nonempty : component ≠ []
  whole : slash ∉ component.tail

/-- What becomes of a value when the device is put for the controller in its path. -/
inductive Redirected (device value : Bytes) : Bytes → Prop where
  | renamed {front component below : Bytes}
    (names : ControllerAt (untilNul value) front component below)
    (fits : device.length ≤ component.length) :
    Redirected device value (front ++ device ++ slash :: below ++
      List.replicate (component.length - device.length) space ++ value.drop (untilNul value).length)
  | kept (unfit : ∀ front component below,
      ControllerAt (untilNul value) front component below → component.length < device.length) :
    Redirected device value value

theorem renameController_of_controllerAt {device value front component below : Bytes}
    (hnames : ControllerAt (untilNul value) front component below)
    (hfits : device.length ≤ component.length) :
    renameController device value = .ok (front ++ device ++ slash :: below ++
      List.replicate (component.length - device.length) space ++
        value.drop (untilNul value).length) := by
  obtain ⟨hpath, hfirst, hne, hwhole⟩ := hnames
  obtain ⟨b, name, rfl⟩ := List.exists_cons_of_ne_nil hne
  exact renameController_eq_ok.mpr
    ⟨front, b, name, below, splitAfter?_eq_some_iff.mpr ⟨hpath, hfirst⟩, hwhole, hfits, rfl⟩

theorem renameEntry_redirected (device : String) (entry : Node) :
    Option.Rel (Redirected (utf8 device)) (entry.value? "dev")
      ((renameEntry device entry).1.value? "dev") := by
  cases hvalue : entry.value? "dev" with
  | none =>
    simp only [renameEntry, hvalue]
    exact .none
  | some value =>
    cases hresult : renameController (utf8 device) value with
    | ok value' =>
      have hrenamed : (entry.modifyValue "dev" fun _ => value').value? "dev" = some value' := by
        have hget : entry.properties.get? "dev" = some value := hvalue
        simp [Node.modifyValue, Node.value?, hget]
      obtain ⟨front, b, name, below, hsplit, hname, hfits, rfl⟩ := renameController_eq_ok.mp hresult
      obtain ⟨hpath, hfirst⟩ := splitAfter?_eq_some hsplit
      simp only [renameEntry, hvalue, hresult, hrenamed]
      exact .some (.renamed ⟨hpath, hfirst, List.cons_ne_nil b name, hname⟩ hfits)
    | error why =>
      simp only [renameEntry, hvalue, hresult]
      refine .some (.kept fun front component below hnames => ?_)
      rw [← Nat.not_le]
      intro hfits
      rw [renameController_of_controllerAt hnames hfits] at hresult
      cases hresult

variable {t t' : DeviceTree} {r : Request}

def Remounted (device : String) (t t' : DeviceTree) : Prop :=
  ∀ table i, t.root.locate? (segments fstabPath) = some table →
    Option.Rel (Redirected (utf8 device)) ((t.root.at? (table ++ [i])).bind (·.value? "dev"))
      ((t'.root.at? (table ++ [i])).bind (·.value? "dev"))

def Fused (mask : UInt32) (t t' : DeviceTree) : Prop :=
  ∀ block ∈ fusedBlocks, mask &&& block.mask ≠ 0 → ∀ pos, block.Leads t pos → block.how.Hides t' pos

theorem updateFstab_remounted {device : String} (h : (updateFstab device).run t = .ok ((), t')) :
    Remounted device t t' := by
  intro table i hlocated
  obtain ⟨found, _, hfound, h⟩ := run_bind_eq_ok.mp h
  obtain ⟨rfl, rfl⟩ := run_node?_eq_ok.mp hfound
  obtain ⟨n, hn⟩ := exists_node? hlocated
  obtain ⟨_, hpos, hat⟩ := exists_position hn
  rw [hlocated] at hpos
  cases hpos
  rw [hn] at h
  obtain ⟨_, _, hmodify, h⟩ := run_bind_eq_ok.mp h
  obtain rfl := run_modifyNode_eq_ok.mp hmodify
  obtain ⟨_, _, hnotes, h⟩ := run_bind_eq_ok.mp h
  obtain ⟨-, rfl⟩ := run_ofReport_eq_ok.mp hnotes
  obtain ⟨-, rfl⟩ := run_ofReport_eq_ok.mp h
  rw [DeviceTree.modifyNode, Node.modifyAt_eq_modifyPosition hlocated, Node.at?_modifyPosition,
    Node.at?_append, hat, Option.bind_some, Option.bind_some, Node.at?_singleton,
    Node.at?_singleton, List.map_map, List.getElem?_map]
  cases n.children[i]? with
  | none => exact .none
  | some entry => exact renameEntry_redirected device entry

theorem hideBlown_fused (hon : r.capabilities.has .partialGoods = true)
    (h : (hideBlown r).run t = .ok ((), t')) : Fused r.disabledSubsystems t t' := by
  intro block hknown hblown pos hleads
  have hmask : r.disabledSubsystems ≠ 0 := by
    intro hzero
    rw [hzero, UInt32.zero_and] at hblown
    exact hblown rfl
  rw [hideBlown, if_pos ⟨hon, hmask⟩] at h
  have h : (hideFused r.disabledSubsystems fusedBlocks >>= fun _ => pure ()).run t =
      .ok ((), t') := h
  obtain ⟨k, t₁, hhide, h⟩ := run_bind_eq_ok.mp h
  obtain ⟨-, rfl⟩ := run_pure_eq_ok.mp h
  rw [hideFused_eq] at hhide
  cases hhide
  exact hides_marksOf (mem_blown.mpr ⟨hknown, hblown⟩) (FusedBlock.mem_places_iff.mpr hleads)

theorem FusedBlock.Leads.of_shape_eq {block : FusedBlock} {pos : Position}
    (h : block.Leads t pos) (hshape : t'.root.shape = t.root.shape) : block.Leads t' pos := by
  rw [← FusedBlock.mem_places_iff] at h ⊢
  rw [FusedBlock.places] at h ⊢
  simpa only [Node.locate?_of_shape_eq hshape] using h

theorem edit_grants (h : (edit r).run t = .ok ((), t')) :
    (r.capabilities.has .fstabUpdate = true → ∀ device, r.bootDevice = some device →
      Remounted device t t') ∧
    (r.capabilities.has .partialGoods = true → Fused r.disabledSubsystems t t') := by
  obtain ⟨t₁, t₂, t₃, t₄, hmemory, hsplash, hchosen, hfstab, hhide⟩ := edit_stages h
  obtain ⟨-, hsame₁, -⟩ := updateMemory_run hmemory
  have hsame₂ := splash_run hsplash
  obtain ⟨hsame₃, -⟩ := updateChosen_run hchosen
  have hsame₄ := fstab_run hfstab
  have hshape₃ := hsame₃.root.shape.trans (hsame₂.root.shape.trans hsame₁.root.shape)
  constructor
  · intro hon device hdevice table i hlocated
    rw [← Node.locate?_of_shape_eq hshape₃] at hlocated
    have hdepth : (segments fstabPath).length = 3 := by decide
    have hlength : (table ++ [i]).length = 4 := by
      rw [List.length_append, Node.length_of_locate? hlocated, hdepth, List.length_singleton]
    have hremounted : Remounted device t₃ t₄ := by
      rcases optionally_run hfstab with ⟨-, given, hgiven, hupdate⟩ | ⟨hoff, -⟩
      · rw [hdevice] at hgiven
        cases hgiven
        exact updateFstab_remounted hupdate
      · exact absurd ⟨hon, by rw [hdevice, Option.isSome_some]⟩ hoff
    have hentry := hremounted table i hlocated
    -- the entries stand too deep for the other edits, or these write under other names
    rw [hsame₃.root.value?_eq, hsame₂.root.value?_eq, hsame₁.root.value?_eq] at hentry
    · rw [(hideBlown_run hhide).root.value?_eq]
      · exact hentry
      · rintro ⟨hname, -⟩
        exact absurd hname (by decide)
    · rintro ⟨-, hname⟩
      exact absurd hname (by decide)
    · rintro ⟨htwo, -⟩
      omega
    · rintro ⟨-, hchooses⟩
      exact hchooses.ne.2.1 rfl
  · intro hon block hknown hblown pos hleads
    have hshape₄ := hsame₄.root.shape.trans hshape₃
    exact hideBlown_fused hon hhide block hknown hblown pos (hleads.of_shape_eq hshape₄)

end BootAssembly.Patch
