import BootAssembly.Patch.Fstab
import BootAssembly.Proofs.DeviceTree.Outline
import Mathlib.Data.List.DropRight
import Mathlib.Data.List.TakeWhile

namespace BootAssembly.Patch

open DeviceTree

/-- `front` is the shortest beginning of `text` that ends in `pattern`. -/
structure ThroughFirst (pattern text front : Bytes) : Prop where
  begins : front <+: text
  ends : pattern <:+ front
  shortest : ∀ shorter, shorter <+: text → pattern <:+ shorter → front.length ≤ shorter.length

theorem splitAfter?_eq_some {pattern text front rest : Bytes}
    (h : splitAfter? pattern text = some (front, rest)) :
    text = front ++ rest ∧ ThroughFirst pattern text front := by
  fun_induction splitAfter? pattern text generalizing front rest with
  | case1 text hhere =>
    cases h
    have htext : text = pattern ++ text.drop pattern.length := by
      conv_lhs => rw [← List.take_append_drop pattern.length text, hhere]
    exact ⟨htext, ⟨_, htext.symm⟩, List.suffix_rfl, fun shorter _ hends => hends.length_le⟩
  | case2 hhere => cases h
  | case3 b text hhere ih =>
    obtain ⟨⟨front, rest⟩, hfound, heq⟩ := Option.map_eq_some_iff.mp h
    cases heq
    obtain ⟨rfl, hfirst⟩ := ih hfound
    refine ⟨rfl, List.prefix_append _ rest, hfirst.ends.trans (List.suffix_cons b front), ?_⟩
    intro shorter hshorter hends
    -- an occurrence that begins with the text is ruled out, and any other is one in the remainder
    rcases List.prefix_cons_iff.mp hshorter with rfl | ⟨shorter, rfl, hbelow⟩
    · obtain rfl := List.suffix_nil.mp hends
      exact absurd rfl hhere
    · rcases List.suffix_cons_iff.mp hends with rfl | hends
      · exact absurd (List.prefix_iff_eq_take.mp hshorter).symm hhere
      · exact Nat.succ_le_succ (hfirst.shortest shorter hbelow hends)

theorem splitAfter?_append {pattern front rest : Bytes}
    (h : splitAfter? pattern (front ++ rest) = some (front, rest)) (other : Bytes) :
    splitAfter? pattern (front ++ other) = some (front, other) := by
  induction front with
  | nil =>
    obtain ⟨-, hfirst⟩ := splitAfter?_eq_some h
    obtain rfl := List.suffix_nil.mp hfirst.ends
    rw [splitAfter?.eq_def]
    exact if_pos rfl
  | cons b front ih =>
    obtain ⟨-, hfirst⟩ := splitAfter?_eq_some h
    have hlength : pattern.length ≤ (b :: front).length := hfirst.ends.length_le
    rw [splitAfter?.eq_def, List.take_append_of_le_length hlength] at h ⊢
    by_cases hhere : (b :: front).take pattern.length = pattern
    · rw [if_pos hhere] at h ⊢
      obtain ⟨hfront, -⟩ := Prod.mk.inj (Option.some.inj h)
      rw [← hfront]
      simp [hfront]
    · rw [if_neg hhere] at h ⊢
      obtain ⟨⟨front', rest'⟩, hfound, heq⟩ := Option.map_eq_some_iff.mp h
      cases heq
      exact Option.map_eq_some_iff.mpr ⟨_, ih hfound, rfl⟩

def components (text : Bytes) : List Bytes := (text.rdropWhile (· = space)).splitOn slash

theorem rdropWhile_append_cons {p : UInt8 → Bool} {b : UInt8} (hb : p b = false)
    (front back : Bytes) :
    (front ++ b :: back).rdropWhile p = front ++ b :: back.rdropWhile p := by
  induction back using List.reverseRecOn with
  | nil => rw [List.rdropWhile_concat_neg p _ _ (by rw [hb]; exact Bool.false_ne_true)]; rfl
  | append_singleton back c ih =>
    rw [← List.cons_append, ← List.append_assoc, List.rdropWhile_concat, List.rdropWhile_concat, ih]
    split <;> simp

theorem rdropWhile_append_replicate {p : UInt8 → Bool} {b : UInt8} (hb : p b = true)
    (text : Bytes) (n : Nat) :
    (text ++ List.replicate n b).rdropWhile p = text.rdropWhile p := by
  induction n with
  | zero => rw [List.replicate_zero, List.append_nil]
  | succ n ih =>
    rw [List.replicate_succ', ← List.append_assoc, List.rdropWhile_concat_pos p _ _ hb, ih]

theorem components_append_slash (front back : Bytes) :
    components (front ++ slash :: back) = front.splitOn slash ++ components back := by
  rw [components, rdropWhile_append_cons (by decide)]
  exact List.splitOnP_append_cons _ _ (beq_self_eq_true slash)

theorem components_append_spaces (text : Bytes) (n : Nat) :
    components (text ++ List.replicate n space) = components text := by
  rw [components, rdropWhile_append_replicate (by decide)]
  rfl

theorem splitOn_of_not_mem {component : Bytes} (h : slash ∉ component) :
    component.splitOn slash = [component] := by
  apply List.splitOnP_eq_singleton
  intro b hb
  rw [beq_eq_false_iff_ne]
  rintro rfl
  exact h hb

variable {device value value' : Bytes}

theorem renameController_eq_ok :
    renameController device value = .ok value' ↔
      ∃ front b name below, splitAfter? controllerParent (untilNul value) =
          some (front, b :: name ++ slash :: below) ∧
        slash ∉ name ∧ device.length ≤ (b :: name).length ∧
        value' = front ++ device ++ slash :: below ++
          List.replicate ((b :: name).length - device.length) space ++
            value.drop (untilNul value).length := by
  simp only [renameController]
  constructor
  · intro h
    split at h
    · cases h
    · cases h
    · rename_i front b rest hsplit
      split at h
      · cases h
      · rename_i hbelow
        split at h
        · cases h
        · rename_i hfits
          cases h
          obtain ⟨below, hdrop⟩ : ∃ below, rest.dropWhile (· ≠ slash) = slash :: below := by
            obtain ⟨c, below, hcons⟩ := List.exists_cons_of_ne_nil hbelow
            have hstop := List.head_dropWhile_not (· ≠ slash) hbelow
            simp only [hcons, List.head_cons, decide_eq_false_iff_not, Decidable.not_not] at hstop
            exact ⟨below, by rw [hcons, hstop]⟩
          refine ⟨front, b, rest.takeWhile (· ≠ slash), below, ?_, ?_, Nat.le_of_not_lt hfits, ?_⟩
          · rw [hsplit, List.cons_append, ← hdrop, List.takeWhile_append_dropWhile]
          · intro hmem
            have := List.mem_takeWhile_imp hmem
            simp at this
          · rw [hdrop]
  · rintro ⟨front, b, name, below, hsplit, hname, hfits, rfl⟩
    rw [hsplit]
    simp only [List.cons_append, takeWhile_ne_append hname, dropWhile_ne_append hname]
    rw [if_neg (List.cons_ne_nil _ _), if_neg (Nat.not_lt.mpr hfits)]

theorem untilNul_append_drop {text : Bytes} (h : 0 ∉ text) (value : Bytes) :
    untilNul (text ++ value.drop (untilNul value).length) = text := by
  obtain hall | ⟨rest, hall⟩ := eq_untilNul_append value
  · have hself : untilNul text = text :=
      List.takeWhile_eq_self_iff.mpr (forall_ne_of_not_mem h)
    rw [← hall, List.drop_length, List.append_nil, hself]
  · have hrest : value.drop (untilNul value).length = 0 :: rest := by
      conv_lhs => rw [hall, untilNul_append (nul_not_mem_untilNul value), List.drop_left]
    rw [hrest, untilNul_append h]

theorem untilNul_renamed {front component below : Bytes} (hnul : 0 ∉ device)
    (htext : untilNul value = front ++ (component ++ slash :: below)) (n : Nat) :
    untilNul (front ++ device ++ slash :: below ++ List.replicate n space ++
        value.drop (untilNul value).length) =
      front ++ device ++ slash :: below ++ List.replicate n space := by
  apply untilNul_append_drop
  have hnone : 0 ∉ front ++ (component ++ slash :: below) := htext ▸ nul_not_mem_untilNul value
  simp only [List.mem_append, not_or] at hnone ⊢
  refine ⟨⟨⟨hnone.1, hnul⟩, hnone.2.2⟩, fun hmem => ?_⟩
  exact absurd (List.eq_of_mem_replicate hmem) (by decide)

theorem renameController_again (hne : device ≠ []) (hslash : slash ∉ device) (hnul : 0 ∉ device)
    (h : renameController device value = .ok value') :
    renameController device value' = .ok value' := by
  obtain ⟨front, b, name, below, hsplit, hname, hfits, rfl⟩ := renameController_eq_ok.mp h
  obtain ⟨htext, -⟩ := splitAfter?_eq_some hsplit
  have hrenamed := untilNul_renamed hnul htext ((b :: name).length - device.length)
  obtain ⟨d, ds, rfl⟩ := List.exists_cons_of_ne_nil hne
  rw [htext] at hsplit
  refine renameController_eq_ok.mpr ⟨front, d, ds,
    below ++ List.replicate ((b :: name).length - (d :: ds).length) space, ?_,
    fun hmem => hslash (List.mem_cons_of_mem d hmem), Nat.le_refl _, ?_⟩
  · rw [hrenamed, List.append_assoc, List.append_assoc]
    exact splitAfter?_append hsplit _
  · rw [hrenamed, Nat.sub_self, List.replicate_zero, List.append_nil, List.drop_left]
    simp only [List.append_assoc, List.cons_append]

theorem renameController_components (hslash : slash ∉ device) (hnul : 0 ∉ device)
    (h : renameController device value = .ok value') :
    value'.length = value.length ∧
      value'.drop (untilNul value).length = value.drop (untilNul value).length ∧
      ∃ front before after, ThroughFirst controllerParent (untilNul value) front ∧
        front <+: value' ∧ before = front.dropLast.splitOn slash ∧
        components (untilNul value') = before ++ device :: after ∧
        ((∃ old, old ≠ [] ∧ components (untilNul value) = before ++ old :: after) ∨
          ∃ old, components (untilNul value) = before ++ [] :: old :: after) := by
  obtain ⟨front, b, name, below, hsplit, hname, hfits, hvalue'⟩ := renameController_eq_ok.mp h
  obtain ⟨htext, hfirst⟩ := splitAfter?_eq_some hsplit
  have hrenamed := untilNul_renamed hnul htext ((b :: name).length - device.length)
  have hlength : (front ++ device ++ slash :: below ++
      List.replicate ((b :: name).length - device.length) space).length =
        (untilNul value).length := by
    rw [htext]
    simp only [List.length_append, List.length_replicate]
    omega
  obtain ⟨parent, hparent⟩ : ∃ parent, front = parent ++ [slash] := by
    obtain ⟨before, rfl⟩ := hfirst.ends
    refine ⟨before ++ utf8 "/soc", ?_⟩
    rw [List.append_assoc]
    rfl
  have hold : components (untilNul value) =
      parent.splitOn slash ++ ((b :: name).splitOn slash ++ components below) := by
    rw [htext, hparent, List.append_assoc, List.singleton_append, components_append_slash,
      components_append_slash]
  have hnew : components (untilNul value') =
      parent.splitOn slash ++ device :: components below := by
    rw [hvalue', hrenamed, components_append_spaces, hparent, List.append_assoc, List.append_assoc,
      List.singleton_append, components_append_slash, components_append_slash,
      splitOn_of_not_mem hslash]
    rfl
  refine ⟨?_, ?_, front, parent.splitOn slash, components below, hfirst, ?_, ?_, hnew, ?_⟩
  · rw [hvalue', List.length_append, hlength, List.length_drop]
    exact Nat.add_sub_cancel' (List.takeWhile_prefix (p := (· ≠ 0)) (l := value)).length_le
  · rw [hvalue', List.drop_append_of_le_length (Nat.le_of_eq hlength.symm), ← hlength,
      List.drop_length, List.nil_append]
  · rw [hvalue']
    simp only [List.append_assoc]
    exact List.prefix_append _ _
  · rw [hparent, List.dropLast_concat]
  · rw [hold]
    -- the search for the component's end passes over its first byte, whatever that is
    by_cases hb : b = slash
    · refine .inr ⟨name, ?_⟩
      have hcomponents : (b :: name).splitOn slash = [] :: name.splitOn slash :=
        List.splitOnP_append_cons [] name (beq_iff_eq.mpr hb)
      rw [hcomponents, splitOn_of_not_mem hname]
      rfl
    · refine .inl ⟨b :: name, List.cons_ne_nil _ _, ?_⟩
      have hcomponent : slash ∉ b :: name := by
        rintro (_ | ⟨_, hmem⟩)
        · exact hb rfl
        · exact hname hmem
      rw [splitOn_of_not_mem hcomponent]
      rfl

/-- Renaming keeps an entry it cannot rename, and otherwise changes only the path up to the NUL:
there the device stands for the component behind the first `/soc/`, or for that one and the next
if it is empty. -/
theorem renameEntry_controller (device : String) (hne : utf8 device ≠ [])
    (hslash : slash ∉ utf8 device) (hnul : 0 ∉ utf8 device) {entry : Node} {value : Bytes}
    (hvalue : entry.value? "dev" = some value) :
    (∀ why, renameController (utf8 device) value = .error why →
      (renameEntry device entry).1 = entry) ∧
    (∀ value', renameController (utf8 device) value = .ok value' →
      ((renameEntry device entry).1 = entry.modifyValue "dev" fun _ => value') ∧
      value'.length = value.length ∧
      value'.drop (untilNul value).length = value.drop (untilNul value).length ∧
      ∃ front before after, ThroughFirst controllerParent (untilNul value) front ∧
        front <+: value' ∧ before = front.dropLast.splitOn slash ∧
        components (untilNul value') = before ++ utf8 device :: after ∧
        ((∃ old, old ≠ [] ∧ components (untilNul value) = before ++ old :: after) ∨
          ∃ old, components (untilNul value) = before ++ [] :: old :: after)) ∧
    (renameEntry device (renameEntry device entry).1).1 = (renameEntry device entry).1 := by
  have hkept : ∀ why, renameController (utf8 device) value = .error why →
      (renameEntry device entry).1 = entry := by
    intro why h
    simp only [renameEntry, hvalue, h]
  have hrenamed : ∀ value', renameController (utf8 device) value = .ok value' →
      (renameEntry device entry).1 = entry.modifyValue "dev" fun _ => value' := by
    intro value' h
    simp only [renameEntry, hvalue, h]
  refine ⟨hkept, fun value' h => ⟨hrenamed value' h, renameController_components hslash hnul h⟩, ?_⟩
  cases hresult : renameController (utf8 device) value with
  | error why => rw [hkept why hresult, hkept why hresult]
  | ok value' =>
    have hafter : (entry.modifyValue "dev" fun _ => value').value? "dev" = some value' := by
      have hget : entry.properties.get? "dev" = some value := hvalue
      simp [Node.modifyValue, Node.value?, hget]
    rw [hrenamed value' hresult]
    simp only [renameEntry, hafter, renameController_again hne hslash hnul hresult]
    rw [Node.modifyValue, Node.modifyValue, Properties.modify_modify]
    rfl

def vendorEntry : Node := ⟨"vendor", [⟨"dev", nulTerminated "/soc/emmc/boot"⟩], []⟩

theorem renameEntry_controller_vendorEntry :
    (renameEntry "ufs" vendorEntry).1 =
        vendorEntry.modifyValue "dev" (fun _ => nulTerminated "/soc/ufs/boot ") ∧
      (renameEntry "ufs" (renameEntry "ufs" vendorEntry).1).1 =
        (renameEntry "ufs" vendorEntry).1 := by
  have hvalue : vendorEntry.value? "dev" = some (nulTerminated "/soc/emmc/boot") := rfl
  obtain ⟨-, hrenamed, hagain⟩ :=
    renameEntry_controller "ufs" (by decide) (by decide) (by decide) hvalue
  obtain ⟨hentry, -⟩ := hrenamed (nulTerminated "/soc/ufs/boot ") (by decide)
  exact ⟨hentry, hagain⟩

theorem renameController_two_components :
    ∃ value', renameController (utf8 "ufs") (nulTerminated "/soc//emmc/boot") = .ok value' ∧
      ¬ ∃ before old after,
        components (untilNul (nulTerminated "/soc//emmc/boot")) = before ++ old :: after ∧
        components (untilNul value') = before ++ utf8 "ufs" :: after := by
  refine ⟨nulTerminated "/soc/ufs/boot  ", by decide, ?_⟩
  rintro ⟨before, old, after, hold, hnew⟩
  have hfive := congrArg List.length hold
  have hfour := congrArg List.length hnew
  simp only [List.length_append, List.length_cons] at hfive hfour
  have hlonger : (components (untilNul (nulTerminated "/soc//emmc/boot"))).length =
    (components (untilNul (nulTerminated "/soc/ufs/boot  "))).length + 1 := by decide
  omega

end BootAssembly.Patch
