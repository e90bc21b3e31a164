import BootAssembly.Proofs.Patch.Outcome

namespace BootAssembly.Patch

open DeviceTree TreeEdit

variable {α β : Type} {t : DeviceTree} {r : Request}

def TreeEdit.Succeeds (x : TreeEdit α) (t : DeviceTree) : Prop := ∃ a t', x.run t = .ok (a, t')

namespace TreeEdit

theorem Succeeds.bind {x : TreeEdit α} {f : α → TreeEdit β} (hx : x.Succeeds t)
    (hf : ∀ a t', x.run t = .ok (a, t') → (f a).Succeeds t') : (x >>= f).Succeeds t := by
  obtain ⟨a, t₁, hfirst⟩ := hx
  obtain ⟨b, t₂, hrest⟩ := hf a t₁ hfirst
  exact ⟨b, t₂, run_bind_eq_ok.mpr ⟨a, t₁, hfirst, hrest⟩⟩

theorem succeeds_pure (a : α) : (pure a : TreeEdit α).Succeeds t :=
  ⟨a, t, run_pure_eq_ok.mpr ⟨rfl, rfl⟩⟩

theorem succeeds_ofReport {x : Report α} {a : α} (h : x.outcome = .ok a) :
    (ofReport x).Succeeds t :=
  ⟨a, t, run_ofReport_eq_ok.mpr ⟨h, rfl⟩⟩

theorem succeeds_node? (path : String) : (node? path).Succeeds t :=
  ⟨t.node? path, t, run_node?_eq_ok.mpr ⟨rfl, rfl⟩⟩

theorem succeeds_modifyNode (path : String) (f : Node → Node) : (modifyNode path f).Succeeds t :=
  ⟨(), t.modifyNode path f, run_modifyNode_eq_ok.mpr rfl⟩

theorem Succeeds.run_eq {x : TreeEdit Unit} (h : x.Succeeds t) : x.run t = .ok ((), (x t).2) := by
  obtain ⟨_, t', h⟩ := h
  rw [h]
  unfold run at h
  cases hout : (x t).1.outcome with
  | error fault =>
    rw [hout] at h
    cases h
  | ok _ =>
    rw [hout] at h
    cases h
    rfl

end TreeEdit

theorem push_wide {w : RegWriter} (hw : w.wide = true) (region : RamRegion) (n : Node) :
    ∃ pushed, w.push region n = .ok pushed ∧ pushed.1.wide = true := by
  have hfits : Fits w.wide region := by
    intro hnarrow
    rw [hw] at hnarrow
    cases hnarrow
  exact ⟨_, push_eq_ok.mpr ⟨hfits, rfl, rfl⟩, hw⟩

theorem pushRegion_succeeds {w : RegWriter} (hw : w.wide = true)
    (hmemory : (t.node? memoryPath).isSome) (region : RamRegion) :
    (pushRegion w region).Succeeds t := by
  obtain ⟨n, hn⟩ := Option.isSome_iff_exists.mp hmemory
  apply (succeeds_node? memoryPath).bind
  intro found t₁ hfound
  obtain ⟨rfl, rfl⟩ := run_node?_eq_ok.mp hfound
  rw [hn]
  obtain ⟨⟨w₁, n₁⟩, hpush, -⟩ := push_wide hw region n
  apply (succeeds_ofReport (x := .ofExcept (w.push region n)) hpush).bind
  intro pushed t₁ _
  apply (succeeds_modifyNode memoryPath _).bind
  intro _ t₂ _
  exact succeeds_pure _

theorem isSome_node?_of_shape_eq {t' : DeviceTree} (h : t'.root.shape = t.root.shape)
    {path : String} (hn : (t.node? path).isSome) : (t'.node? path).isSome := by
  obtain ⟨n, hn⟩ := Option.isSome_iff_exists.mp hn
  obtain ⟨pos, hpos, -⟩ := exists_position hn
  obtain ⟨n', hn'⟩ := exists_node? (t := t') (by rw [Node.locate?_of_shape_eq h, hpos])
  rw [hn', Option.isSome_some]

theorem foldlM_pushRegion_succeeds {ram : List RamRegion} {w : RegWriter} (hw : w.wide = true)
    (hmemory : (t.node? memoryPath).isSome) : (ram.foldlM pushRegion w).Succeeds t := by
  induction ram generalizing w t with
  | nil => exact succeeds_pure w
  | cons region ram ih =>
    rw [List.foldlM_cons]
    apply (pushRegion_succeeds hw hmemory region).bind
    intro w₁ t₁ hpush
    obtain ⟨-, rfl, hsame, -⟩ := pushRegion_run hpush
    exact ih hw (isSome_node?_of_shape_eq hsame.root.shape hmemory)

theorem updateMemory_succeeds {ram : List RamRegion} (hram : ram ≠ [])
    (hmemory : (t.node? memoryPath).isSome) : (updateMemory ram true).Succeeds t := by
  unfold updateMemory
  rw [if_neg (by rwa [List.isEmpty_iff])]
  apply (foldlM_pushRegion_succeeds rfl hmemory).bind
  intro w t₁ _
  exact succeeds_ofReport (x := Report.debug _ _) rfl

theorem optionally_succeeds {on : Bool} {given : Option α} {edit : α → TreeEdit Unit}
    {missing : Report Unit} (hedit : ∀ a, on = true → given = some a → (edit a).Succeeds t)
    (hmissing : missing.outcome = .ok ()) : (optionally on given edit missing).Succeeds t := by
  unfold optionally
  split
  · split
    · exact hedit _ ‹_› rfl
    · exact succeeds_ofReport hmissing
  · exact succeeds_pure ()

theorem updateChosen_succeeds (hchosen : (t.node? chosenPath).isSome)
    (hend : r.plan.ramdiskAddr.toNat + r.plan.ramdiskSize.toNat < UInt64.size) :
    (updateChosen r).Succeeds t := by
  rw [updateChosen_eq]
  apply (succeeds_node? chosenPath).bind
  intro found t₁ hfound
  obtain ⟨rfl, rfl⟩ := run_node?_eq_ok.mp hfound
  have hfound : ¬ (t.node? chosenPath).isNone := by
    rw [Option.isNone_iff_eq_none, ← Option.not_isSome_iff_eq_none]
    exact not_not_intro hchosen
  rw [if_neg hfound]
  apply (succeeds_modifyNode chosenPath _).bind
  intro _ t₁ _
  apply Succeeds.bind (optionally_succeeds (fun seed _ _ => succeeds_modifyNode chosenPath _) rfl)
  intro _ t₂ _
  unfold chooseRamdisk
  split
  · apply (succeeds_ofReport (x := .ofExcept _) (addAddress_eq_ok.mpr ⟨hend, rfl⟩)).bind
    intro stop t₃ _
    apply (succeeds_modifyNode chosenPath _).bind
    intro _ t₄ _
    exact succeeds_modifyNode chosenPath _
  · exact succeeds_pure ()

theorem updateFstab_succeeds (device : String) : (updateFstab device).Succeeds t := by
  unfold updateFstab
  apply (succeeds_node? fstabPath).bind
  intro found t₁ _
  split
  · exact succeeds_ofReport (x := Report.debug _ _) rfl
  · apply (succeeds_modifyNode fstabPath _).bind
    intro _ t₂ _
    apply (succeeds_ofReport (a := ()) rfl).bind
    intro _ t₃ _
    exact succeeds_ofReport (x := Report.info _ _) rfl

theorem hideBlown_succeeds : (hideBlown r).Succeeds t := by
  unfold hideBlown
  split
  · have hhide : (hideFused r.disabledSubsystems fusedBlocks).Succeeds t :=
      ⟨_, _, hideFused_eq r.disabledSubsystems fusedBlocks t⟩
    show (hideFused r.disabledSubsystems fusedBlocks >>= fun _ => pure ()).Succeeds t
    apply hhide.bind
    intro k t₁ _
    exact succeeds_pure ()
  · exact succeeds_pure ()

structure Request.Suits (r : Request) (t : DeviceTree) : Prop where
  wide : r.plan.is32bit = false
  plain : r.capabilities.has .splashUpdate = false
  ram : r.ram ≠ []
  memory : (t.node? memoryPath).isSome
  chosen : (t.node? chosenPath).isSome
  ramdisk : r.plan.ramdiskAddr.toNat + r.plan.ramdiskSize.toNat < UInt64.size

theorem edit_succeeds (h : r.Suits t) : (edit r).Succeeds t := by
  rw [edit_eq, h.wide]
  apply (updateMemory_succeeds h.ram h.memory).bind
  intro _ t₁ hmemory
  have hshape₁ := (updateMemory_run hmemory).2.1.root.shape
  have hoff (splash : Splash) (hon : r.capabilities.has .splashUpdate = true)
      (_ : r.splash = some splash) : (updateSplash splash).Succeeds t₁ := by
    rw [h.plain] at hon
    cases hon
  apply Succeeds.bind (optionally_succeeds hoff rfl)
  intro _ t₂ hsplash
  have hshape₂ := (splash_run hsplash).root.shape.trans hshape₁
  apply (updateChosen_succeeds (isSome_node?_of_shape_eq hshape₂ h.chosen) h.ramdisk).bind
  intro _ t₃ _
  apply Succeeds.bind (optionally_succeeds (fun device _ _ => updateFstab_succeeds device) rfl)
  intro _ t₄ _
  exact hideBlown_succeeds

theorem patch_of_suits {blob out : Bytes} (hblob : parse blob = .ok t) (h : r.Suits t)
    (hout : toBytes (edit r t).2 = .ok out) : (patch blob r).outcome = .ok out := by
  have hrun := (edit_succeeds h).run_eq
  unfold run at hrun
  have hedit : (edit r t).1.outcome = .ok () := by
    cases houtcome : (edit r t).1.outcome with
    | error fault =>
      rw [houtcome] at hrun
      cases hrun
    | ok _ => rfl
  refine Traced.outcome_bind_eq_ok.mpr ⟨t, hblob, ?_⟩
  refine Traced.outcome_bind_eq_ok.mpr ⟨(), hedit, ?_⟩
  refine Traced.outcome_bind_eq_ok.mpr ⟨out, hout, ?_⟩
  exact Traced.outcome_bind_eq_ok.mpr ⟨(), rfl, rfl⟩

end BootAssembly.Patch
