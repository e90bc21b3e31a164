import BootAssembly.Proofs.CommandLine.Assembly
import BootAssembly.Proofs.Patch.FusedBlocks
import Mathlib.Data.List.Basic

namespace BootAssembly

open DeviceTree

theorem DeviceTree.Node.length_of_locate? {names : List String} {n : Node} {pos : Position}
    (h : n.locate? names = some pos) : pos.length = names.length := by
  induction names generalizing n pos with
  | nil =>
    cases h
    rfl
  | cons name names ih =>
    obtain ⟨i, -, h⟩ := Option.bind_eq_some_iff.mp h
    obtain ⟨c, -, h⟩ := Option.bind_eq_some_iff.mp h
    obtain ⟨rest, hrest, rfl⟩ := Option.map_eq_some_iff.mp h
    rw [List.length_cons, List.length_cons, ih hrest]

namespace Patch

open TreeEdit

variable {t t' : DeviceTree} {r : Request}

/-- The places that a request writes to in a tree. The last three wait for a capability. -/
inductive Request.Writes (r : Request) (root : Node) : Position → String → Prop where
  | memory {pos : Position} (located : root.locate? (segments memoryPath) = some pos) :
    Writes r root pos "reg"
  | chosen {pos : Position} {name : String}
    (located : root.locate? (segments chosenPath) = some pos) (chooses : r.Chooses name) :
    Writes r root pos name
  | splash {pos : Position} (on : r.capabilities.has .splashUpdate = true)
    (given : r.splash.isSome) (located : root.locate? (segments splashPath) = some pos) :
    Writes r root pos "reg"
  | entry {table : Position} (i : Nat) (on : r.capabilities.has .fstabUpdate = true)
    (given : r.bootDevice.isSome) (located : root.locate? (segments fstabPath) = some table) :
    Writes r root (table ++ [i]) "dev"
  | fused {pos : Position} {block : FusedBlock} {child : String}
    (on : r.capabilities.has .partialGoods = true) (known : block ∈ fusedBlocks)
    (blown : r.disabledSubsystems &&& block.mask ≠ 0) (hidden : child ∈ block.nodes)
    (located : root.locate? (segments block.parent ++ [child]) = some pos) :
    Writes r root pos block.how.property

theorem nulFree_of_writes {root : Node} {pos : Position} {name : String}
    (h : r.Writes root pos name) : 0 ∉ utf8 name := by
  cases h with
  | memory | splash | entry => decide
  | chosen _ chooses => cases chooses <;> decide
  | @fused _ block =>
    cases block.how <;> decide

def hideBlown (r : Request) : TreeEdit Unit := do
  if r.capabilities.has .partialGoods ∧ r.disabledSubsystems ≠ 0 then
    discard (hideFused r.disabledSubsystems fusedBlocks)

theorem edit_eq (r : Request) : edit r = (do
    updateMemory r.ram (!r.plan.is32bit)
    optionally (r.capabilities.has .splashUpdate) r.splash updateSplash (pure ())
    updateChosen r
    optionally (r.capabilities.has .fstabUpdate) r.bootDevice updateFstab (pure ())
    hideBlown r) := by
  obtain ⟨commandLine, plan, ram, kaslrSeed, splash, bootDevice, mask, capabilities⟩ := r
  simp only [edit, hideBlown, optionally_bind]
  cases splash <;> cases bootDevice <;> rfl

theorem Request.Writes.of_shape_eq {n n' : Node} {pos : Position} {name : String}
    (h : r.Writes n' pos name) (hshape : n'.shape = n.shape) : r.Writes n pos name := by
  have hsame := Node.locate?_of_shape_eq hshape
  cases h with
  | memory located => exact .memory (hsame _ ▸ located)
  | chosen located chooses => exact .chosen (hsame _ ▸ located) chooses
  | splash on given located => exact .splash on given (hsame _ ▸ located)
  | entry i on given located => exact .entry i on given (hsame _ ▸ located)
  | fused on known blown hidden located =>
    exact .fused on known blown hidden (hsame _ ▸ located)

theorem splash_run (h : (optionally (r.capabilities.has .splashUpdate) r.splash updateSplash
    (pure ())).run t = .ok ((), t')) :
    t.SameBut (fun pos name => pos.length = 2 ∧ r.Writes t.root pos name) t' := by
  rcases optionally_run h with ⟨hon, splash, hgiven, hupdate⟩ | ⟨-, rfl⟩
  · apply (updateSplash_run hupdate).mono
    rintro pos name ⟨hlocated, rfl⟩
    have hsplash : r.splash.isSome := by rw [hgiven, Option.isSome_some]
    exact ⟨Node.length_of_locate? hlocated, .splash hon hsplash hlocated⟩
  · exact .refl _ _

theorem fstab_run (h : (optionally (r.capabilities.has .fstabUpdate) r.bootDevice updateFstab
    (pure ())).run t = .ok ((), t')) :
    t.SameBut (fun pos name => name = "dev" ∧ r.Writes t.root pos name) t' := by
  rcases optionally_run h with ⟨hon, device, hgiven, hupdate⟩ | ⟨-, rfl⟩
  · apply (updateFstab_run hupdate).mono
    rintro pos name ⟨rfl, table, i, hlocated, rfl⟩
    exact ⟨rfl, .entry i hon (by rw [hgiven, Option.isSome_some]) hlocated⟩
  · exact .refl _ _

theorem hideBlown_run (h : (hideBlown r).run t = .ok ((), t')) :
    t.SameBut (fun pos name => (name = "status" ∨ name = "device_type") ∧
      r.Writes t.root pos name) t' := by
  unfold hideBlown at h
  split at h
  · rename_i hon
    have h : (hideFused r.disabledSubsystems fusedBlocks >>= fun _ => pure ()).run t =
        .ok ((), t') := h
    obtain ⟨k, t₁, hhide, h⟩ := run_bind_eq_ok.mp h
    obtain ⟨-, rfl⟩ := run_pure_eq_ok.mp h
    rw [hideFused_eq] at hhide
    cases hhide
    apply (sameBut_marksOf r.disabledSubsystems fusedBlocks t).mono
    rintro pos name ⟨block, hblock, hplace, rfl⟩
    obtain ⟨hknown, hblown⟩ := mem_blown.mp hblock
    obtain ⟨child, hhidden, hlocated⟩ := List.mem_filterMap.mp hplace
    refine ⟨?_, .fused hon.1 hknown hblown hhidden hlocated⟩
    cases block.how
    · exact .inl rfl
    · exact .inr rfl
  · obtain ⟨-, rfl⟩ := run_pure_eq_ok.mp h
    exact .refl _ _

theorem Request.Told.congr (h : r.Told t)
    (hsame : ∀ name, r.Chooses name → t'.valueAt? chosenPath name = t.valueAt? chosenPath name) :
    r.Told t' where
  bootargs := by rw [hsame _ .bootargs, h.bootargs]
  seed hon v hv := by rw [hsame _ (.seed hon hv), h.seed hon v hv]
  ramdisk hpresent := by
    rw [hsame _ (.ramdiskStart hpresent), hsame _ (.ramdiskEnd hpresent)]
    exact h.ramdisk hpresent

theorem Request.Chooses.ne {name : String} (h : r.Chooses name) :
    name ≠ "reg" ∧ name ≠ "dev" ∧ name ≠ "status" ∧ name ≠ "device_type" := by
  cases h <;> decide

theorem edit_stages (h : (edit r).run t = .ok ((), t')) :
    ∃ t₁ t₂ t₃ t₄, (updateMemory r.ram (!r.plan.is32bit)).run t = .ok ((), t₁) ∧
      (optionally (r.capabilities.has .splashUpdate) r.splash updateSplash (pure ())).run t₁ =
        .ok ((), t₂) ∧
      (updateChosen r).run t₂ = .ok ((), t₃) ∧
      (optionally (r.capabilities.has .fstabUpdate) r.bootDevice updateFstab (pure ())).run t₃ =
        .ok ((), t₄) ∧
      (hideBlown r).run t₄ = .ok ((), t') := by
  rw [edit_eq] at h
  obtain ⟨_, t₁, hmemory, h⟩ := run_bind_eq_ok.mp h
  obtain ⟨_, t₂, hsplash, h⟩ := run_bind_eq_ok.mp h
  obtain ⟨_, t₃, hchosen, h⟩ := run_bind_eq_ok.mp h
  obtain ⟨_, t₄, hfstab, hhide⟩ := run_bind_eq_ok.mp h
  exact ⟨t₁, t₂, t₃, t₄, hmemory, hsplash, hchosen, hfstab, hhide⟩

theorem edit_run (h : (edit r).run t = .ok ((), t')) :
    t.SameBut (r.Writes t.root) t' ∧ (∀ region ∈ r.ram, Fits (!r.plan.is32bit) region) ∧
      t'.valueAt? memoryPath "reg" = some (regOf (!r.plan.is32bit) r.ram) ∧ r.Told t' := by
  obtain ⟨t₁, t₂, t₃, t₄, hmemory, hsplash, hchosen, hfstab, hhide⟩ := edit_stages h
  obtain ⟨hfits, hsame₁, hreg⟩ := updateMemory_run hmemory
  have hsame₂ := splash_run hsplash
  obtain ⟨hsame₃, htold⟩ := updateChosen_run hchosen
  have hsame₄ := fstab_run hfstab
  have hsame₅ := hideBlown_run hhide
  have hshape₂ := hsame₂.root.shape.trans hsame₁.root.shape
  have hshape₃ := hsame₃.root.shape.trans hshape₂
  have hshape₄ := hsame₄.root.shape.trans hshape₃
  refine ⟨?_, hfits, ?_, ?_⟩
  · apply (hsame₁.mono _).trans ((hsame₂.mono _).trans ((hsame₃.mono _).trans
      ((hsame₄.mono _).trans (hsame₅.mono _))))
    · rintro pos name ⟨hlocated, rfl⟩
      exact .memory hlocated
    · rintro pos name ⟨-, hwrites⟩
      exact hwrites.of_shape_eq hsame₁.root.shape
    · rintro pos name ⟨hlocated, hchooses⟩
      exact (Request.Writes.chosen hlocated hchooses).of_shape_eq hshape₂
    · rintro pos name ⟨-, hwrites⟩
      exact hwrites.of_shape_eq hshape₃
    · rintro pos name ⟨-, hwrites⟩
      exact hwrites.of_shape_eq hshape₄
  · rw [hsame₅.valueAt?_eq, hsame₄.valueAt?_eq, hsame₃.valueAt?_eq, hsame₂.valueAt?_eq, hreg]
    · rintro pos hlocated ⟨hlength, -⟩
      rw [Node.length_of_locate? hlocated] at hlength
      exact absurd hlength (by decide)
    · rintro pos - ⟨-, hchooses⟩
      exact hchooses.ne.1 rfl
    · rintro pos - ⟨hname, -⟩
      exact absurd hname (by decide)
    · rintro pos - ⟨hname, -⟩
      exact absurd hname (by decide)
  · apply htold.congr
    intro name hchooses
    obtain ⟨-, hdev, hstatus, htype⟩ := hchooses.ne
    rw [hsame₅.valueAt?_eq, hsame₄.valueAt?_eq]
    · rintro pos - ⟨hname, -⟩
      exact hdev hname
    · rintro pos - ⟨hname | hname, -⟩
      · exact hstatus hname
      · exact htype hname

theorem patch_eq_ok {blob out : Bytes} (h : (patch blob r).outcome = .ok out) :
    ∃ t t', parse blob = .ok t ∧ (edit r).run t = .ok ((), t') ∧ toBytes t' = .ok out := by
  obtain ⟨t, hparse, h⟩ := Traced.outcome_bind_eq_ok.mp h
  cases hrun : edit r t with
  | mk report t' =>
    rw [hrun] at h
    obtain ⟨_, hedit, h⟩ := Traced.outcome_bind_eq_ok.mp h
    obtain ⟨bytes, hbytes, h⟩ := Traced.outcome_bind_eq_ok.mp h
    obtain ⟨_, -, h⟩ := Traced.outcome_bind_eq_ok.mp h
    cases h
    refine ⟨t, t', hparse, ?_, hbytes⟩
    have hedit : report.outcome = .ok () := hedit
    rw [run, hrun, hedit]
    rfl

/-- What the kernel reads in a patched blob: the memory, what it is told about this boot, and for
the rest the tree of the blob, but for the places that the capabilities open. -/
theorem patch_reads_back {blob out : Bytes} (h : (patch blob r).outcome = .ok out) :
    ∃ t t', parse blob = .ok t ∧ parse out = .ok t' ∧ t.SameBut (r.Writes t.root) t' ∧
      t'.valueAt? memoryPath "reg" = some (regOf (!r.plan.is32bit) r.ram) ∧
      (r.plan.is32bit = true → ∀ region ∈ r.ram,
        region.base.toNat < UInt32.size ∧ region.size.toNat < UInt32.size) ∧
      r.Told t' ∧
      ∀ base fields, (CommandLine.build base fields).outcome = .ok r.commandLine →
        t'.valueAt? chosenPath "bootargs" = some (r.commandLine.bytes ++ [0]) := by
  obtain ⟨t, t', hparse, hedit, hbytes⟩ := patch_eq_ok h
  obtain ⟨hsame, hfits, hreg, htold⟩ := edit_run hedit
  have hportable : t'.Portable :=
    hsame.portable (portable_of_parse hparse) fun _ _ => nulFree_of_writes
  refine ⟨t, t', hparse, parse_of_portable hportable hbytes, hsame, hreg, ?_, htold, ?_⟩
  · intro hnarrow region hregion
    exact hfits region hregion (by rw [hnarrow]; rfl)
  · intro base fields hbuild
    obtain ⟨path, -, -, hbuffer⟩ := CommandLine.assemble_eq_ok (CommandLine.build_eq_ok hbuild)
    rw [htold.bootargs, CommandLine.bytes, hbuffer]
    generalize base ++ (CommandLine.pieces fields path).flatten = text
    rw [List.length_append, List.length_singleton, Nat.add_sub_cancel, List.take_left]

def staleTree : DeviceTree where
  bootCpu := 0
  reservations := []
  root := ⟨"", [], [⟨"memory@0", [⟨"reg", be32 7⟩, ⟨"device_type", nulTerminated "memory"⟩], []⟩,
    ⟨"chosen", [⟨"bootargs", nulTerminated "stale"⟩], []⟩,
    ⟨"soc", [], [⟨"qcom,vidc@0", [], []⟩, ⟨"qcom,vidc@1", [], []⟩]⟩]⟩

def twoBanks : Request where
  commandLine := ⟨nulTerminated "quiet", 6⟩
  plan := ⟨0x80000, 0x1000, 0x2000000, 0x200, 0x4000000, 0x1000000, false⟩
  ram := [⟨0x80000000, 0x1000⟩, ⟨0x100000000, 0x2000⟩]
  kaslrSeed := some 9
  splash := none
  bootDevice := none
  disabledSubsystems := 4
  capabilities := .ofList [.kaslrSeed, .partialGoods]

def freshTree : DeviceTree where
  bootCpu := 0
  reservations := []
  root := ⟨"", [], [⟨"memory@0", [⟨"reg", be64 0x80000000 ++ be64 0x1000 ++ be64 0x100000000 ++
      be64 0x2000⟩, ⟨"device_type", nulTerminated "memory"⟩], []⟩,
    ⟨"chosen", [⟨"bootargs", nulTerminated "quiet"⟩, ⟨"kaslr-seed", be64 9⟩,
      ⟨"linux,initrd-start", be64 0x2000000⟩, ⟨"linux,initrd-end", be64 0x2000200⟩], []⟩,
    ⟨"soc", [], [⟨"qcom,vidc@0", [⟨"status", nulTerminated "disabled"⟩], []⟩,
      ⟨"qcom,vidc@1", [], []⟩]⟩]⟩

theorem patch_reads_back_fresh :
    (patch (blobOf staleTree) twoBanks).outcome = .ok (blobOf freshTree) ∧
      parse (blobOf freshTree) = .ok freshTree ∧
      staleTree.SameBut (twoBanks.Writes staleTree.root) freshTree := by
  have hpatch : (patch (blobOf staleTree) twoBanks).outcome = .ok (blobOf freshTree) := by
    decide +kernel
  have hstale : parse (blobOf staleTree) = .ok staleTree := by decide +kernel
  have hfresh : parse (blobOf freshTree) = .ok freshTree := by decide +kernel
  obtain ⟨t, t', hparse, hparse', hsame, -⟩ := patch_reads_back hpatch
  rw [hstale] at hparse
  cases hparse
  rw [hfresh] at hparse'
  cases hparse'
  exact ⟨hpatch, hfresh, hsame⟩

end Patch

end BootAssembly
