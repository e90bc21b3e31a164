import BootAssembly.Proofs.Resolve.Slot

namespace BootAssembly.Kernel

structure Coherent (raw : Bytes) (region : Span) (w : Windows) (k : Kernel) : Prop
    extends k.Measured w where
  region_start : region.start ≤ k.treeRegion.start
  region_ordered : k.treeRegion.start ≤ k.treeRegion.stop
  region_stop : k.treeRegion.stop ≤ region.stop
  appended_le : ∀ start ∈ k.appendedTree, start ≤ k.treeRegion.length
  unpacked : ∃ appended, Unpacked raw region w ⟨k.bytes, appended, k.treeRegion⟩ ∧
    (appended = none ∨ appended = k.appendedTree)
  inflated_below : Gzip.isMember raw = true →
    w.kernel.toNat + k.bytes.length ≤ w.deviceTree.toNat
  wide_iff : k.is32bit = false ↔ le32At? k.bytes magic64Offset = some magic64
  narrow_size : k.is32bit = true → k.imageSize.toNat = k.bytes.length
  declared : ¬ Contained raw → ∀ start ∈ k.appendedTree, k.is32bit = true ∧ 0 < start ∧
    start ≤ k.bytes.length ∧ (le32At? k.bytes treeOffset32Offset).map UInt32.toNat = some start

variable {raw : Bytes} {region : Span} {w : Windows} {p : Payload} {k : Kernel}

theorem Unpacked.inflated_below (h : Unpacked raw region w p) (hmember : Gzip.isMember raw = true) :
    w.kernel.toNat + p.bytes.length ≤ w.deviceTree.toNat := by
  cases h with
  | member _ hroom hdata =>
    rw [← Windows.add_kernelRoom hroom]
    exact Nat.add_le_add_left (Gzip.gunzip_length_le hdata) _
  | wrapped hplain => exact absurd hmember hplain
  | bare hplain => exact absurd hmember hplain

theorem Unpacked.length_treeRegion (h : Unpacked raw region w p)
    (hregion : region.start + raw.length = region.stop) (hnone : p.appendedTree = none) :
    p.treeRegion.length = p.bytes.length := by
  cases h with
  | member => cases hnone
  | wrapped => cases hnone
  | bare =>
    rw [Span.length]
    dsimp only
    omega

theorem Recognized.kept (h : Recognized p w k) :
    k.bytes = p.bytes ∧ k.treeRegion = p.treeRegion ∧
      (p.appendedTree = none ∨ p.appendedTree = k.appendedTree) := by
  cases h with
  | wide hwide hsize => exact ⟨rfl, rfl, .inr rfl⟩
  | recorded hwide hstart => exact ⟨rfl, rfl, .inr hstart⟩
  | declared hwide hnone happended => exact ⟨rfl, rfl, .inl hnone⟩

theorem Recognized.wide_iff (h : Recognized p w k) :
    k.is32bit = false ↔ le32At? k.bytes magic64Offset = some magic64 := by
  cases h with
  | wide hwide hsize => simpa [is64bit] using hwide
  | recorded hwide hstart => simpa [is64bit] using hwide
  | declared hwide hnone happended => simpa [is64bit] using hwide

theorem Recognized.narrow_size (h : Recognized p w k) (hbytes : p.bytes.length < UInt64.size)
    (hnarrow : k.is32bit = true) : k.imageSize.toNat = k.bytes.length := by
  cases h with
  | wide hwide hsize => cases hnarrow
  | recorded hwide hstart => exact UInt64.toNat_ofNat_of_lt' hbytes
  | declared hwide hnone happended => exact UInt64.toNat_ofNat_of_lt' hbytes

theorem Recognized.declared_start (h : Recognized p w k) (hnone : p.appendedTree = none)
    {start : Nat} (hstart : start ∈ k.appendedTree) :
    k.is32bit = true ∧ 0 < start ∧ start ≤ k.bytes.length ∧
      (le32At? k.bytes treeOffset32Offset).map UInt32.toNat = some start := by
  cases h with
  | wide hwide hsize => rw [hnone] at hstart; cases hstart
  | recorded hwide hrecorded => rw [hnone] at hrecorded; cases hrecorded
  | declared hwide hnone happended =>
    obtain ⟨offset, hoffset, hfits, rfl⟩ := declaredTree_eq_ok happended
    obtain ⟨hzero, rfl⟩ : offset ≠ 0 ∧ offset.toNat = start := by
      by_cases hzero : offset = 0
      · rw [if_pos hzero] at hstart
        cases hstart
      · rw [if_neg hzero] at hstart
        exact ⟨hzero, Option.some.inj hstart⟩
    have hpositive : 0 < offset.toNat :=
      Nat.pos_of_ne_zero fun h => hzero (UInt32.toNat_inj.mp h)
    exact ⟨rfl, hpositive, hfits, by rw [hoffset]; rfl⟩

theorem extract_coherent {image : Bytes} {layout : BootImage.Layout}
    (h : (extract image layout w).outcome = .ok k) :
    ∃ raw, BootImage.Layout.payload layout.kernel image = .ok raw ∧
      k.Coherent raw layout.kernel.span w := by
  obtain ⟨raw, p, hraw, hunpacked, hrecognized⟩ := extract_eq_ok h
  have hmeasured := extract_measured h
  have hinside := BootImage.Layout.add_length_of_payload hraw
  obtain ⟨hstart, hordered, hstop, happended⟩ := hunpacked.treeRegion_within hinside
  obtain ⟨hbytes, hregion, hkept⟩ := hrecognized.kept
  have hcontained := hunpacked.appendedTree.1
  rw [← hregion] at hstart hordered hstop happended
  refine ⟨raw, hraw, { hmeasured with
    region_start := hstart, region_ordered := hordered, region_stop := Nat.le_of_eq hstop,
    appended_le := ?_, unpacked := ?_, inflated_below := ?_, wide_iff := hrecognized.wide_iff,
    narrow_size := hrecognized.narrow_size (hbytes ▸ hmeasured.short), declared := ?_ }⟩
  · intro start hk
    obtain hnone | hsame := hkept
    · -- a start that the container did not give is in the header of a bare kernel
      rw [hregion, hunpacked.length_treeRegion hinside hnone, ← hbytes]
      exact (hrecognized.declared_start hnone hk).2.2.1
    · exact happended start (hsame ▸ hk)
  · exact ⟨p.appendedTree, by rw [hbytes, hregion]; exact hunpacked, hkept⟩
  · intro hmember
    rw [hbytes]
    exact hunpacked.inflated_below hmember
  · intro hplain start hk
    exact hrecognized.declared_start (hcontained.mpr hplain) hk

def wideKernel : Bytes :=
  List.replicate 16 0 ++ littleEndian 8 0x200 ++ List.replicate 32 0 ++ le32 magic64

def wideImage : Bytes :=
  List.replicate 64 0xff ++ (wrapperMagic ++ le32 60 ++ wideKernel ++ [0xd0, 0x0d, 0xfe, 0xed])

def wideLayout : BootImage.Layout where
  pageSize := 64
  kernel := ⟨64, 84, 128⟩
  ramdisk := ⟨192, 1, 64⟩
  second := ⟨256, 0, 0⟩
  deviceTree := ⟨256, 0, 0⟩
  imageSize := 256

theorem extract_coherent_wide :
    (extract wideImage wideLayout Resolve.roomyWindows).outcome =
        .ok ⟨wideKernel, false, some 60, ⟨84, 148⟩, 0x200⟩ ∧
      ∃ raw, BootImage.Layout.payload wideLayout.kernel wideImage = .ok raw ∧
        Coherent raw ⟨64, 148⟩ Resolve.roomyWindows
          ⟨wideKernel, false, some 60, ⟨84, 148⟩, 0x200⟩ := by
  have hextract : (extract wideImage wideLayout Resolve.roomyWindows).outcome =
      .ok ⟨wideKernel, false, some 60, ⟨84, 148⟩, 0x200⟩ := by decide +kernel
  exact ⟨hextract, extract_coherent hextract⟩

end BootAssembly.Kernel
