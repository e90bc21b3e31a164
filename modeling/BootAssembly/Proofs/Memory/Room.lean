import BootAssembly.Proofs.Resolve.Slot

namespace BootAssembly

namespace Kernel

structure Bare (raw : Bytes) : Prop where
  wide : is64bit raw = true
  plain : ¬ Contained raw

def span64 (raw : Bytes) : Nat := max (le64At raw imageSize64Offset).toNat raw.length

variable {raw : Bytes} {w : Windows}

theorem length_of_is64bit (h : is64bit raw = true) : magic64Offset + 4 ≤ raw.length := by
  rw [is64bit, beq_iff_eq, le32At?] at h
  split at h
  · assumption
  · cases h

theorem Bare.ne_nil (h : Bare raw) : raw ≠ [] := by
  have hlength := length_of_is64bit h.wide
  rintro rfl
  exact absurd hlength (by decide)

theorem runningSize_of_room (hwide : is64bit raw = true) (hraw : raw.length < UInt64.size)
    (hroom : w.kernel.toNat + span64 raw < w.deviceTree.toNat) :
    (runningSize raw w).outcome = .ok (.ofNat (span64 raw)) := by
  have hlength := length_of_is64bit hwide
  have hdeclared : le64At? raw imageSize64Offset = some (le64At raw imageSize64Offset) := by
    rw [le64At?, if_pos]
    simp only [magic64Offset, imageSize64Offset] at hlength ⊢
    omega
  have hword : (UInt64.ofNat raw.length).toNat = raw.length := UInt64.toNat_ofNat_of_lt' hraw
  have htree := w.deviceTree.toNat_lt
  have hlimit : UInt64.size = 2 ^ 64 := rfl
  have hspan : (UInt64.ofNat (span64 raw)).toNat = span64 raw :=
    UInt64.toNat_ofNat_of_lt' (by omega)
  have hsize : (if le64At raw imageSize64Offset = 0 then UInt64.ofNat raw.length
      else max (le64At raw imageSize64Offset) (.ofNat raw.length)) = .ofNat (span64 raw) := by
    apply UInt64.toNat_inj.mp
    rw [hspan, span64]
    split
    · rename_i hzero
      rw [hzero, hword]
      exact (Nat.max_eq_right (Nat.zero_le _)).symm
    · rw [toNat_max, hword]
  have hadd : addAddress w.kernel (.ofNat (span64 raw)) "kernel end" =
      .ok (w.kernel + .ofNat (span64 raw)) :=
    addAddress_eq_ok.mpr ⟨by rw [hspan]; omega, rfl⟩
  unfold runningSize
  rw [hdeclared]
  dsimp only
  rw [hsize]
  refine Traced.outcome_bind_eq_ok.mpr ⟨_, hadd, ?_⟩
  have hbelow : ¬ w.deviceTree ≤ w.kernel + .ofNat (span64 raw) := by
    rw [UInt64.le_iff_toNat_le, addAddress_toNat hadd, hspan]
    omega
  rw [if_neg hbelow]
  rfl

theorem extract_bare {image : Bytes} {layout : BootImage.Layout} (h : Bare raw)
    (hraw : BootImage.Layout.payload layout.kernel image = .ok raw)
    (hroom : w.kernel.toNat + span64 raw < w.deviceTree.toNat) :
    (extract image layout w).outcome =
      .ok ⟨raw, false, none, layout.kernel.span, .ofNat (span64 raw)⟩ := by
  have hlength := BootImage.Layout.payload_length hraw
  have hsize := layout.kernel.size.toNat_lt
  obtain ⟨hmember, hwrapped⟩ := not_or.mp h.plain
  have hcopy : copyBuffer raw "kernel copy" = .ok raw :=
    copyBuffer_eq_ok.mpr ⟨by change _ ≤ 0x7FFFFFFFFFFFFFFF; omega, rfl⟩
  have hrunning := runningSize_of_room h.wide (by change _ < 0x10000000000000000; omega) hroom
  have hunpack : (unpack raw layout.kernel.span w).outcome = .ok ⟨raw, none, layout.kernel.span⟩ := by
    unfold unpack
    rw [if_neg hmember, if_neg hwrapped]
    exact Traced.outcome_bind_eq_ok.mpr ⟨raw, hcopy, rfl⟩
  refine Traced.outcome_bind_eq_ok.mpr ⟨raw, hraw, ?_⟩
  refine Traced.outcome_bind_eq_ok.mpr ⟨_, hunpack, ?_⟩
  unfold ofPayload
  rw [if_pos h.wide]
  refine Traced.outcome_bind_eq_ok.mpr ⟨_, hrunning, ?_⟩
  exact Traced.outcome_bind_eq_ok.mpr ⟨_, rfl, rfl⟩

end Kernel

namespace MemoryPlan

theorem make_of_room {layout : BootImage.Layout} {kernel : Kernel} {base : UInt64}
    {offsets : AddressConfig} {size : UInt64}
    (hordered : (Windows.above base offsets).Ordered)
    (hplaced : placedSize layout kernel (.above base offsets) = .ok size)
    (hramdisk : (Windows.above base offsets).ramdisk.toNat + layout.ramdisk.size.toNat ≤
      (Windows.above base offsets).ramdiskEnd.toNat) :
    (make layout kernel base offsets).outcome =
      .ok ⟨(Windows.above base offsets).kernelFor kernel.is32bit, size,
        (Windows.above base offsets).ramdisk, layout.ramdisk.size.toUInt64,
        (Windows.above base offsets).ramdiskEnd, (Windows.above base offsets).deviceTree,
        kernel.is32bit⟩ := by
  obtain ⟨-, -, -, hend⟩ := id hordered
  have hinverted : ¬ (Windows.above base offsets).ramdiskEnd <
      (Windows.above base offsets).ramdisk := UInt64.lt_asymm hend
  have hroom : ¬ (Windows.above base offsets).ramdiskEnd -
      (Windows.above base offsets).ramdisk < layout.ramdisk.size.toUInt64 := by
    rw [UInt64.lt_iff_toNat_lt, UInt64.toNat_sub_of_le _ _ (UInt64.le_of_lt hend),
      UInt32.toNat_toUInt64]
    omega
  unfold make
  refine Traced.outcome_bind_eq_ok.mpr ⟨_, Windows.derive_eq_ok.mpr ⟨rfl, hordered⟩, ?_⟩
  dsimp only
  rw [if_neg hinverted, if_neg hroom]
  refine Traced.outcome_bind_eq_ok.mpr ⟨size, hplaced, ?_⟩
  exact Traced.outcome_bind_eq_ok.mpr ⟨(), rfl, rfl⟩

end MemoryPlan

end BootAssembly
