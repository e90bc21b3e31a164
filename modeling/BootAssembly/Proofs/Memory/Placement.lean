import BootAssembly.Memory.Plan
import BootAssembly.Proofs.Kernel.Containers

namespace BootAssembly

theorem toNat_max (a b : UInt64) : (max a b).toNat = max a.toNat b.toNat := by
  show (if a ≤ b then b else a).toNat = _
  by_cases h : a ≤ b
  · rw [if_pos h, Nat.max_eq_right (UInt64.le_iff_toNat_le.mp h)]
  · rw [if_neg h, Nat.max_eq_left (by rw [UInt64.le_iff_toNat_le] at h; omega)]

theorem addAddress_toNat {a b n : UInt64} {what : String} (h : addAddress a b what = .ok n) :
    n.toNat = a.toNat + b.toNat := by
  obtain ⟨hfits, rfl⟩ := addAddress_eq_ok.mp h
  rw [UInt64.toNat_add]
  exact Nat.mod_eq_of_lt hfits

theorem Windows.derive_eq_ok {base : UInt64} {offsets : AddressConfig} {w : Windows} :
    (derive base offsets).outcome = .ok w ↔
      w = above base offsets ∧ (above base offsets).Ordered := by
  unfold derive
  by_cases h : (above base offsets).Ordered
  · rw [if_pos h]
    simp only [Traced.outcome_pure, Except.ok.injEq, h, and_true]
    exact eq_comm
  · rw [if_neg h]
    constructor
    · intro hw
      obtain ⟨_, -, hw⟩ := Traced.outcome_bind_eq_ok.mp hw
      cases hw
    · intro hw
      exact absurd hw.2 h

theorem Windows.add_kernelRoom {w : Windows} {is32bit : Bool} {room : Nat}
    (h : w.kernelRoom is32bit = .ok room) :
    (w.kernelFor is32bit).toNat + room = w.deviceTree.toNat := by
  obtain ⟨length, hlength, h⟩ := bind_eq_ok.mp h
  obtain ⟨hordered, rfl⟩ := subAddress_eq_ok.mp hlength
  obtain ⟨-, rfl⟩ := ite_eq_ok.mp h
  rw [UInt64.toNat_sub_of_le _ _ hordered]
  exact Nat.add_sub_cancel' (UInt64.le_iff_toNat_le.mp hordered)

theorem BootImage.Layout.payload_length {r : Region} {image bytes : Bytes}
    (h : payload r image = .ok bytes) : bytes.length = r.size.toNat := by
  obtain ⟨-, hstop, rfl⟩ := slice?_eq_some.mp (payload_eq_ok h)
  rw [length_slice hstop]
  simp only [Span.length, Region.span, Nat.add_sub_cancel_left]

theorem BootImage.Layout.add_length_of_payload {r : Region} {image bytes : Bytes}
    (h : payload r image = .ok bytes) : r.span.start + bytes.length = r.span.stop := by
  rw [payload_length h]
  rfl

namespace Kernel

theorem Unpacked.length_lt {raw : Bytes} {region : Span} {w : Windows} {p : Payload}
    (h : Unpacked raw region w p) (hraw : raw.length < UInt64.size) :
    p.bytes.length < UInt64.size := by
  cases h with
  | member hmember hroom hdata =>
    have hlength := Gzip.gunzip_length_le hdata
    have hend := Windows.add_kernelRoom hroom
    have htree : w.deviceTree.toNat < UInt64.size := w.deviceTree.toNat_lt
    dsimp only
    omega
  | wrapped hmember hmagic hlength hbody =>
    have hfits := add_length_le_of_slice? hbody
    dsimp only
    omega
  | bare hmember hmagic => exact hraw

theorem runningSize_bounds {bytes : Bytes} {w : Windows} {size : UInt64}
    (h : (runningSize bytes w).outcome = .ok size) (hbytes : bytes.length < UInt64.size) :
    bytes.length ≤ size.toNat ∧ w.kernel.toNat + size.toNat < w.deviceTree.toNat := by
  unfold runningSize at h
  split at h
  · cases h
  · rename_i declared hd
    obtain ⟨stop, hstop, h⟩ := Traced.outcome_bind_eq_ok.mp h
    by_cases hreach : w.deviceTree ≤ stop
    · rw [if_pos hreach] at h
      obtain ⟨_, -, h⟩ := Traced.outcome_bind_eq_ok.mp h
      obtain ⟨_, hfail, -⟩ := Traced.outcome_bind_eq_ok.mp h
      cases hfail
    · rw [if_neg hreach] at h
      have hword : (UInt64.ofNat bytes.length).toNat = bytes.length :=
        UInt64.toNat_ofNat_of_lt' hbytes
      have hend := addAddress_toNat hstop
      rw [UInt64.le_iff_toNat_le] at hreach
      cases h
      refine ⟨?_, by omega⟩
      split
      · omega
      · rw [toNat_max, hword]
        omega

structure Measured (k : Kernel) (w : Windows) : Prop where
  short : k.bytes.length < UInt64.size
  covered : k.is32bit = false → k.bytes.length ≤ k.imageSize.toNat
  below : k.is32bit = false → w.kernel.toNat + k.imageSize.toNat < w.deviceTree.toNat

theorem Recognized.measured {p : Payload} {w : Windows} {k : Kernel} (h : Recognized p w k)
    (hbytes : p.bytes.length < UInt64.size) : k.Measured w := by
  cases h with
  | wide hwide hsize =>
    obtain ⟨hcovered, hbelow⟩ := runningSize_bounds hsize hbytes
    exact ⟨hbytes, fun _ => hcovered, fun _ => hbelow⟩
  | recorded hwide hstart => exact ⟨hbytes, fun h => (nomatch h), fun h => (nomatch h)⟩
  | declared hwide hnone happended => exact ⟨hbytes, fun h => (nomatch h), fun h => (nomatch h)⟩

theorem extract_measured {image : Bytes} {layout : BootImage.Layout} {w : Windows} {k : Kernel}
    (h : (extract image layout w).outcome = .ok k) : k.Measured w := by
  obtain ⟨raw, payload, hraw, hunpacked, hrecognized⟩ := extract_eq_ok h
  have hlength := BootImage.Layout.payload_length hraw
  have hword : raw.length < UInt64.size := by
    rw [hlength]
    exact Nat.lt_of_lt_of_le layout.kernel.size.toNat_lt (by decide)
  exact hrecognized.measured (hunpacked.length_lt hword)

end Kernel

namespace MemoryPlan

theorem placedSize_bounds {layout : BootImage.Layout} {kernel : Kernel} {w : Windows}
    {size : UInt64} (hk : kernel.Measured w) (h : placedSize layout kernel w = .ok size) :
    kernel.bytes.length ≤ size.toNat ∧
      (w.kernelFor kernel.is32bit).toNat + size.toNat ≤ w.deviceTree.toNat := by
  have hword : (UInt64.ofNat kernel.bytes.length).toNat = kernel.bytes.length :=
    UInt64.toNat_ofNat_of_lt' hk.short
  unfold placedSize at h
  cases hwidth : kernel.is32bit with
  | false =>
    rw [if_neg (by rw [hwidth]; decide)] at h
    cases h
    have hbelow := hk.below hwidth
    exact ⟨hk.covered hwidth, Nat.le_of_lt hbelow⟩
  | true =>
    rw [if_pos hwidth] at h
    dsimp only at h
    split at h
    · cases h
    · rename_i stop hstop
      have hend := addAddress_toNat hstop
      split at h
      · cases h
      · rename_i hfits
        cases h
        rw [UInt64.lt_iff_toNat_lt, hend] at hfits
        rw [toNat_max, hword] at hfits ⊢
        exact ⟨Nat.le_max_right _ _, Nat.not_lt.mp hfits⟩

theorem make_eq_ok {layout : BootImage.Layout} {kernel : Kernel} {base : UInt64}
    {offsets : AddressConfig} {plan : MemoryPlan}
    (h : (make layout kernel base offsets).outcome = .ok plan) :
    let w := Windows.above base offsets
    w.Ordered ∧ layout.ramdisk.size.toUInt64 ≤ w.ramdiskEnd - w.ramdisk ∧
      ∃ size, placedSize layout kernel w = .ok size ∧
        plan = ⟨w.kernelFor kernel.is32bit, size, w.ramdisk, layout.ramdisk.size.toUInt64,
          w.ramdiskEnd, w.deviceTree, kernel.is32bit⟩ := by
  obtain ⟨w, hw, h⟩ := Traced.outcome_bind_eq_ok.mp h
  obtain ⟨rfl, hordered⟩ := Windows.derive_eq_ok.mp hw
  obtain ⟨-, h⟩ := (Traced.outcome_guard_eq_ok (by intro hfail; cases hfail)).mp h
  by_cases hroom : (Windows.above base offsets).ramdiskEnd - (Windows.above base offsets).ramdisk <
      layout.ramdisk.size.toUInt64
  · rw [if_pos hroom] at h
    obtain ⟨_, -, h⟩ := Traced.outcome_bind_eq_ok.mp h
    obtain ⟨_, hfail, -⟩ := Traced.outcome_bind_eq_ok.mp h
    cases hfail
  · rw [if_neg hroom] at h
    obtain ⟨size, hsize, h⟩ := Traced.outcome_bind_eq_ok.mp h
    obtain ⟨_, -, h⟩ := Traced.outcome_bind_eq_ok.mp h
    cases h
    exact ⟨hordered, UInt64.not_lt.mp hroom, size, hsize, rfl⟩

structure Holds (p : MemoryPlan) (kernel tree ramdisk : Bytes) : Prop where
  kernel_below : p.kernelAddr.toNat + max kernel.length p.kernelSize.toNat ≤ p.deviceTreeAddr.toNat
  tree_below : p.deviceTreeAddr.toNat + tree.length ≤ p.ramdiskAddr.toNat
  ramdisk_below : p.ramdiskAddr.toNat + ramdisk.length ≤ p.ramdiskEnd.toNat

theorem make_holds {layout : BootImage.Layout} {kernel : Kernel} {base : UInt64}
    {offsets : AddressConfig} {plan : MemoryPlan}
    (hk : kernel.Measured (.above base offsets))
    (h : (make layout kernel base offsets).outcome = .ok plan) {tree ramdisk : Bytes}
    (htree : plan.checkTreeFits tree.length = .ok ())
    (hramdisk : ramdisk.length = layout.ramdisk.size.toNat) :
    plan.Holds kernel.bytes tree ramdisk := by
  obtain ⟨⟨-, -, hordered, hend⟩, hroom, size, hsize, rfl⟩ := make_eq_ok h
  obtain ⟨hcovered, hbelow⟩ := placedSize_bounds hk hsize
  obtain ⟨hfits, -⟩ := ite_eq_ok.mp htree
  rw [UInt64.toNat_sub_of_le _ _ (UInt64.le_of_lt hordered)] at hfits
  rw [UInt64.le_iff_toNat_le, UInt64.toNat_sub_of_le _ _ (UInt64.le_of_lt hend),
    UInt32.toNat_toUInt64] at hroom
  rw [UInt64.lt_iff_toNat_lt] at hordered hend
  constructor
  · rw [Nat.max_eq_right hcovered]
    exact hbelow
  · dsimp only at hfits ⊢
    omega
  · dsimp only
    omega

end MemoryPlan

end BootAssembly
