import BootAssembly.Proofs.Gzip.Member

namespace BootAssembly.Kernel

inductive Unpacked (raw : Bytes) (region : Span) (w : Windows) : Payload → Prop
  | member {data : Bytes} {room taken : Nat} (hmember : Gzip.isMember raw = true)
      (hroom : w.kernelRoom false = .ok room) (hdata : Gzip.gunzip raw room = .ok (data, taken)) :
      Unpacked raw region w ⟨data, some taken, region⟩
  | wrapped {length : UInt32} {body : Bytes} (hmember : Gzip.isMember raw ≠ true)
      (hmagic : raw.take wrapperMagic.length = wrapperMagic)
      (hlength : le32At? raw wrapperMagic.length = some length)
      (hbody : slice? ⟨wrapperSize, wrapperSize + length.toNat⟩ raw = some body) :
      Unpacked raw region w ⟨body, some body.length, ⟨region.start + wrapperSize, region.stop⟩⟩
  | bare (hmember : Gzip.isMember raw ≠ true)
      (hmagic : raw.take wrapperMagic.length ≠ wrapperMagic) :
      Unpacked raw region w ⟨raw, none, region⟩

inductive Recognized (p : Payload) (w : Windows) : Kernel → Prop
  | wide {size : UInt64} (hwide : is64bit p.bytes = true)
      (hsize : (runningSize p.bytes w).outcome = .ok size) :
      Recognized p w ⟨p.bytes, false, p.appendedTree, p.treeRegion, size⟩
  | recorded {start : Nat} (hwide : is64bit p.bytes ≠ true) (hstart : p.appendedTree = some start) :
      Recognized p w ⟨p.bytes, true, some start, p.treeRegion, .ofNat p.bytes.length⟩
  | declared {appended : Option Nat} (hwide : is64bit p.bytes ≠ true) (hnone : p.appendedTree = none)
      (happended : declaredTree p.bytes = .ok appended) :
      Recognized p w ⟨p.bytes, true, appended, p.treeRegion, .ofNat p.bytes.length⟩

theorem add_length_le_of_slice? {start length : Nat} {raw body : Bytes}
    (h : slice? ⟨start, start + length⟩ raw = some body) : start + body.length ≤ raw.length := by
  obtain ⟨-, hstop, rfl⟩ := slice?_eq_some.mp h
  rw [length_slice hstop, Span.length, Nat.add_sub_cancel_left]
  exact hstop

theorem unwrap_eq_ok {raw body : Bytes} (h : unwrap raw = .ok body) :
    ∃ length, le32At? raw wrapperMagic.length = some length ∧
      slice? ⟨wrapperSize, wrapperSize + length.toNat⟩ raw = some body := by
  unfold unwrap at h
  split at h
  · cases h
  · rename_i length hlength
    obtain ⟨stop, hstop, h⟩ := bind_eq_ok.mp h
    obtain ⟨-, rfl⟩ := addSize_eq_ok.mp hstop
    split at h
    · cases h
    · rename_i hbody
      cases h
      exact ⟨length, hlength, hbody⟩

theorem declaredTree_eq_ok {bytes : Bytes} {appended : Option Nat}
    (h : declaredTree bytes = .ok appended) :
    ∃ offset, le32At? bytes treeOffset32Offset = some offset ∧ offset.toNat ≤ bytes.length ∧
      appended = if offset = 0 then none else some offset.toNat := by
  unfold declaredTree at h
  split at h
  · cases h
  · rename_i offset hoffset
    obtain ⟨hfits, happended⟩ := refuse_eq_ok.mp h
    cases happended
    exact ⟨offset, hoffset, Nat.not_lt.mp hfits, rfl⟩

theorem unpacked_of_unpack {raw : Bytes} {region : Span} {w : Windows} {p : Payload}
    (h : (unpack raw region w).outcome = .ok p) : Unpacked raw region w p := by
  unfold unpack at h
  split at h
  · rename_i hmember
    obtain ⟨room, hroom, h⟩ := Traced.outcome_bind_eq_ok.mp h
    obtain ⟨_, -, h⟩ := Traced.outcome_bind_eq_ok.mp h
    obtain ⟨⟨data, taken⟩, hdata, h⟩ := Traced.outcome_bind_eq_ok.mp h
    obtain ⟨_, -, h⟩ := Traced.outcome_bind_eq_ok.mp h
    cases h
    exact .member hmember hroom hdata
  · rename_i hmember
    split at h
    · rename_i hmagic
      obtain ⟨body, hunwrap, h⟩ := Traced.outcome_bind_eq_ok.mp h
      obtain ⟨start, hstart, h⟩ := Traced.outcome_bind_eq_ok.mp h
      obtain ⟨_, -, h⟩ := Traced.outcome_bind_eq_ok.mp h
      obtain ⟨bytes, hcopy, h⟩ := Traced.outcome_bind_eq_ok.mp h
      obtain ⟨-, rfl⟩ := addSize_eq_ok.mp hstart
      obtain ⟨-, rfl⟩ := copyBuffer_eq_ok.mp hcopy
      obtain ⟨length, hlength, hbody⟩ := unwrap_eq_ok hunwrap
      cases h
      exact .wrapped hmember hmagic hlength hbody
    · rename_i hmagic
      obtain ⟨bytes, hcopy, hpayload⟩ := Traced.outcome_bind_eq_ok.mp h
      obtain ⟨-, rfl⟩ := copyBuffer_eq_ok.mp hcopy
      cases hpayload
      exact .bare hmember hmagic

theorem recognized_of_ofPayload {p : Payload} {w : Windows} {k : Kernel}
    (h : (ofPayload p w).outcome = .ok k) : Recognized p w k := by
  unfold ofPayload at h
  split at h
  · rename_i hwide
    obtain ⟨size, hsize, h⟩ := Traced.outcome_bind_eq_ok.mp h
    obtain ⟨_, hkernel, h⟩ := Traced.outcome_bind_eq_ok.mp h
    obtain ⟨_, -, h⟩ := Traced.outcome_bind_eq_ok.mp h
    cases hkernel
    cases h
    exact .wide hwide hsize
  · rename_i hwide
    split at h
    · rename_i start hstart
      obtain ⟨appended, happended, h⟩ := Traced.outcome_bind_eq_ok.mp h
      obtain ⟨_, hkernel, h⟩ := Traced.outcome_bind_eq_ok.mp h
      obtain ⟨_, -, h⟩ := Traced.outcome_bind_eq_ok.mp h
      cases happended
      cases hkernel
      cases h
      exact .recorded hwide hstart
    · rename_i hnone
      obtain ⟨appended, happended, h⟩ := Traced.outcome_bind_eq_ok.mp h
      obtain ⟨_, hkernel, h⟩ := Traced.outcome_bind_eq_ok.mp h
      obtain ⟨_, -, h⟩ := Traced.outcome_bind_eq_ok.mp h
      cases hkernel
      cases h
      exact .declared hwide hnone happended

theorem Unpacked.treeRegion_within {raw : Bytes} {region : Span} {w : Windows} {p : Payload}
    (h : Unpacked raw region w p) (hregion : region.start + raw.length = region.stop) :
    region.start ≤ p.treeRegion.start ∧ p.treeRegion.start ≤ p.treeRegion.stop ∧
      p.treeRegion.stop = region.stop ∧ ∀ start ∈ p.appendedTree, start ≤ p.treeRegion.length := by
  cases h with
  | member hmember hroom hdata =>
    refine ⟨Nat.le_refl _, by dsimp only; omega, rfl, ?_⟩
    rintro _ ⟨⟩
    have htaken := (Gzip.length_of_gunzip hdata).2
    rw [Span.length]
    dsimp only
    omega
  | wrapped hmember hmagic hlength hbody =>
    have hfits := add_length_le_of_slice? hbody
    refine ⟨Nat.le_add_right _ _, by dsimp only; omega, rfl, ?_⟩
    rintro _ ⟨⟩
    rw [Span.length]
    dsimp only
    omega
  | bare hmember hmagic => exact ⟨Nat.le_refl _, by dsimp only; omega, rfl, by rintro _ ⟨⟩⟩

theorem extract_eq_ok {image : Bytes} {layout : BootImage.Layout} {w : Windows} {k : Kernel}
    (h : (extract image layout w).outcome = .ok k) :
    ∃ raw p, BootImage.Layout.payload layout.kernel image = .ok raw ∧
      Unpacked raw layout.kernel.span w p ∧ Recognized p w k := by
  obtain ⟨raw, hraw, h⟩ := Traced.outcome_bind_eq_ok.mp h
  obtain ⟨payload, hpayload, h⟩ := Traced.outcome_bind_eq_ok.mp h
  exact ⟨raw, payload, hraw, unpacked_of_unpack hpayload, recognized_of_ofPayload h⟩

end BootAssembly.Kernel
