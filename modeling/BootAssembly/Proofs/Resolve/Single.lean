import BootAssembly.Proofs.Resolve.Chain
import BootAssembly.Proofs.Resolve.Provenance

namespace BootAssembly.Resolve

open DeviceTree

variable {t : DeviceTree} {rest : Bytes} {board : Board} {windows : Windows} {image : Bytes}
  {kernel : Kernel} {layout : BootImage.Layout}

theorem whole_blobOf (hlimit : encodedSize t < UInt32.size) : Whole (blobOf t) := by
  have hread := read_blobOf hlimit []
  rw [List.append_nil] at hread
  refine ⟨headerOf t, hread, ?_⟩
  rw [length_blobOf]
  exact toNat_ofNat_size hlimit (Nat.le_refl _)

theorem scan_single (hlimit : encodedSize t < UInt32.size) (h : NoBlob rest)
    (hlength : (blobOf t ++ rest).length < UInt32.size) :
    scan (blobOf t ++ rest) 0 = .ok [⟨0, (blobOf t).length⟩] := by
  have hbuffer : UInt32.size ≤ bufferLimit := by decide
  have hregion : (blobOf t ++ rest).length ≤ bufferLimit := by omega
  have hblobs : (blobOf t ++ rest).drop 0 = [blobOf t].flatten ++ rest := by simp
  have hwhole : ∀ blob ∈ [blobOf t], Whole blob :=
    List.forall_mem_singleton.mpr (whole_blobOf hlimit)
  have hscan := scan_blobs hregion hblobs (Nat.zero_le _) hwhole h
  rwa [spansFrom, spansFrom, Nat.zero_add] at hscan

theorem choose_singleton_of_le {region bytes : Bytes} {blob : Span}
    (hslice : slice blob region = bytes) (h : bytes.length ≤ bufferLimit) (board : Board) :
    (choose region [blob] board none).outcome = .ok ⟨bytes, .single, none⟩ := by
  have hcopy : copyBuffer bytes "device tree" = .ok bytes := copyBuffer_eq_ok.mpr ⟨h, rfl⟩
  refine Traced.outcome_bind_eq_ok.mpr ⟨(), rfl, ?_⟩
  rw [hslice]
  exact Traced.outcome_bind_eq_ok.mpr ⟨bytes, hcopy, rfl⟩

theorem resolve_slot (hlimit : encodedSize t < UInt32.size) (hrest : NoBlob rest)
    (hkernel : kernel.appendedTree = none)
    (hslot : BootImage.Layout.payload layout.deviceTree image = .ok (blobOf t ++ rest))
    (hlength : (blobOf t ++ rest).length = layout.deviceTree.size.toNat)
    (hroom : (blobOf t).length ≤ windows.treeRoom.toNat) :
    (resolve board windows image kernel layout none).outcome = .ok ⟨blobOf t, .single, none⟩ := by
  have hshort := headerSize_lt_encodedSize t
  rw [← length_blobOf] at hshort
  have hword := layout.deviceTree.size.toNat_lt
  have hpresent : layout.deviceTree.isEmpty = false := by
    rw [BootImage.Region.isEmpty, beq_eq_false_iff_ne]
    intro hzero
    rw [hzero, List.length_append, UInt32.toNat_zero] at hlength
    omega
  have harea : searchArea image kernel layout = .ok (blobOf t ++ rest, 0) := by
    rw [searchArea, hkernel, hpresent, hslot]
    rfl
  have hscan : scan (blobOf t ++ rest) 0 = .ok [⟨0, (blobOf t).length⟩] :=
    scan_single hlimit hrest (by rw [hlength]; exact hword)
  have hslice : slice ⟨0, (blobOf t).length⟩ (blobOf t ++ rest) = blobOf t := by
    rw [slice, Span.length, List.drop_zero, Nat.sub_zero, List.take_left]
  have hbuffer : UInt32.size ≤ bufferLimit := by decide
  have hchosen := choose_singleton_of_le hslice (by rw [length_blobOf]; omega) board
  exact resolve_eq_ok.mpr ⟨_, 0, _, harea, hscan, hchosen, hroom⟩

end BootAssembly.Resolve
