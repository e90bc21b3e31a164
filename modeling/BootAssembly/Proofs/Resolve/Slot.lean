import BootAssembly.Proofs.Memory.Placement
import BootAssembly.Proofs.Resolve.Provenance

namespace BootAssembly

namespace Kernel

def Contained (raw : Bytes) : Prop :=
  Gzip.isMember raw = true ∨ raw.take wrapperMagic.length = wrapperMagic

/-- The payloads that give a place for appended trees, whether or not one is there. -/
def RecordsTree (raw : Bytes) : Prop :=
  Contained raw ∨ is64bit raw = false ∧ le32At? raw treeOffset32Offset ≠ some 0

theorem Recognized.appendedTree {p : Payload} {w : Windows} {k : Kernel} (h : Recognized p w k) :
    k.treeRegion = p.treeRegion ∧
      (k.appendedTree = none ↔ p.appendedTree = none ∧
        (is64bit p.bytes = true ∨ le32At? p.bytes treeOffset32Offset = some 0)) := by
  cases h with
  | wide hwide hsize => simp [hwide]
  | recorded hwide hstart => simp [hstart]
  | declared hwide hnone happended =>
    obtain ⟨offset, hoffset, -, rfl⟩ := declaredTree_eq_ok happended
    by_cases hzero : offset = 0 <;> simp [hnone, hwide, hoffset, hzero]

theorem Unpacked.appendedTree {raw : Bytes} {region : Span} {w : Windows} {p : Payload}
    (h : Unpacked raw region w p) :
    (p.appendedTree = none ↔ ¬ Contained raw) ∧ (p.appendedTree = none → p.bytes = raw) := by
  cases h with
  | member hmember hroom hdata => exact ⟨by simp [Contained, hmember], fun h => (nomatch h)⟩
  | wrapped hmember hmagic hlength hbody =>
    exact ⟨by simp [Contained, hmagic], fun h => (nomatch h)⟩
  | bare hmember hmagic => exact ⟨by simp [Contained, hmember, hmagic], fun _ => rfl⟩

theorem extract_appendedTree {image : Bytes} {layout : BootImage.Layout} {w : Windows} {k : Kernel}
    (h : (extract image layout w).outcome = .ok k) :
    slice? k.treeRegion image = some (slice k.treeRegion image) ∧
      ∃ raw, BootImage.Layout.payload layout.kernel image = .ok raw ∧
        (k.appendedTree = none ↔ ¬ RecordsTree raw) := by
  obtain ⟨raw, payload, hraw, hunpacked, hrecognized⟩ := extract_eq_ok h
  obtain ⟨-, hstop, -⟩ := slice?_eq_some.mp (BootImage.Layout.payload_eq_ok hraw)
  obtain ⟨hregion, hnone⟩ := hrecognized.appendedTree
  obtain ⟨-, hordered, hend, -⟩ :=
    hunpacked.treeRegion_within (BootImage.Layout.add_length_of_payload hraw)
  obtain ⟨hrecorded, hbytes⟩ := hunpacked.appendedTree
  refine ⟨slice?_eq_some.mpr ⟨?_, ?_, rfl⟩, _, hraw, ?_⟩
  · rw [hregion]
    exact hordered
  · rw [hregion, hend]
    exact hstop
  · rw [hnone, RecordsTree, not_or, hrecorded]
    apply and_congr_right
    intro hplain
    rw [hbytes (hrecorded.mpr hplain), not_and_or, Bool.not_eq_false, not_not]

end Kernel

namespace Resolve

open DeviceTree

variable {board : Board} {windows : Windows} {image : Bytes} {kernel : Kernel}
variable {layout : BootImage.Layout}

def NothingAppended (image : Bytes) (kernel : Kernel) : Prop :=
  ∀ start, kernel.appendedTree = some start →
    scan (slice kernel.treeRegion image) start = .ok []

theorem choose_nil (region : Bytes) (board : Board) (overlays : Option Bytes) :
    (choose region [] board overlays).outcome = .error .noDeviceTreeMatch := by
  have hnone : (candidates region []).outcome = .ok [] := candidates_outcome region []
  cases overlays with
  | none =>
    exact (Traced.outcome_bind_of_ok hnone).trans
      (Traced.outcome_bind_of_error (Match.select_nil board .full))
  | some overlays =>
    exact (Traced.outcome_bind_of_ok hnone).trans
      (Traced.outcome_bind_of_error (Match.select_nil board .soc))

theorem resolve_of_scan_nil {region : Bytes} {start : Nat} {overlays : Option Bytes}
    (harea : searchArea image kernel layout = .ok (region, start))
    (hscan : scan region start = .ok []) :
    (resolve board windows image kernel layout overlays).outcome = .error .noDeviceTreeMatch := by
  refine (Traced.outcome_bind_of_ok (a := (region, start)) harea).trans ?_
  refine (Traced.outcome_bind_of_ok (a := []) hscan).trans ?_
  refine (Traced.outcome_bind_of_ok (a := ()) rfl).trans ?_
  exact Traced.outcome_bind_of_error (choose_nil region board overlays)

/-- Once a kernel gives a place for appended trees, the image's own tree is never looked at: not
even when nothing is appended. -/
theorem slot_searched_iff (hkernel : (Kernel.extract image layout windows).outcome = .ok kernel)
    (hslot : layout.deviceTree.isEmpty = false) (hnothing : NothingAppended image kernel)
    (board : Board) (overlays : Option Bytes) :
    let unrecorded := { kernel with appendedTree := none }
    searchArea image unrecorded layout =
      (BootImage.Layout.payload layout.deviceTree image).map (·, 0) ∧
    (kernel.appendedTree ≠ none →
      (resolve board windows image kernel layout overlays).outcome =
        .error .noDeviceTreeMatch) ∧
    ((resolve board windows image kernel layout overlays).outcome =
        (resolve board windows image unrecorded layout overlays).outcome ↔
      kernel.appendedTree = none ∨
        (resolve board windows image unrecorded layout overlays).outcome =
          .error .noDeviceTreeMatch) ∧
    ∃ raw, BootImage.Layout.payload layout.kernel image = .ok raw ∧
      (kernel.appendedTree = none ↔ ¬ Kernel.RecordsTree raw) := by
  intro unrecorded
  obtain ⟨hregion, hrecords⟩ := Kernel.extract_appendedTree hkernel
  have hrefused (hrecorded : kernel.appendedTree ≠ none) :
      (resolve board windows image kernel layout overlays).outcome = .error .noDeviceTreeMatch := by
    obtain ⟨start, hstart⟩ := Option.ne_none_iff_exists'.mp hrecorded
    apply resolve_of_scan_nil _ (hnothing start hstart)
    rw [searchArea, hstart, hregion]
  refine ⟨?_, hrefused, ?_, hrecords⟩
  · rw [searchArea, hslot]
    cases BootImage.Layout.payload layout.deviceTree image <;> rfl
  · by_cases hrecorded : kernel.appendedTree = none
    · have hsame : unrecorded = kernel := by
        obtain ⟨bytes, is32bit, appendedTree, treeRegion, imageSize⟩ := kernel
        cases hrecorded
        rfl
      simp only [hsame, hrecorded, true_or]
    · rw [hrefused hrecorded, eq_comm]
      simp only [hrecorded, false_or]

def bytesOf (length : Nat) (bytes : Bytes) : Bytes :=
  bytes ++ List.replicate (length - bytes.length) 0

def wrappedImage (tree : Bytes) : Bytes :=
  bytesOf 608 (BootImage.magic ++ littleEndian 8 24 ++ littleEndian 20 1 ++ littleEndian 4 608 ++
      littleEndian 4 tree.length) ++
    bytesOf 608 (Kernel.wrapperMagic ++ littleEndian 4 4 ++ littleEndian 4 0) ++
    bytesOf 608 [1] ++ bytesOf 608 tree

def emptyTree : DeviceTree where
  bootCpu := 0
  reservations := []
  root := ⟨"", [], []⟩

def wrappedLayout : BootImage.Layout where
  pageSize := 608
  kernel := ⟨608, 24, 608⟩
  ramdisk := ⟨1216, 1, 608⟩
  second := ⟨1824, 0, 0⟩
  deviceTree := ⟨1824, 72, 608⟩
  imageSize := 2432

def wrappedKernel : Kernel where
  bytes := [0, 0, 0, 0]
  is32bit := true
  appendedTree := some 4
  treeRegion := ⟨628, 632⟩
  imageSize := 4

theorem slot_searched_iff_wrapped :
    (Kernel.extract (wrappedImage (blobOf emptyTree)) wrappedLayout roomyWindows).outcome =
        .ok wrappedKernel ∧
      NothingAppended (wrappedImage (blobOf emptyTree)) wrappedKernel ∧
      (resolve chipBoard roomyWindows (wrappedImage (blobOf emptyTree)) wrappedKernel wrappedLayout
        none).outcome = .error .noDeviceTreeMatch := by
  have hextract : (Kernel.extract (wrappedImage (blobOf emptyTree)) wrappedLayout
      roomyWindows).outcome = .ok wrappedKernel := by decide +kernel
  have hnothing : NothingAppended (wrappedImage (blobOf emptyTree)) wrappedKernel := by
    intro start hstart
    cases hstart
    decide +kernel
  have hsearched := slot_searched_iff hextract (by decide) hnothing chipBoard none
  exact ⟨hextract, hnothing, hsearched.2.1 nofun⟩

theorem slot_passed_over :
    ∃ (image : Bytes) (header : BootImage.Header) (layout : BootImage.Layout) (kernel : Kernel),
      (BootImage.inspect ⟨4096, none⟩ image).outcome = .ok (header, layout) ∧
      (Kernel.extract image layout roomyWindows).outcome = .ok kernel ∧
      layout.deviceTree.isEmpty = false ∧ NothingAppended image kernel ∧
      (resolve chipBoard roomyWindows image kernel layout none).outcome =
        .error .noDeviceTreeMatch ∧
      (resolve chipBoard roomyWindows image { kernel with appendedTree := none } layout
        none).outcome = .ok ⟨blobOf emptyTree, .single, none⟩ := by
  refine ⟨wrappedImage (blobOf emptyTree),
    BootImage.Header.ofBytes (wrappedImage (blobOf emptyTree)), wrappedLayout, wrappedKernel,
    by decide +kernel, by decide +kernel, by decide, ?_,
    by decide +kernel, by decide +kernel⟩
  intro start hstart
  cases hstart
  decide +kernel

end Resolve

end BootAssembly
