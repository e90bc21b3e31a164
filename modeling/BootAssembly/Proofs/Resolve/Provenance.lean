import BootAssembly.Proofs.Board.Ranking
import BootAssembly.Proofs.DeviceTree.RoundTrip
import BootAssembly.Proofs.Resolve.Identities

namespace BootAssembly.Resolve

open DeviceTree

variable {board : Board} {windows : Windows} {image : Bytes} {kernel : Kernel}
variable {layout : BootImage.Layout} {region : Bytes} {blobs : List Span} {r : Resolved}

theorem checkTreeFits_eq_ok {size : Nat} :
    (windows.checkTreeFits size).outcome = .ok () ↔ size ≤ windows.treeRoom.toNat := by
  unfold Windows.checkTreeFits
  by_cases h : size ≤ windows.treeRoom.toNat
  · simp only [h, if_true, Traced.outcome_pure]
  · simp only [h, if_false, iff_false]
    intro hok
    obtain ⟨_, -, hfail⟩ := Traced.outcome_bind_eq_ok.mp hok
    cases hfail

theorem resolve_eq_ok {overlays : Option Bytes} :
    (resolve board windows image kernel layout overlays).outcome = .ok r ↔
      ∃ region start blobs, searchArea image kernel layout = .ok (region, start) ∧
        scan region start = .ok blobs ∧ (choose region blobs board overlays).outcome = .ok r ∧
        r.blob.length ≤ windows.treeRoom.toNat := by
  unfold resolve
  constructor
  · intro h
    obtain ⟨⟨region, start⟩, harea, h⟩ := Traced.outcome_bind_eq_ok.mp h
    obtain ⟨blobs, hscan, h⟩ := Traced.outcome_bind_eq_ok.mp h
    obtain ⟨_, -, h⟩ := Traced.outcome_bind_eq_ok.mp h
    obtain ⟨resolved, hchoose, h⟩ := Traced.outcome_bind_eq_ok.mp h
    obtain ⟨_, hfits, h⟩ := Traced.outcome_bind_eq_ok.mp h
    obtain ⟨_, -, h⟩ := Traced.outcome_bind_eq_ok.mp h
    cases h
    exact ⟨region, start, blobs, harea, hscan, hchoose, checkTreeFits_eq_ok.mp hfits⟩
  · rintro ⟨region, start, blobs, harea, hscan, hchoose, hfits⟩
    refine Traced.outcome_bind_eq_ok.mpr ⟨(region, start), harea, ?_⟩
    refine Traced.outcome_bind_eq_ok.mpr ⟨blobs, hscan, ?_⟩
    refine Traced.outcome_bind_eq_ok.mpr ⟨(), rfl, ?_⟩
    refine Traced.outcome_bind_eq_ok.mpr ⟨r, hchoose, ?_⟩
    refine Traced.outcome_bind_eq_ok.mpr ⟨(), checkTreeFits_eq_ok.mpr hfits, ?_⟩
    exact Traced.outcome_bind_eq_ok.mpr ⟨(), rfl, rfl⟩

theorem choose_singleton_eq_ok {blob : Span}
    (h : (choose region [blob] board none).outcome = .ok r) :
    r = ⟨slice blob region, .single, none⟩ := by
  obtain ⟨_, -, h⟩ := Traced.outcome_bind_eq_ok.mp h
  obtain ⟨_, hcopy, h⟩ := Traced.outcome_bind_eq_ok.mp h
  obtain ⟨-, rfl⟩ := copyBuffer_eq_ok.mp hcopy
  cases h
  rfl

theorem choose_matched_eq_ok (hblobs : ∀ blob, blobs ≠ [blob])
    (h : (choose region blobs board none).outcome = .ok r) :
    ∃ best, (Match.select (identities region blobs) board .full).outcome = .ok best ∧
      r = ⟨slice best.location region, .matched, none⟩ := by
  have hmatch : choose region blobs board none = (do
      let best ← Match.select (← candidates region blobs) board .full
      return ⟨← copyBuffer (slice best.location region) "device tree", .matched, none⟩) := by
    unfold choose
    split
    · contradiction
    · exact absurd rfl (hblobs _)
    · rfl
  rw [hmatch] at h
  obtain ⟨cs, hcs, h⟩ := Traced.outcome_bind_eq_ok.mp h
  rw [candidates_outcome] at hcs
  cases hcs
  obtain ⟨best, hbest, h⟩ := Traced.outcome_bind_eq_ok.mp h
  obtain ⟨_, hcopy, h⟩ := Traced.outcome_bind_eq_ok.mp h
  obtain ⟨-, rfl⟩ := copyBuffer_eq_ok.mp hcopy
  cases h
  exact ⟨best, hbest, rfl⟩

theorem withOverlay_exact_eq_ok {overlays : Bytes} {c : Candidate}
    (hc : (identities region blobs).find? (·.isExact board) = some c)
    (h : (withOverlay region blobs board overlays).outcome = .ok r) :
    r = ⟨slice c.location region, .exact, none⟩ := by
  obtain ⟨cs, hcs, h⟩ := Traced.outcome_bind_eq_ok.mp h
  rw [candidates_outcome] at hcs
  cases hcs
  simp only [hc] at h
  obtain ⟨_, -, h⟩ := Traced.outcome_bind_eq_ok.mp h
  obtain ⟨_, hcopy, h⟩ := Traced.outcome_bind_eq_ok.mp h
  obtain ⟨-, rfl⟩ := copyBuffer_eq_ok.mp hcopy
  cases h
  rfl

theorem withOverlay_congr (hexact : ((identities region blobs).find? (·.isExact board)).isSome)
    (overlays others : Bytes) :
    withOverlay region blobs board overlays = withOverlay region blobs board others := by
  obtain ⟨c, hc⟩ := Option.isSome_iff_exists.mp hexact
  refine Traced.bind_congr fun cs hcs => ?_
  rw [candidates_outcome] at hcs
  cases hcs
  simp only [hc]

structure Layering (region : Bytes) (blobs : List Span) (board : Board) (overlays : Bytes) where
  soc : Candidate
  selected : (Match.select (identities region blobs) board .soc).outcome = .ok soc
  scanned : blobs[soc.index]? = some soc.location
  base : DeviceTree
  parsed : DeviceTree.parse (slice soc.location region) = .ok base
  table : Overlay.Table
  read : (Overlay.Table.parse overlays).outcome = .ok table
  best : Candidate
  preferred : (Match.select (tableIdentities table overlays) board .full).outcome = .ok best
  entry : Overlay.Entry
  listed : table.entries[best.index]? = some entry
  leading : ∀ i ≤ best.index, ∀ e, table.entries[i]? = some e →
    (Header.probe? (slice e.span overlays)).isSome
  overlay : DeviceTree
  decoded : DeviceTree.parse (slice entry.span overlays) = .ok overlay
  merged : DeviceTree
  applied : (Overlay.apply base overlay).outcome = .ok merged

theorem withOverlay_layered_eq_ok {overlays : Bytes}
    (hnone : (identities region blobs).find? (·.isExact board) = none)
    (h : (withOverlay region blobs board overlays).outcome = .ok r) :
    ∃ layering : Layering region blobs board overlays,
      layering.merged.toBytes = .ok r.blob ∧ r.origin = .overlay ∧
        r.overlayIndex = some layering.best.index := by
  obtain ⟨cs, hcs, h⟩ := Traced.outcome_bind_eq_ok.mp h
  rw [candidates_outcome] at hcs
  cases hcs
  simp only [hnone] at h
  obtain ⟨soc, hsoc, h⟩ := Traced.outcome_bind_eq_ok.mp h
  obtain ⟨base, hbase, h⟩ := Traced.outcome_bind_eq_ok.mp h
  obtain ⟨table, htable, h⟩ := Traced.outcome_bind_eq_ok.mp h
  obtain ⟨found, hfound, h⟩ := Traced.outcome_bind_eq_ok.mp h
  obtain ⟨best, hbest, h⟩ := Traced.outcome_bind_eq_ok.mp h
  obtain ⟨overlay, hoverlay, h⟩ := Traced.outcome_bind_eq_ok.mp h
  obtain ⟨merged, hmerged, h⟩ := Traced.outcome_bind_eq_ok.mp h
  obtain ⟨_, -, h⟩ := Traced.outcome_bind_eq_ok.mp h
  obtain ⟨blob, hblob, h⟩ := Traced.outcome_bind_eq_ok.mp h
  cases h
  have hrows (row : Overlay.Entry × Nat) (hrow : row ∈ table.entries.zipIdx) :
      table.entries[row.2]? = some row.1 := List.mem_zipIdx_iff_getElem?.mp hrow
  have htableIdentities : found = tableIdentities table overlays :=
    tableCandidates_eq_ok hrows hfound
  subst htableIdentities
  obtain ⟨hscanned, -⟩ := mem_identities (Match.mem_of_select hsoc)
  obtain ⟨entry, hlisted, hlocation, hleading⟩ := mem_tableIdentities (Match.mem_of_select hbest)
  exact ⟨⟨soc, hsoc, hscanned, base, hbase, table, htable, best, hbest, entry, hlisted, hleading,
    overlay, hlocation ▸ hoverlay, merged, hmerged⟩, hblob, rfl, rfl⟩

inductive Provenance (region : Bytes) (blobs : List Span) (board : Board) :
    Option Bytes → Resolved → Prop where
  | single {blob : Span} (only : blobs = [blob]) :
    Provenance region blobs board none ⟨slice blob region, .single, none⟩
  | matched {best : Candidate} (several : ∀ blob, blobs ≠ [blob])
    (selected : (Match.select (identities region blobs) board .full).outcome = .ok best)
    (scanned : blobs[best.index]? = some best.location) :
    Provenance region blobs board none ⟨slice best.location region, .matched, none⟩
  | exact {overlays : Bytes} {c : Candidate}
    (first : (identities region blobs).find? (·.isExact board) = some c)
    (scanned : blobs[c.index]? = some c.location) :
    Provenance region blobs board (some overlays) ⟨slice c.location region, .exact, none⟩
  | layered {overlays blob : Bytes} (layering : Layering region blobs board overlays)
    (inexact : (identities region blobs).find? (·.isExact board) = none)
    (written : layering.merged.toBytes = .ok blob) :
    Provenance region blobs board (some overlays) ⟨blob, .overlay, some layering.best.index⟩

theorem provenance_of_choose {overlays : Option Bytes}
    (h : (choose region blobs board overlays).outcome = .ok r) :
    Provenance region blobs board overlays r := by
  cases overlays with
  | none =>
    by_cases honly : ∃ blob, blobs = [blob]
    · obtain ⟨blob, rfl⟩ := honly
      rw [choose_singleton_eq_ok h]
      exact .single rfl
    · rw [not_exists] at honly
      obtain ⟨best, hbest, rfl⟩ := choose_matched_eq_ok honly h
      exact .matched honly hbest (mem_identities (Match.mem_of_select hbest)).1
  | some overlays =>
    have h : (withOverlay region blobs board overlays).outcome = .ok r := h
    cases hfind : (identities region blobs).find? (·.isExact board) with
    | some c =>
      rw [withOverlay_exact_eq_ok hfind h]
      exact .exact hfind (mem_identities (List.mem_of_find?_eq_some hfind)).1
    | none =>
      obtain ⟨layering, hwritten, horigin, hindex⟩ := withOverlay_layered_eq_ok hfind h
      obtain ⟨blob, origin, overlayIndex⟩ := r
      cases horigin
      cases hindex
      exact .layered layering hfind hwritten

theorem resolve_congr {overlays : Option Bytes} {start : Nat}
    (harea : searchArea image kernel layout = .ok (region, start))
    (hscan : scan region start = .ok blobs) (hprovenance : Provenance region blobs board overlays r)
    (hexact : r.origin = .exact) (others : Bytes) :
    resolve board windows image kernel layout (some others) =
      resolve board windows image kernel layout overlays := by
  cases hprovenance with
  | single | matched | layered => cases hexact
  | @exact overlays c hfirst _ =>
    refine Traced.bind_congr fun area (h : searchArea image kernel layout = .ok area) => ?_
    rw [harea] at h
    cases h
    refine Traced.bind_congr fun found (h : scan region start = .ok found) => ?_
    rw [hscan] at h
    cases h
    have hfind : ((identities region blobs).find? (·.isExact board)).isSome := by
      rw [hfirst, Option.isSome_some]
    have hchoose : choose region blobs board (some others) =
        choose region blobs board (some overlays) := withOverlay_congr hfind others overlays
    rw [hchoose]

theorem treeRoom_toNat (h : windows.Ordered) :
    windows.deviceTree.toNat + windows.treeRoom.toNat = windows.ramdisk.toNat := by
  have hle : windows.deviceTree ≤ windows.ramdisk := by
    rw [UInt64.le_iff_toNat_le]
    exact Nat.le_of_lt (UInt64.lt_iff_toNat_lt.mp h.2.2.1)
  rw [Windows.treeRoom, UInt64.toNat_sub_of_le _ _ hle]
  rw [UInt64.le_iff_toNat_le] at hle
  omega

/-- A resolved tree fits its window and is the only blob found, the one selected among several, the
first exact match, or the one selected for the chip with the selected overlay on it. -/
theorem resolve_provenance {overlays : Option Bytes}
    (h : (resolve board windows image kernel layout overlays).outcome = .ok r) :
    r.blob.length ≤ windows.treeRoom.toNat ∧
    (windows.Ordered → windows.deviceTree.toNat + r.blob.length ≤ windows.ramdisk.toNat) ∧
    ∃ region start blobs, searchArea image kernel layout = .ok (region, start) ∧
      scan region start = .ok blobs ∧ Provenance region blobs board overlays r ∧
      (r.origin = .single ↔ overlays = none ∧ ∃ blob, blobs = [blob]) ∧
      (r.overlayIndex.isSome ↔ overlays.isSome ∧
        (identities region blobs).find? (·.isExact board) = none) ∧
      (r.origin = .exact → ∀ others,
        resolve board windows image kernel layout (some others) =
          resolve board windows image kernel layout overlays) := by
  obtain ⟨region, start, blobs, harea, hscan, hchoose, hfits⟩ := resolve_eq_ok.mp h
  have hprovenance := provenance_of_choose hchoose
  refine ⟨hfits, fun hordered => ?_, region, start, blobs, harea, hscan, hprovenance, ?_, ?_,
    resolve_congr harea hscan hprovenance⟩
  · have hroom := treeRoom_toNat hordered
    omega
  · cases hprovenance with
    | single only => simp [only]
    | matched several => simp [several]
    | exact => simp
    | layered => simp
  · cases hprovenance with
    | single | matched => simp
    | exact first => simp [first]
    | layered _ inexact => simp [inexact]

def chipBoard : Board := ⟨1, 2, 0, 0, 0, .zero, .zero⟩

def chipTree : DeviceTree where
  bootCpu := 0
  reservations := []
  root := ⟨"", [⟨"qcom,msm-id", be32 1 ++ be32 2⟩], [⟨"uart", [⟨"phandle", be32 1⟩], []⟩]⟩

def enableUart : DeviceTree where
  bootCpu := 0
  reservations := []
  root := ⟨"", [⟨"qcom,msm-id", be32 1 ++ be32 2⟩], [⟨"fragment@0", [⟨"target", be32 1⟩],
    [⟨"__overlay__", [⟨"status", nulTerminated "okay"⟩], []⟩]⟩]⟩

def enabledChip : DeviceTree where
  bootCpu := 0
  reservations := []
  root := ⟨"", [⟨"qcom,msm-id", be32 1 ++ be32 2⟩],
    [⟨"uart", [⟨"phandle", be32 1⟩, ⟨"status", nulTerminated "okay"⟩], []⟩]⟩

def tableOf (overlay : Bytes) : Bytes :=
  let size := UInt32.ofNat overlay.length
  ofCells [Overlay.Table.magic, 64 + size, 32, 32, 1, 32, 4096, 0] ++
    ofCells [size, 64, 0, 0, 0, 0, 0, 0] ++ overlay

def appendedAt (start : Nat) (image : Bytes) : Kernel where
  bytes := []
  is32bit := false
  appendedTree := some start
  treeRegion := ⟨0, image.length⟩
  imageSize := 0

def bareLayout : BootImage.Layout := ⟨0, ⟨0, 0, 0⟩, ⟨0, 0, 0⟩, ⟨0, 0, 0⟩, ⟨0, 0, 0⟩, 0⟩

def roomyWindows : Windows := ⟨0, 0, 0x1000, 0x2000, 0x3000⟩

theorem resolve_provenance_layered :
    ∃ (image overlays : Bytes) (r : Resolved),
      (resolve chipBoard roomyWindows image (appendedAt 4 image) bareLayout
        (some overlays)).outcome = .ok r ∧
      r = ⟨blobOf enabledChip, .overlay, some 0⟩ ∧
      Provenance image [⟨4, image.length⟩] chipBoard (some overlays) r := by
  have hresolve : (resolve chipBoard roomyWindows (be32 0 ++ blobOf chipTree)
      (appendedAt 4 (be32 0 ++ blobOf chipTree)) bareLayout
      (some (tableOf (blobOf enableUart)))).outcome =
        .ok ⟨blobOf enabledChip, .overlay, some 0⟩ := by decide +kernel
  obtain ⟨-, -, region, start, blobs, harea, hscan, hprovenance, -⟩ := resolve_provenance hresolve
  have harea' : searchArea (be32 0 ++ blobOf chipTree) (appendedAt 4 (be32 0 ++ blobOf chipTree))
      bareLayout = .ok (be32 0 ++ blobOf chipTree, 4) := by decide +kernel
  have hscan' : scan (be32 0 ++ blobOf chipTree) 4 =
      .ok [⟨4, (be32 0 ++ blobOf chipTree).length⟩] := by decide +kernel
  rw [harea'] at harea
  cases harea
  rw [hscan'] at hscan
  cases hscan
  exact ⟨_, _, _, hresolve, rfl, hprovenance⟩

end BootAssembly.Resolve
