import BootAssembly.Proofs.BootImage.RoundTrip

namespace BootAssembly

def Span.Contains (s : Span) (n : Nat) : Prop := s.start ≤ n ∧ n < s.stop

def Span.Apart (s t : Span) : Prop := ∀ n, s.Contains n → ¬ t.Contains n

theorem Span.apart_of_le {s t : Span} (h : s.stop ≤ t.start) : s.Apart t := by
  rintro n ⟨-, hs⟩ ⟨ht, -⟩
  omega

theorem Span.apart_iff {s t : Span} (h : s.start ≤ t.start) (ht : t.start < t.stop) :
    s.Apart t ↔ s.stop ≤ t.start := by
  refine ⟨fun hapart => ?_, Span.apart_of_le⟩
  by_contra hlate
  exact hapart t.start ⟨h, by omega⟩ ⟨Nat.le_refl _, ht⟩

namespace BootImage

structure Limits.Admits (limits : Limits) (image : Bytes) : Prop where
  whole : headerSize ≤ image.length
  magic_eq : image.take 8 = magic
  kernelSize : (Header.ofBytes image).kernelSize ≠ 0
  pageSize : (Header.ofBytes image).pageSize ≠ 0
  ramdiskSize : (Header.ofBytes image).ramdiskSize ≠ 0
  page_le : (Header.ofBytes image).pageSize ≤ limits.maxPageSize
  page_eq : ∀ page ∈ limits.expectedPageSize, (Header.ofBytes image).pageSize = page

variable {limits : Limits} {image : Bytes} {header : Header} {layout : Layout}

theorem Limits.admits_iff : limits.Admits image ↔
    headerSize ≤ image.length ∧ image.take 8 = magic ∧
      limits.check (.ofBytes image) = .ok () := by
  rw [Limits.check_eq_ok, not_or]
  constructor
  · intro h
    exact ⟨h.whole, h.magic_eq, ⟨h.kernelSize, h.pageSize⟩, h.ramdiskSize, h.page_le, h.page_eq⟩
  · rintro ⟨hwhole, hmagic, ⟨hkernel, hpage⟩, hramdisk, hle, heq⟩
    exact ⟨hwhole, hmagic, hkernel, hpage, hramdisk, hle, heq⟩

theorem Limits.Admits.outcome_inspect (h : limits.Admits image) :
    (inspect limits image).outcome =
      (Layout.ofHeader (.ofBytes image)).map fun layout => (.ofBytes image, layout) := by
  obtain ⟨hwhole, hmagic, hcheck⟩ := Limits.admits_iff.mp h
  have hlength : ¬ (image.take headerSize).length < headerSize := by
    rw [List.length_take]
    omega
  unfold inspect
  rw [if_neg hlength, if_neg (not_not.mpr hmagic)]
  refine (Traced.outcome_bind_of_ok (a := ()) hcheck).trans ?_
  rw [Traced.outcome_bind]
  cases hlayout : Layout.ofHeader (.ofBytes image) <;> rfl

theorem inspect_eq_ok_iff : (inspect limits image).outcome = .ok (header, layout) ↔
    limits.Admits image ∧ header = .ofBytes image ∧ header.extent < UInt32.size ∧
      layout.Exact header := by
  rw [inspect_eq_ok]
  constructor
  · rintro ⟨hwhole, hmagic, rfl, hcheck, hlayout⟩
    have hadmits := Limits.admits_iff.mpr ⟨hwhole, hmagic, hcheck⟩
    exact ⟨hadmits, rfl, (Layout.ofHeader_eq_ok hadmits.pageSize).mp hlayout⟩
  · rintro ⟨hadmits, rfl, hexact⟩
    obtain ⟨hwhole, hmagic, hcheck⟩ := Limits.admits_iff.mp hadmits
    exact ⟨hwhole, hmagic, rfl, hcheck, (Layout.ofHeader_eq_ok hadmits.pageSize).mpr hexact⟩

theorem inspect_of_large (hadmits : limits.Admits image)
    (hlarge : UInt32.size ≤ (Header.ofBytes image).extent) :
    ∃ what, (inspect limits image).outcome = .error (.integerOverflow what) := by
  rw [hadmits.outcome_inspect]
  cases hlayout : Layout.ofHeader (.ofBytes image) with
  | ok layout =>
    have hfits := ((Layout.ofHeader_eq_ok hadmits.pageSize).mp hlayout).1
    omega
  | error fault =>
    obtain ⟨what, rfl⟩ := Layout.ofHeader_overflows hadmits.pageSize fault hlayout
    exact ⟨what, rfl⟩

namespace Layout

def regions (l : Layout) : List Region := [l.kernel, l.ramdisk, l.second, l.deviceTree]

theorem forall_mem_regions {l : Layout} {P : Region → Prop} :
    (∀ r ∈ l.regions, P r) ↔ P l.kernel ∧ P l.ramdisk ∧ P l.second ∧ P l.deviceTree := by
  simp only [regions, List.forall_mem_cons, List.not_mem_nil, false_implies, implies_true, and_true]

variable {l : Layout} {h : Header}

theorem Exact.isLeast_actual (hl : l.Exact h) (hpage : h.pageSize ≠ 0) :
    ∀ r ∈ l.regions, IsLeast {n | h.pageSize.toNat ∣ n ∧ r.size.toNat ≤ n} r.actual.toNat := by
  have hleast {r : Region} {offset : Nat} {size : UInt32} (hr : r.Holds h.pageSize offset size) :
      IsLeast {n | h.pageSize.toNat ∣ n ∧ r.size.toNat ≤ n} r.actual.toNat := by
    rw [hr.size_eq, hr.actual_eq]
    exact isLeast_wholePages (toNat_pos hpage) size.toNat
  exact forall_mem_regions.mpr ⟨hleast hl.kernel, hleast hl.ramdisk, hleast hl.second,
    hleast hl.deviceTree⟩

theorem Exact.size_le_actual (hl : l.Exact h) (hpage : h.pageSize ≠ 0) :
    ∀ r ∈ l.regions, r.size.toNat ≤ r.actual.toNat :=
  fun r hr => (hl.isLeast_actual hpage r hr).1.2

theorem Exact.consecutive (hl : l.Exact h) :
    l.kernel.offset.toNat = h.pageSize.toNat ∧
      l.ramdisk.offset.toNat = l.kernel.offset.toNat + l.kernel.actual.toNat ∧
      l.second.offset.toNat = l.ramdisk.offset.toNat + l.ramdisk.actual.toNat ∧
      l.deviceTree.offset.toNat = l.second.offset.toNat + l.second.actual.toNat ∧
      l.imageSize.toNat = l.deviceTree.offset.toNat + l.deviceTree.actual.toNat := by
  rw [hl.kernel.offset_eq, hl.kernel.actual_eq, hl.ramdisk.offset_eq, hl.ramdisk.actual_eq,
    hl.second.offset_eq, hl.second.actual_eq, hl.deviceTree.offset_eq, hl.deviceTree.actual_eq,
    hl.imageSize]
  exact ⟨rfl, rfl, rfl, rfl, rfl⟩

theorem Exact.within (hl : l.Exact h) :
    ∀ r ∈ l.regions, r.offset.toNat + r.actual.toNat ≤ l.imageSize.toNat := by
  obtain ⟨-, hramdisk, hsecond, htree, himage⟩ := hl.consecutive
  rw [forall_mem_regions]
  omega

theorem Exact.ascending (hl : l.Exact h) (hpage : h.pageSize ≠ 0) (hkernel : h.kernelSize ≠ 0)
    (hramdisk : h.ramdiskSize ≠ 0) :
    l.kernel.offset < l.ramdisk.offset ∧ l.ramdisk.offset < l.deviceTree.offset ∧
      l.deviceTree.offset ≤ l.imageSize := by
  obtain ⟨-, hfirst, hnext, htree, himage⟩ := hl.consecutive
  obtain ⟨hkernelRoom, hramdiskRoom, -⟩ := forall_mem_regions.mp (hl.size_le_actual hpage)
  have hkernelPos := toNat_pos hkernel
  have hramdiskPos := toNat_pos hramdisk
  rw [hl.kernel.size_eq] at hkernelRoom
  rw [hl.ramdisk.size_eq] at hramdiskRoom
  simp only [UInt32.lt_iff_toNat_lt, UInt32.le_iff_toNat_le]
  omega

end Layout

theorem inspect_exact (limits : Limits) (image : Bytes) :
    ((∃ found, (inspect limits image).outcome = .ok found) ↔
      limits.Admits image ∧ (Header.ofBytes image).extent < UInt32.size) ∧
    (limits.Admits image → UInt32.size ≤ (Header.ofBytes image).extent →
      ∃ what, (inspect limits image).outcome = .error (.integerOverflow what)) ∧
    ∀ header layout, (inspect limits image).outcome = .ok (header, layout) →
      header = .ofBytes image ∧ layout.Exact header ∧
      (∀ r ∈ layout.regions,
        IsLeast {n | header.pageSize.toNat ∣ n ∧ r.size.toNat ≤ n} r.actual.toNat ∧
        r.offset.toNat + r.size.toNat ≤ r.offset.toNat + r.actual.toNat ∧
        r.offset.toNat + r.actual.toNat ≤ layout.imageSize.toNat) ∧
      layout.kernel.offset < layout.ramdisk.offset ∧
      layout.ramdisk.offset < layout.deviceTree.offset ∧
      layout.deviceTree.offset ≤ layout.imageSize := by
  refine ⟨?_, inspect_of_large, ?_⟩
  · constructor
    · rintro ⟨⟨header, layout⟩, h⟩
      obtain ⟨hadmits, rfl, hfits, -⟩ := inspect_eq_ok_iff.mp h
      exact ⟨hadmits, hfits⟩
    · rintro ⟨hadmits, hfits⟩
      obtain ⟨layout, hlayout⟩ := Layout.exists_ofHeader hadmits.pageSize hfits
      have hexact := ((Layout.ofHeader_eq_ok hadmits.pageSize).mp hlayout).2
      exact ⟨_, inspect_eq_ok_iff.mpr ⟨hadmits, rfl, hfits, hexact⟩⟩
  · intro header layout h
    obtain ⟨hadmits, rfl, -, hexact⟩ := inspect_eq_ok_iff.mp h
    refine ⟨rfl, hexact, ?_, hexact.ascending hadmits.pageSize hadmits.kernelSize
      hadmits.ramdiskSize⟩
    intro r hr
    refine ⟨hexact.isLeast_actual hadmits.pageSize r hr, ?_, hexact.within r hr⟩
    exact Nat.add_le_add_left (hexact.size_le_actual hadmits.pageSize r hr) _

def headerBlock : Span := ⟨0, headerSize⟩

namespace Layout

variable {l : Layout} {h : Header}

theorem Exact.pairwise_apart (hl : l.Exact h) (hpage : h.pageSize ≠ 0) :
    (l.regions.map Region.span).Pairwise Span.Apart := by
  obtain ⟨-, hramdisk, hsecond, htree, -⟩ := hl.consecutive
  obtain ⟨hkernelRoom, hramdiskRoom, hsecondRoom, -⟩ :=
    forall_mem_regions.mp (hl.size_le_actual hpage)
  have apart {r s : Region} (hrs : r.offset.toNat + r.size.toNat ≤ s.offset.toNat) :
      r.span.Apart s.span := Span.apart_of_le hrs
  simp only [regions, List.map_cons, List.map_nil, List.pairwise_cons, List.forall_mem_cons,
    List.not_mem_nil, false_implies, implies_true, and_true, List.Pairwise.nil]
  refine ⟨⟨apart ?_, apart ?_, apart ?_⟩, ⟨apart ?_, apart ?_⟩, apart ?_⟩ <;> omega

theorem Exact.clear_of_header_iff (hl : l.Exact h) (hkernel : h.kernelSize ≠ 0) :
    (∀ s ∈ l.regions.map Region.span, headerBlock.Apart s) ↔ headerSize ≤ h.pageSize.toNat := by
  obtain ⟨hfirst, hramdisk, hsecond, htree, -⟩ := hl.consecutive
  have hsize := toNat_pos hkernel
  rw [← hl.kernel.size_eq] at hsize
  rw [List.forall_mem_map, forall_mem_regions]
  constructor
  · rintro ⟨hapart, -⟩
    rw [Span.apart_iff (Nat.zero_le _) (Nat.lt_add_of_pos_right hsize)] at hapart
    exact hfirst ▸ hapart
  · intro hpage
    have apart {r : Region} (hr : h.pageSize.toNat ≤ r.offset.toNat) : headerBlock.Apart r.span :=
      Span.apart_of_le (Nat.le_trans hpage hr)
    refine ⟨apart ?_, apart ?_, apart ?_, apart ?_⟩ <;> omega

end Layout

/-- The payloads never overlap each other, but nothing keeps them off the header: in pages shorter
than the header, bytes of the header are taken for the kernel too. -/
theorem headerBlock_apart_iff (h : (inspect limits image).outcome = .ok (header, layout)) :
    (layout.regions.map Region.span).Pairwise Span.Apart ∧
      ((headerBlock :: layout.regions.map Region.span).Pairwise Span.Apart ↔
        headerSize ≤ header.pageSize.toNat) := by
  obtain ⟨hadmits, rfl, -, hexact⟩ := inspect_eq_ok_iff.mp h
  have hpayloads := hexact.pairwise_apart hadmits.pageSize
  refine ⟨hpayloads, ?_⟩
  rw [List.pairwise_cons, hexact.clear_of_header_iff hadmits.kernelSize]
  exact and_iff_left hpayloads

theorem headerBlock_apart_oddPages :
    (headerBlock :: oddPages.layout.regions.map Region.span).Pairwise Span.Apart := by
  have hexpected : ∀ page ∈ some 700, oddPages.pageSize = page := fun _ h => Option.some.inj h
  have hinspect : (inspect ⟨4096, some 700⟩ (oddPages.image ++ [])).outcome =
      .ok (oddPages.header, oddPages.layout) :=
    Parts.inspect_ok (by decide) hexpected (by decide) (by decide +kernel) (by decide +kernel) []
  exact (headerBlock_apart_iff hinspect).2.mpr (by decide)

def shortPages : Bytes :=
  magic ++ ofWords [64, 0, 1, 0, 0, 0, 0, 512, 0, 0] ++ List.replicate 16 0 ++
    List.replicate 512 0x61 ++ List.replicate 960 0

theorem kernel_within_command_line : ∃ header layout,
    (inspect ⟨16384, none⟩ shortPages).outcome = .ok (header, layout) ∧
      ¬ headerBlock.Apart layout.kernel.span ∧ header.commandLine.length = 511 ∧
      Layout.payload layout.kernel shortPages = .ok (header.arguments.drop 448) := by
  refine ⟨.ofBytes shortPages, ⟨512, ⟨512, 64, 512⟩, ⟨1024, 1, 512⟩, ⟨1536, 0, 0⟩, ⟨1536, 0, 0⟩,
    1536⟩, by decide +kernel, ?_, by decide +kernel, by decide +kernel⟩
  rw [Span.apart_iff (by decide) (by decide)]
  decide

end BootImage

end BootAssembly
