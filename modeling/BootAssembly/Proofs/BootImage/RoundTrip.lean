import BootAssembly.Proofs.BootImage.Extent
import BootAssembly.Proofs.BootImage.Parts

namespace BootAssembly.BootImage

namespace Parts

variable {p : Parts}

theorem pageSize_ne_zero (p : Parts) : p.pageSize ≠ 0 := by
  intro hzero
  have hpage := p.header_page
  rw [hzero, UInt32.toNat_zero, headerSize] at hpage
  omega

theorem toNat_bytes {b : Block p.pageSize.toNat} (h : b.room < UInt32.size) :
    (UInt32.ofNat b.bytes.length).toNat = b.bytes.length :=
  UInt32.toNat_ofNat_of_lt' (Nat.lt_of_le_of_lt b.length_bytes_le h)

theorem wholePages_bytes {b : Block p.pageSize.toNat} (h : b.room < UInt32.size) :
    wholePages p.pageSize.toNat (UInt32.ofNat b.bytes.length).toNat = b.room := by
  rw [toNat_bytes h]
  exact wholePages_eq b.whole b.tight

theorem holds_block {b : Block p.pageSize.toNat} {offset : Nat}
    (h : offset + b.room < UInt32.size) :
    Region.Holds ⟨.ofNat offset, .ofNat b.bytes.length, .ofNat b.room⟩ p.pageSize offset
      (.ofNat b.bytes.length) where
  offset_eq := UInt32.toNat_ofNat_of_lt' (by omega)
  size_eq := rfl
  actual_eq := by
    rw [wholePages_bytes (by omega)]
    exact UInt32.toNat_ofNat_of_lt' (by omega)

theorem exact_layout (h : p.size < UInt32.size) :
    p.header.extent = p.size ∧ p.layout.Exact p.header := by
  have hpage : UInt32.ofNat p.pageSize.toNat = p.pageSize := UInt32.ofNat_toNat
  have hsize := h
  simp only [size, treeOffset, secondOffset, ramdiskOffset] at h
  have hramdisk : p.header.ramdiskOffset = p.ramdiskOffset :=
    congrArg (p.pageSize.toNat + ·) (wholePages_bytes (by omega))
  have hsecond : p.header.secondOffset = p.secondOffset :=
    congrArg₂ (· + ·) hramdisk (wholePages_bytes (by omega))
  have htree : p.header.treeOffset = p.treeOffset :=
    congrArg₂ (· + ·) hsecond (wholePages_bytes (by omega))
  have hextent : p.header.extent = p.size :=
    congrArg₂ (· + ·) htree (wholePages_bytes (by omega))
  have hroom : p.pageSize.toNat + p.kernel.room < UInt32.size := by omega
  have hkernel := holds_block hroom
  rw [hpage] at hkernel
  refine ⟨hextent, rfl, hkernel, ?_, ?_, ?_, ?_⟩
  · rw [hramdisk]
    exact holds_block (by simp only [ramdiskOffset]; omega)
  · rw [hsecond]
    exact holds_block (by simp only [secondOffset, ramdiskOffset]; omega)
  · rw [htree]
    exact holds_block (by simp only [treeOffset, secondOffset, ramdiskOffset]; omega)
  · rw [hextent]
    exact UInt32.toNat_ofNat_of_lt' hsize

theorem ofHeader_header (h : p.size < UInt32.size) :
    Layout.ofHeader p.header = .ok p.layout := by
  obtain ⟨hextent, hexact⟩ := exact_layout h
  exact (Layout.ofHeader_eq_ok p.pageSize_ne_zero).mpr ⟨by rwa [hextent], hexact⟩

theorem ofBytes_image (rest : Bytes) : Header.ofBytes (p.image ++ rest) = p.header := by
  obtain ⟨tail, htail⟩ : ∃ tail, p.image ++ rest =
      magic ++ (ofWords p.words ++ (p.name ++ (p.arguments ++ tail))) := by
    simp only [image, headerPage, List.append_assoc]
    exact ⟨_, rfl⟩
  have hmagic : magic.length = 8 := by decide +kernel
  have hlength : (ofWords p.words).length = 40 := length_ofWords _
  have word (i : Nat) (hi : i < 10) : le32At (p.image ++ rest) (8 + 4 * i) = p.words[i] := by
    rw [htail, ← hmagic, le32At_left]
    exact le32At_ofWords p.words _ i hi
  have hname : ((p.image ++ rest).drop 48).take nameSize = p.name := by
    rw [htail, ← List.append_assoc, List.drop_left' (by rw [List.length_append]; omega),
      List.take_left' p.name_length]
  have harguments : ((p.image ++ rest).drop 64).take argumentsSize = p.arguments := by
    rw [htail, ← List.append_assoc, ← List.append_assoc, List.drop_left',
      List.take_left' p.arguments_length]
    simp only [List.length_append, hmagic, hlength, p.name_length, nameSize]
  simp only [Header.ofBytes, header, Header.mk.injEq]
  exact ⟨word 0 (by decide), word 1 (by decide), word 2 (by decide), word 3 (by decide),
    word 4 (by decide), word 5 (by decide), word 6 (by decide), word 7 (by decide),
    word 8 (by decide), hname, harguments⟩

theorem take_magic (rest : Bytes) : (p.image ++ rest).take 8 = magic := by
  have hmagic : magic.length = 8 := by decide +kernel
  simp only [image, headerPage, List.append_assoc]
  exact List.take_left' hmagic

end Parts

theorem inspect_eq_ok {limits : Limits} {image : Bytes} {header : Header} {layout : Layout} :
    (inspect limits image).outcome = .ok (header, layout) ↔
      headerSize ≤ image.length ∧ image.take 8 = magic ∧ header = .ofBytes image ∧
        limits.check header = .ok () ∧ Layout.ofHeader header = .ok layout := by
  unfold inspect
  rw [Traced.outcome_guard_eq_ok (by simp)]
  apply and_congr
  · rw [List.length_take]
    omega
  by_cases hmagic : image.take 8 = magic
  · simp only [hmagic, ne_eq, not_true_eq_false, if_false, true_and]
    simp only [Traced.outcome_bind_eq_ok]
    constructor
    · rintro ⟨_, hcheck, _, hlayout, _, -, hpair⟩
      cases hpair
      exact ⟨rfl, hcheck, hlayout⟩
    · rintro ⟨rfl, hcheck, hlayout⟩
      exact ⟨(), hcheck, layout, hlayout, (), rfl, rfl⟩
  · simp only [hmagic, ne_eq, not_false_eq_true, if_true, false_and, iff_false]
    exact fun h => nomatch h

theorem Limits.check_eq_ok {limits : Limits} {h : Header} :
    limits.check h = .ok () ↔ ¬ (h.kernelSize = 0 ∨ h.pageSize = 0) ∧ h.ramdiskSize ≠ 0 ∧
      h.pageSize ≤ limits.maxPageSize ∧ ∀ page ∈ limits.expectedPageSize, h.pageSize = page := by
  unfold check
  rw [refuse_eq_ok, refuse_eq_ok, refuse_eq_ok, refuse_eq_ok, gt_iff_lt, UInt32.not_lt]
  cases limits.expectedPageSize <;> simp

namespace Parts

variable {p : Parts} {limits : Limits}

theorem toNat_size (h : p.size < UInt32.size) : (p.layout.imageSize).toNat = p.image.length := by
  rw [length_image]
  exact UInt32.toNat_ofNat_of_lt' h

theorem check_header (hmax : p.pageSize ≤ limits.maxPageSize)
    (hexpected : ∀ page ∈ limits.expectedPageSize, p.pageSize = page)
    (hkernel : p.kernel.bytes ≠ []) (hramdisk : p.ramdisk.bytes ≠ []) (h : p.size < UInt32.size) :
    limits.check p.header = .ok () := by
  have hword {n : Nat} (hn : n < UInt32.size) (hzero : UInt32.ofNat n = 0) : n = 0 := by
    rw [← UInt32.toNat_ofNat_of_lt' hn, hzero]
    rfl
  have hpage := p.header_page
  have hk := p.kernel.length_bytes_le
  have hr := p.ramdisk.length_bytes_le
  simp only [size, treeOffset, secondOffset, ramdiskOffset] at h
  refine Limits.check_eq_ok.mpr ⟨?_, ?_, hmax, hexpected⟩
  · rintro (hzero | hzero)
    · exact hkernel (List.length_eq_zero_iff.mp (hword (by omega) hzero))
    · rw [show p.pageSize = 0 from hzero, UInt32.toNat_zero, headerSize] at hpage
      omega
  · intro hzero
    exact hramdisk (List.length_eq_zero_iff.mp (hword (by omega) hzero))

theorem inspect_ok (hmax : p.pageSize ≤ limits.maxPageSize)
    (hexpected : ∀ page ∈ limits.expectedPageSize, p.pageSize = page)
    (hkernel : p.kernel.bytes ≠ []) (hramdisk : p.ramdisk.bytes ≠ []) (h : p.size < UInt32.size)
    (rest : Bytes) :
    (inspect limits (p.image ++ rest)).outcome = .ok (p.header, p.layout) := by
  have hcheck := check_header hmax hexpected hkernel hramdisk h
  exact inspect_eq_ok.mpr ⟨p.headerSize_le_length rest, take_magic rest, (ofBytes_image rest).symm,
    hcheck, ofHeader_header h⟩

theorem payload_block {front back : Bytes} {b : Block p.pageSize.toNat}
    (himage : p.image = front ++ (b.padded ++ back)) (h : p.size < UInt32.size)
    (actual : UInt32) (rest : Bytes) :
    Layout.payload ⟨.ofNat front.length, .ofNat b.bytes.length, actual⟩ (p.image ++ rest) =
      .ok b.bytes := by
  have hlength := congrArg List.length himage
  have hb := b.length_bytes_le
  simp only [length_image, List.length_append, Block.length_padded] at hlength
  have hsplit : p.image ++ rest = front ++ (b.bytes ++ (b.padding ++ (back ++ rest))) := by
    simp only [himage, Block.padded, List.append_assoc]
  rw [Layout.payload, Region.span, UInt32.toNat_ofNat_of_lt' (by omega),
    UInt32.toNat_ofNat_of_lt' (by omega), hsplit, slice?_append]

theorem payload_kernel (h : p.size < UInt32.size) (rest : Bytes) :
    Layout.payload p.layout.kernel (p.image ++ rest) = .ok p.kernel.bytes := by
  have hpage : UInt32.ofNat p.headerPage.length = p.pageSize := by
    rw [length_headerPage, UInt32.ofNat_toNat]
  have hpayload := payload_block (p := p) rfl h (.ofNat p.kernel.room) rest
  rwa [hpage] at hpayload

theorem payload_ramdisk (h : p.size < UInt32.size) (rest : Bytes) :
    Layout.payload p.layout.ramdisk (p.image ++ rest) = .ok p.ramdisk.bytes := by
  have hfront : (p.headerPage ++ p.kernel.padded).length = p.ramdiskOffset := by
    rw [List.length_append, length_headerPage, Block.length_padded, ramdiskOffset]
  have hsplit : p.image = (p.headerPage ++ p.kernel.padded) ++
      (p.ramdisk.padded ++ (p.second.padded ++ p.deviceTree.padded)) := by
    rw [image, List.append_assoc]
  have hpayload := payload_block hsplit h (.ofNat p.ramdisk.room) rest
  rwa [hfront] at hpayload

theorem payload_second (h : p.size < UInt32.size) (rest : Bytes) :
    Layout.payload p.layout.second (p.image ++ rest) = .ok p.second.bytes := by
  have hfront : (p.headerPage ++ (p.kernel.padded ++ p.ramdisk.padded)).length =
      p.secondOffset := by
    simp only [List.length_append, length_headerPage, Block.length_padded, secondOffset,
      ramdiskOffset]
    omega
  have hsplit : p.image = (p.headerPage ++ (p.kernel.padded ++ p.ramdisk.padded)) ++
      (p.second.padded ++ p.deviceTree.padded) := by
    simp only [image, List.append_assoc]
  have hpayload := payload_block hsplit h (.ofNat p.second.room) rest
  rwa [hfront] at hpayload

theorem payload_deviceTree (h : p.size < UInt32.size) (rest : Bytes) :
    Layout.payload p.layout.deviceTree (p.image ++ rest) = .ok p.deviceTree.bytes := by
  have hfront : (p.headerPage ++ (p.kernel.padded ++ (p.ramdisk.padded ++ p.second.padded))).length =
      p.treeOffset := by
    simp only [List.length_append, length_headerPage, Block.length_padded, treeOffset,
      secondOffset, ramdiskOffset]
    omega
  have hsplit : p.image = (p.headerPage ++ (p.kernel.padded ++ (p.ramdisk.padded ++
      p.second.padded))) ++ (p.deviceTree.padded ++ []) := by
    simp only [image, List.append_assoc, List.append_nil]
  have hpayload := payload_block hsplit h (.ofNat p.deviceTree.room) rest
  rwa [hfront] at hpayload

end Parts

namespace Layout

variable {l : Layout} {length : Nat}

theorem checkFits_of_le (h : l.imageSize.toNat ≤ length) :
    (l.checkFits length).outcome = .ok () := by
  rw [checkFits, if_pos h]
  rfl

theorem checkFits_of_lt (h : length < l.imageSize.toNat) :
    (l.checkFits length).outcome = .error (.malformedSizes "image shorter than header sizes") := by
  rw [checkFits, if_neg (Nat.not_le.mpr h)]
  rfl

end Layout

namespace Header

variable (h : Header)

theorem commandLine_prefix : h.commandLine <+: h.arguments := by
  have hline : h.commandLine <+: h.arguments.take (argumentsSize - 1) := List.takeWhile_prefix _
  exact hline.trans (List.take_prefix _ _)

theorem length_commandLine_le : h.commandLine.length ≤ argumentsSize - 1 := by
  apply Nat.le_trans (List.takeWhile_prefix _).length_le
  rw [List.length_take]
  exact Nat.min_le_left _ _

theorem nul_after_commandLine (hlength : h.arguments.length = argumentsSize)
    (hshort : h.commandLine.length < argumentsSize - 1) :
    h.arguments[h.commandLine.length]? = some 0 := by
  have hblock : (h.arguments.take (argumentsSize - 1)).length = argumentsSize - 1 := by
    rw [List.length_take, hlength]
    decide
  obtain hall | ⟨rest, hrest⟩ := eq_untilNul_append (h.arguments.take (argumentsSize - 1))
  · rw [commandLine, ← hall] at hshort
    omega
  · rw [← List.getElem?_take_of_lt hshort, hrest, commandLine, List.getElem?_append_right (Nat.le_refl _),
      Nat.sub_self]
    rfl

end Header

theorem inspect_image (p : Parts) (limits : Limits) (hmax : p.pageSize ≤ limits.maxPageSize)
    (hexpected : ∀ page ∈ limits.expectedPageSize, p.pageSize = page)
    (hkernel : p.kernel.bytes ≠ []) (hramdisk : p.ramdisk.bytes ≠ [])
    (hsize : p.size < UInt32.size) :
    ∃ layout, (inspect limits p.image).outcome = .ok (p.header, layout) ∧
      layout.imageSize.toNat = p.image.length ∧
      Layout.payload layout.kernel p.image = .ok p.kernel.bytes ∧
      Layout.payload layout.ramdisk p.image = .ok p.ramdisk.bytes ∧
      Layout.payload layout.second p.image = .ok p.second.bytes ∧
      Layout.payload layout.deviceTree p.image = .ok p.deviceTree.bytes ∧
      p.header.commandLine <+: p.arguments ∧ 0 ∉ p.header.commandLine ∧
      p.header.commandLine.length ≤ 511 ∧
      (p.header.commandLine.length < 511 →
        p.arguments[p.header.commandLine.length]? = some 0) ∧
      (∀ part, part <+: p.image → part ≠ p.image →
        (layout.checkFits part.length).outcome =
          .error (.malformedSizes "image shorter than header sizes")) ∧
      ∀ rest, (layout.checkFits (p.image ++ rest).length).outcome = .ok () := by
  have hfit := Parts.toNat_size hsize
  have hwhole := p.image.append_nil
  refine ⟨p.layout, ?_, hfit, ?_, ?_, ?_, ?_, p.header.commandLine_prefix,
    nul_not_mem_untilNul _, p.header.length_commandLine_le,
    p.header.nul_after_commandLine p.arguments_length, ?_, ?_⟩
  · rw [← hwhole]
    exact Parts.inspect_ok hmax hexpected hkernel hramdisk hsize []
  · rw [← hwhole]
    exact Parts.payload_kernel hsize []
  · rw [← hwhole]
    exact Parts.payload_ramdisk hsize []
  · rw [← hwhole]
    exact Parts.payload_second hsize []
  · rw [← hwhole]
    exact Parts.payload_deviceTree hsize []
  · intro part hpart hne
    apply Layout.checkFits_of_lt
    rw [hfit]
    apply Nat.lt_of_le_of_ne hpart.length_le
    exact fun hlength => hne (hpart.eq_of_length hlength)
  · intro rest
    apply Layout.checkFits_of_le
    rw [hfit, List.length_append]
    exact Nat.le_add_right _ _

def oddPages : Parts where
  pageSize := 700
  kernelAddr := 0x80008000
  ramdiskAddr := 0x81000000
  secondAddr := 7
  tagsAddr := 0x80000100
  unused := 3
  name := List.replicate nameSize 0x6E
  arguments := utf8 "quiet" ++ List.replicate 507 0
  id := List.replicate 32 0xAB
  headerPadding := List.replicate 92 0xFF
  kernel := .zeroFilled (by decide) [1, 2, 3]
  ramdisk := .zeroFilled (by decide) (List.replicate 701 4)
  second := .zeroFilled (by decide) []
  deviceTree := .zeroFilled (by decide) [5]
  name_length := by decide +kernel
  arguments_length := by decide +kernel
  id_length := by decide +kernel
  header_page := by decide +kernel

theorem inspect_image_oddPages : oddPages.image.length = 3500 ∧
    ∃ layout, (inspect ⟨4096, some 700⟩ oddPages.image).outcome = .ok (oddPages.header, layout) ∧
      layout.imageSize.toNat = oddPages.image.length ∧
      Layout.payload layout.kernel oddPages.image = .ok [1, 2, 3] ∧
      Layout.payload layout.second oddPages.image = .ok [] ∧
      oddPages.header.commandLine = utf8 "quiet" := by
  refine ⟨by decide +kernel, ?_⟩
  have hexpected : ∀ page ∈ some 700, oddPages.pageSize = page := fun _ h => Option.some.inj h
  obtain ⟨layout, hinspect, hsize, hkernel, -, hsecond, -⟩ :=
    inspect_image oddPages ⟨4096, some 700⟩ (by decide) hexpected (by decide) (by decide +kernel)
      (by decide +kernel)
  exact ⟨layout, hinspect, hsize, hkernel, hsecond, by decide +kernel⟩

end BootAssembly.BootImage
