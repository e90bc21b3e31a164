import BootAssembly.Proofs.DeviceTree.Structure

namespace BootAssembly.DeviceTree

namespace Header

theorem ofBytes_encodeHeader (h : Header) (rest : Bytes) : ofBytes (encodeHeader h ++ rest) = h := by
  have cell := be32At_ofCells [blobMagic, h.totalSize, h.structOffset, h.stringsOffset,
    h.reserveOffset, h.version, h.lastCompatible, h.bootCpu, h.stringsSize, h.structSize] rest
  cases h
  simp only [ofBytes, mk.injEq]
  exact ⟨cell 1 (by simp), cell 2 (by simp), cell 3 (by simp), cell 4 (by simp), cell 5 (by simp),
    cell 6 (by simp), cell 7 (by simp), cell 8 (by simp), cell 9 (by simp)⟩

theorem length_encodeHeader (h : Header) : (encodeHeader h).length = headerSize :=
  length_ofCells _

theorem magic_encodeHeader (h : Header) (rest : Bytes) :
    be32At (encodeHeader h ++ rest) 0 = blobMagic :=
  be32At_ofCells [blobMagic, h.totalSize, h.structOffset, h.stringsOffset, h.reserveOffset,
    h.version, h.lastCompatible, h.bootCpu, h.stringsSize, h.structSize] rest 0 (by simp)

theorem check_eq_ok {h : Header} (hversion : oldestVersion ≤ h.version)
    (hcompatible : h.lastCompatible ≤ currentVersion) (htotal : headerSize ≤ h.totalSize.toNat)
    {struct strings : Span} (hstruct : h.structBlock = .ok struct)
    (hstrings : h.stringsBlock = .ok strings) (hreserve : headerSize ≤ h.reserveOffset.toNat)
    (hbelow : h.reserveOffset < h.totalSize) : h.check = .ok () := by
  unfold check
  rw [if_neg (by rw [not_or, UInt32.not_lt, UInt32.not_lt]; exact ⟨hversion, hcompatible⟩),
    if_neg (Nat.not_lt.mpr htotal), hstruct, hstrings,
    if_neg (by rw [not_or, Nat.not_lt, UInt32.not_le]; exact ⟨hreserve, hbelow⟩)]
  rfl

theorem read_eq_ok_iff {blob : Bytes} {h : Header} :
    read blob = .ok h ↔ headerSize ≤ blob.length ∧ be32At blob 0 = blobMagic ∧
      ofBytes blob = h ∧ h.check = .ok () := by
  unfold read
  rw [List.length_take]
  by_cases hlength : headerSize ≤ blob.length
  · rw [if_neg (by omega)]
    by_cases hmagic : be32At blob 0 = blobMagic
    · rw [if_neg (not_not_intro hmagic)]
      cases hcheck : (ofBytes blob).check with
      | error e =>
        simp only [bind, Except.bind, hcheck, reduceCtorEq, false_iff]
        rintro ⟨-, -, rfl, hok⟩
        rw [hcheck] at hok
        cases hok
      | ok u =>
        simp only [bind, Except.bind, pure, Except.pure, hcheck, Except.ok.injEq]
        constructor
        · rintro rfl
          exact ⟨hlength, hmagic, rfl, hcheck⟩
        · exact fun hall => hall.2.2.1
    · rw [if_pos hmagic]
      simp [hmagic, bind, Except.bind, throw, throwThe, MonadExceptOf.throw]
  · rw [if_pos (by omega)]
    simp [hlength, bind, Except.bind, throw, throwThe, MonadExceptOf.throw]

theorem read_encodeHeader {h : Header} (hcheck : h.check = .ok ()) (rest : Bytes) :
    read (encodeHeader h ++ rest) = .ok h := by
  rw [read_eq_ok_iff, List.length_append, length_encodeHeader]
  exact ⟨by omega, magic_encodeHeader h rest, ofBytes_encodeHeader h rest, hcheck⟩

theorem read_append {blob : Bytes} (h : headerSize ≤ blob.length) (rest : Bytes) :
    read (blob ++ rest) = read blob := by
  unfold headerSize at h
  have hat : ∀ offset ≤ 36, be32At (blob ++ rest) offset = be32At blob offset :=
    fun offset ho => be32At_append (by omega) rest
  have hheader : ofBytes (blob ++ rest) = ofBytes blob := by simp [ofBytes, hat]
  unfold read
  rw [hheader, hat 0 (by omega), headerSize, List.take_append_of_le_length h]

end Header

theorem splitExact_length {front : Bytes} {n : Nat} (h : front.length = n) (rest : Bytes) :
    splitExact n (front ++ rest) = some (front, rest) :=
  splitExact_eq_some.mpr ⟨rfl, h⟩

theorem decodeReservations_entry (r : Reservation) (rest : Bytes) :
    decodeReservations (be64 r.address ++ be64 r.size ++ rest) =
      if r.address = 0 ∧ r.size = 0 then .ok [] else (decodeReservations rest).map (r :: ·) := by
  have hsplit := splitExact_length (show (be64 r.address ++ be64 r.size).length = 16 by simp) rest
  have haddress : be64At (be64 r.address ++ be64 r.size) 0 = r.address :=
    be64At_append [] r.address (be64 r.size)
  have hwidth : be64At (be64 r.address ++ be64 r.size) 8 = r.size := by
    simpa using be64At_append (be64 r.address) r.size []
  rw [decodeReservations]
  split <;> rename_i hs <;> rw [hsplit] at hs <;> cases hs
  simp only [haddress, hwidth]
  cases decodeReservations rest <;> rfl

theorem decodeReservations_encode {rs : List Reservation}
    (h : ∀ r ∈ rs, ¬ (r.address = 0 ∧ r.size = 0)) (rest : Bytes) :
    decodeReservations (encodeReservations rs ++ rest) = .ok rs := by
  induction rs with
  | nil => exact decodeReservations_entry ⟨0, 0⟩ rest
  | cons r rs ih =>
    simp only [List.forall_mem_cons] at h
    have hentry : encodeReservations (r :: rs) ++ rest =
        be64 r.address ++ be64 r.size ++ (encodeReservations rs ++ rest) := by
      simp [encodeReservations]
    rw [hentry, decodeReservations_entry, if_neg h.1, ih h.2]
    rfl

theorem takeTag_be32 (word : UInt32) (h : Tag.ofWord word ≠ .nop) (rest : Bytes) :
    takeTag (be32 word ++ rest) = .ok (Tag.ofWord word, rest) := by
  rw [takeTag]
  split <;> rename_i hw <;> rw [takeWord_be32] at hw <;> cases hw
  rw [if_neg h]

theorem decodeStructure_eq_ok {strings block body rest : Bytes} {name : String} {root : Node}
    (hblock : block = beginTag ++ (padded (nulTerminated name) ++ body)) (hn : 0 ∉ utf8 name)
    (hbody : takeNode strings (.new name) [] body = .ok (root, finishTag ++ rest)) :
    decodeStructure strings block = .ok root := by
  have hfirst := takeTag_be32 1 (by decide) (padded (nulTerminated name) ++ body)
  have hlast := takeTag_be32 9 (by decide) rest
  rw [hblock]
  simp only [decodeStructure, beginTag, hfirst]
  simp only [bind, Except.bind, takeName_append hn, hbody, finishTag, hlast]
  rfl

theorem decodeStructure_encode {root : Node} (h : ∀ n ∈ root.toList, n.NulFree)
    (hdepth : root.height ≤ maxDepth) {strings : Bytes} (hstrings : (encodeNode [] root).2 = strings)
    (hlimit : strings.length < UInt32.size) (hsize : (encodeNode [] root).1.length < UInt32.size) :
    decodeStructure strings ((encodeNode [] root).1 ++ finishTag) = .ok root := by
  cases root with | mk name ps cs
  rw [Node.toList, List.forall_mem_cons] at h
  obtain ⟨hn, hbelow⟩ := h
  have hno : ∀ n ∈ ([] : List Bytes), 0 ∉ n := fun n hmem => absurd hmem List.not_mem_nil
  have hps : ∀ n ∈ propertyNames ps, 0 ∉ n := nul_not_mem_propertyNames hn
  have hnames := nul_not_mem_foldl_recordName hno hps
  have hown := encodeProperties_table hno ps hps
  rw [show ([] : Bytes) = stringsOf [] from rfl, encodeNode_mk] at hstrings hsize ⊢
  simp only [hown, List.length_append] at hstrings hsize
  have hprefix : (encodeProperties (stringsOf []) ps).2 <+: strings := by
    rw [hown, ← hstrings, encodeForest_table hnames cs hbelow]
    exact stringsOf_mono (prefix_foldl_recordName _ _)
  simp only [hown, List.append_assoc]
  apply decodeStructure_eq_ok rfl hn.1
  rw [takeNode_properties hno hps hprefix hlimit (by omega),
    takeNode_forest hnames hlimit cs _ [] _ hbelow hdepth (hstrings ▸ List.prefix_refl _) (by omega),
    takeNode_of_last_close (takeItem_close 1 _)]
  rfl

def structBytes (t : DeviceTree) : Bytes := (encodeNode [] t.root).1 ++ finishTag

def stringsBytes (t : DeviceTree) : Bytes := (encodeNode [] t.root).2

def structStart (t : DeviceTree) : Nat := headerSize + (encodeReservations t.reservations).length

def stringsStart (t : DeviceTree) : Nat := structStart t + (structBytes t).length

def encodedSize (t : DeviceTree) : Nat := stringsStart t + (stringsBytes t).length

def headerOf (t : DeviceTree) : Header where
  totalSize := UInt32.ofNat (encodedSize t)
  structOffset := UInt32.ofNat (structStart t)
  stringsOffset := UInt32.ofNat (stringsStart t)
  reserveOffset := UInt32.ofNat headerSize
  version := currentVersion
  lastCompatible := oldestVersion
  bootCpu := t.bootCpu
  stringsSize := UInt32.ofNat (stringsBytes t).length
  structSize := UInt32.ofNat (structBytes t).length

def blobOf (t : DeviceTree) : Bytes :=
  encodeHeader (headerOf t) ++ encodeReservations t.reservations ++ structBytes t ++ stringsBytes t

theorem lt_sizeLimit {n : Nat} (h : n < UInt32.size) : n < sizeLimit :=
  Nat.lt_trans h (by decide)

theorem toBytes_eq_ok_iff {t : DeviceTree} {b : Bytes} :
    toBytes t = .ok b ↔ encodedSize t < UInt32.size ∧ b = blobOf t := by
  constructor
  · intro h
    obtain ⟨_, hstruct, h⟩ := bind_eq_ok.mp h
    obtain ⟨_, hstrings, h⟩ := bind_eq_ok.mp h
    obtain ⟨total, htotal, h⟩ := bind_eq_ok.mp h
    obtain ⟨-, rfl⟩ := addSize_eq_ok.mp hstruct
    obtain ⟨-, rfl⟩ := addSize_eq_ok.mp hstrings
    have hsize : total = encodedSize t := (addSize_eq_ok.mp htotal).2
    subst hsize
    by_cases hlimit : encodedSize t < UInt32.size
    · rw [if_neg (Nat.not_le.mpr hlimit)] at h
      cases h
      exact ⟨hlimit, rfl⟩
    · rw [if_pos (Nat.not_lt.mp hlimit)] at h
      cases h
  · rintro ⟨hlimit, rfl⟩
    have hsize : encodedSize t = structStart t + (structBytes t).length +
      (stringsBytes t).length := rfl
    have hstruct : addSize headerSize (encodeReservations t.reservations).length "fdt layout" =
        .ok (structStart t) := by
      have hstart : headerSize + (encodeReservations t.reservations).length = structStart t := rfl
      exact addSize_eq_ok.mpr ⟨lt_sizeLimit (by rw [hstart]; omega), rfl⟩
    have hstrings : addSize (structStart t) (structBytes t).length "fdt layout" =
        .ok (stringsStart t) := addSize_eq_ok.mpr ⟨lt_sizeLimit (by omega), rfl⟩
    have htotal : addSize (stringsStart t) (stringsBytes t).length "fdt layout" =
        .ok (encodedSize t) := addSize_eq_ok.mpr ⟨lt_sizeLimit hlimit, rfl⟩
    simp only [structBytes, stringsBytes] at hstrings htotal
    simp only [toBytes, bind, Except.bind, hstruct, hstrings, htotal]
    rw [if_neg (Nat.not_le.mpr hlimit)]
    rfl

theorem length_blobOf (t : DeviceTree) : (blobOf t).length = encodedSize t := by
  simp only [blobOf, List.length_append, Header.length_encodeHeader]
  rfl

theorem headerSize_lt_encodedSize (t : DeviceTree) : headerSize < encodedSize t := by
  have hfinish : finishTag.length = 4 := length_be32 9
  simp only [encodedSize, stringsStart, structStart, structBytes, List.length_append, hfinish]
  omega

section

variable {t : DeviceTree} (hlimit : encodedSize t < UInt32.size)

include hlimit

theorem toNat_ofNat_size {n : Nat} (hn : n ≤ encodedSize t) : (UInt32.ofNat n).toNat = n :=
  UInt32.toNat_ofNat_of_lt' (Nat.lt_of_le_of_lt hn hlimit)

theorem structBlock_headerOf :
    (headerOf t).structBlock = .ok ⟨structStart t, structStart t + (structBytes t).length⟩ := by
  have hsize : encodedSize t = structStart t + (structBytes t).length +
    (stringsBytes t).length := rfl
  have hversion : currentVersion ≤ (headerOf t).version := UInt32.le_refl _
  unfold Header.structBlock
  rw [if_pos hversion, span_eq_ok]
  simp only [headerOf, toNat_ofNat_size hlimit (n := structStart t) (by omega),
    toNat_ofNat_size hlimit (n := (structBytes t).length) (by omega),
    toNat_ofNat_size hlimit (Nat.le_refl _)]
  simp only [and_true]
  exact ⟨lt_sizeLimit (by omega), by omega⟩

theorem stringsBlock_headerOf :
    (headerOf t).stringsBlock =
      .ok ⟨stringsStart t, stringsStart t + (stringsBytes t).length⟩ := by
  have hsize : encodedSize t = stringsStart t + (stringsBytes t).length := rfl
  unfold Header.stringsBlock
  rw [span_eq_ok]
  simp only [headerOf, toNat_ofNat_size hlimit (n := stringsStart t) (by omega),
    toNat_ofNat_size hlimit (n := (stringsBytes t).length) (by omega),
    toNat_ofNat_size hlimit (Nat.le_refl _)]
  simp only [and_true]
  exact ⟨lt_sizeLimit (by omega), by omega⟩

theorem check_headerOf : (headerOf t).check = .ok () := by
  have hlt := headerSize_lt_encodedSize t
  have hreserve : (headerOf t).reserveOffset.toNat = headerSize := rfl
  have htotal : (headerOf t).totalSize.toNat = encodedSize t :=
    toNat_ofNat_size hlimit (Nat.le_refl _)
  apply Header.check_eq_ok (show oldestVersion ≤ currentVersion by decide)
    (show oldestVersion ≤ currentVersion by decide) _ (structBlock_headerOf hlimit)
    (stringsBlock_headerOf hlimit)
  · omega
  · rw [UInt32.lt_iff_toNat_lt]; omega
  · omega

theorem read_blobOf (rest : Bytes) : Header.read (blobOf t ++ rest) = .ok (headerOf t) := by
  simp only [blobOf, List.append_assoc]
  exact Header.read_encodeHeader (check_headerOf hlimit) _

theorem parse_blobOf_eq (hreserved : ∀ r ∈ t.reservations, ¬ (r.address = 0 ∧ r.size = 0))
    (rest : Bytes) : parse (blobOf t ++ rest) =
      (decodeStructure (stringsBytes t) (structBytes t)).map fun root => { t with root } := by
  have hread := read_blobOf hlimit rest
  have htotal : (headerOf t).totalSize.toNat = encodedSize t :=
    toNat_ofNat_size hlimit (Nat.le_refl _)
  have hsplit : splitExact (headerOf t).totalSize.toNat (blobOf t ++ rest) =
      some (blobOf t, rest) := by
    rw [htotal]
    exact splitExact_length (length_blobOf t) rest
  have hreservations : decodeReservations ((blobOf t).drop (headerOf t).reserveOffset.toNat) =
      .ok t.reservations := by
    have hoffset : (headerOf t).reserveOffset.toNat = (encodeHeader (headerOf t)).length := by
      rw [Header.length_encodeHeader]
      rfl
    simp only [blobOf, List.append_assoc]
    rw [hoffset, List.drop_left, decodeReservations_encode hreserved]
  have hstart : (encodeHeader (headerOf t) ++ encodeReservations t.reservations).length =
      structStart t := by
    rw [List.length_append, Header.length_encodeHeader]
    rfl
  have hstruct : slice ⟨structStart t, structStart t + (structBytes t).length⟩ (blobOf t) =
      structBytes t := by
    have hmiddle := slice_append (encodeHeader (headerOf t) ++ encodeReservations t.reservations)
      (structBytes t) (stringsBytes t)
    rwa [hstart, ← List.append_assoc] at hmiddle
  have hstrings : slice ⟨stringsStart t, stringsStart t + (stringsBytes t).length⟩ (blobOf t) =
      stringsBytes t := by
    have hmiddle := slice_append (encodeHeader (headerOf t) ++ encodeReservations t.reservations ++
      structBytes t) (stringsBytes t) []
    rwa [List.length_append, hstart, List.append_nil] at hmiddle
  simp only [parse, bind, Except.bind, hread, hsplit, hreservations, stringsBlock_headerOf hlimit,
    structBlock_headerOf hlimit, hstrings, hstruct, pure, Except.pure]
  cases decodeStructure (stringsBytes t) (structBytes t) <;> rfl

theorem parse_blobOf (h : t.Portable) (rest : Bytes) : parse (blobOf t ++ rest) = .ok t := by
  have hroot : decodeStructure (stringsBytes t) (structBytes t) = .ok t.root := by
    have hsize : encodedSize t = structStart t + ((encodeNode [] t.root).1.length +
      finishTag.length) + (stringsBytes t).length := by
      rw [← List.length_append]
      rfl
    exact decodeStructure_encode h.nulFree h.shallow rfl (by omega) (by omega)
  rw [parse_blobOf_eq hlimit h.reserved, hroot]
  rfl

end

theorem parse_short {p rest : Bytes} {header : Header} (hread : Header.read (p ++ rest) = .ok header)
    (hshort : p.length < header.totalSize.toNat) : ∃ e, parse p = .error e := by
  cases hp : parse p with
  | error e => exact ⟨e, rfl⟩
  | ok t =>
    obtain ⟨other, hother, hparts⟩ := bind_eq_ok.mp hp
    have hlength := (Header.read_eq_ok_iff.mp hother).1
    rw [Header.read_append hlength, hother] at hread
    cases hread
    cases hsplit : splitExact header.totalSize.toNat p with
    | none =>
      rw [hsplit] at hparts
      cases hparts
    | some parts =>
      obtain ⟨hp, hfirst⟩ := splitExact_eq_some.mp hsplit
      have := congrArg List.length hp
      rw [List.length_append] at this
      omega

/-- A tree's blob has the length that its header gives, reads back as the tree whatever follows it,
and does not read when bytes are missing at its end. -/
theorem parse_toBytes {t : DeviceTree} (h : t.Portable) :
    (∀ b, toBytes t = .ok b →
      b.length = encodedSize t ∧
      (∃ header, Header.read b = .ok header ∧ header.totalSize.toNat = b.length) ∧
      (∀ s, parse (b ++ s) = .ok t) ∧
      ∀ p, p <+: b → p ≠ b → ∃ e, parse p = .error e) ∧
    ∀ e, toBytes t = .error e → UInt32.size ≤ encodedSize t := by
  constructor
  · intro b hb
    obtain ⟨hlimit, rfl⟩ := toBytes_eq_ok_iff.mp hb
    have hread := read_blobOf hlimit []
    rw [List.append_nil] at hread
    have htotal : (headerOf t).totalSize.toNat = (blobOf t).length := by
      rw [length_blobOf]
      exact toNat_ofNat_size hlimit (Nat.le_refl _)
    refine ⟨length_blobOf t, ⟨headerOf t, hread, htotal⟩, parse_blobOf hlimit h, ?_⟩
    rintro p ⟨rest, hp⟩ hne
    have hshort : p.length < (headerOf t).totalSize.toNat := by
      rw [htotal, ← hp, List.length_append]
      have hrest : rest ≠ [] := by
        rintro rfl
        exact hne (by rw [← hp, List.append_nil])
      have := List.length_pos_iff.mpr hrest
      omega
    rw [← hp] at hread
    exact parse_short hread hshort
  · intro e he
    rcases Nat.lt_or_ge (encodedSize t) UInt32.size with hlimit | hlimit
    · rw [toBytes_eq_ok_iff.mpr ⟨hlimit, rfl⟩] at he
      cases he
    · exact hlimit

def nested : DeviceTree where
  bootCpu := 0
  reservations := [⟨0x80000000, 0x1000⟩]
  root := ⟨"", [⟨"model", utf8 "board"⟩], [⟨"soc", [⟨"model", []⟩, ⟨"", [1]⟩], []⟩]⟩

theorem parse_toBytes_nested : ∃ b, toBytes nested = .ok b ∧ parse (b ++ [7]) = .ok nested := by
  have hlimit : encodedSize nested < UInt32.size := by decide +kernel
  have hportable : nested.Portable := ⟨by decide, by decide, by decide⟩
  have hb := toBytes_eq_ok_iff.mpr ⟨hlimit, rfl⟩
  exact ⟨_, hb, ((parse_toBytes hportable).1 _ hb).2.2.1 [7]⟩

end BootAssembly.DeviceTree
