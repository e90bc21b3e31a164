import BootAssembly.Proofs.DeviceTree.Grammar

namespace BootAssembly.DeviceTree

namespace Header

def stringsSpan (h : Header) : Span :=
  ⟨h.stringsOffset.toNat, h.stringsOffset.toNat + h.stringsSize.toNat⟩

def structSpan (h : Header) : Span :=
  ⟨h.structOffset.toNat, if currentVersion ≤ h.version then
    h.structOffset.toNat + h.structSize.toNat else h.totalSize.toNat⟩

variable {h : Header} {s : Span}

theorem stringsBlock_eq_ok_iff :
    h.stringsBlock = .ok s ↔ s = h.stringsSpan ∧ s.stop ≤ h.totalSize.toNat := by
  have htotal := h.totalSize.toNat_lt
  have hlimit : 2 ^ 32 < sizeLimit := by decide
  rw [stringsBlock, span_eq_ok, stringsSpan]
  constructor
  · rintro ⟨-, hle, rfl⟩
    exact ⟨rfl, hle⟩
  · rintro ⟨rfl, hle⟩
    dsimp only at hle
    exact ⟨by omega, hle, rfl⟩

theorem structBlock_eq_ok_iff : h.structBlock = .ok s ↔
    s = h.structSpan ∧ s.start ≤ s.stop ∧ s.stop ≤ h.totalSize.toNat := by
  have htotal := h.totalSize.toNat_lt
  have hlimit : 2 ^ 32 < sizeLimit := by decide
  unfold structBlock structSpan
  split
  · rw [span_eq_ok]
    constructor
    · rintro ⟨-, hle, rfl⟩
      exact ⟨rfl, Nat.le_add_right _ _, hle⟩
    · rintro ⟨rfl, -, hle⟩
      dsimp only at hle
      exact ⟨by omega, hle, rfl⟩
  · dsimp only
    split
    · rename_i hstart
      rw [span_eq_ok, Nat.add_sub_cancel' hstart]
      constructor
      · rintro ⟨-, -, rfl⟩
        exact ⟨rfl, hstart, Nat.le_refl _⟩
      · rintro ⟨rfl, -, -⟩
        exact ⟨by omega, Nat.le_refl _, rfl⟩
    · rename_i hstart
      simp only [reduceCtorEq, false_iff]
      rintro ⟨rfl, hle, -⟩
      exact hstart hle

theorem of_check (hcheck : h.check = .ok ()) : oldestVersion ≤ h.version ∧
    h.lastCompatible ≤ currentVersion ∧ headerSize ≤ h.totalSize.toNat ∧
    headerSize ≤ h.reserveOffset.toNat ∧ h.reserveOffset < h.totalSize := by
  unfold check at hcheck
  obtain ⟨hversion, hcheck⟩ := guard_eq_ok.mp hcheck
  obtain ⟨htotal, hcheck⟩ := guard_eq_ok.mp hcheck
  obtain ⟨_, -, hcheck⟩ := bind_eq_ok.mp hcheck
  obtain ⟨_, -, hcheck⟩ := bind_eq_ok.mp hcheck
  rw [not_or, UInt32.not_lt, UInt32.not_lt] at hversion
  split at hcheck
  · cases hcheck
  · rename_i hreserve
    rw [not_or, Nat.not_lt, UInt32.not_le] at hreserve
    exact ⟨hversion.1, hversion.2, Nat.not_lt.mp htotal, hreserve⟩

theorem ofCells_read (count : Nat) {bytes : Bytes} (hlength : 4 * count ≤ bytes.length) :
    ofCells ((List.range count).map fun i => be32At bytes (4 * i)) = bytes.take (4 * count) := by
  induction count with
  | zero => rfl
  | succ count ih =>
    have hword : ((bytes.drop (4 * count)).take 4).length = 4 := by
      rw [List.length_take, List.length_drop]
      omega
    rw [List.range_succ, List.map_append, ofCells, List.flatMap_append, ← ofCells,
      ih (by omega), List.map_singleton, List.flatMap_singleton, be32At, be32_ofBe32 hword,
      Nat.mul_succ, List.take_add]

theorem encodeHeader_ofBytes {blob : Bytes} (hlength : headerSize ≤ blob.length)
    (hmagic : be32At blob 0 = blobMagic) : encodeHeader (ofBytes blob) = blob.take headerSize := by
  have hcells := ofCells_read 10 hlength
  rw [show headerSize = 4 * 10 from rfl, ← hcells, encodeHeader, ← hmagic]
  rfl

end Header

theorem be64_entry {entry : Bytes} (hlength : entry.length = 16) :
    be64 (be64At entry 0) ++ be64 (be64At entry 8) = entry := by
  have hfirst : (entry.take 8).length = 8 := by
    rw [List.length_take, hlength]
    rfl
  have hlast : (entry.drop 8).length = 8 := by rw [List.length_drop, hlength]
  have hwhole : (entry.drop 8).take 8 = entry.drop 8 :=
    List.take_of_length_le (Nat.le_of_eq hlast)
  rw [be64At, be64At, List.drop_zero, be64_ofBe64 hfirst, hwhole, be64_ofBe64 hlast,
    List.take_append_drop]

theorem prefix_of_decodeReservations {bytes : Bytes} {rs : List Reservation}
    (h : decodeReservations bytes = .ok rs) : encodeReservations rs <+: bytes := by
  fun_induction decodeReservations bytes generalizing rs with
  | case1 => cases h
  | case2 bytes entry rest hsplit r =>
    rename_i hr
    cases h
    obtain ⟨rfl, hlength⟩ := splitExact_eq_some.mp hsplit
    have hzero := be64_entry hlength
    have haddress : be64At entry 0 = 0 := hr.1
    have hsize : be64At entry 8 = 0 := hr.2
    rw [haddress, hsize] at hzero
    exact ⟨rest, by rw [← hzero]; rfl⟩
  | case3 => cases h
  | case4 bytes entry rest hsplit r hr rs' hrest =>
    rename_i ih
    cases h
    obtain ⟨rfl, hlength⟩ := splitExact_eq_some.mp hsplit
    obtain ⟨tail, htail⟩ := ih hrest
    refine ⟨tail, ?_⟩
    rw [← htail, ← be64_entry hlength]
    simp [encodeReservations, r]

/-- A blob that describes a tree, with its parts wherever the header puts them; they may be in any
order and may share bytes. -/
structure Describes (h : Header) (blob : Bytes) (t : DeviceTree) : Prop where
  header : encodeHeader h <+: blob
  totalSize : h.totalSize.toNat = blob.length
  version : oldestVersion ≤ h.version
  lastCompatible : h.lastCompatible ≤ currentVersion
  bootCpu : h.bootCpu = t.bootCpu
  reserveOffset : headerSize ≤ h.reserveOffset.toNat
  reservations : encodeReservations t.reservations <+: blob.drop h.reserveOffset.toNat
  blocks : ∃ strings block, slice? h.stringsSpan blob = some strings ∧
    slice? h.structSpan blob = some block ∧ StructureBlock strings t.root block

theorem Describes.check {h : Header} {blob : Bytes} {t : DeviceTree} (hd : Describes h blob t) :
    h.check = .ok () := by
  obtain ⟨strings, block, hstrings, hblock, -⟩ := hd.blocks
  obtain ⟨-, hstringsStop, -⟩ := slice?_eq_some.mp hstrings
  obtain ⟨hstructStart, hstructStop, -⟩ := slice?_eq_some.mp hblock
  have htotal := hd.totalSize
  have hheader := hd.header.length_le
  rw [Header.length_encodeHeader] at hheader
  have hreserved := hd.reservations.length_le
  have hzeros : 16 ≤ (encodeReservations t.reservations).length := by
    rw [encodeReservations, List.length_append, List.length_replicate]
    omega
  rw [List.length_drop] at hreserved
  refine Header.check_eq_ok hd.version hd.lastCompatible (by omega)
    (Header.structBlock_eq_ok_iff.mpr ⟨rfl, hstructStart, by omega⟩)
    (Header.stringsBlock_eq_ok_iff.mpr ⟨rfl, by omega⟩) hd.reserveOffset ?_
  rw [UInt32.lt_iff_toNat_lt]
  omega

theorem decodeReservations_prefix {rs : List Reservation} {bytes : Bytes}
    (hrs : ∀ r ∈ rs, ¬ (r.address = 0 ∧ r.size = 0)) (h : encodeReservations rs <+: bytes) :
    decodeReservations bytes = .ok rs := by
  obtain ⟨rest, rfl⟩ := h
  exact decodeReservations_encode hrs rest

theorem parse_of_describes {h : Header} {blob : Bytes} {t : DeviceTree} (hd : Describes h blob t)
    (ht : t.Portable) (rest : Bytes) : parse (blob ++ rest) = .ok t := by
  have hcheck := hd.check
  have hread : Header.read (blob ++ rest) = .ok h := by
    obtain ⟨tail, htail⟩ := hd.header
    rw [← htail, List.append_assoc]
    exact Header.read_encodeHeader hcheck _
  have hsplit := splitExact_length hd.totalSize.symm rest
  have hreservations := decodeReservations_prefix ht.reserved hd.reservations
  obtain ⟨strings, block, hstrings, hblock, hroot⟩ := hd.blocks
  obtain ⟨-, hstringsStop, rfl⟩ := slice?_eq_some.mp hstrings
  obtain ⟨hstructStart, hstructStop, rfl⟩ := slice?_eq_some.mp hblock
  have hstringsBlock : h.stringsBlock = .ok h.stringsSpan :=
    Header.stringsBlock_eq_ok_iff.mpr ⟨rfl, hd.totalSize ▸ hstringsStop⟩
  have hstructBlock : h.structBlock = .ok h.structSpan :=
    Header.structBlock_eq_ok_iff.mpr ⟨rfl, hstructStart, hd.totalSize ▸ hstructStop⟩
  have hdecode := decodeStructure_of_block hroot ht.nulFree ht.shallow
  simp only [parse, bind, Except.bind, hread, hsplit, hreservations, hstringsBlock, hstructBlock,
    pure, Except.pure, hdecode, hd.bootCpu]

theorem describes_of_parse {bytes : Bytes} {t : DeviceTree} (hp : parse bytes = .ok t) :
    ∃ h blob rest, bytes = blob ++ rest ∧ Describes h blob t := by
  obtain ⟨h, hread, hp⟩ := bind_eq_ok.mp hp
  obtain ⟨hlength, hmagic, rfl, hcheck⟩ := Header.read_eq_ok_iff.mp hread
  obtain ⟨hversion, hcompatible, htotal, hreserve, -⟩ := Header.of_check hcheck
  cases hsplit : splitExact (Header.ofBytes bytes).totalSize.toNat bytes with
  | none =>
    rw [hsplit] at hp
    cases hp
  | some parts =>
    obtain ⟨blob, rest⟩ := parts
    rw [hsplit] at hp
    obtain ⟨_, hparts, hp⟩ := bind_eq_ok.mp hp
    cases hparts
    obtain ⟨reservations, hreservations, hp⟩ := bind_eq_ok.mp hp
    obtain ⟨stringsSpan, hstrings, hp⟩ := bind_eq_ok.mp hp
    obtain ⟨structSpan, hstruct, hp⟩ := bind_eq_ok.mp hp
    obtain ⟨root, hroot, hp⟩ := bind_eq_ok.mp hp
    cases hp
    obtain ⟨hbytes, hblob⟩ := splitExact_eq_some.mp hsplit
    obtain ⟨rfl, hstringsStop⟩ := Header.stringsBlock_eq_ok_iff.mp hstrings
    obtain ⟨rfl, hstructStart, hstructStop⟩ := Header.structBlock_eq_ok_iff.mp hstruct
    refine ⟨_, blob, rest, hbytes, ⟨?_, hblob.symm, hversion, hcompatible, rfl, hreserve,
      prefix_of_decodeReservations hreservations, _, _, ?_, ?_, block_of_decodeStructure hroot⟩⟩
    · rw [Header.encodeHeader_ofBytes hlength hmagic, hbytes,
        List.take_append_of_le_length (by omega)]
      exact List.take_prefix _ _
    · exact slice?_eq_some.mpr ⟨Nat.le_add_right _ _, by omega, rfl⟩
    · exact slice?_eq_some.mpr ⟨hstructStart, by omega, rfl⟩

/-- Exactly the serialisations of portable trees are read, whatever follows them, and each as the
tree that it describes. -/
theorem parse_eq_ok_iff {bytes : Bytes} {t : DeviceTree} :
    parse bytes = .ok t ↔
      t.Portable ∧ ∃ h blob rest, bytes = blob ++ rest ∧ Describes h blob t := by
  constructor
  · intro h
    exact ⟨portable_of_parse h, describes_of_parse h⟩
  · rintro ⟨ht, h, blob, rest, rfl, hd⟩
    exact parse_of_describes hd ht rest

def scatteredStrings : Bytes := utf8 "xmodel" ++ [0]

def scatteredBody : Bytes :=
  nopTag ++ (beginTag ++ (nulTerminated "a" ++ ([4, 5] ++
    ((propertyTag ++ (be32 1 ++ (be32 4 ++ ([5] ++ ([7, 8, 9] ++ []))))) ++ (endTag ++
      (nopTag ++ (propertyTag ++ (be32 0 ++ (be32 1 ++ ([] ++ ([] ++ [])))))))))))

def scatteredBlock : Bytes :=
  nops 2 ++ (beginTag ++ (nulTerminated "" ++ ([1, 2, 3] ++ (scatteredBody ++ (endTag ++
    (nops 1 ++ (finishTag ++ [255])))))))

def scatteredTree : DeviceTree where
  bootCpu := 3
  reservations := [⟨0x80000000, 0x1000⟩]
  root := ⟨"", [⟨"model", []⟩], [⟨"a", [⟨"el", [5]⟩], []⟩]⟩

def scatteredHeader : Header where
  totalSize := 156
  structOffset := 79
  stringsOffset := 40
  reserveOffset := 47
  version := 16
  lastCompatible := 16
  bootCpu := 3
  stringsSize := 7
  structSize := 0xabcdef

def scattered : Bytes :=
  encodeHeader scatteredHeader ++ scatteredStrings ++
    encodeReservations scatteredTree.reservations ++ scatteredBlock

theorem scattered_body : Body scatteredStrings scatteredTree.root.properties
    scatteredTree.root.children scatteredBody := by
  have hmodel : StandsAt scatteredStrings (utf8 "model") 1 :=
    ⟨utf8 "x", [], by decide +kernel, by decide +kernel⟩
  have hel : StandsAt scatteredStrings (utf8 "el") 4 :=
    ⟨utf8 "xmod", [], by decide +kernel, by decide +kernel⟩
  refine .nop (.child rfl (.property rfl hel rfl .empty) (.nop (.property rfl hmodel rfl .empty)))

theorem describes_scattered : Describes scatteredHeader scattered scatteredTree where
  header := ⟨_, by rw [scattered, List.append_assoc, List.append_assoc]⟩
  totalSize := by decide +kernel
  version := by decide
  lastCompatible := by decide
  bootCpu := rfl
  reserveOffset := by decide
  reservations := by decide +kernel
  blocks := ⟨scatteredStrings, scatteredBlock, by decide +kernel, by decide +kernel,
    .mk 2 1 [255] rfl scattered_body⟩

theorem portable_scattered : scatteredTree.Portable := ⟨by decide, by decide, by decide⟩

theorem parse_scattered : parse (scattered ++ [7]) = .ok scatteredTree :=
  parse_eq_ok_iff.mpr ⟨portable_scattered, _, scattered, [7], rfl, describes_scattered⟩

theorem reread_of_parse {b : Bytes} {t : DeviceTree} (h : parse b = .ok t) :
    t.Portable ∧ (encodedSize t < UInt32.size ↔ ∃ b', toBytes t = .ok b') ∧
      ∀ b', toBytes t = .ok b' → parse b' = .ok t := by
  have ht := portable_of_parse h
  refine ⟨ht, ⟨fun hlimit => ⟨_, toBytes_eq_ok_iff.mpr ⟨hlimit, rfl⟩⟩, ?_⟩, ?_⟩
  · rintro ⟨b', hb'⟩
    exact (toBytes_eq_ok_iff.mp hb').1
  · intro b' hb'
    obtain ⟨hlimit, rfl⟩ := toBytes_eq_ok_iff.mp hb'
    have hback := parse_blobOf hlimit ht []
    rwa [List.append_nil] at hback

theorem reread_scattered : ∃ b', toBytes scatteredTree = .ok b' ∧ b' ≠ scattered ∧
    parse b' = .ok scatteredTree := by
  have hparse := parse_of_describes describes_scattered portable_scattered []
  obtain ⟨-, hsize, hback⟩ := reread_of_parse hparse
  obtain ⟨b', hb'⟩ := hsize.mp (by decide +kernel)
  refine ⟨b', hb', ?_, hback b' hb'⟩
  obtain ⟨-, rfl⟩ := toBytes_eq_ok_iff.mp hb'
  decide +kernel

end BootAssembly.DeviceTree
