import BootAssembly.Proofs.CommandLine.Capacity

namespace BootAssembly.CommandLine

def labelled (literal : String) : Option String → String
  | none => ""
  | some value => literal ++ value

def bootModeClause (f : Fields) : String :=
  match f.factoryMode with
  | some mode => " androidboot.mode=" ++ mode ++ " quiet"
  | none =>
    if f.chargerPause then " androidboot.mode=charger"
    else if f.alarmBoot then " androidboot.alarmboot=true" else ""

def rootClause (f : Fields) (path : Option String) : String :=
  match f.root with
  | none => ""
  | some root =>
    (if root.skipInitramfs then " skip_initramfs" else "") ++ " rootwait ro init=/init" ++
      path.getD ""

def clauses (f : Fields) (path : Option String) : List String :=
  [labelled " androidboot.verifiedbootstate=" (f.verifiedBoot.map fun v =>
      v.state.text ++ labelled " androidboot.veritymode=" (v.verity.map VerityMode.text) ++
        v.fragment),
    labelled " androidboot.bootdevice=" f.bootDevice,
    labelled " androidboot.serialno=" f.serialNo,
    bootModeClause f,
    labelled " androidboot.baseband=" (f.baseband.map (String.map Char.toLower)),
    f.displayPanel.getD "",
    if f.theftProtection then " mdtp" else "",
    labelled " androidboot.slot_suffix=" f.slotSuffix,
    rootClause f path,
    labelled " androidboot.dtbo_idx=" (f.overlayIndex.map decimal)]

def lineOf (base : Bytes) (f : Fields) (path : Option String) : Bytes :=
  base ++ utf8 (String.join (clauses f path))

@[simp] theorem utf8_empty : utf8 "" = [] := rfl

theorem utf8_ofList (cs : List Char) :
    utf8 (String.ofList cs) = cs.flatMap String.utf8EncodeChar := by
  rw [utf8, String.toByteArray_ofList, List.utf8Encode, List.toList_data_toByteArray]

theorem utf8_join (texts : List String) : utf8 (String.join texts) = texts.flatMap utf8 := by
  induction texts with
  | nil => rfl
  | cons text texts ih => rw [String.join_cons, utf8_append, ih, List.flatMap_cons]

theorem lowerAscii_of_le {bytes : Bytes} (h : ∀ b ∈ bytes, 128 ≤ b.toNat) :
    lowerAscii bytes = bytes := by
  have hsame : ∀ b ∈ bytes, (if 65 ≤ b ∧ b ≤ 90 then b + 32 else b) = b := by
    intro b hb
    have hbig := h b hb
    rw [if_neg]
    rintro ⟨-, hle⟩
    rw [UInt8.le_iff_toNat_le] at hle
    have : b.toNat ≤ 90 := hle
    omega
  rw [lowerAscii, List.map_congr_left hsame, List.map_id']

theorem ascii_toLower : ∀ n < 128, String.utf8EncodeChar (Char.ofNat n).toLower =
    lowerAscii (String.utf8EncodeChar (Char.ofNat n)) := by
  decide +kernel

theorem utf8EncodeChar_toLower (c : Char) :
    String.utf8EncodeChar c.toLower = lowerAscii (String.utf8EncodeChar c) := by
  by_cases hascii : c.toNat < 128
  · rw [← Char.ofNat_toNat c]
    exact ascii_toLower c.toNat hascii
  · have hsame : c.toLower = c := by
      have hz : ¬ (c.val ≥ 'A'.val ∧ c.val ≤ 'Z'.val) := by
        rintro ⟨-, hle⟩
        have : c.toNat ≤ 'Z'.toNat := hle
        have : 'Z'.toNat = 90 := rfl
        omega
      exact dif_neg hz
    have hbytes : ∀ b ∈ String.utf8EncodeChar c, 128 ≤ b.toNat := by
      have hlarge : ¬ c.val.toNat ≤ 127 := by
        have : c.val.toNat = c.toNat := rfl
        omega
      simp only [String.utf8EncodeChar, if_neg hlarge]
      split
      · simp [UInt8.toNat_ofNat']
        omega
      split
      · simp [UInt8.toNat_ofNat']
        omega
      · simp [UInt8.toNat_ofNat']
        omega
    rw [hsame, lowerAscii_of_le hbytes]

theorem utf8_map_toLower (text : String) :
    utf8 (text.map Char.toLower) = lowerAscii (utf8 text) := by
  have hchars (cs : List Char) : utf8 (String.ofList (cs.map Char.toLower)) =
      lowerAscii (utf8 (String.ofList cs)) := by
    induction cs with
    | nil => rfl
    | cons c cs ih =>
      rw [utf8_ofList, utf8_ofList] at ih ⊢
      rw [List.map_cons, List.flatMap_cons, List.flatMap_cons, ih, utf8EncodeChar_toLower,
        lowerAscii, lowerAscii, lowerAscii, List.map_append]
  have h := hchars text.toList
  rwa [← String.toList_map, String.ofList_toList, String.ofList_toList] at h

theorem flatten_labelled (literal : String) (value : Option String) :
    (match value with
      | none => []
      | some v => [utf8 literal, utf8 v]).flatten = utf8 (labelled literal value) := by
  cases value <;> simp [labelled, utf8_append]

theorem flatten_pieces (f : Fields) (path : Option String) :
    (pieces f path).flatten = utf8 (String.join (clauses f path)) := by
  simp only [pieces, clauses, utf8_join, List.flatMap_cons, List.flatMap_nil, List.flatten_append,
    List.append_nil, ← List.append_assoc]
  iterate 9 refine congr (congrArg List.append ?_) ?_
  · cases f.verifiedBoot with
    | none => rfl
    | some v => cases hverity : v.verity <;>
        simp [hverity, labelled, utf8_append, verifiedState, verityMode]
  · exact flatten_labelled _ f.bootDevice
  · exact flatten_labelled _ f.serialNo
  · cases hmode : f.factoryMode with
    | some m => simp [bootModeClause, hmode, utf8_append, bootMode, quiet]
    | none => cases hcharger : f.chargerPause <;> cases halarm : f.alarmBoot <;>
        simp [bootModeClause, hmode, hcharger, halarm, charger, alarmBoot]
  · cases f.baseband <;> simp [labelled, baseband, utf8_append, utf8_map_toLower]
  · cases f.displayPanel <;> simp
  · cases f.theftProtection <;> simp [theftProtection]
  · exact flatten_labelled _ f.slotSuffix
  · cases hroot : f.root with
    | none => simp [rootClause, hroot]
    | some r =>
      simp only [rootClause, hroot, utf8_append]
      cases r.skipInitramfs <;> cases path <;> simp [skipInitramfs, rootInit]
  · exact flatten_labelled _ (f.overlayIndex.map decimal)

theorem foldlM_addSize_of_le {sizes : List Nat} {total : Nat} (h : sizeLimit ≤ total + sizes.sum)
    (htotal : total < sizeLimit) (what : String) :
    sizes.foldlM (addSize · · what) total = .error (.integerOverflow what) := by
  induction sizes generalizing total with
  | nil =>
    rw [List.sum_nil] at h
    omega
  | cons size sizes ih =>
    rw [List.sum_cons, ← Nat.add_assoc] at h
    rw [List.foldlM_cons]
    by_cases hnext : total + size < sizeLimit
    · rw [addSize_eq_ok.mpr ⟨hnext, rfl⟩]
      exact ih h hnext
    · rw [addSize, if_neg hnext]
      rfl

theorem requiredLength_of_le {base : Bytes} {f : Fields} {path : Option String}
    (h : sizeLimit ≤ (lineOf base f path).length + 1) :
    requiredLength base f path = .error (.integerOverflow "cmdline length") := by
  rw [lineOf, ← flatten_pieces, List.length_append] at h
  apply foldlM_addSize_of_le _ (by decide)
  simp only [List.sum_append, List.sum_cons, List.sum_nil, sum_fieldLengths]
  omega

theorem length_lineOf (base : Bytes) (f : Fields) (path : Option String) :
    (lineOf base f path).length = base.length + (pieces f path).flatten.length := by
  rw [lineOf, List.length_append, flatten_pieces]

theorem outcome_build (base : Bytes) (f : Fields) : (build base f).outcome = assemble base f := by
  cases h : assemble base f with
  | error e => exact Traced.outcome_bind_of_error h
  | ok line => exact Traced.outcome_bind_of_ok h

theorem assemble_of_error {base : Bytes} {f : Fields} {e : Fault}
    (hpath : renderedPath f = .error e) : assemble base f = .error e := by
  rw [assemble, hpath]
  rfl

section

variable {base : Bytes} {f : Fields} {path : Option String} (hpath : renderedPath f = .ok path)

include hpath

theorem assemble_of_fits (h : (lineOf base f path).length + 1 ≤ bufferLimit) :
    assemble base f = .ok ⟨lineOf base f path ++ [0], (lineOf base f path).length + 1⟩ := by
  rw [length_lineOf] at h ⊢
  rw [assemble_of_le hpath h, written, lineOf, flatten_pieces]

theorem assemble_of_wide (h : bufferLimit < (lineOf base f path).length + 1)
    (hsize : (lineOf base f path).length + 1 < sizeLimit) :
    assemble base f = .error (.outOfMemory "cmdline") := by
  rw [length_lineOf] at h hsize
  rw [assemble, hpath]
  show (requiredLength base f path >>= _) = _
  rw [requiredLength_eq hsize]
  show (reserve _ _ >>= _) = _
  rw [reserve, if_neg (Nat.not_le.mpr h)]
  rfl

theorem assemble_of_long (h : sizeLimit ≤ (lineOf base f path).length + 1) :
    assemble base f = .error (.integerOverflow "cmdline length") := by
  rw [assemble, hpath]
  show (requiredLength base f path >>= _) = _
  rw [requiredLength_of_le h]
  rfl

end

theorem renderedPath_eq_error {f : Fields} {e : Fault} :
    renderedPath f = .error e ↔ ∃ r, f.root = some r ∧ r.systemPath.render = .error e := by
  unfold renderedPath
  cases f.root with
  | none => simp
  | some r =>
    simp only [Option.some.injEq, exists_eq_left']
    cases r.systemPath.render <;> simp [Functor.map, Except.map]

theorem render_ne_buildInconsistency (path : SystemPath) (what : String) :
    path.render ≠ .error (.buildInconsistency what) := by
  unfold SystemPath.render
  split <;> split <;> simp

inductive TooLong (length : Nat) : Fault → Prop where
  | buffer (wide : bufferLimit < length) (sized : length < sizeLimit) :
    TooLong length (.outOfMemory "cmdline")
  | size (long : sizeLimit ≤ length) : TooLong length (.integerOverflow "cmdline length")

theorem assemble_eq_error {base : Bytes} {f : Fields} {e : Fault} :
    assemble base f = .error e ↔
      (∃ r, f.root = some r ∧ r.systemPath.render = .error e) ∨
      ∃ path, renderedPath f = .ok path ∧ TooLong ((lineOf base f path).length + 1) e := by
  rw [← renderedPath_eq_error]
  constructor
  · intro he
    cases hpath : renderedPath f with
    | error fault =>
      rw [assemble_of_error hpath] at he
      cases he
      exact .inl rfl
    | ok path =>
      refine .inr ⟨path, rfl, ?_⟩
      rcases Nat.lt_or_ge ((lineOf base f path).length + 1) sizeLimit with hsize | hlong
      · rcases Nat.lt_or_ge bufferLimit ((lineOf base f path).length + 1) with hwide | hfits
        · rw [assemble_of_wide hpath hwide hsize] at he
          cases he
          exact .buffer hwide hsize
        · rw [assemble_of_fits hpath hfits] at he
          cases he
      · rw [assemble_of_long hpath hlong] at he
        cases he
        exact .size hlong
  · rintro (hpath | ⟨path, hpath, ⟨hwide, hsize⟩ | ⟨hlong⟩⟩)
    · exact assemble_of_error hpath
    · exact assemble_of_wide hpath hwide hsize
    · exact assemble_of_long hpath hlong

/-- A line whose path renders and that a buffer can hold is built, and is the image's own line, the
clauses in their order and the terminator; its size was worked out exactly. Apart from the path
only the length of the line can be a reason to fail. -/
theorem build_line (base : Bytes) (f : Fields) :
    (∀ path, renderedPath f = .ok path → (lineOf base f path).length + 1 ≤ bufferLimit →
      ∃ line, (build base f).outcome = .ok line ∧ line.buffer = lineOf base f path ++ [0] ∧
        line.bytes = lineOf base f path ∧
        requiredLength base f path = .ok line.buffer.length ∧
        line.capacity = line.buffer.length) ∧
    (∀ e, (build base f).outcome = .error e ↔
      (∃ r, f.root = some r ∧ r.systemPath.render = .error e) ∨
      ∃ path, renderedPath f = .ok path ∧ TooLong ((lineOf base f path).length + 1) e) ∧
    ∀ what, (build base f).outcome ≠ .error (.buildInconsistency what) := by
  rw [outcome_build]
  refine ⟨?_, fun e => assemble_eq_error, ?_⟩
  · intro path hpath hfits
    refine ⟨_, assemble_of_fits hpath hfits, rfl, ?_, ?_, ?_⟩
    · simp only [bytes, List.length_append, List.length_singleton, Nat.add_sub_cancel,
        List.take_left]
    · have hsize := Nat.lt_of_le_of_lt hfits bufferLimit_lt
      rw [length_lineOf] at hsize
      rw [requiredLength_eq hsize, List.length_append, length_lineOf, List.length_singleton]
    · rw [List.length_append, List.length_singleton]
  · intro what h
    rcases assemble_eq_error.mp h with ⟨r, -, hr⟩ | ⟨path, -, hfault⟩
    · exact render_ne_buildInconsistency _ _ hr
    · cases hfault

def everyField : Fields where
  verifiedBoot := some ⟨.orange, some .enforcing, " androidboot.vbmeta.device_state=unlocked"⟩
  bootDevice := some "1d84000.ufshc"
  serialNo := some "ABC"
  factoryMode := some "ffbm-01"
  chargerPause := true
  alarmBoot := true
  baseband := some "MSM-É"
  displayPanel := some " mdss_mdp.panel=1:DSI:0"
  theftProtection := true
  slotSuffix := some "_a"
  root := some ⟨true, .ufs 0 12⟩
  overlayIndex := some 10

theorem build_line_everyField :
    ∃ line, (build (utf8 "Console") everyField).outcome = .ok line ∧
      line.bytes = utf8 ("Console androidboot.verifiedbootstate=orange" ++
        " androidboot.veritymode=enforcing androidboot.vbmeta.device_state=unlocked" ++
        " androidboot.bootdevice=1d84000.ufshc androidboot.serialno=ABC" ++
        " androidboot.mode=ffbm-01 quiet androidboot.baseband=msm-É mdss_mdp.panel=1:DSI:0 mdtp" ++
        " androidboot.slot_suffix=_a skip_initramfs rootwait ro init=/init root=/dev/sda12" ++
        " androidboot.dtbo_idx=10") := by
  have hpath : renderedPath everyField = .ok (some " root=/dev/sda12") := by decide +kernel
  obtain ⟨line, hline, -, hbytes, -⟩ :=
    (build_line (utf8 "Console") everyField).1 _ hpath (by decide +kernel)
  refine ⟨line, hline, ?_⟩
  rw [hbytes]
  decide +kernel

theorem build_longest_base :
    renderedPath {} = .ok none ∧
      (lineOf (List.replicate bufferLimit 0x20) {} none).length + 1 < sizeLimit ∧
      (build (List.replicate bufferLimit 0x20) {}).outcome = .error (.outOfMemory "cmdline") := by
  have hlength : (lineOf (List.replicate bufferLimit 0x20) {} none).length = bufferLimit := by
    rw [length_lineOf, List.length_replicate]
    rfl
  have hsize : bufferLimit + 1 < sizeLimit := by decide
  refine ⟨rfl, by rwa [hlength], ?_⟩
  rw [outcome_build]
  exact assemble_of_wide rfl (by rw [hlength]; exact Nat.lt_succ_self _) (by rwa [hlength])

end BootAssembly.CommandLine
