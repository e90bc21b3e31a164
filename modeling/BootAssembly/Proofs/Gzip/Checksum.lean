import BootAssembly.Proofs.Gzip.Member

namespace BootAssembly

theorem ofLittleEndian_lt_of_length_le {bytes : Bytes} {width : Nat} (h : bytes.length ≤ width) :
    ofLittleEndian bytes < Nat.pow 256 width :=
  Nat.lt_of_lt_of_le (ofLittleEndian_lt bytes) (Nat.pow_le_pow_right (by decide) h)

namespace Crc32

theorem low_bit_iff (crc : UInt32) : crc &&& 1 = 1 ↔ crc.toNat % 2 = 1 := by
  rw [← UInt32.toNat_inj, UInt32.toNat_and, UInt32.toNat_one, Nat.and_one_is_mod]

theorem toNat_half (crc : UInt32) : (crc >>> 1).toNat = crc.toNat / 2 := by
  rw [UInt32.toNat_shiftRight, UInt32.toNat_one, Nat.shiftRight_eq_div_pow]

theorem testBit_shift (crc : UInt32) : (shift crc).toNat.testBit 31 = decide (crc &&& 1 = 1) := by
  have hhalf : (crc >>> 1).toNat.testBit 31 = false := by
    apply Nat.testBit_lt_two_pow
    have := crc.toNat_lt
    rw [toNat_half]
    omega
  have htop : polynomial.toNat.testBit 31 = true := by decide
  unfold shift
  split
  · rename_i hodd
    rw [UInt32.toNat_xor, Nat.testBit_xor, hhalf, htop, decide_eq_true hodd]
    rfl
  · rename_i heven
    rw [hhalf, decide_eq_false heven]

theorem shift_injective : Function.Injective shift := by
  intro x y h
  have hlow : x &&& 1 = 1 ↔ y &&& 1 = 1 := by
    rw [← decide_eq_decide, ← testBit_shift, ← testBit_shift, h]
  have hhalf : x >>> 1 = y >>> 1 := by
    unfold shift at h
    by_cases hx : x &&& 1 = 1
    · rw [if_pos hx, if_pos (hlow.mp hx)] at h
      exact (UInt32.xor_left_inj polynomial).mp h
    · rwa [if_neg hx, if_neg fun hy => hx (hlow.mpr hy)] at h
  rw [low_bit_iff, low_bit_iff] at hlow
  rw [← UInt32.toNat_inj, toNat_half, toNat_half] at hhalf
  apply UInt32.toNat_inj.mp
  omega

theorem shift_xor_even {v : Nat} (hv : 2 * v < UInt32.size) (crc : UInt32) :
    shift (crc ^^^ UInt32.ofNat (2 * v)) = shift crc ^^^ UInt32.ofNat v := by
  have hlow : (crc ^^^ UInt32.ofNat (2 * v)) &&& 1 = 1 ↔ crc &&& 1 = 1 := by
    have hmod := Nat.xor_mod_two_pow (a := crc.toNat) (b := 2 * v) (n := 1)
    rw [Nat.pow_one, Nat.mul_mod_right, Nat.xor_zero] at hmod
    rw [low_bit_iff, low_bit_iff, UInt32.toNat_xor, UInt32.toNat_ofNat_of_lt' hv, hmod]
  have hhalf : (crc ^^^ UInt32.ofNat (2 * v)) >>> 1 = (crc >>> 1) ^^^ UInt32.ofNat v := by
    apply UInt32.toNat_inj.mp
    rw [toNat_half, UInt32.toNat_xor, UInt32.toNat_xor, toNat_half, Nat.xor_div_two,
      UInt32.toNat_ofNat_of_lt' hv, UInt32.toNat_ofNat_of_lt' (by omega),
      Nat.mul_div_cancel_left v Nat.two_pos]
  unfold shift
  simp only [hlow, hhalf]
  split
  · rw [UInt32.xor_assoc, UInt32.xor_assoc, UInt32.xor_comm polynomial]
  · rfl

theorem shifts_add (m n : Nat) (crc : UInt32) : shifts (m + n) crc = shifts n (shifts m crc) := by
  induction m generalizing crc with
  | zero => rw [Nat.zero_add, shifts]
  | succ m ih => rw [Nat.succ_add, shifts, shifts, ih]

theorem shifts_injective (n : Nat) : Function.Injective (shifts n) := by
  induction n with
  | zero => exact fun _ _ h => h
  | succ n ih => exact fun _ _ h => shift_injective (ih h)

theorem shifts_xor_high {n v : Nat} (hv : v <<< n < UInt32.size) (crc : UInt32) :
    shifts n (crc ^^^ UInt32.ofNat (v <<< n)) = shifts n crc ^^^ UInt32.ofNat v := by
  induction n generalizing crc with
  | zero => rfl
  | succ n ih =>
    rw [Nat.shiftLeft_succ] at hv ⊢
    rw [shifts, shifts, shift_xor_even hv, ih (by omega)]

theorem step_injective (b : UInt8) : Function.Injective (step · b) :=
  fun _ _ h => (UInt32.xor_left_inj b.toUInt32).mp (shifts_injective 8 h)

theorem run_injective (bytes : Bytes) : Function.Injective (run · bytes) := by
  induction bytes with
  | nil => exact fun _ _ h => h
  | cons b bytes ih => exact fun _ _ h => step_injective b (ih h)

theorem byte_xor_high {b : Nat} (hb : b < 256) (v : Nat) : b ^^^ v <<< 8 = b + 256 * v := by
  apply Nat.eq_of_testBit_eq
  intro i
  have hsum : (256 * v + b).testBit i = if i < 8 then b.testBit i else v.testBit (i - 8) :=
    Nat.testBit_two_pow_mul_add (i := 8) v hb i
  rw [Nat.add_comm, hsum, Nat.testBit_xor, Nat.testBit_shiftLeft]
  by_cases hi : i < 8
  · simp [hi, Nat.not_le.mpr hi]
  · have hlow : b.testBit i = false := by
      apply Nat.testBit_lt_two_pow
      exact Nat.lt_of_lt_of_le hb (Nat.pow_le_pow_right Nat.two_pos (Nat.not_lt.mp hi))
    simp [hi, hlow, Nat.not_lt.mp hi]

theorem ofNat_byte_add {v : Nat} (hv : v <<< 8 < UInt32.size) (b : UInt8) :
    UInt32.ofNat (b.toNat + 256 * v) = b.toUInt32 ^^^ UInt32.ofNat (v <<< 8) := by
  have hsum : b.toNat + 256 * v < UInt32.size := by
    have hb := b.toNat_lt
    rw [Nat.shiftLeft_eq, UInt32.size] at hv
    rw [UInt32.size]
    omega
  apply UInt32.toNat_inj.mp
  rw [UInt32.toNat_xor, UInt8.toNat_toUInt32, UInt32.toNat_ofNat_of_lt' hv,
    UInt32.toNat_ofNat_of_lt' hsum, byte_xor_high b.toNat_lt]

/-- Up to four bytes fill the register before the first of them has left it, so they go through the
division as one word. -/
theorem run_eq_shifts {bytes : Bytes} (h : bytes.length ≤ 4) (crc : UInt32) :
    run crc bytes = shifts (8 * bytes.length) (crc ^^^ UInt32.ofNat (ofLittleEndian bytes)) := by
  induction bytes generalizing crc with
  | nil => exact (UInt32.xor_zero (a := crc)).symm
  | cons b bytes ih =>
    rw [List.length_cons] at h
    have hrest : ofLittleEndian bytes <<< 8 < UInt32.size := by
      have hthree : ofLittleEndian bytes < 16777216 :=
        ofLittleEndian_lt_of_length_le (Nat.le_of_succ_le_succ h)
      rw [Nat.shiftLeft_eq, UInt32.size]
      omega
    show run (step crc b) bytes = _
    rw [ih (by omega), step, ← shifts_xor_high hrest, ← shifts_add, ofLittleEndian,
      ofNat_byte_add hrest, ← UInt32.xor_assoc, List.length_cons, Nat.mul_succ, Nat.add_comm 8]

theorem run_ne_of_short {w v : Bytes} (hlength : w.length = v.length) (hshort : w.length ≤ 4)
    (hne : w ≠ v) (crc : UInt32) : run crc w ≠ run crc v := by
  intro h
  rw [run_eq_shifts hshort, run_eq_shifts (hlength ▸ hshort), hlength] at h
  have hwords := (UInt32.xor_right_inj crc).mp (shifts_injective _ h)
  have hw := ofLittleEndian_lt_of_length_le hshort
  have hv := ofLittleEndian_lt_of_length_le (hlength ▸ hshort)
  rw [← UInt32.toNat_inj, UInt32.toNat_ofNat_of_lt' hw, UInt32.toNat_ofNat_of_lt' hv] at hwords
  apply hne
  rw [← littleEndian_ofLittleEndian w, ← littleEndian_ofLittleEndian v, hwords, hlength]

end Crc32

theorem crc32_ne_of_short {w v : Bytes} (hlength : w.length = v.length) (hshort : w.length ≤ 4)
    (hne : w ≠ v) (p s : Bytes) : crc32 (p ++ w ++ s) ≠ crc32 (p ++ v ++ s) := by
  intro h
  have hrun := UInt32.not_inj.mp h
  simp only [Crc32.run_append] at hrun
  exact Crc32.run_ne_of_short hlength hshort hne _ (Crc32.run_injective s hrun)

namespace Gzip

theorem gunzip_of_crc_ne {input data : Bytes} {limit body taken : Nat}
    (hbody : bodyOffset input = .ok body)
    (hinflate : Deflate.inflate limit (input.drop body) = .ok (data, taken))
    (hsize : body + taken + trailerSize < sizeLimit)
    (hfits : body + taken + trailerSize ≤ input.length)
    (hlength : le32At input (body + taken + 4) = UInt32.ofNat data.length)
    (hcrc : le32At input (body + taken) ≠ crc32 data) :
    gunzip input limit = .error (.decompressFailed "gzip crc mismatch") := by
  rw [gunzip, hbody]
  show Deflate.inflateInto _ (input.drop body) >>= _ = _
  rw [Deflate.inflateInto_eq, hinflate]
  show addSize body taken _ >>= _ = _
  rw [addSize_eq_ok.mpr ⟨by omega, rfl⟩]
  show addSize (body + taken) trailerSize _ >>= _ = _
  rw [addSize_eq_ok.mpr ⟨hsize, rfl⟩]
  refine (if_neg ?_).trans ((if_neg ?_).trans ((if_pos hcrc).trans rfl))
  · omega
  · exact not_not.mpr hlength

/-- The trailer of one output does not do for another that differs from it within four bytes: a
member whose data come out so damaged is refused for its checksum. -/
theorem crc32_detects_burst {w v : Bytes} (hlength : w.length = v.length) (hshort : w.length ≤ 4)
    (hne : w ≠ v) (p s : Bytes) :
    crc32 (p ++ w ++ s) ≠ crc32 (p ++ v ++ s) ∧
      (∀ input limit stop, le32At input (stop - 8) = crc32 (p ++ w ++ s) →
        gunzip input limit ≠ .ok (p ++ v ++ s, stop)) ∧
      ∀ input limit body taken, bodyOffset input = .ok body →
        Deflate.inflate limit (input.drop body) = .ok (p ++ v ++ s, taken) →
        body + taken + 8 ≤ input.length → input.length < sizeLimit →
        le32At input (body + taken) = crc32 (p ++ w ++ s) →
        le32At input (body + taken + 4) = UInt32.ofNat (p ++ w ++ s).length →
        gunzip input limit = .error (.decompressFailed "gzip crc mismatch") := by
  have hcrc := crc32_ne_of_short hlength hshort hne p s
  refine ⟨hcrc, ?_, ?_⟩
  · intro input limit stop htrailer h
    obtain ⟨body, taken, -, -, rfl, -, -, hfound, -⟩ := gunzip_eq_ok.mp h
    rw [trailerSize, Nat.add_sub_cancel, hfound] at htrailer
    exact hcrc htrailer.symm
  · intro input limit body taken hbody hinflate hfits hsize htrailer hcount
    have hsame : (p ++ w ++ s).length = (p ++ v ++ s).length := by
      simp only [List.length_append, hlength]
    refine gunzip_of_crc_ne hbody hinflate (Nat.lt_of_le_of_lt hfits hsize) hfits ?_ ?_
    · rw [hcount, hsame]
    · rwa [htrailer]

def damaged : Bytes :=
  [0x1f, 0x8b, 8, 0, 0, 0, 0, 0, 0, 3, 1, 6, 0, 0xf9, 0xff, 1, 0x82, 3, 4, 0x25, 6, 0x24, 0x77, 0xf6, 0x81,
    6, 0, 0, 0]

theorem crc32_detects_burst_damaged : ([2, 3, 4, 5] : Bytes) ≠ [0x82, 3, 4, 0x25] ∧
    crc32 ([1] ++ [2, 3, 4, 5] ++ [6]) ≠ crc32 ([1] ++ [0x82, 3, 4, 0x25] ++ [6]) ∧
      gunzip damaged 6 = .error (.decompressFailed "gzip crc mismatch") := by
  have hinflate : Deflate.inflate 6 (damaged.drop 10) = .ok ([1, 0x82, 3, 4, 0x25, 6], 11) := by
    decide +kernel
  obtain ⟨hcrc, -, hrefused⟩ := crc32_detects_burst (w := [2, 3, 4, 5]) (v := [0x82, 3, 4, 0x25])
    rfl (by decide) (by decide) [1] [6]
  exact ⟨by decide, hcrc, hrefused damaged 6 10 11 (by decide +kernel) hinflate (by decide)
    (by decide) (by decide +kernel) (by decide +kernel)⟩

end Gzip

end BootAssembly
