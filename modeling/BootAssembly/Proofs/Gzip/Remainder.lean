import BootAssembly.Proofs.Deflate.Stored
import BootAssembly.Proofs.Gzip.Checksum
import Mathlib.Algebra.CharP.Two
import Mathlib.Algebra.Field.ZMod
import Mathlib.RingTheory.AdjoinRoot
import Mathlib.Tactic.Ring

namespace BootAssembly.Crc32

open Polynomial Deflate

noncomputable section

/-- Bits as a polynomial: the one that is sent first belongs to the highest power. -/
def ofBits : Bits → (ZMod 2)[X]
  | [] => 0
  | b :: bs => (if b then X ^ bs.length else 0) + ofBits bs

def generator : (ZMod 2)[X] :=
  X ^ 32 + X ^ 26 + X ^ 23 + X ^ 22 + X ^ 16 + X ^ 12 + X ^ 11 + X ^ 10 + X ^ 8 + X ^ 7 + X ^ 5 +
    X ^ 4 + X ^ 2 + X + 1

/-- What the division of the message leaves, with 32 ones added to its beginning and as many zeros
put behind it. -/
def remainder (bytes : Bytes) : (ZMod 2)[X] :=
  (ofBits (List.replicate 32 true) * X ^ (bitsOf bytes).length +
    ofBits (bitsOf bytes) * X ^ 32) %ₘ generator

/-- The complement of the remainder, whose highest power is sent first. -/
def checksum (bytes : Bytes) : UInt32 :=
  .ofNat (Nat.ofBits fun i : Fin 32 => decide ((remainder bytes).coeff (31 - i) = 0))

theorem ofBits_append (bs cs : Bits) :
    ofBits (bs ++ cs) = ofBits bs * X ^ cs.length + ofBits cs := by
  induction bs with
  | nil => rw [List.nil_append, ofBits, zero_mul, zero_add]
  | cons b bs ih =>
    rw [List.cons_append, ofBits, ofBits, ih, List.length_append, pow_add]
    split <;> ring

theorem degree_ofBits_lt (bs : Bits) : (ofBits bs).degree < bs.length := by
  induction bs with
  | nil =>
    rw [ofBits, degree_zero]
    exact WithBot.bot_lt_coe _
  | cons b bs ih =>
    rw [ofBits, List.length_cons]
    refine (degree_add_le _ _).trans_lt (max_lt ?_ (ih.trans (by exact_mod_cast Nat.lt_succ_self _)))
    split
    · rw [degree_X_pow]
      exact_mod_cast Nat.lt_succ_self _
    · rw [degree_zero]
      exact WithBot.bot_lt_coe _

theorem coeff_ofBits {bs : Bits} {i : Nat} (h : i < bs.length) :
    (ofBits bs).coeff (bs.length - 1 - i) = if bs[i] then 1 else 0 := by
  induction bs generalizing i with
  | nil => exact absurd h (Nat.not_lt_zero i)
  | cons b bs ih =>
    rw [ofBits, coeff_add, List.length_cons, Nat.add_sub_cancel]
    cases i with
    | zero =>
      have hlow : (ofBits bs).coeff (bs.length - 0) = 0 :=
        coeff_eq_zero_of_degree_lt (degree_ofBits_lt bs)
      rw [hlow, add_zero, List.getElem_cons_zero]
      cases b <;> simp
    | succ i =>
      have hi : i < bs.length := Nat.lt_of_succ_lt_succ h
      have htop : ((if b then X ^ bs.length else 0 : (ZMod 2)[X])).coeff (bs.length - (i + 1)) = 0 := by
        split
        · rw [coeff_X_pow, if_neg (by omega)]
        · exact coeff_zero _
      rw [htop, zero_add, List.getElem_cons_succ, ← ih hi, Nat.sub_sub, Nat.add_comm 1]

theorem lowBits_succ (n v : Nat) : lowBits (n + 1) v = v.testBit 0 :: lowBits n (v / 2) := by
  rw [lowBits, Nat.testBit_zero, beq_eq_decide]

theorem getElem_lowBits {n v i : Nat} (h : i < (lowBits n v).length) :
    (lowBits n v)[i] = v.testBit i := by
  induction n generalizing v i with
  | zero => exact absurd h (Nat.not_lt_zero i)
  | succ n ih =>
    cases i with
    | zero => simp only [lowBits_succ, List.getElem_cons_zero]
    | succ i => simp only [lowBits_succ, List.getElem_cons_succ, ih, Nat.testBit_succ]

theorem ofBits_replicate_false (n : Nat) : ofBits (List.replicate n false) = 0 := by
  induction n with
  | zero => rfl
  | succ n ih => rw [List.replicate_succ, ofBits, ih, if_neg Bool.false_ne_true, add_zero]

theorem ofBits_lowBits_add {n v : Nat} (hv : v < 2 ^ n) (k : Nat) :
    ofBits (lowBits (n + k) v) = ofBits (lowBits n v) * X ^ k := by
  rw [lowBits_add, Nat.div_eq_of_lt hv, lowBits_zero, ofBits_append, ofBits_replicate_false,
    List.length_replicate, add_zero]

theorem ite_xor (b c : Bool) (p : (ZMod 2)[X]) :
    (if b ^^ c then p else 0) = (if b then p else 0) + if c then p else 0 := by
  have hself : p + p = 0 := CharTwo.add_self_eq_zero p
  cases b <;> cases c <;> simp [hself]

theorem ofBits_xor (n v w : Nat) :
    ofBits (lowBits n (v ^^^ w)) = ofBits (lowBits n v) + ofBits (lowBits n w) := by
  induction n generalizing v w with
  | zero => exact (add_zero 0).symm
  | succ n ih =>
    simp only [lowBits_succ, ofBits, length_lowBits, Nat.xor_div_two, ih, Nat.testBit_xor, ite_xor]
    ring

theorem ofBits_lowBits_polynomial : ofBits (lowBits 32 polynomial.toNat) + X ^ 32 = generator := by
  have hbits : lowBits 32 polynomial.toNat = [false, false, false, false, false, true, false, false,
      true, true, false, false, false, false, false, true, false, false, false, true, true, true,
      false, true, true, false, true, true, false, true, true, true] := by decide +kernel
  rw [hbits, generator]
  simp only [ofBits, List.length_cons, List.length_nil, if_true, Bool.false_eq_true, if_false]
  ring

def register (crc : UInt32) : (ZMod 2)[X] := ofBits (lowBits 32 crc.toNat)

theorem register_xor (x y : UInt32) : register (x ^^^ y) = register x + register y := by
  rw [register, UInt32.toNat_xor, ofBits_xor, register, register]

theorem degree_register_lt (crc : UInt32) : (register crc).degree < 32 := by
  have hdegree := degree_ofBits_lt (lowBits 32 crc.toNat)
  rwa [length_lowBits] at hdegree

theorem coeff_register (crc : UInt32) {i : Nat} (hi : i < 32) :
    (register crc).coeff (31 - i) = if crc.toNat.testBit i then 1 else 0 := by
  have hlength : i < (lowBits 32 crc.toNat).length := by rwa [length_lowBits]
  have hcoeff := coeff_ofBits hlength
  rwa [length_lowBits, getElem_lowBits] at hcoeff

theorem degree_generator_sub : (generator - X ^ 32 : (ZMod 2)[X]).degree < 32 := by
  rw [← ofBits_lowBits_polynomial, add_sub_cancel_right]
  exact degree_register_lt polynomial

theorem monic_generator : generator.Monic := by
  have h := monic_X_pow_add (p := generator - X ^ 32) (n := 32) degree_generator_sub
  rwa [add_sub_cancel] at h

theorem degree_generator : generator.degree = 32 := by
  have hlower : (generator - X ^ 32).degree < (X ^ 32 : (ZMod 2)[X]).degree := by
    rw [degree_X_pow]
    exact degree_generator_sub
  have h := degree_add_eq_left_of_degree_lt hlower
  rwa [add_sub_cancel, degree_X_pow] at h

theorem X_mul_register (crc : UInt32) :
    X * register crc = register (crc >>> 1) + if crc &&& 1 = 1 then X ^ 32 else 0 := by
  have hlow : crc.toNat.testBit 0 = decide (crc &&& 1 = 1) := by
    rw [Nat.testBit_zero, decide_eq_decide, low_bit_iff]
  have hhalf : crc.toNat / 2 < 2 ^ 31 := by
    have := crc.toNat_lt
    omega
  rw [register, register, toNat_half, ofBits_lowBits_add hhalf 1, lowBits_succ 31 crc.toNat, ofBits,
    length_lowBits, hlow]
  simp only [decide_eq_true_eq]
  split <;> ring

theorem mk_register_shift (crc : UInt32) :
    AdjoinRoot.mk generator (register (shift crc)) =
      AdjoinRoot.mk generator (X * register crc) := by
  rw [X_mul_register, shift]
  split
  · have htwice : register polynomial + X ^ 32 = generator := ofBits_lowBits_polynomial
    have hself : (X ^ 32 + X ^ 32 : (ZMod 2)[X]) = 0 := CharTwo.add_self_eq_zero _
    have hdiff : register (crc >>> 1) + register polynomial =
        register (crc >>> 1) + X ^ 32 + generator := by
      linear_combination htwice - hself
    rw [register_xor, hdiff, map_add _ _ generator, AdjoinRoot.mk_self, add_zero]
  · rw [add_zero]

theorem mk_register_shifts (n : Nat) (crc : UInt32) :
    AdjoinRoot.mk generator (register (shifts n crc)) =
      AdjoinRoot.mk generator (X ^ n * register crc) := by
  induction n generalizing crc with
  | zero => rw [shifts, pow_zero, one_mul]
  | succ n ih => rw [shifts, ih, map_mul, mk_register_shift, ← map_mul, pow_succ, mul_assoc]

theorem register_byte (b : UInt8) : register b.toUInt32 = ofBits (lowBits 8 b.toNat) * X ^ 24 :=
  ofBits_lowBits_add b.toNat_lt 24

theorem mk_register_step (crc : UInt32) (b : UInt8) :
    AdjoinRoot.mk generator (register (step crc b)) = AdjoinRoot.mk generator
      (register crc * X ^ 8 + ofBits (lowBits 8 b.toNat) * X ^ 32) := by
  rw [step, mk_register_shifts, register_xor, register_byte]
  refine congrArg (AdjoinRoot.mk generator) ?_
  ring

theorem mk_register_run (crc : UInt32) (bytes : Bytes) :
    AdjoinRoot.mk generator (register (run crc bytes)) = AdjoinRoot.mk generator
      (register crc * X ^ (bitsOf bytes).length + ofBits (bitsOf bytes) * X ^ 32) := by
  induction bytes generalizing crc with
  | nil => simp [run, bitsOf, ofBits]
  | cons b bytes ih =>
    have hrun : run crc (b :: bytes) = run (step crc b) bytes := rfl
    rw [hrun, ih, map_add, map_mul, mk_register_step, ← map_mul, ← map_add, bitsOf_cons,
      ofBits_append, List.length_append, length_lowBits]
    refine congrArg (AdjoinRoot.mk generator) ?_
    ring

theorem register_run (bytes : Bytes) : register (run 0xFFFFFFFF bytes) = remainder bytes := by
  have hones : lowBits 32 (0xFFFFFFFF : UInt32).toNat = List.replicate 32 true := by decide +kernel
  have hmk := mk_register_run 0xFFFFFFFF bytes
  rw [AdjoinRoot.mk_eq_mk, register.eq_1 0xFFFFFFFF, hones] at hmk
  have hself : register (run 0xFFFFFFFF bytes) %ₘ generator = register (run 0xFFFFFFFF bytes) := by
    rw [modByMonic_eq_self_iff monic_generator, degree_generator]
    exact degree_register_lt _
  rw [remainder, ← hself]
  exact modByMonic_eq_of_dvd_sub monic_generator hmk

end

/-- The register that goes over the bytes bit by bit ends with the remainder of one long division. -/
theorem crc32_eq_checksum (bytes : Bytes) : crc32 bytes = checksum bytes := by
  apply UInt32.toNat_inj.mp
  apply Nat.eq_of_testBit_eq
  intro i
  have hnot : (crc32 bytes).toNat.testBit i =
      (decide (i < 32) && !(run 0xFFFFFFFF bytes).toNat.testBit i) :=
    BitVec.getLsbD_not
  have hword : (checksum bytes).toNat =
      Nat.ofBits fun i : Fin 32 => decide ((remainder bytes).coeff (31 - i) = 0) :=
    UInt32.toNat_ofNat_of_lt' (Nat.ofBits_lt_two_pow _)
  rw [hnot, hword]
  by_cases hi : i < 32
  · rw [Nat.testBit_ofBits_lt _ i hi, ← register_run, coeff_register _ hi]
    cases (run 0xFFFFFFFF bytes).toNat.testBit i <;> simp [hi]
  · rw [Nat.testBit_ofBits_ge _ i (Nat.not_lt.mp hi), decide_eq_false hi, Bool.false_and]

example : checksum (utf8 "123456789") = 0xCBF43926 := by
  rw [← crc32_eq_checksum]
  decide +kernel

end BootAssembly.Crc32
