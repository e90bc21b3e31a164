import BootAssembly.Endian
import BootAssembly.Proofs.Deflate.Locality
import Mathlib.Algebra.Ring.Nat

namespace BootAssembly.Deflate

theorem takeNumber_lowBits {width n : Nat} (h : n < 2 ^ width) (rest : Bits) :
    takeNumber width (lowBits width n ++ rest) = some (n, rest) := by
  induction width generalizing n with
  | zero =>
    rw [Nat.pow_zero, Nat.lt_one_iff] at h
    rw [h]
    rfl
  | succ width ih =>
    have hhigh : n / 2 < 2 ^ width := Nat.div_lt_of_lt_mul (by rwa [Nat.pow_succ'] at h)
    have hlow : (n % 2 == 1).toNat + 2 * (n / 2) = n := by
      rcases Nat.mod_two_eq_zero_or_one n with hn | hn <;> rw [hn] <;> simp <;> omega
    rw [lowBits, List.cons_append, takeNumber]
    exact onValue_eq_some.mpr ⟨n / 2, ih hhigh, hlow⟩

theorem lowBits_bit (width : Nat) (b : Bool) (n : Nat) :
    lowBits (width + 1) (b.toNat + 2 * n) = b :: lowBits width n := by
  have hhigh : (b.toNat + 2 * n) / 2 = n := by
    have := b.toNat_lt
    omega
  have hlow : ((b.toNat + 2 * n) % 2 == 1) = b := by cases b <;> simp
  rw [lowBits, hhigh, hlow]

theorem lowBits_add (low high n : Nat) :
    lowBits (low + high) n = lowBits low n ++ lowBits high (n / 2 ^ low) := by
  induction low generalizing n with
  | zero => rw [Nat.zero_add, Nat.pow_zero, Nat.div_one, lowBits, List.nil_append]
  | succ low ih =>
    rw [Nat.succ_add, lowBits, lowBits, ih, Nat.div_div_eq_div_mul, ← Nat.pow_succ',
      List.cons_append]

theorem lowBits_mod (width n : Nat) : lowBits width (n % 2 ^ width) = lowBits width n := by
  induction width generalizing n with
  | zero => rfl
  | succ width ih =>
    rw [lowBits, lowBits, Nat.pow_succ', Nat.mod_mul_right_mod, Nat.mod_mul_right_div_self, ih]

theorem lowBits_zero (width : Nat) : lowBits width 0 = List.replicate width false := by
  induction width with
  | zero => rfl
  | succ width ih =>
    rw [lowBits, Nat.zero_div, ih, List.replicate_succ]
    rfl

theorem bitsOf_cons (b : UInt8) (bytes : Bytes) :
    bitsOf (b :: bytes) = lowBits 8 b.toNat ++ bitsOf bytes := List.flatMap_cons

theorem bitsOf_littleEndian (width v : Nat) :
    bitsOf (littleEndian width v) = lowBits (8 * width) v := by
  induction width generalizing v with
  | zero => rfl
  | succ width ih =>
    rw [littleEndian, bitsOf_cons, ih, UInt8.toNat_ofNat', lowBits_mod, Nat.mul_succ, Nat.add_comm]
    exact (lowBits_add 8 (8 * width) v).symm

structure StoredBlock where
  bytes : Bytes
  filler : Fin 32
  short : bytes.length ≤ 65535

namespace StoredBlock

def encode (b : StoredBlock) (last : Bool) : Bytes :=
  UInt8.ofNat (last.toNat + 8 * b.filler) :: (littleEndian 2 b.bytes.length ++
    (littleEndian 2 (65535 - b.bytes.length) ++ b.bytes))

variable (b : StoredBlock) (last : Bool) {limit : Nat} {bytes : Bytes} {rest : Bits}
  {out : Array UInt8}

theorem bitsOf_encode : bitsOf (b.encode last) =
    last :: false :: false :: (lowBits 5 b.filler ++ (lowBits 16 b.bytes.length ++
      (lowBits 16 (65535 - b.bytes.length) ++ bitsOf b.bytes))) := by
  have hfiller := b.filler.isLt
  have hfirst : (UInt8.ofNat (last.toNat + 8 * b.filler)).toNat = last.toNat + 8 * b.filler := by
    have := last.toNat_lt
    rw [UInt8.toNat_ofNat']
    omega
  have hbits : lowBits 8 (last.toNat + 8 * b.filler) =
      last :: false :: false :: lowBits 5 b.filler := by
    have hnested : last.toNat + 8 * b.filler.val =
        last.toNat + 2 * (false.toNat + 2 * (false.toNat + 2 * b.filler.val)) := by
      rw [Bool.toNat_false]
      omega
    rw [hnested, lowBits_bit, lowBits_bit, lowBits_bit]
  rw [encode, bitsOf_cons, hfirst, hbits, bitsOf_append, bitsOf_append, bitsOf_littleEndian,
    bitsOf_littleEndian]
  rfl

theorem storedLength?_encode (hrest : rest.length % 8 = 0) (b : StoredBlock) :
    storedLength? (lowBits 5 b.filler ++ (lowBits 16 b.bytes.length ++
      (lowBits 16 (65535 - b.bytes.length) ++ rest))) = some (b.bytes.length, rest) := by
  have hshort := b.short
  have hlength (bits : Bits) : takeNumber 16 (lowBits 16 b.bytes.length ++ bits) =
      some (b.bytes.length, bits) := takeNumber_lowBits (by omega) bits
  have hinverted : takeNumber 16 (lowBits 16 (65535 - b.bytes.length) ++ rest) =
      some (65535 - b.bytes.length, rest) := takeNumber_lowBits (by omega) rest
  have hboundary (bits : Bits) (hbits : bits.length % 8 = 0) :
      toByteBoundary (lowBits 5 b.filler ++ bits) = bits := by
    rw [toByteBoundary, List.drop_left']
    rw [length_lowBits, List.length_append, length_lowBits]
    omega
  rw [storedLength?, hboundary]
  · refine Option.bind_eq_some_iff.mpr ⟨_, hlength _, ?_⟩
    refine Option.bind_eq_some_iff.mpr ⟨_, hinverted, ?_⟩
    exact Option.bind_eq_some_iff.mpr ⟨(), if_pos (by omega), rfl⟩
  · simp only [List.length_append, length_lowBits]
    omega

end StoredBlock

theorem copyStored_bitsOf {limit : Nat} {bytes : Bytes} {out : Array UInt8}
    (h : out.size + bytes.length ≤ limit) (rest : Bits) :
    copyStored limit bytes.length (bitsOf bytes ++ rest) out = .ok (rest, out ++ bytes.toArray) := by
  induction bytes generalizing out with
  | nil => simp [copyStored, bitsOf]
  | cons b bytes ih =>
    rw [List.length_cons] at h
    have hbyte : takeNumber 8 (lowBits 8 b.toNat ++ (bitsOf bytes ++ rest)) =
        some (b.toNat, bitsOf bytes ++ rest) := takeNumber_lowBits b.toNat_lt _
    rw [List.length_cons, copyStored, if_pos (by omega), bitsOf_cons, List.append_assoc, hbyte]
    show copyStored limit bytes.length _ (out.push (UInt8.ofNat b.toNat)) = _
    rw [ih (by rw [Array.size_push]; omega), UInt8.ofNat_toNat]
    simp

structure StoredStream where
  front : List StoredBlock
  last : StoredBlock

namespace StoredStream

def encode (s : StoredStream) : Bytes := s.front.flatMap (·.encode false) ++ s.last.encode true

def data (s : StoredStream) : Bytes := s.front.flatMap (·.bytes) ++ s.last.bytes

end StoredStream

theorem inflateBlocks_encode {limit : Nat} {b : StoredBlock} {last : Bool} {rest : Bits}
    {out : Array UInt8} (h : out.size + b.bytes.length ≤ limit) (hrest : rest.length % 8 = 0) :
    inflateBlocks limit (bitsOf (b.encode last) ++ rest) out =
      afterBlock limit last (rest, out ++ b.bytes.toArray) := by
  have hlength : (bitsOf b.bytes ++ rest).length % 8 = 0 := by
    rw [List.length_append, length_bitsOf]
    omega
  simp only [b.bitsOf_encode, List.cons_append, List.append_assoc]
  rw [inflateBlocks_cons, BlockKind.ofBits, inflateBlock,
    StoredBlock.storedLength?_encode hlength]
  show copyStored limit _ _ out >>= _ = _
  rw [copyStored_bitsOf h]
  rfl

theorem inflateBlocks_stored {limit : Nat} {s : StoredStream} {rest : Bits} {out : Array UInt8}
    (h : out.size + s.data.length ≤ limit) (hrest : rest.length % 8 = 0) :
    inflateBlocks limit (bitsOf s.encode ++ rest) out = .ok (rest, out ++ s.data.toArray) := by
  obtain ⟨front, last⟩ := s
  simp only [StoredStream.encode, StoredStream.data] at h ⊢
  -- what the blocks before have written stands in `out`
  induction front generalizing out with
  | nil => exact inflateBlocks_encode h hrest
  | cons b front ih =>
    simp only [List.flatMap_cons, List.append_assoc, List.length_append] at h ⊢
    have hfits : (out ++ b.bytes.toArray).size +
        (front.flatMap (·.bytes) ++ last.bytes).length ≤ limit := by
      simp only [Array.size_append, List.size_toArray, List.length_append]
      omega
    have hmore : (bitsOf (front.flatMap (·.encode false) ++ last.encode true) ++
        rest).length % 8 = 0 := by
      rw [List.length_append, length_bitsOf]
      omega
    rw [bitsOf_append, List.append_assoc, inflateBlocks_encode (by omega) hmore]
    show inflateBlocks limit _ (out ++ b.bytes.toArray) = _
    rw [ih hfits, Array.append_assoc, List.append_toArray b.bytes]

theorem inflate_stored {limit : Nat} {s : StoredStream} (h : s.data.length ≤ limit) (rest : Bytes) :
    inflate limit (s.encode ++ rest) = .ok (s.data, s.encode.length) := by
  have hrest : (bitsOf rest).length % 8 = 0 := by
    rw [length_bitsOf]
    omega
  have hroom : (#[] : Array UInt8).size + s.data.length ≤ limit := by
    rw [List.size_toArray, List.length_nil, Nat.zero_add]
    exact h
  have hblocks := inflateBlocks_stored hroom hrest
  rw [inflate, bitsOf_append, hblocks]
  simp [length_bitsOf]

end BootAssembly.Deflate
