import BootAssembly.Bytes

namespace BootAssembly

def littleEndian : Nat → Nat → Bytes
  | 0, _ => []
  | width + 1, v => UInt8.ofNat v :: littleEndian width (v / 256)

def ofLittleEndian : Bytes → Nat
  | [] => 0
  | b :: bytes => b.toNat + 256 * ofLittleEndian bytes

def bigEndian (width v : Nat) : Bytes := (littleEndian width v).reverse

def ofBigEndian (bytes : Bytes) : Nat := ofLittleEndian bytes.reverse

@[simp] theorem length_littleEndian (width v : Nat) : (littleEndian width v).length = width := by
  induction width generalizing v with
  | zero => rfl
  | succ width ih => simp [littleEndian, ih]

@[simp] theorem length_bigEndian (width v : Nat) : (bigEndian width v).length = width := by
  simp [bigEndian]

theorem ofLittleEndian_littleEndian {width v : Nat} (h : v < Nat.pow 256 width) :
    ofLittleEndian (littleEndian width v) = v := by
  induction width generalizing v with
  | zero => simp at h; simp [littleEndian, ofLittleEndian, h]
  | succ width ih =>
    have hv : v / 256 < Nat.pow 256 width :=
      Nat.div_lt_of_lt_mul (by rwa [Nat.pow_eq, Nat.pow_succ'] at h)
    rw [littleEndian, ofLittleEndian, ih hv, UInt8.toNat_ofNat']
    omega

theorem littleEndian_ofLittleEndian (bytes : Bytes) :
    littleEndian bytes.length (ofLittleEndian bytes) = bytes := by
  induction bytes with
  | nil => rfl
  | cons b bytes ih =>
    have hb := b.toNat_lt
    have hd : (b.toNat + 256 * ofLittleEndian bytes) / 256 = ofLittleEndian bytes := by omega
    simp only [List.length_cons, ofLittleEndian, littleEndian, hd, ih, List.cons.injEq, and_true]
    apply UInt8.toNat_inj.mp
    rw [UInt8.toNat_ofNat']
    omega

theorem ofLittleEndian_lt (bytes : Bytes) : ofLittleEndian bytes < Nat.pow 256 bytes.length := by
  induction bytes with
  | nil => simp [ofLittleEndian]
  | cons b bytes ih =>
    have hb := b.toNat_lt
    rw [ofLittleEndian, List.length_cons, Nat.pow_eq, Nat.pow_succ, ← Nat.pow_eq]
    omega

theorem ofBigEndian_bigEndian {width v : Nat} (h : v < Nat.pow 256 width) :
    ofBigEndian (bigEndian width v) = v := by
  simp [ofBigEndian, bigEndian, ofLittleEndian_littleEndian h]

theorem bigEndian_ofBigEndian (bytes : Bytes) :
    bigEndian bytes.length (ofBigEndian bytes) = bytes := by
  have h := littleEndian_ofLittleEndian bytes.reverse
  rw [List.length_reverse] at h
  simp [bigEndian, ofBigEndian, h]

theorem ofBigEndian_lt (bytes : Bytes) : ofBigEndian bytes < Nat.pow 256 bytes.length := by
  have h := ofLittleEndian_lt bytes.reverse
  rwa [List.length_reverse] at h

def be32 (v : UInt32) : Bytes := bigEndian 4 v.toNat

def be64 (v : UInt64) : Bytes := bigEndian 8 v.toNat

def le32 (v : UInt32) : Bytes := littleEndian 4 v.toNat

def ofBe32 (bytes : Bytes) : UInt32 := UInt32.ofNat (ofBigEndian bytes)

def ofBe64 (bytes : Bytes) : UInt64 := UInt64.ofNat (ofBigEndian bytes)

@[simp] theorem length_be32 (v : UInt32) : (be32 v).length = 4 := length_bigEndian 4 _

@[simp] theorem length_be64 (v : UInt64) : (be64 v).length = 8 := length_bigEndian 8 _

@[simp] theorem length_le32 (v : UInt32) : (le32 v).length = 4 := length_littleEndian 4 _

@[simp] theorem ofBe32_be32 (v : UInt32) : ofBe32 (be32 v) = v := by
  rw [ofBe32, be32, ofBigEndian_bigEndian v.toNat_lt, UInt32.ofNat_toNat]

@[simp] theorem ofBe64_be64 (v : UInt64) : ofBe64 (be64 v) = v := by
  rw [ofBe64, be64, ofBigEndian_bigEndian v.toNat_lt, UInt64.ofNat_toNat]

theorem be32_ofBe32 {word : Bytes} (h : word.length = 4) : be32 (ofBe32 word) = word := by
  have hlt := ofBigEndian_lt word
  have hback := bigEndian_ofBigEndian word
  rw [h] at hlt hback
  rw [be32, ofBe32, UInt32.toNat_ofNat_of_lt' hlt, hback]

theorem be64_ofBe64 {word : Bytes} (h : word.length = 8) : be64 (ofBe64 word) = word := by
  have hlt := ofBigEndian_lt word
  have hback := bigEndian_ofBigEndian word
  rw [h] at hlt hback
  rw [be64, ofBe64, UInt64.toNat_ofNat_of_lt' hlt, hback]

def be32At (bytes : Bytes) (offset : Nat) : UInt32 := ofBe32 ((bytes.drop offset).take 4)

def be64At (bytes : Bytes) (offset : Nat) : UInt64 := ofBe64 ((bytes.drop offset).take 8)

def le16At (bytes : Bytes) (offset : Nat) : UInt16 :=
  UInt16.ofNat (ofLittleEndian ((bytes.drop offset).take 2))

def le32At (bytes : Bytes) (offset : Nat) : UInt32 :=
  UInt32.ofNat (ofLittleEndian ((bytes.drop offset).take 4))

def le64At (bytes : Bytes) (offset : Nat) : UInt64 :=
  UInt64.ofNat (ofLittleEndian ((bytes.drop offset).take 8))

def le32At? (bytes : Bytes) (offset : Nat) : Option UInt32 :=
  if offset + 4 ≤ bytes.length then some (le32At bytes offset) else none

def le64At? (bytes : Bytes) (offset : Nat) : Option UInt64 :=
  if offset + 8 ≤ bytes.length then some (le64At bytes offset) else none

def putCell (offset : Nat) (cell : UInt32) (bytes : Bytes) : Bytes :=
  bytes.take offset ++ be32 cell ++ bytes.drop (offset + 4)

theorem length_putCell {offset : Nat} {cell : UInt32} {bytes : Bytes}
    (h : offset + 4 ≤ bytes.length) : (putCell offset cell bytes).length = bytes.length := by
  simp only [putCell, List.length_append, List.length_take, List.length_drop, length_be32]
  omega

def cellsOf : Bytes → List UInt32
  | a :: b :: c :: d :: rest => ofBe32 [a, b, c, d] :: cellsOf rest
  | _ => []

def ofCells (cells : List UInt32) : Bytes := cells.flatMap be32

theorem be32At_append {bytes : Bytes} {offset : Nat} (h : offset + 4 ≤ bytes.length)
    (rest : Bytes) : be32At (bytes ++ rest) offset = be32At bytes offset := by
  rw [be32At, be32At, take_drop_append h]

theorem le16At_append {bytes : Bytes} {offset : Nat} (h : offset + 2 ≤ bytes.length)
    (rest : Bytes) : le16At (bytes ++ rest) offset = le16At bytes offset := by
  rw [le16At, le16At, take_drop_append h]

theorem le32At_append {bytes : Bytes} {offset : Nat} (h : offset + 4 ≤ bytes.length)
    (rest : Bytes) : le32At (bytes ++ rest) offset = le32At bytes offset := by
  rw [le32At, le32At, take_drop_append h]

theorem le32_le32At {bytes : Bytes} {offset : Nat} (h : offset + 4 ≤ bytes.length) :
    le32 (le32At bytes offset) = slice ⟨offset, offset + 4⟩ bytes := by
  have hlength : ((bytes.drop offset).take 4).length = 4 := by
    rw [List.length_take, List.length_drop]
    omega
  have hlt := ofLittleEndian_lt ((bytes.drop offset).take 4)
  have hback := littleEndian_ofLittleEndian ((bytes.drop offset).take 4)
  rw [hlength] at hlt hback
  rw [le32, le32At, UInt32.toNat_ofNat_of_lt' hlt, hback, slice, Span.length,
    Nat.add_sub_cancel_left]

theorem be32At_zero (v : UInt32) (rest : Bytes) : be32At (be32 v ++ rest) 0 = v := by
  rw [be32At, List.drop_zero, List.take_left' (length_be32 v), ofBe32_be32]

theorem be64At_append (front : Bytes) (v : UInt64) (rest : Bytes) :
    be64At (front ++ (be64 v ++ rest)) front.length = v := by
  rw [be64At, List.drop_left, List.take_left' (length_be64 v), ofBe64_be64]

theorem ofCells_cons (cell : UInt32) (cells : List UInt32) :
    ofCells (cell :: cells) = be32 cell ++ ofCells cells := List.flatMap_cons

theorem length_ofCells (cells : List UInt32) : (ofCells cells).length = 4 * cells.length := by
  induction cells with
  | nil => rfl
  | cons cell cells ih =>
    simp only [ofCells_cons, List.length_append, length_be32, ih, List.length_cons]
    omega

theorem be32At_ofCells (cells : List UInt32) (rest : Bytes) (i : Nat) (h : i < cells.length) :
    be32At (ofCells cells ++ rest) (4 * i) = cells[i] := by
  induction cells generalizing i with
  | nil => exact absurd h (Nat.not_lt_zero i)
  | cons cell cells ih =>
    rw [ofCells_cons, List.append_assoc]
    cases i with
    | zero => exact be32At_zero cell _
    | succ i =>
      have hi : i < cells.length := Nat.lt_of_succ_lt_succ h
      rw [List.getElem_cons_succ, ← ih i hi, be32At, be32At,
        show 4 * (i + 1) = (be32 cell).length + 4 * i by rw [length_be32]; omega,
        ← List.drop_drop, List.drop_left]

def ofWords (words : List UInt32) : Bytes := words.flatMap le32

theorem ofWords_cons (word : UInt32) (words : List UInt32) :
    ofWords (word :: words) = le32 word ++ ofWords words := List.flatMap_cons

theorem length_ofWords (words : List UInt32) : (ofWords words).length = 4 * words.length := by
  induction words with
  | nil => rfl
  | cons word words ih =>
    simp only [ofWords_cons, List.length_append, length_le32, ih, List.length_cons]
    omega

theorem le32At_left (front bytes : Bytes) (offset : Nat) :
    le32At (front ++ bytes) (front.length + offset) = le32At bytes offset := by
  rw [le32At, le32At, ← List.drop_drop, List.drop_left]

theorem le32At_zero (v : UInt32) (rest : Bytes) : le32At (le32 v ++ rest) 0 = v := by
  rw [le32At, List.drop_zero, List.take_left' (length_le32 v), le32,
    ofLittleEndian_littleEndian v.toNat_lt, UInt32.ofNat_toNat]

theorem le32At_ofWords (words : List UInt32) (rest : Bytes) (i : Nat) (h : i < words.length) :
    le32At (ofWords words ++ rest) (4 * i) = words[i] := by
  induction words generalizing i with
  | nil => exact absurd h (Nat.not_lt_zero i)
  | cons word words ih =>
    rw [ofWords_cons, List.append_assoc]
    cases i with
    | zero => exact le32At_zero word _
    | succ i =>
      have hi : i < words.length := Nat.lt_of_succ_lt_succ h
      rw [List.getElem_cons_succ, ← ih i hi,
        show 4 * (i + 1) = (le32 word).length + 4 * i by rw [length_le32]; omega, le32At_left]

end BootAssembly
