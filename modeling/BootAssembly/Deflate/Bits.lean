import BootAssembly.Bytes

namespace BootAssembly.Deflate

abbrev Bits := List Bool

def lowBits : Nat → Nat → Bits
  | 0, _ => []
  | width + 1, n => (n % 2 == 1) :: lowBits width (n / 2)

def bitsOf (bytes : Bytes) : Bits := bytes.flatMap fun b => lowBits 8 b.toNat

def onValue {α β : Type} (f : α → β) (found : Option (α × Bits)) : Option (β × Bits) :=
  found.map fun (a, rest) => (f a, rest)

theorem onValue_eq_some {α β : Type} {f : α → β} {found : Option (α × Bits)} {b : β}
    {rest : Bits} : onValue f found = some (b, rest) ↔ ∃ a, found = some (a, rest) ∧ f a = b := by
  match found with
  | none => simp [onValue]
  | some (a, r) =>
    simp only [onValue, Option.map_some, Option.some.injEq, Prod.mk.injEq]
    constructor
    · rintro ⟨rfl, rfl⟩
      exact ⟨a, ⟨rfl, rfl⟩, rfl⟩
    · rintro ⟨_, ⟨rfl, rfl⟩, rfl⟩
      exact ⟨rfl, rfl⟩

def takeNumber : Nat → Bits → Option (Nat × Bits)
  | 0, bits => some (0, bits)
  | _ + 1, [] => none
  | width + 1, b :: bits =>
    onValue (fun high => b.toNat + 2 * high) (takeNumber width bits)

def toByteBoundary (bits : Bits) : Bits := bits.drop (bits.length % 8)

@[simp] theorem length_lowBits (width n : Nat) : (lowBits width n).length = width := by
  induction width generalizing n with
  | zero => rfl
  | succ width ih => simp [lowBits, ih]

theorem length_bitsOf (bytes : Bytes) : (bitsOf bytes).length = 8 * bytes.length := by
  induction bytes with
  | nil => rfl
  | cons b bytes ih =>
    simp only [bitsOf, List.flatMap_cons, List.length_append, length_lowBits,
      List.length_cons] at ih ⊢
    omega

theorem takeNumber_split {width n : Nat} {bits rest : Bits}
    (h : takeNumber width bits = some (n, rest)) : bits = lowBits width n ++ rest := by
  induction width generalizing bits n with
  | zero =>
    simp only [takeNumber, Option.some.injEq, Prod.mk.injEq] at h
    simp [lowBits, h.2]
  | succ width ih =>
    cases bits with
    | nil => simp [takeNumber] at h
    | cons b bits =>
      rw [takeNumber] at h
      obtain ⟨high, hr, rfl⟩ := onValue_eq_some.mp h
      have hd : (b.toNat + 2 * high) / 2 = high := by have := b.toNat_lt; omega
      have hm : ((b.toNat + 2 * high) % 2 == 1) = b := by cases b <;> simp
      rw [ih hr, lowBits, hd, hm, List.cons_append]

theorem takeNumber_suffix {width n : Nat} {bits rest : Bits}
    (h : takeNumber width bits = some (n, rest)) : rest <:+ bits :=
  ⟨lowBits width n, (takeNumber_split h).symm⟩

theorem toByteBoundary_suffix (bits : Bits) : toByteBoundary bits <:+ bits :=
  List.drop_suffix _ _

end BootAssembly.Deflate
