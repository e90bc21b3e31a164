import BootAssembly.Deflate.Bits

namespace BootAssembly.Deflate

inductive PrefixCode where
  | empty
  | leaf (symbol : Nat)
  | fork (zero one : PrefixCode)
deriving Repr

namespace PrefixCode

def branch : PrefixCode → Bool → PrefixCode
  | fork zero _, false => zero
  | fork _ one, true => one
  | _, _ => empty

def insert (symbol : Nat) : Bits → PrefixCode → PrefixCode
  | [], _ => leaf symbol
  | false :: word, code => fork (insert symbol word (code.branch false)) (code.branch true)
  | true :: word, code => fork (code.branch false) (insert symbol word (code.branch true))

def decode : PrefixCode → Bits → Option (Nat × Bits)
  | leaf symbol, bits => some (symbol, bits)
  | fork zero _, false :: bits => zero.decode bits
  | fork _ one, true :: bits => one.decode bits
  | _, _ => none

theorem decode_suffix {code : PrefixCode} {bits rest : Bits} {symbol : Nat}
    (h : code.decode bits = some (symbol, rest)) : rest <:+ bits := by
  induction code generalizing bits with
  | empty => simp [decode] at h
  | leaf s =>
    simp only [decode, Option.some.injEq, Prod.mk.injEq] at h
    exact h.2 ▸ List.suffix_rfl
  | fork zero one ihz iho =>
    match bits with
    | [] => simp [decode] at h
    | false :: bits =>
      exact (ihz (by simpa [decode] using h)).trans (List.suffix_cons _ _)
    | true :: bits =>
      exact (iho (by simpa [decode] using h)).trans (List.suffix_cons _ _)

def maxLength : Nat := 15

def symbolsOf (lengths : List Nat) (length : Nat) : List Nat :=
  (lengths.zipIdx.filter fun (l, _) => l == length).map (·.2)

/-- The number of the first word of each length: shorter words come first, and each length goes on
where the one before it stopped. -/
def firstWord (lengths : List Nat) : Nat → Nat
  | 0 => 0
  | length + 1 =>
    2 * (firstWord lengths length + if length = 0 then 0 else lengths.count length)

def words (lengths : List Nat) : List (Bits × Nat) :=
  (List.range' 1 maxLength).flatMap fun length =>
    ((symbolsOf lengths length).zipIdx (firstWord lengths length)).map fun (symbol, n) =>
      ((lowBits length n).reverse, symbol)

def ofWords (words : List (Bits × Nat)) : PrefixCode :=
  words.foldl (fun code (word, symbol) => code.insert symbol word) empty

def IsComplete (lengths : List Nat) : Prop :=
  firstWord lengths (maxLength + 1) = Nat.pow 2 (maxLength + 1)

instance (lengths : List Nat) : Decidable (IsComplete lengths) :=
  inferInstanceAs (Decidable (_ = _))

def used (lengths : List Nat) : Nat := lengths.countP (0 < ·)

def lookupWidth : Nat := 10

/-- A lone word longer than one lookup step shares that step with every word that agrees with it so
far; where such a word leaves it later, it stands for symbol zero. -/
def strayWords (lengths : List Nat) : List (Bits × Nat) :=
  if used lengths = 1 then
    (List.range' lookupWidth (lengths.foldl (· + ·) 0 - lookupWidth)).map fun zeros =>
      (List.replicate zeros false ++ [true], 0)
  else []

def complete? (lengths : List Nat) : Option PrefixCode :=
  if IsComplete lengths then some (ofWords (words lengths)) else none

def ofLengths? (lengths : List Nat) : Option PrefixCode :=
  if used lengths ≤ 1 then some (ofWords (words lengths ++ strayWords lengths))
  else complete? lengths

end PrefixCode

end BootAssembly.Deflate
