import BootAssembly.Deflate.Symbol

namespace BootAssembly.Deflate

def fixedCodes : Codes where
  literals := .ofWords <| PrefixCode.words <|
    List.replicate 144 8 ++ List.replicate 112 9 ++ List.replicate 24 7 ++ List.replicate 8 8
  distances := .ofWords <| PrefixCode.words <| List.replicate 32 5

def lengthOrder : List Nat :=
  [16, 17, 18, 0, 8, 7, 9, 6, 10, 5, 11, 4, 12, 3, 13, 2, 14, 1, 15]

def takeNumbers (width : Nat) : Nat → Bits → Option (List Nat × Bits)
  | 0, bits => some ([], bits)
  | count + 1, bits =>
    match takeNumber width bits with
    | none => none
    | some (n, rest) => onValue (n :: ·) (takeNumbers width count rest)

def takeRun? (code : PrefixCode) (previous : Option Nat) (bits : Bits) :
    Option ((Nat × Nat) × Bits) :=
  match code.decode bits with
  | none => none
  | some (symbol, rest) =>
    if symbol < 16 then some ((symbol, 1), rest)
    else if symbol = 16 then
      match previous with
      | none => none
      | some length => onValue (fun n => (length, n + 3)) (takeNumber 2 rest)
    else if symbol = 17 then onValue (fun n => (0, n + 3)) (takeNumber 3 rest)
    else onValue (fun n => (0, n + 11)) (takeNumber 7 rest)

def takeLengths? (code : PrefixCode) (wanted : Nat) (previous : Option Nat) (bits : Bits) :
    Option (List Nat × Bits) :=
  if wanted = 0 then some ([], bits)
  else
    match takeRun? code previous bits with
    | none => none
    | some ((length, count), rest) =>
      if 0 < count ∧ count ≤ wanted then
        onValue (List.replicate count length ++ ·)
          (takeLengths? code (wanted - count) (some length) rest)
      else none
termination_by wanted

def takeCodes? (bits : Bits) : Option (Codes × Bits) := do
  let (literals, bits) ← takeNumber 5 bits
  let (distances, bits) ← takeNumber 5 bits
  let (written, bits) ← takeNumber 4 bits
  let (short, bits) ← takeNumbers 3 (written + 4) bits
  let lengthCode ← PrefixCode.complete?
    ((List.range 19).map fun symbol => ((lengthOrder.zip short).lookup symbol).getD 0)
  guard (literals + 257 ≤ 286 ∧ distances + 1 ≤ 30)
  let (lengths, bits) ← takeLengths? lengthCode (literals + 257 + (distances + 1)) none bits
  let distanceCode ← PrefixCode.ofLengths? (lengths.drop (literals + 257))
  let literalCode ← PrefixCode.ofLengths? (lengths.take (literals + 257))
  return (⟨literalCode, distanceCode⟩, bits)

theorem takeNumbers_suffix {width count : Nat} {ns : List Nat} {bits rest : Bits}
    (h : takeNumbers width count bits = some (ns, rest)) : rest <:+ bits := by
  induction count generalizing bits ns with
  | zero => cases h; exact List.suffix_rfl
  | succ count ih =>
    simp only [takeNumbers] at h
    split at h
    · cases h
    · rename_i hn
      obtain ⟨ms, h, -⟩ := onValue_eq_some.mp h
      exact (ih h).trans (takeNumber_suffix hn)

theorem takeRun?_suffix {code : PrefixCode} {previous : Option Nat} {run : Nat × Nat}
    {bits rest : Bits} (h : takeRun? code previous bits = some (run, rest)) : rest <:+ bits := by
  unfold takeRun? at h
  split at h
  · cases h
  rename_i hd
  have hd := PrefixCode.decode_suffix hd
  have step {width : Nat} {f : Nat → Nat × Nat} {r : Bits} (hr : r <:+ bits)
      (h : onValue f (takeNumber width r) = some (run, rest)) : rest <:+ bits := by
    obtain ⟨n, h, -⟩ := onValue_eq_some.mp h
    exact (takeNumber_suffix h).trans hr
  split at h
  · cases h; exact hd
  split at h
  · split at h
    · cases h
    · exact step hd h
  split at h
  · exact step hd h
  · exact step hd h

theorem takeLengths?_suffix {code : PrefixCode} {wanted : Nat} {previous : Option Nat}
    {lengths : List Nat} {bits rest : Bits}
    (h : takeLengths? code wanted previous bits = some (lengths, rest)) : rest <:+ bits := by
  fun_induction takeLengths? code wanted previous bits generalizing lengths with
  | case1 => cases h; exact List.suffix_rfl
  | case2 => cases h
  | case3 wanted previous bits _ length count r hr _ ih =>
    obtain ⟨ls, h, -⟩ := onValue_eq_some.mp h
    exact (ih h).trans (takeRun?_suffix hr)
  | case4 => cases h

theorem takeCodes?_suffix {codes : Codes} {bits rest : Bits}
    (h : takeCodes? bits = some (codes, rest)) : rest <:+ bits := by
  unfold takeCodes? at h
  obtain ⟨_, h₁, h⟩ := Option.bind_eq_some_iff.mp h
  obtain ⟨_, h₂, h⟩ := Option.bind_eq_some_iff.mp h
  obtain ⟨_, h₃, h⟩ := Option.bind_eq_some_iff.mp h
  obtain ⟨_, h₄, h⟩ := Option.bind_eq_some_iff.mp h
  obtain ⟨_, -, h⟩ := Option.bind_eq_some_iff.mp h
  obtain ⟨_, -, h⟩ := Option.bind_eq_some_iff.mp h
  obtain ⟨_, h₅, h⟩ := Option.bind_eq_some_iff.mp h
  obtain ⟨_, -, h⟩ := Option.bind_eq_some_iff.mp h
  obtain ⟨_, -, h⟩ := Option.bind_eq_some_iff.mp h
  cases h
  exact (takeLengths?_suffix h₅).trans <| (takeNumbers_suffix h₄).trans <|
    (takeNumber_suffix h₃).trans <| (takeNumber_suffix h₂).trans (takeNumber_suffix h₁)

end BootAssembly.Deflate
