import BootAssembly.Deflate.BlockCodes
import BootAssembly.Fault

namespace BootAssembly.Deflate

def corrupt : Fault := .decompressFailed "corrupt deflate stream"

def exceeds : Fault := .decompressFailed "kernel exceeds available window"

def copyBack (distance : Nat) : Nat → Array UInt8 → Array UInt8
  | 0, out => out
  | n + 1, out => copyBack distance n (out.push (out.getD (out.size - distance) 0))

def write (limit : Nat) : Symbol → Array UInt8 → Except Fault (Array UInt8)
  | .literal byte, out => if out.size < limit then .ok (out.push byte) else .error exceeds
  | .endOfBlock, out => .ok out
  | .copy length distance, out =>
    if out.size < distance then .error corrupt
    else if out.size + length ≤ limit then .ok (copyBack distance length out)
    else .error exceeds

def inflateSymbols (codes : Codes) (limit : Nat) (bits : Bits) (out : Array UInt8) :
    Except Fault (Bits × Array UInt8) :=
  match _h : takeSymbol? codes bits with
  | none => .error corrupt
  | some (.endOfBlock, rest) => .ok (rest, out)
  | some (symbol, rest) =>
    match write limit symbol out with
    | .error e => .error e
    | .ok out => inflateSymbols codes limit rest out
termination_by bits.length
decreasing_by exact takeSymbol?_length ‹_›

/-- Copies bytes; that the output is full is seen before that the input has ended. -/
def copyStored (limit : Nat) : Nat → Bits → Array UInt8 → Except Fault (Bits × Array UInt8)
  | 0, bits, out => .ok (bits, out)
  | n + 1, bits, out =>
    if out.size < limit then
      match takeNumber 8 bits with
      | none => .error corrupt
      | some (byte, rest) => copyStored limit n rest (out.push (UInt8.ofNat byte))
    else .error exceeds

def storedLength? (bits : Bits) : Option (Nat × Bits) := do
  let (length, bits) ← takeNumber 16 (toByteBoundary bits)
  let (inverted, bits) ← takeNumber 16 bits
  guard (length + inverted = 65535)
  return (length, bits)

inductive BlockKind where
  | stored
  | fixed
  | dynamic
  | reserved
deriving DecidableEq, Repr

def BlockKind.ofBits : Bool → Bool → BlockKind
  | false, false => stored
  | true, false => fixed
  | false, true => dynamic
  | true, true => reserved

def inflateBlock (limit : Nat) (kind : BlockKind) (bits : Bits) (out : Array UInt8) :
    Except Fault (Bits × Array UInt8) :=
  match kind with
  | .stored =>
    match storedLength? bits with
    | none => .error corrupt
    | some (length, rest) => copyStored limit length rest out
  | .fixed => inflateSymbols fixedCodes limit bits out
  | .dynamic =>
    match takeCodes? bits with
    | none => .error corrupt
    | some (codes, rest) => inflateSymbols codes limit rest out
  | .reserved => .error corrupt

theorem inflateSymbols_suffix {codes : Codes} {limit : Nat} {bits rest : Bits}
    {out result : Array UInt8} (h : inflateSymbols codes limit bits out = .ok (rest, result)) :
    rest <:+ bits := by
  fun_induction inflateSymbols codes limit bits out with
  | case1 => cases h
  | case2 bits out r hr => cases h; exact takeSymbol?_suffix hr
  | case3 => cases h
  | case4 bits out symbol r _ hr _ _ ih => exact (ih h).trans (takeSymbol?_suffix hr)

theorem copyStored_suffix {limit n : Nat} {bits rest : Bits} {out result : Array UInt8}
    (h : copyStored limit n bits out = .ok (rest, result)) : rest <:+ bits := by
  fun_induction copyStored limit n bits out with
  | case1 => cases h; exact List.suffix_rfl
  | case2 => cases h
  | case3 n bits out _ byte r hr ih => exact (ih h).trans (takeNumber_suffix hr)
  | case4 => cases h

theorem storedLength?_suffix {bits rest : Bits} {length : Nat}
    (h : storedLength? bits = some (length, rest)) : rest <:+ bits := by
  unfold storedLength? at h
  obtain ⟨_, h₁, h⟩ := Option.bind_eq_some_iff.mp h
  obtain ⟨_, h₂, h⟩ := Option.bind_eq_some_iff.mp h
  obtain ⟨_, -, h⟩ := Option.bind_eq_some_iff.mp h
  cases h
  exact (takeNumber_suffix h₂).trans <| (takeNumber_suffix h₁).trans (toByteBoundary_suffix bits)

theorem inflateBlock_suffix {limit : Nat} {kind : BlockKind} {bits rest : Bits}
    {out result : Array UInt8} (h : inflateBlock limit kind bits out = .ok (rest, result)) :
    rest <:+ bits := by
  cases kind with
  | stored =>
    simp only [inflateBlock] at h
    split at h
    · cases h
    · rename_i hl
      exact (copyStored_suffix h).trans (storedLength?_suffix hl)
  | fixed => exact inflateSymbols_suffix h
  | dynamic =>
    simp only [inflateBlock] at h
    split at h
    · cases h
    · rename_i hc
      exact (inflateSymbols_suffix h).trans (takeCodes?_suffix hc)
  | reserved => cases h

def inflateBlocks (limit : Nat) (bits : Bits) (out : Array UInt8) :
    Except Fault (Bits × Array UInt8) :=
  match bits with
  | final :: low :: high :: bits =>
    match _h : inflateBlock limit (.ofBits low high) bits out with
    | .error e => .error e
    | .ok (rest, out) => if final then .ok (rest, out) else inflateBlocks limit rest out
  | _ => .error corrupt
termination_by bits.length
decreasing_by
  have := (inflateBlock_suffix ‹_›).length_le
  simp only [List.length_cons]
  omega

def inflate (limit : Nat) (input : Bytes) : Except Fault (Bytes × Nat) :=
  match inflateBlocks limit (bitsOf input) #[] with
  | .error e => .error e
  | .ok (rest, out) => .ok (out.toList, input.length - rest.length / 8)

end BootAssembly.Deflate
