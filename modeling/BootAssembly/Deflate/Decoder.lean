import BootAssembly.Deflate.Inflate

namespace BootAssembly.Deflate

inductive Stage where
  | header
  | stored (left : Nat) (last : Bool)
  | symbols (codes : Codes) (last : Bool)
  | copying (left distance : Nat) (codes : Codes) (last : Bool)
  | finished

namespace Stage

def afterBlock (last : Bool) : Stage := if last then finished else header

def pending : Stage → Nat
  | stored _ _ => 1
  | copying left _ _ _ => left + 1
  | _ => 0

def opening (last : Bool) (kind : BlockKind) (bits : Bits) : Option (Stage × Bits) :=
  match kind with
  | .stored => onValue (stored · last) (storedLength? bits)
  | .fixed => some (symbols fixedCodes last, bits)
  | .dynamic => onValue (symbols · last) (takeCodes? bits)
  | .reserved => none

theorem pending_afterBlock (last : Bool) : (afterBlock last).pending = 0 := by
  cases last <;> rfl

theorem opening_suffix {last : Bool} {kind : BlockKind} {bits rest : Bits} {stage : Stage}
    (h : opening last kind bits = some (stage, rest)) : rest <:+ bits := by
  unfold opening at h
  cases kind with
  | stored =>
    obtain ⟨length, hlength, -⟩ := onValue_eq_some.mp h
    exact storedLength?_suffix hlength
  | fixed =>
    cases h
    exact List.suffix_rfl
  | dynamic =>
    obtain ⟨codes, hcodes, -⟩ := onValue_eq_some.mp h
    exact takeCodes?_suffix hcodes
  | reserved => cases h

end Stage

structure Decoder where
  stage : Stage
  bits : Bits
  out : Array UInt8

namespace Decoder

inductive Progress where
  | more (next : Decoder)
  | done (last : Decoder)
  | full (stopped : Decoder)
  | corrupt

def step (capacity : Nat) : Decoder → Progress
  | ⟨.header, last :: low :: high :: bits, out⟩ =>
    match Stage.opening last (.ofBits low high) bits with
    | none => .corrupt
    | some (stage, rest) => .more ⟨stage, rest, out⟩
  | ⟨.header, _, _⟩ => .corrupt
  | ⟨.stored 0 last, bits, out⟩ => .more ⟨.afterBlock last, bits, out⟩
  | ⟨.stored (left + 1) last, bits, out⟩ =>
    if out.size < capacity then
      match takeNumber 8 bits with
      | none => .corrupt
      | some (byte, rest) => .more ⟨.stored left last, rest, out.push (UInt8.ofNat byte)⟩
    else .full ⟨.stored (left + 1) last, bits, out⟩
  | ⟨.symbols codes last, bits, out⟩ =>
    match takeSymbol? codes bits with
    | none => .corrupt
    | some (.literal byte, rest) =>
      if out.size < capacity then .more ⟨.symbols codes last, rest, out.push byte⟩
      else .full ⟨.symbols codes last, bits, out⟩
    | some (.endOfBlock, rest) => .more ⟨.afterBlock last, rest, out⟩
    | some (.copy length distance, rest) =>
      if out.size < distance then .corrupt
      else .more ⟨.copying length distance codes last, rest, out⟩
  | ⟨.copying 0 _ codes last, bits, out⟩ => .more ⟨.symbols codes last, bits, out⟩
  | ⟨.copying (left + 1) distance codes last, bits, out⟩ =>
    if out.size < capacity then
      .more ⟨.copying left distance codes last, bits, out.push (out.getD (out.size - distance) 0)⟩
    else .full ⟨.copying (left + 1) distance codes last, bits, out⟩
  | ⟨.finished, bits, out⟩ => .done ⟨.finished, bits, out⟩

theorem step_decreases {capacity : Nat} {d next : Decoder} (h : d.step capacity = .more next) :
    next.bits.length < d.bits.length ∨
      next.bits.length = d.bits.length ∧ next.stage.pending < d.stage.pending := by
  revert h
  fun_cases step capacity d <;> rintro ⟨⟩
  case case2 hopening =>
    have := (Stage.opening_suffix hopening).length_le
    simp only [List.length_cons]
    omega
  case case4 =>
    rw [Stage.pending_afterBlock]
    exact .inr ⟨rfl, Nat.zero_lt_one⟩
  case case6 hbyte =>
    have hlength := congrArg List.length (takeNumber_split hbyte)
    simp only [List.length_append, length_lowBits] at hlength ⊢
    omega
  case case9 hsymbol _ => exact .inl (takeSymbol?_length hsymbol)
  case case11 hsymbol => exact .inl (takeSymbol?_length hsymbol)
  case case13 hsymbol _ => exact .inl (takeSymbol?_length hsymbol)
  case case14 => exact .inr ⟨rfl, Nat.zero_lt_one⟩
  case case15 => exact .inr ⟨rfl, Nat.lt_succ_self _⟩

inductive Status where
  | done
  | full
deriving DecidableEq, Repr

def run (capacity : Nat) (d : Decoder) : Except Fault (Status × Decoder) :=
  match _h : d.step capacity with
  | .more next => next.run capacity
  | .done last => .ok (.done, last)
  | .full stopped => .ok (.full, stopped)
  | .corrupt => .error corrupt
termination_by (d.bits.length, d.stage.pending)
decreasing_by
  exact Prod.lex_def.mpr (step_decreases ‹_›)

end Decoder

structure Room (limit : Nat) where
  capacity : Nat
  le_limit : capacity ≤ limit
  pos : 0 < limit → 0 < capacity

namespace Room

variable {limit : Nat}

def initial (limit : Nat) (input : Bytes) : Room limit where
  capacity := min limit (max (4 * input.length) 65536)
  le_limit := Nat.min_le_left _ _
  pos := by omega

def double (room : Room limit) : Room limit where
  capacity := min (2 * room.capacity) limit
  le_limit := Nat.min_le_right _ _
  pos h := by
    have := room.pos h
    omega

theorem capacity_lt_double {room : Room limit} (h : room.capacity < limit) :
    room.capacity < room.double.capacity := by
  have hpos := room.pos (Nat.lt_of_le_of_lt (Nat.zero_le _) h)
  show room.capacity < min (2 * room.capacity) limit
  omega

end Room

def Decoder.finish {limit : Nat} (room : Room limit) (d : Decoder) : Except Fault Decoder := do
  let (status, d) ← d.run room.capacity
  match status with
  | .done => .ok d
  | .full => if room.capacity < limit then d.finish room.double else .error exceeds
termination_by limit - room.capacity
decreasing_by
  have := Room.capacity_lt_double ‹_›
  omega

/-- Decodes one stream into a buffer that may grow; also how many bytes of input it took. That there
is memory for the buffer is taken for granted: no payload of an image could need more than there is
room for in one. -/
def inflateInto {limit : Nat} (room : Room limit) (input : Bytes) :
    Except Fault (Bytes × Nat) := do
  let d ← Decoder.finish room ⟨.header, bitsOf input, #[]⟩
  return (d.out.toList, input.length - d.bits.length / 8)

end BootAssembly.Deflate
