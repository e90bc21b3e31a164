import BootAssembly.Deflate.Decoder

namespace BootAssembly.Deflate

variable {limit capacity : Nat} {bits rest : Bits} {out : Array UInt8}

theorem inflateSymbols_of_none {codes : Codes} (h : takeSymbol? codes bits = none) :
    inflateSymbols codes limit bits out = .error corrupt := by
  rw [inflateSymbols]
  split <;> rename_i hs <;> rw [h] at hs <;> cases hs

theorem inflateSymbols_of_end {codes : Codes}
    (h : takeSymbol? codes bits = some (.endOfBlock, rest)) :
    inflateSymbols codes limit bits out = .ok (rest, out) := by
  rw [inflateSymbols]
  split <;> rename_i hs <;> rw [h] at hs <;> cases hs
  · rfl
  · contradiction

theorem inflateSymbols_of_symbol {codes : Codes} {symbol : Symbol}
    (h : takeSymbol? codes bits = some (symbol, rest)) (hend : symbol ≠ .endOfBlock) :
    inflateSymbols codes limit bits out =
      (write limit symbol out >>= inflateSymbols codes limit rest) := by
  rw [inflateSymbols]
  split <;> rename_i hs <;> rw [h] at hs <;> cases hs
  · contradiction
  · cases write limit symbol out <;> rfl

def afterBlock (limit : Nat) (last : Bool) (block : Bits × Array UInt8) :
    Except Fault (Bits × Array UInt8) :=
  if last then .ok block else inflateBlocks limit block.1 block.2

theorem inflateBlocks_cons (last low high : Bool) :
    inflateBlocks limit (last :: low :: high :: bits) out =
      (inflateBlock limit (.ofBits low high) bits out >>= afterBlock limit last) := by
  rw [inflateBlocks]
  split <;> rename_i hblock <;> rw [hblock] <;> rfl

namespace Decoder

/-- What a decoder still has to give, with room for `limit` bytes in all. -/
def value (limit : Nat) : Decoder → Except Fault (Bits × Array UInt8)
  | ⟨.header, bits, out⟩ => inflateBlocks limit bits out
  | ⟨.stored left last, bits, out⟩ => copyStored limit left bits out >>= afterBlock limit last
  | ⟨.symbols codes last, bits, out⟩ =>
    inflateSymbols codes limit bits out >>= afterBlock limit last
  | ⟨.copying left distance codes last, bits, out⟩ =>
    if out.size + left ≤ limit then
      inflateSymbols codes limit bits (copyBack distance left out) >>= afterBlock limit last
    else .error exceeds
  | ⟨.finished, bits, out⟩ => .ok (bits, out)

theorem value_afterBlock (last : Bool) (bits : Bits) (out : Array UInt8) :
    value limit ⟨.afterBlock last, bits, out⟩ = afterBlock limit last (bits, out) := by
  cases last <;> rfl

theorem inflateBlock_opening (last : Bool) (kind : BlockKind) :
    inflateBlock limit kind bits out >>= afterBlock limit last =
      (Stage.opening last kind bits).elim (.error corrupt) fun opened =>
        value limit ⟨opened.1, opened.2, out⟩ := by
  unfold Stage.opening
  cases kind with
  | stored =>
    rw [inflateBlock]
    cases storedLength? bits <;> rfl
  | fixed => rfl
  | dynamic =>
    rw [inflateBlock]
    cases takeCodes? bits <;> rfl
  | reserved => rfl

def Progress.Agrees (limit capacity : Nat) (d : Decoder) : Progress → Prop
  | .more next => next.out.size ≤ capacity ∧ d.value limit = next.value limit
  | .done last => d.value limit = .ok (last.bits, last.out)
  | .full stopped => stopped.out.size ≤ capacity ∧ d.value limit = stopped.value limit ∧
      (capacity = limit → d.value limit = .error exceeds)
  | .corrupt => d.value limit = .error Deflate.corrupt

theorem step_agrees {d : Decoder} (hcapacity : capacity ≤ limit) (hout : d.out.size ≤ capacity) :
    (d.step capacity).Agrees limit capacity d := by
  fun_cases step capacity d
  case case1 hopening =>
    rw [Progress.Agrees, value, inflateBlocks_cons, inflateBlock_opening, hopening]
    rfl
  case case2 hopening =>
    refine ⟨hout, ?_⟩
    rw [value, inflateBlocks_cons, inflateBlock_opening, hopening]
    rfl
  case case3 bits out hshort =>
    rw [Progress.Agrees, value, inflateBlocks]
    exact hshort
  case case4 last bits out =>
    exact ⟨hout, (value_afterBlock last bits out).symm⟩
  case case5 hroom hbyte =>
    rw [Progress.Agrees, value, copyStored, if_pos (Nat.lt_of_lt_of_le hroom hcapacity), hbyte]
    rfl
  case case6 hroom byte rest hbyte =>
    refine ⟨by rw [Array.size_push]; exact hroom, ?_⟩
    rw [value, copyStored, if_pos (Nat.lt_of_lt_of_le hroom hcapacity), hbyte]
    rfl
  case case7 hfull =>
    refine ⟨hout, rfl, ?_⟩
    rintro rfl
    rw [value, copyStored, if_neg hfull]
    rfl
  case case8 hsymbol =>
    rw [Progress.Agrees, value, inflateSymbols_of_none hsymbol]
    rfl
  case case9 hsymbol hroom =>
    refine ⟨by rw [Array.size_push]; exact hroom, ?_⟩
    rw [value, inflateSymbols_of_symbol hsymbol nofun, write,
      if_pos (Nat.lt_of_lt_of_le hroom hcapacity)]
    rfl
  case case10 hsymbol hfull =>
    refine ⟨hout, rfl, ?_⟩
    rintro rfl
    rw [value, inflateSymbols_of_symbol hsymbol nofun, write, if_neg hfull]
    rfl
  case case11 hsymbol =>
    refine ⟨hout, ?_⟩
    rw [value, inflateSymbols_of_end hsymbol, value_afterBlock]
    rfl
  case case12 hsymbol hdistance =>
    rw [Progress.Agrees, value, inflateSymbols_of_symbol hsymbol nofun, write, if_pos hdistance]
    rfl
  case case13 hsymbol hdistance =>
    refine ⟨hout, ?_⟩
    rw [value, value, inflateSymbols_of_symbol hsymbol nofun, write, if_neg hdistance]
    split <;> rfl
  case case14 =>
    refine ⟨hout, ?_⟩
    rw [value, value, Nat.add_zero, if_pos (Nat.le_trans hout hcapacity), copyBack]
  case case15 left distance codes last bits out hroom =>
    refine ⟨by rw [Array.size_push]; exact hroom, ?_⟩
    have hsize : out.size + (left + 1) = out.size + 1 + left := by omega
    rw [value, value, Array.size_push, hsize, copyBack]
  case case16 left distance codes last bits out hfull =>
    refine ⟨hout, rfl, ?_⟩
    rintro rfl
    rw [value, if_neg (by omega)]
  case case17 => rfl

def Reaches (limit capacity : Nat) (whole : Except Fault (Bits × Array UInt8)) :
    Except Fault (Status × Decoder) → Prop
  | .ok (.done, d) => whole = .ok (d.bits, d.out)
  | .ok (.full, d) => d.out.size ≤ capacity ∧ whole = d.value limit ∧
      (capacity = limit → whole = .error exceeds)
  | .error fault => whole = .error fault

theorem run_reaches {d : Decoder} (hcapacity : capacity ≤ limit) (hout : d.out.size ≤ capacity) :
    Reaches limit capacity (d.value limit) (d.run capacity) := by
  fun_induction run capacity d with
  | case1 d next hstep ih =>
    have hmore := step_agrees hcapacity hout
    rw [hstep] at hmore
    rw [hmore.2]
    exact ih hmore.1
  | case2 d last hstep =>
    have hdone := step_agrees hcapacity hout
    rwa [hstep] at hdone
  | case3 d stopped hstep =>
    have hfull := step_agrees hcapacity hout
    rwa [hstep] at hfull
  | case4 d hstep =>
    have hcorrupt := step_agrees hcapacity hout
    rwa [hstep] at hcorrupt

theorem finish_value (room : Room limit) {d : Decoder} (hout : d.out.size ≤ room.capacity) :
    (fun last => (last.bits, last.out)) <$> d.finish room = d.value limit := by
  fun_induction finish room d with
  | case1 room d ih =>
    have hrun := run_reaches room.le_limit hout
    cases hstopped : d.run room.capacity with
    | error fault =>
      rw [hstopped] at hrun
      exact hrun.symm
    | ok stopped =>
      obtain ⟨status, next⟩ := stopped
      rw [hstopped] at hrun
      cases status with
      | done => exact hrun.symm
      | full =>
        obtain ⟨hsize, hvalue, hexceeds⟩ := hrun
        show _ <$> (if room.capacity < limit then finish room.double next else .error exceeds) = _
        by_cases hgrows : room.capacity < limit
        · rw [if_pos hgrows, hvalue]
          have hlarger := room.capacity_lt_double hgrows
          exact ih next hgrows (by omega)
        · have hlimit := room.le_limit
          rw [if_neg hgrows, hexceeds (by omega)]
          rfl

end Decoder

/-- However often the buffer has to grow, the stream is decoded as if it had had all its room from
the start. -/
theorem inflateInto_eq (room : Room limit) (input : Bytes) :
    inflateInto room input = inflate limit input := by
  have hvalue := Decoder.finish_value room (d := ⟨.header, bitsOf input, #[]⟩) (Nat.zero_le _)
  rw [Decoder.value] at hvalue
  rw [inflateInto, inflate, ← hvalue]
  cases Decoder.finish room ⟨.header, bitsOf input, #[]⟩ <;> rfl

end BootAssembly.Deflate
