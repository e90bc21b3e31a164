import BootAssembly.Checked
import BootAssembly.Deflate.Decoder

namespace BootAssembly.Deflate

theorem takeNumber_lt {width n : Nat} {bits rest : Bits} (h : takeNumber width bits = some (n, rest)) :
    n < Nat.pow 2 width := by
  induction width generalizing bits n with
  | zero =>
    cases h
    decide
  | succ width ih =>
    cases bits with
    | nil => cases h
    | cons b bits =>
      obtain ⟨high, hhigh, rfl⟩ := onValue_eq_some.mp h
      have hlt := ih hhigh
      have hb := b.toNat_lt
      rw [Nat.pow_eq] at hlt ⊢
      rw [Nat.pow_succ]
      omega

def maxCopy : Nat := 258

theorem takeCopy?_length_le {codes : Codes} {index length distance : Nat} {bits rest : Bits}
    (h : takeCopy? codes index bits = some (.copy length distance, rest)) : length ≤ maxCopy := by
  unfold takeCopy? takeClass? at h
  split at h
  · cases h
  · rename_i hclass
    obtain ⟨_, -, hcopy⟩ := onValue_eq_some.mp h
    cases hcopy
    split at hclass
    · cases hclass
    · rename_i least extra hindex
      obtain ⟨more, hmore, rfl⟩ := onValue_eq_some.mp hclass
      have hlargest : ∀ c ∈ lengthClasses, c.1 + Nat.pow 2 c.2 ≤ maxCopy + 1 := by decide
      have hmost := hlargest _ (List.mem_of_getElem? hindex)
      have hlt := takeNumber_lt hmore
      dsimp only at hmost
      omega

theorem takeSymbol?_copy_le {codes : Codes} {length distance : Nat} {bits rest : Bits}
    (h : takeSymbol? codes bits = some (.copy length distance, rest)) : length ≤ maxCopy := by
  unfold takeSymbol? at h
  split at h
  · cases h
  · split at h
    · cases h
    · split at h
      · cases h
      · split at h
        · cases h
        · exact takeCopy?_length_le h

def Stage.owed : Stage → Nat
  | copying left _ _ _ => left
  | _ => 0

namespace Decoder

variable {limit capacity : Nat}

/-- The bytes that are written, and the most that could still be: no bit brings more than a copy. -/
def potential (d : Decoder) : Nat := d.out.size + d.stage.owed + maxCopy * d.bits.length

theorem owed_afterBlock (last : Bool) : (Stage.afterBlock last).owed = 0 := by
  cases last <;> rfl

theorem owed_opening {last : Bool} {kind : BlockKind} {bits rest : Bits} {stage : Stage}
    (h : Stage.opening last kind bits = some (stage, rest)) : stage.owed = 0 := by
  unfold Stage.opening at h
  cases kind with
  | stored | dynamic =>
    obtain ⟨_, -, rfl⟩ := onValue_eq_some.mp h
    rfl
  | fixed =>
    cases h
    rfl
  | reserved => cases h

theorem step_potential_le {d next : Decoder} (h : d.step capacity = .more next) :
    next.potential ≤ d.potential := by
  revert h
  unfold potential maxCopy
  fun_cases step capacity d <;> rintro ⟨⟩
  case case2 hopening =>
    have := (Stage.opening_suffix hopening).length_le
    rw [owed_opening hopening]
    simp only [List.length_cons, Stage.owed]
    omega
  case case4 =>
    rw [owed_afterBlock]
    simp only [Stage.owed]
    omega
  case case6 hbyte =>
    have hlength := congrArg List.length (takeNumber_split hbyte)
    simp only [List.length_append, length_lowBits] at hlength
    simp only [Array.size_push, Stage.owed]
    omega
  case case9 hsymbol _ =>
    have := takeSymbol?_length hsymbol
    simp only [Array.size_push, Stage.owed]
    omega
  case case11 hsymbol =>
    have := takeSymbol?_length hsymbol
    rw [owed_afterBlock]
    simp only [Stage.owed]
    omega
  case case13 hsymbol _ =>
    have := takeSymbol?_length hsymbol
    have := takeSymbol?_copy_le hsymbol
    simp only [maxCopy, Stage.owed] at *
    omega
  case case14 => simp only [Stage.owed]; omega
  case case15 =>
    simp only [Array.size_push, Stage.owed]
    omega

theorem step_full {d stopped : Decoder} (h : d.step capacity = .full stopped) :
    stopped = d ∧ capacity ≤ d.out.size := by
  revert h
  fun_cases step capacity d <;> rintro ⟨⟩
  case case7 hfull => exact ⟨rfl, Nat.le_of_not_lt hfull⟩
  case case10 hfull => exact ⟨rfl, Nat.le_of_not_lt hfull⟩
  case case16 hfull => exact ⟨rfl, Nat.le_of_not_lt hfull⟩

theorem run_full {d stopped : Decoder} (h : d.run capacity = .ok (.full, stopped)) :
    stopped.potential ≤ d.potential ∧ capacity ≤ stopped.out.size := by
  fun_induction run capacity d with
  | case1 d next hstep ih =>
    obtain ⟨hle, hfull⟩ := ih h
    exact ⟨Nat.le_trans hle (step_potential_le hstep), hfull⟩
  | case2 => cases h
  | case3 d stopped' hstep =>
    cases h
    obtain ⟨rfl, hfull⟩ := step_full hstep
    exact ⟨Nat.le_refl _, hfull⟩
  | case4 => cases h

def finishReserving {limit : Nat} (room : Room limit) (d : Decoder) : Except Fault Decoder := do
  let (status, d) ← d.run room.capacity
  match status with
  | .done => .ok d
  | .full =>
    if room.capacity < limit then
      reserve room.double.capacity "inflate buffer"
      d.finishReserving room.double
    else .error exceeds
termination_by limit - room.capacity
decreasing_by
  have := Room.capacity_lt_double ‹_›
  omega

theorem finishReserving_eq (room : Room limit) {d : Decoder}
    (h : limit ≤ bufferLimit ∨ 2 * d.potential ≤ bufferLimit) :
    d.finishReserving room = d.finish room := by
  fun_induction finish room d with
  | case1 room d ih =>
    rw [finishReserving]
    cases hrun : d.run room.capacity with
    | error fault => rfl
    | ok stopped =>
      obtain ⟨status, next⟩ := stopped
      cases status with
      | done => rfl
      | full =>
        obtain ⟨hle, hfull⟩ := run_full hrun
        show (if _ then _ else _) = if _ then _ else _
        by_cases hgrows : room.capacity < limit
        -- a buffer that is full has no more bytes than the potential allows
        · have hroom : reserve room.double.capacity "inflate buffer" = .ok () := by
            apply reserve_eq_ok.mpr
            have hdouble : room.double.capacity ≤ 2 * room.capacity := Nat.min_le_left _ _
            have hlimit := room.double.le_limit
            unfold potential at hle h
            omega
          rw [if_pos hgrows, if_pos hgrows, hroom]
          exact ih next hgrows (by omega)
        · rw [if_neg hgrows, if_neg hgrows]

end Decoder

def inflateReserving {limit : Nat} (room : Room limit) (input : Bytes) :
    Except Fault (Bytes × Nat) := do
  discard (zeroBuffer room.capacity "inflate buffer")
  let d ← Decoder.finishReserving room ⟨.header, bitsOf input, #[]⟩
  return (d.out.toList, input.length - d.bits.length / 8)

/-- Memory is never short for a payload of a boot image, nor under a limit that one buffer can hold. -/
theorem inflateReserving_eq {input : Bytes} {limit : Nat}
    (h : limit ≤ bufferLimit ∨ input.length < UInt32.size) :
    inflateReserving (.initial limit input) input = inflateInto (.initial limit input) input := by
  have hbuffer : zeroBuffer (Room.initial limit input).capacity "inflate buffer" =
      .ok (List.replicate (Room.initial limit input).capacity 0) := by
    apply if_pos
    show min limit (max (4 * input.length) 65536) ≤ bufferLimit
    unfold bufferLimit UInt64.size at h ⊢
    unfold UInt32.size at h
    omega
  rw [inflateReserving, hbuffer]
  show (Decoder.finishReserving _ _ >>= _) = _
  rw [Decoder.finishReserving_eq, inflateInto]
  simp only [Decoder.potential, Stage.owed, length_bitsOf, maxCopy, Array.size_empty]
  unfold bufferLimit UInt64.size at h ⊢
  unfold UInt32.size at h
  omega

end BootAssembly.Deflate
