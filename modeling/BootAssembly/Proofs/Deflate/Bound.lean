import BootAssembly.Proofs.Deflate.Growth

namespace BootAssembly.Deflate

variable {codes : Codes} {limit : Nat} {bits rest : Bits} {out result : Array UInt8}

theorem copyBack_size (distance n : Nat) (out : Array UInt8) :
    (copyBack distance n out).size = out.size + n := by
  induction n generalizing out with
  | zero => rfl
  | succ n ih =>
    rw [copyBack, ih, Array.size_push]
    omega

theorem write_size_le {symbol : Symbol} (h : write limit symbol out = .ok result)
    (hsize : out.size ≤ limit) : result.size ≤ limit := by
  cases symbol with
  | literal byte =>
    rw [write] at h
    split at h
    · cases h
      rw [Array.size_push]
      omega
    · cases h
  | endOfBlock =>
    cases h
    exact hsize
  | copy length distance =>
    rw [write] at h
    split at h
    · cases h
    · split at h
      · cases h
        rw [copyBack_size]
        omega
      · cases h

theorem inflateSymbols_size_le (h : inflateSymbols codes limit bits out = .ok (rest, result))
    (hsize : out.size ≤ limit) : result.size ≤ limit := by
  fun_induction inflateSymbols codes limit bits out with
  | case1 => cases h
  | case2 => cases h; exact hsize
  | case3 => cases h
  | case4 bits out symbol r _ _ written hw ih => exact ih h (write_size_le hw hsize)

theorem copyStored_size_le {n : Nat} (h : copyStored limit n bits out = .ok (rest, result))
    (hsize : out.size ≤ limit) : result.size ≤ limit := by
  fun_induction copyStored limit n bits out with
  | case1 => cases h; exact hsize
  | case2 => cases h
  | case3 n bits out hroom byte r _ ih =>
    apply ih h
    rw [Array.size_push]
    omega
  | case4 => cases h

theorem inflateBlock_size_le {kind : BlockKind}
    (h : inflateBlock limit kind bits out = .ok (rest, result)) (hsize : out.size ≤ limit) :
    result.size ≤ limit := by
  cases kind with
  | stored =>
    rw [inflateBlock] at h
    split at h
    · cases h
    · exact copyStored_size_le h hsize
  | fixed => exact inflateSymbols_size_le h hsize
  | dynamic =>
    rw [inflateBlock] at h
    split at h
    · cases h
    · exact inflateSymbols_size_le h hsize
  | reserved => cases h

theorem inflateBlocks_size_le (h : inflateBlocks limit bits out = .ok (rest, result))
    (hsize : out.size ≤ limit) : result.size ≤ limit := by
  fun_induction inflateBlocks limit bits out with
  | case1 => cases h
  | case2 out low high bits r written hb => cases h; exact inflateBlock_size_le hb hsize
  | case3 out final low high bits r written hb _ ih => exact ih h (inflateBlock_size_le hb hsize)
  | case4 => cases h

theorem inflate_length_le {input data : Bytes} {taken : Nat}
    (h : inflate limit input = .ok (data, taken)) : data.length ≤ limit := by
  unfold inflate at h
  split at h
  · cases h
  · rename_i result hb
    cases h
    rw [Array.length_toList]
    exact inflateBlocks_size_le hb (Nat.zero_le limit)

end BootAssembly.Deflate
