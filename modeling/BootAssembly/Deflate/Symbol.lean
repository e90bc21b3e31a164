import BootAssembly.Deflate.PrefixCode

namespace BootAssembly.Deflate

inductive Symbol where
  | literal (byte : UInt8)
  | endOfBlock
  | copy (length distance : Nat)
deriving DecidableEq, Repr

structure Codes where
  literals : PrefixCode
  distances : PrefixCode

def lengthClasses : List (Nat × Nat) :=
  [(3, 0), (4, 0), (5, 0), (6, 0), (7, 0), (8, 0), (9, 0), (10, 0), (11, 1), (13, 1), (15, 1),
    (17, 1), (19, 2), (23, 2), (27, 2), (31, 2), (35, 3), (43, 3), (51, 3), (59, 3), (67, 4),
    (83, 4), (99, 4), (115, 4), (131, 5), (163, 5), (195, 5), (227, 5), (258, 0)]

def distanceClasses : List (Nat × Nat) :=
  [(1, 0), (2, 0), (3, 0), (4, 0), (5, 1), (7, 1), (9, 2), (13, 2), (17, 3), (25, 3), (33, 4),
    (49, 4), (65, 5), (97, 5), (129, 6), (193, 6), (257, 7), (385, 7), (513, 8), (769, 8),
    (1025, 9), (1537, 9), (2049, 10), (3073, 10), (4097, 11), (6145, 11), (8193, 12), (12289, 12),
    (16385, 13), (24577, 13)]

def takeClass? (classes : List (Nat × Nat)) (index : Nat) (bits : Bits) : Option (Nat × Bits) :=
  match classes[index]? with
  | none => none
  | some (least, extra) =>
    onValue (fun more => least + more) (takeNumber extra bits)

def takeDistance? (distances : PrefixCode) (bits : Bits) : Option (Nat × Bits) :=
  match distances.decode bits with
  | none => none
  | some (index, rest) => takeClass? distanceClasses index rest

def takeCopy? (codes : Codes) (index : Nat) (bits : Bits) : Option (Symbol × Bits) :=
  match takeClass? lengthClasses index bits with
  | none => none
  | some (length, rest) =>
    onValue (fun distance => .copy length distance) (takeDistance? codes.distances rest)

def takeSymbol? (codes : Codes) : Bits → Option (Symbol × Bits)
  | [] => none
  | b :: bits =>
    match (codes.literals.branch b).decode bits with
    | none => none
    | some (symbol, rest) =>
      if symbol < 256 then some (.literal (UInt8.ofNat symbol), rest)
      else if symbol = 256 then some (.endOfBlock, rest)
      else takeCopy? codes (symbol - 257) rest

theorem takeClass?_suffix {classes : List (Nat × Nat)} {index value : Nat} {bits rest : Bits}
    (h : takeClass? classes index bits = some (value, rest)) : rest <:+ bits := by
  unfold takeClass? at h
  split at h
  · cases h
  · obtain ⟨more, h, -⟩ := onValue_eq_some.mp h
    exact takeNumber_suffix h

theorem takeDistance?_suffix {code : PrefixCode} {distance : Nat} {bits rest : Bits}
    (h : takeDistance? code bits = some (distance, rest)) : rest <:+ bits := by
  unfold takeDistance? at h
  split at h
  · cases h
  · rename_i hd
    exact (takeClass?_suffix h).trans (PrefixCode.decode_suffix hd)

theorem takeCopy?_suffix {codes : Codes} {index : Nat} {symbol : Symbol} {bits rest : Bits}
    (h : takeCopy? codes index bits = some (symbol, rest)) : rest <:+ bits := by
  unfold takeCopy? at h
  split at h
  · cases h
  · rename_i hl
    obtain ⟨distance, h, -⟩ := onValue_eq_some.mp h
    exact (takeDistance?_suffix h).trans (takeClass?_suffix hl)

theorem takeSymbol?_tail {codes : Codes} {symbol : Symbol} {b : Bool} {bits rest : Bits}
    (h : takeSymbol? codes (b :: bits) = some (symbol, rest)) : rest <:+ bits := by
  simp only [takeSymbol?] at h
  split at h
  · cases h
  · rename_i hd
    have hd := PrefixCode.decode_suffix hd
    split at h
    · cases h; exact hd
    · split at h
      · cases h; exact hd
      · exact (takeCopy?_suffix h).trans hd

theorem takeSymbol?_suffix {codes : Codes} {symbol : Symbol} {bits rest : Bits}
    (h : takeSymbol? codes bits = some (symbol, rest)) : rest <:+ bits := by
  cases bits with
  | nil => simp [takeSymbol?] at h
  | cons b bits => exact (takeSymbol?_tail h).trans (List.suffix_cons b bits)

theorem takeSymbol?_length {codes : Codes} {symbol : Symbol} {bits rest : Bits}
    (h : takeSymbol? codes bits = some (symbol, rest)) : rest.length < bits.length := by
  cases bits with
  | nil => simp [takeSymbol?] at h
  | cons b bits => exact Nat.lt_succ_of_le (takeSymbol?_tail h).length_le

end BootAssembly.Deflate
