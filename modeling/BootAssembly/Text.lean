import BootAssembly.Bytes

namespace BootAssembly

def utf8 (text : String) : Bytes := text.toByteArray.data.toList

def ofUtf8? (bytes : Bytes) : Option String := String.fromUTF8? ⟨bytes.toArray⟩

@[simp] theorem ofUtf8?_utf8 (text : String) : ofUtf8? (utf8 text) = some text := by
  simp [ofUtf8?, utf8, String.fromUTF8?, text.isValidUTF8, String.fromUTF8]

theorem utf8_of_ofUtf8? {bytes : Bytes} {text : String} (h : ofUtf8? bytes = some text) :
    utf8 text = bytes := by
  unfold ofUtf8? String.fromUTF8? at h
  split at h
  · cases h; rfl
  · cases h

theorem utf8_inj {a b : String} : utf8 a = utf8 b ↔ a = b := by
  refine ⟨fun h => ?_, congrArg utf8⟩
  have hread := ofUtf8?_utf8 a
  rw [h, ofUtf8?_utf8] at hread
  exact (Option.some.inj hread).symm

theorem utf8_append (front back : String) : utf8 (front ++ back) = utf8 front ++ utf8 back := by
  simp [utf8]

def nulTerminated (text : String) : Bytes := utf8 text ++ [0]

def hexDigits (n : Nat) : String := String.ofList (Nat.toDigits 16 n)

def hex (n : Nat) : String := "0x" ++ hexDigits n

def decimal (n : Nat) : String := String.ofList (Nat.toDigits 10 n)

def digitsValue? (base : Nat) (digit : Char → Option Nat) : List Char → Option Nat
  | '+' :: c :: cs => (c :: cs).foldlM (fun acc c => (digit c).map (acc * base + ·)) 0
  | c :: cs => (c :: cs).foldlM (fun acc c => (digit c).map (acc * base + ·)) 0
  | [] => none

def decimalDigit? (c : Char) : Option Nat :=
  if '0' ≤ c ∧ c ≤ '9' then some (c.toNat - '0'.toNat) else none

def hexDigit? (c : Char) : Option Nat :=
  if '0' ≤ c ∧ c ≤ '9' then some (c.toNat - '0'.toNat)
  else if 'a' ≤ c ∧ c ≤ 'f' then some (c.toNat - 'a'.toNat + 10)
  else if 'A' ≤ c ∧ c ≤ 'F' then some (c.toNat - 'A'.toNat + 10)
  else none

def readSize? (text : List Char) : Option Nat :=
  (digitsValue? 10 decimalDigit? text).filter (· < UInt64.size)

def readHexWord? (text : List Char) : Option UInt32 :=
  ((digitsValue? 16 hexDigit? text).filter (· < UInt32.size)).map UInt32.ofNat

def blankCodes : List Nat :=
  [0x9, 0xA, 0xB, 0xC, 0xD, 0x20, 0x85, 0xA0, 0x1680, 0x2000, 0x2001, 0x2002, 0x2003, 0x2004,
    0x2005, 0x2006, 0x2007, 0x2008, 0x2009, 0x200A, 0x2028, 0x2029, 0x202F, 0x205F, 0x3000]

def isBlank (c : Char) : Bool := blankCodes.contains c.toNat

def trimBlank (text : List Char) : List Char :=
  ((text.dropWhile isBlank).reverse.dropWhile isBlank).reverse

end BootAssembly
