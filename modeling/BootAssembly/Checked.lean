import BootAssembly.Bytes
import BootAssembly.Fault

namespace BootAssembly

def sizeLimit : Nat := UInt64.size

/-- The largest number of bytes one buffer may hold. -/
def bufferLimit : Nat := UInt64.size / 2 - 1

theorem bufferLimit_lt : bufferLimit < sizeLimit := by decide

def addSize (a b : Nat) (what : String) : Except Fault Nat :=
  if a + b < sizeLimit then .ok (a + b) else .error (.integerOverflow what)

def mulSize (a b : Nat) (what : String) : Except Fault Nat :=
  if a * b < sizeLimit then .ok (a * b) else .error (.integerOverflow what)

def addWord (a b : UInt32) (what : String) : Except Fault UInt32 :=
  if a.toNat + b.toNat < UInt32.size then .ok (a + b) else .error (.integerOverflow what)

def sumWords (words : List UInt32) (what : String) : Except Fault UInt32 :=
  words.foldlM (addWord · · what) 0

def addAddress (a b : UInt64) (what : String) : Except Fault UInt64 :=
  if a.toNat + b.toNat < UInt64.size then .ok (a + b) else .error (.integerOverflow what)

def subAddress (a b : UInt64) (what : String) : Except Fault UInt64 :=
  if b ≤ a then .ok (a - b) else .error (.integerOverflow what)

def roundUp (size page : UInt32) (what : String) : Except Fault UInt32 :=
  if page = 0 then .error (.malformedSizes "page size is zero")
  else do
    let bumped ← addWord size (page - 1) what
    return bumped / page * page

def span (start length limit : Nat) (what : String) : Except Fault Span := do
  let stop ← addSize start length what
  if stop ≤ limit then .ok ⟨start, stop⟩ else .error (.malformedSizes what)

def positionOf (address : UInt64) (what : String) : Except Fault Nat :=
  if address.toNat < sizeLimit then .ok address.toNat else .error (.integerOverflow what)

def copyBuffer (bytes : Bytes) (what : String) : Except Fault Bytes :=
  if bytes.length ≤ bufferLimit then .ok bytes else .error (.outOfMemory what)

def zeroBuffer (length : Nat) (what : String) : Except Fault Bytes :=
  if length ≤ bufferLimit then .ok (List.replicate length 0) else .error (.outOfMemory what)

def reserve (size : Nat) (what : String) : Except Fault Unit :=
  if size ≤ bufferLimit then .ok () else .error (.outOfMemory what)

theorem bind_eq_ok {α β : Type} {x : Except Fault α} {f : α → Except Fault β} {b : β} :
    x >>= f = .ok b ↔ ∃ a, x = .ok a ∧ f a = .ok b := by
  cases x <;> simp [bind, Except.bind]

theorem discard_eq_ok {α : Type} {x : Except Fault α} {u : PUnit} :
    discard x = .ok u ↔ ∃ a, x = .ok a := by
  cases x with
  | error e => exact iff_of_false (fun h => nomatch h) (fun ⟨_, h⟩ => nomatch h)
  | ok a => exact iff_of_true rfl ⟨a, rfl⟩

theorem guard_eq_ok {β : Type} {p : Prop} [Decidable p] {fault : Fault}
    {f : PUnit → Except Fault β} {b : β} :
    (if p then (throw fault : Except Fault PUnit) >>= f else f ⟨⟩) = .ok b ↔
      ¬ p ∧ f ⟨⟩ = .ok b := by
  by_cases h : p
  · rw [if_pos h]
    exact ⟨fun hb => (nomatch hb), fun hb => absurd h hb.1⟩
  · rw [if_neg h]
    exact ⟨fun hb => ⟨h, hb⟩, And.right⟩

theorem ite_eq_ok {α : Type} {p : Prop} [Decidable p] {a b : α} {fault : Fault} :
    (if p then .ok a else .error fault) = Except.ok b ↔ p ∧ b = a := by
  by_cases h : p
  · simp only [h, if_true, Except.ok.injEq, true_and]
    exact eq_comm
  · simp only [h, if_false, reduceCtorEq, false_and]

theorem refuse_eq_ok {α : Type} {p : Prop} [Decidable p] {fault : Fault} {x : Except Fault α}
    {a : α} : (if p then .error fault else x) = .ok a ↔ ¬ p ∧ x = .ok a := by
  by_cases h : p
  · simp only [h, if_true, reduceCtorEq, not_true_eq_false, false_and]
  · simp only [h, if_false, not_false_eq_true, true_and]

theorem addSize_eq_ok {a b n : Nat} {what : String} :
    addSize a b what = .ok n ↔ a + b < sizeLimit ∧ n = a + b := ite_eq_ok

theorem mulSize_eq_ok {a b n : Nat} {what : String} :
    mulSize a b what = .ok n ↔ a * b < sizeLimit ∧ n = a * b := ite_eq_ok

theorem copyBuffer_eq_ok {bytes copy : Bytes} {what : String} :
    copyBuffer bytes what = .ok copy ↔ bytes.length ≤ bufferLimit ∧ copy = bytes := ite_eq_ok

theorem reserve_eq_ok {size : Nat} {what : String} {u : Unit} :
    reserve size what = .ok u ↔ size ≤ bufferLimit :=
  ite_eq_ok.trans (and_iff_left rfl)

theorem addWord_eq_ok {a b n : UInt32} {what : String} :
    addWord a b what = .ok n ↔ a.toNat + b.toNat < UInt32.size ∧ n = a + b := ite_eq_ok

theorem addAddress_eq_ok {a b n : UInt64} {what : String} :
    addAddress a b what = .ok n ↔ a.toNat + b.toNat < UInt64.size ∧ n = a + b := ite_eq_ok

theorem subAddress_eq_ok {a b n : UInt64} {what : String} :
    subAddress a b what = .ok n ↔ b ≤ a ∧ n = a - b := ite_eq_ok

theorem span_eq_ok {start length limit : Nat} {what : String} {s : Span} :
    span start length limit what = .ok s ↔
      start + length < sizeLimit ∧ start + length ≤ limit ∧ s = ⟨start, start + length⟩ := by
  unfold span addSize
  by_cases h₁ : start + length < sizeLimit
  · by_cases h₂ : start + length ≤ limit <;>
      simp [h₁, h₂, bind, Except.bind, eq_comm]
  · simp [h₁, bind, Except.bind]

end BootAssembly
