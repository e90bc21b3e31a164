namespace BootAssembly

abbrev Bytes := List UInt8

structure Span where
  start : Nat
  stop : Nat
deriving DecidableEq, Repr

def Span.length (s : Span) : Nat := s.stop - s.start

def slice (s : Span) (bytes : Bytes) : Bytes := (bytes.drop s.start).take s.length

def slice? (s : Span) (bytes : Bytes) : Option Bytes :=
  if s.start ≤ s.stop ∧ s.stop ≤ bytes.length then some (slice s bytes) else none

theorem slice?_eq_some {s : Span} {bytes part : Bytes} :
    slice? s bytes = some part ↔
      s.start ≤ s.stop ∧ s.stop ≤ bytes.length ∧ part = slice s bytes := by
  unfold slice?
  split
  · simp_all [eq_comm]
  · rename_i h
    simp only [reduceCtorEq, false_iff]
    rintro ⟨h₁, h₂, -⟩
    exact h ⟨h₁, h₂⟩

theorem length_slice {s : Span} {bytes : Bytes} (h : s.stop ≤ bytes.length) :
    (slice s bytes).length = s.length := by
  simp only [slice, Span.length, List.length_take, List.length_drop]
  omega

theorem slice_append (front middle back : Bytes) :
    slice ⟨front.length, front.length + middle.length⟩ (front ++ (middle ++ back)) = middle := by
  simp [slice, Span.length]

theorem slice?_append (front middle back : Bytes) :
    slice? ⟨front.length, front.length + middle.length⟩ (front ++ (middle ++ back)) =
      some middle := by
  refine slice?_eq_some.mpr ⟨Nat.le_add_right _ _, ?_, (slice_append front middle back).symm⟩
  simp only [List.length_append]
  omega

theorem slice_eq_drop_slice {outer inner : Span} (hstart : outer.start ≤ inner.start)
    (hstop : inner.stop = outer.stop) (bytes : Bytes) :
    slice inner bytes = (slice outer bytes).drop (inner.start - outer.start) := by
  have hlength : outer.stop - outer.start - (inner.start - outer.start) =
      inner.stop - inner.start := by omega
  rw [slice, slice, Span.length, Span.length, List.drop_take, List.drop_drop, hlength,
    Nat.add_sub_cancel' hstart]

theorem take_drop_append {offset n : Nat} {bytes : Bytes} (h : offset + n ≤ bytes.length)
    (rest : Bytes) : ((bytes ++ rest).drop offset).take n = (bytes.drop offset).take n := by
  rw [List.drop_append_of_le_length (by omega),
    List.take_append_of_le_length (by rw [List.length_drop]; omega)]

theorem slice_split {start middle stop : Nat} (hstart : start ≤ middle) (hstop : middle ≤ stop)
    (bytes : Bytes) :
    slice ⟨start, stop⟩ bytes = slice ⟨start, middle⟩ bytes ++ slice ⟨middle, stop⟩ bytes := by
  have hlength : stop - start = middle - start + (stop - middle) := by omega
  simp only [slice, Span.length]
  rw [hlength, List.take_add, List.drop_drop, Nat.add_sub_cancel' hstart]

def splitExact (n : Nat) (bytes : Bytes) : Option (Bytes × Bytes) :=
  let first := bytes.take n
  if first.length = n then some (first, bytes.drop n) else none

theorem splitExact_eq_some {n : Nat} {bytes first rest : Bytes} :
    splitExact n bytes = some (first, rest) ↔ bytes = first ++ rest ∧ first.length = n := by
  simp only [splitExact, List.length_take]
  constructor
  · intro h
    split at h
    · rename_i hl
      cases h
      exact ⟨(List.take_append_drop n bytes).symm, List.length_take ▸ hl⟩
    · cases h
  · rintro ⟨rfl, rfl⟩
    simp

section

variable {α : Type} [DecidableEq α] {a : α} {front : List α} (h : a ∉ front)

include h

theorem forall_ne_of_not_mem : ∀ b ∈ front, decide (b ≠ a) = true := by
  intro b hb
  rw [decide_eq_true_eq]
  rintro rfl
  exact h hb

theorem takeWhile_ne_append (back : List α) : (front ++ a :: back).takeWhile (· ≠ a) = front := by
  rw [List.takeWhile_append_of_pos (forall_ne_of_not_mem h), List.takeWhile_cons_of_neg (by simp),
    List.append_nil]

theorem dropWhile_ne_append (back : List α) :
    (front ++ a :: back).dropWhile (· ≠ a) = a :: back := by
  rw [List.dropWhile_append_of_pos (forall_ne_of_not_mem h), List.dropWhile_cons_of_neg (by simp)]

end

def untilNul (bytes : Bytes) : Bytes := bytes.takeWhile (· ≠ 0)

def splitNul (bytes : Bytes) : Option (Bytes × Bytes) :=
  let text := untilNul bytes
  match bytes.drop text.length with
  | [] => none
  | _ :: rest => some (text, rest)

theorem untilNul_cons (b : UInt8) (bytes : Bytes) :
    untilNul (b :: bytes) = if b = 0 then [] else b :: untilNul bytes := by
  by_cases h : b = 0 <;> simp [untilNul, h]

theorem untilNul_append {text rest : Bytes} (h : 0 ∉ text) :
    untilNul (text ++ 0 :: rest) = text := takeWhile_ne_append h rest

theorem nul_not_mem_untilNul (bytes : Bytes) : 0 ∉ untilNul bytes := by
  induction bytes with
  | nil => exact List.not_mem_nil
  | cons b bytes ih =>
    rw [untilNul_cons]
    split
    · exact List.not_mem_nil
    · simp only [List.mem_cons, not_or]
      exact ⟨fun e => ‹¬_› e.symm, ih⟩

theorem eq_untilNul_append (bytes : Bytes) :
    bytes = untilNul bytes ∨ ∃ rest, bytes = untilNul bytes ++ 0 :: rest := by
  induction bytes with
  | nil => exact .inl rfl
  | cons b bytes ih =>
    rw [untilNul_cons]
    split
    · rename_i h
      exact .inr ⟨bytes, by rw [h]; rfl⟩
    · obtain h | ⟨rest, h⟩ := ih
      · exact .inl (congrArg (b :: ·) h)
      · exact .inr ⟨rest, congrArg (b :: ·) h⟩

theorem splitNul_eq_some {bytes text rest : Bytes} :
    splitNul bytes = some (text, rest) ↔ bytes = text ++ 0 :: rest ∧ 0 ∉ text := by
  constructor
  · intro h
    obtain hb | ⟨r, hb⟩ := eq_untilNul_append bytes
    · rw [splitNul, ← hb, List.drop_length] at h
      cases h
    · have hd : bytes.drop (untilNul bytes).length = 0 :: r := by
        conv => lhs; rw [hb, untilNul_append (nul_not_mem_untilNul bytes)]
        simp
      simp only [splitNul, hd, Option.some.injEq, Prod.mk.injEq] at h
      obtain ⟨rfl, rfl⟩ := h
      exact ⟨hb, nul_not_mem_untilNul bytes⟩
  · rintro ⟨rfl, h⟩
    simp [splitNul, untilNul_append h]

def gap (length : Nat) : Nat := (4 - length % 4) % 4

def padded (bytes : Bytes) : Bytes := bytes ++ List.replicate (gap bytes.length) 0

end BootAssembly
