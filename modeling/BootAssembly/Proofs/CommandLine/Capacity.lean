import BootAssembly.Proofs.CommandLine.Assembly
import Mathlib.Algebra.Ring.Nat

namespace BootAssembly.CommandLine

theorem decimal_eq (n : Nat) : decimal n =
    if n < 10 then String.ofList [n.digitChar]
    else decimal (n / 10) ++ String.ofList [(n % 10).digitChar] := by
  rw [decimal, Nat.toDigits_eq_if (by decide)]
  split
  · rfl
  · exact String.ofList_append

theorem length_utf8_digit : ∀ d < 10, (utf8 (String.ofList [d.digitChar])).length = 1 := by
  decide +kernel

theorem length_utf8_decimal (n : Nat) : (utf8 (decimal n)).length = decimalLength n := by
  fun_induction decimalLength with
  | case1 n hn =>
    rw [decimal_eq, if_pos hn]
    exact length_utf8_digit n hn
  | case2 n hn ih =>
    have hdigit := length_utf8_digit (n % 10) (Nat.mod_lt n (by decide))
    rw [decimal_eq, if_neg hn, utf8_append, List.length_append, ih, hdigit]

theorem length_lowerAscii (bytes : Bytes) : (lowerAscii bytes).length = bytes.length :=
  List.length_map _

theorem sum_valued (literal : Bytes) (value : Option String) :
    (value.toList.map fun v => literal.length + (utf8 v).length).sum =
      (match value with
        | none => []
        | some v => [literal, utf8 v]).flatten.length := by
  cases value <;> simp

theorem sum_fieldLengths (f : Fields) (path : Option String) :
    (fieldLengths f path).sum = (pieces f path).flatten.length := by
  simp only [fieldLengths, pieces, List.sum_append, List.flatten_append, List.length_append,
    sum_valued]
  -- field by field, from the first to the last
  iterate 9 refine congr (congrArg HAdd.hAdd ?_) ?_
  · cases f.verifiedBoot with
    | none => rfl
    | some v => cases hverity : v.verity <;> simp [hverity, Nat.add_assoc]
  · rfl
  · rfl
  · cases f.factoryMode with
    | some m => simp [Nat.add_assoc]
    | none => cases f.chargerPause <;> cases f.alarmBoot <;> simp
  · cases f.baseband <;> simp [length_lowerAscii]
  · cases f.displayPanel <;> simp
  · cases f.theftProtection <;> simp
  · rfl
  · cases f.root with
    | none => rfl
    | some r => cases hskip : r.skipInitramfs <;> cases path <;> simp [hskip]
  · cases f.overlayIndex <;> simp [length_utf8_decimal]

theorem foldlM_addSize {sizes : List Nat} {total : Nat} (h : total + sizes.sum < sizeLimit)
    (what : String) : sizes.foldlM (addSize · · what) total = .ok (total + sizes.sum) := by
  induction sizes generalizing total with
  | nil => rfl
  | cons size sizes ih =>
    rw [List.sum_cons, ← Nat.add_assoc] at h ⊢
    rw [List.foldlM_cons, addSize_eq_ok.mpr ⟨by omega, rfl⟩]
    exact ih h

theorem requiredLength_eq {base : Bytes} {f : Fields} {path : Option String}
    (h : base.length + (pieces f path).flatten.length + 1 < sizeLimit) :
    requiredLength base f path = .ok (base.length + (pieces f path).flatten.length + 1) := by
  have hsum : ([base.length] ++ fieldLengths f path ++ [1]).sum =
      base.length + (pieces f path).flatten.length + 1 := by
    simp only [List.sum_append, List.sum_cons, List.sum_nil, sum_fieldLengths]
    omega
  rw [requiredLength, foldlM_addSize (by rwa [hsum, Nat.zero_add]), hsum, Nat.zero_add]

def written (base : Bytes) (f : Fields) (path : Option String) : CommandLine where
  buffer := base ++ (pieces f path).flatten ++ [0]
  capacity := base.length + (pieces f path).flatten.length + 1

theorem assemble_of_le {base : Bytes} {f : Fields} {path : Option String}
    (hpath : renderedPath f = .ok path)
    (h : base.length + (pieces f path).flatten.length + 1 ≤ bufferLimit) :
    assemble base f = .ok (written base f path) := by
  have hwritten : (base :: pieces f path).foldlM
      (push (base.length + (pieces f path).flatten.length + 1)) [] =
        .ok (base ++ (pieces f path).flatten) := by
    refine foldlM_push_eq_ok.mpr ⟨.inr ?_, rfl⟩
    rw [List.flatten_cons, List.length_append, List.length_nil]
    omega
  refine bind_eq_ok.mpr ⟨path, hpath, ?_⟩
  refine bind_eq_ok.mpr ⟨_, requiredLength_eq (Nat.lt_of_le_of_lt h bufferLimit_lt), ?_⟩
  refine bind_eq_ok.mpr ⟨(), reserve_eq_ok.mpr h, ?_⟩
  exact bind_eq_ok.mpr ⟨_, hwritten, rfl⟩

theorem build_of_le {base : Bytes} {f : Fields} {path : Option String}
    (hpath : renderedPath f = .ok path)
    (h : base.length + (pieces f path).flatten.length + 1 ≤ bufferLimit) :
    (build base f).outcome = .ok (written base f path) := by
  refine Traced.outcome_bind_eq_ok.mpr ⟨_, assemble_of_le hpath h, ?_⟩
  exact Traced.outcome_bind_eq_ok.mpr ⟨(), rfl, rfl⟩

end BootAssembly.CommandLine
