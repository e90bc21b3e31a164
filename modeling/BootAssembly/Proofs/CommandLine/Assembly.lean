import BootAssembly.CommandLine

namespace BootAssembly.CommandLine

theorem push_eq_ok {capacity : Nat} {written piece result : Bytes} :
    push capacity written piece = .ok result ↔
      written.length + piece.length + 1 ≤ capacity ∧ result = written ++ piece := ite_eq_ok

theorem foldlM_push_eq_ok {capacity : Nat} {pieces : List Bytes} {written result : Bytes} :
    pieces.foldlM (push capacity) written = .ok result ↔
      (pieces = [] ∨ written.length + pieces.flatten.length + 1 ≤ capacity) ∧
        result = written ++ pieces.flatten := by
  induction pieces generalizing written with
  | nil =>
    simp only [List.foldlM_nil, List.flatten_nil, List.append_nil, true_or, true_and]
    constructor
    · intro h
      cases h
      rfl
    · rintro rfl
      rfl
  | cons piece pieces ih =>
    rw [List.foldlM_cons, bind_eq_ok]
    constructor
    · rintro ⟨longer, hpush, hrest⟩
      obtain ⟨hfits, rfl⟩ := push_eq_ok.mp hpush
      obtain ⟨hroom, rfl⟩ := ih.mp hrest
      refine ⟨.inr ?_, by rw [List.flatten_cons, List.append_assoc]⟩
      rw [List.flatten_cons, List.length_append]
      rcases hroom with rfl | hroom
      · rw [List.flatten_nil, List.length_nil]
        omega
      · rw [List.length_append] at hroom
        omega
    · rintro ⟨hroom, rfl⟩
      rw [List.flatten_cons, List.length_append] at hroom
      have hfits : written.length + (piece.length + pieces.flatten.length) + 1 ≤ capacity := by
        rcases hroom with hroom | hroom
        · cases hroom
        · exact hroom
      refine ⟨written ++ piece, push_eq_ok.mpr ⟨by omega, rfl⟩, ih.mpr ⟨.inr ?_, ?_⟩⟩
      · rw [List.length_append]
        omega
      · rw [List.flatten_cons, List.append_assoc]

theorem assemble_eq_ok {base : Bytes} {f : Fields} {line : CommandLine}
    (h : assemble base f = .ok line) : ∃ path, renderedPath f = .ok path ∧
      requiredLength base f path = .ok line.capacity ∧
      line.buffer = base ++ (pieces f path).flatten ++ [0] := by
  obtain ⟨path, hpath, h⟩ := bind_eq_ok.mp h
  obtain ⟨capacity, hcapacity, h⟩ := bind_eq_ok.mp h
  obtain ⟨_, -, h⟩ := bind_eq_ok.mp h
  obtain ⟨written, hwritten, h⟩ := bind_eq_ok.mp h
  obtain ⟨-, rfl⟩ := foldlM_push_eq_ok.mp hwritten
  cases h
  refine ⟨path, hpath, hcapacity, ?_⟩
  rw [List.flatten_cons, List.nil_append]

theorem build_eq_ok {base : Bytes} {f : Fields} {line : CommandLine}
    (h : (build base f).outcome = .ok line) : assemble base f = .ok line := by
  obtain ⟨other, hother, h⟩ := Traced.outcome_bind_eq_ok.mp h
  obtain ⟨_, -, h⟩ := Traced.outcome_bind_eq_ok.mp h
  cases h
  exact hother

theorem verified_clause {base : Bytes} {f : Fields} {line : CommandLine} {v : VerifiedBoot}
    (h : assemble base f = .ok line) (hv : f.verifiedBoot = some v) :
    ∃ rest, line.buffer = base ++ (verifiedState ++ utf8 v.state.text) ++ rest := by
  obtain ⟨path, -, -, hbuffer⟩ := assemble_eq_ok h
  have hpieces : ∃ more, pieces f path = verifiedState :: utf8 v.state.text :: more := by
    simp only [pieces, hv, List.cons_append, List.nil_append]
    exact ⟨_, rfl⟩
  obtain ⟨more, hmore⟩ := hpieces
  refine ⟨more.flatten ++ [0], ?_⟩
  rw [hbuffer, hmore, List.flatten_cons, List.flatten_cons]
  simp only [List.append_assoc]

end BootAssembly.CommandLine
