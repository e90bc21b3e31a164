import BootAssembly.Board.Candidate

namespace BootAssembly

theorem cellsOf_be32_append (cell : UInt32) (rest : Bytes) :
    cellsOf (be32 cell ++ rest) = cell :: cellsOf rest := by
  obtain ⟨a, b, c, d, hword⟩ : ∃ a b c d, be32 cell = [a, b, c, d] := by
    have hlength := length_be32 cell
    match be32 cell, hlength with
    | [a, b, c, d], _ => exact ⟨a, b, c, d, rfl⟩
  have hback := ofBe32_be32 cell
  rw [hword] at hback
  rw [hword, List.cons_append, List.cons_append, List.cons_append, List.cons_append,
    List.nil_append, cellsOf, hback]

theorem cellsOf_ofCells (cells : List UInt32) : cellsOf (ofCells cells) = cells := by
  induction cells with
  | nil => rfl
  | cons cell cells ih => rw [ofCells_cons, cellsOf_be32_append, ih]

theorem length_cellsOf (bytes : Bytes) : (cellsOf bytes).length = bytes.length / 4 := by
  fun_induction cellsOf bytes with
  | case1 a b c d rest ih =>
    simp only [List.length_cons, ih]
    omega
  | case2 bytes hshort =>
    match bytes, hshort with
    | [], _ | [_], _ | [_, _], _ | [_, _, _], _ => simp
    | a :: b :: c :: d :: rest, hshort => exact absurd rfl (hshort a b c d rest)

namespace Candidate

open DeviceTree

def pairCells (ps : List (UInt32 × UInt32)) : List UInt32 := ps.flatMap fun p => [p.1, p.2]

def tripleCells (ts : List (UInt32 × UInt32 × UInt32)) : List UInt32 :=
  ts.flatMap fun t => [t.1, t.2.1, t.2.2]

def quadCells (qs : List Quad) : List UInt32 := qs.flatMap Quad.toList

theorem length_flatMap_of_forall {α β : Type} {f : α → List β} {n : Nat} {as : List α}
    (h : ∀ a, (f a).length = n) : (as.flatMap f).length = as.length * n := by
  induction as with
  | nil => simp
  | cons a as ih =>
    rw [List.flatMap_cons, List.length_append, h, ih, List.length_cons, Nat.succ_mul, Nat.add_comm]

theorem length_combine {α β γ δ : Type} (f : α → β → γ → δ) (as : List α) (bs : List β)
    (cs : List γ) :
    (as.flatMap fun a => bs.flatMap fun b => cs.map (f a b)).length =
      as.length * bs.length * cs.length := by
  rw [length_flatMap_of_forall fun a => length_flatMap_of_forall fun b => List.length_map _,
    Nat.mul_assoc]

theorem length_pairCells (ps : List (UInt32 × UInt32)) : (pairCells ps).length = ps.length * 2 :=
  length_flatMap_of_forall fun _ => rfl

theorem length_tripleCells (ts : List (UInt32 × UInt32 × UInt32)) :
    (tripleCells ts).length = ts.length * 3 :=
  length_flatMap_of_forall fun _ => rfl

theorem length_quadCells (qs : List Quad) : (quadCells qs).length = qs.length * 4 :=
  length_flatMap_of_forall fun _ => rfl

theorem pairs_pairCells (ps : List (UInt32 × UInt32)) :
    pairs (pairCells ps) = ps.map fun p => ⟨some p.1, none, some p.2⟩ := by
  induction ps with
  | nil => rfl
  | cons p ps ih => exact congrArg (_ :: ·) ih

theorem triples_tripleCells (ts : List (UInt32 × UInt32 × UInt32)) :
    triples (tripleCells ts) = ts.map fun t => ⟨some t.1, some t.2.1, some t.2.2⟩ := by
  induction ts with
  | nil => rfl
  | cons t ts ih => exact congrArg (_ :: ·) ih

theorem boardPairs_pairCells (ps : List (UInt32 × UInt32)) :
    boardPairs (pairCells ps) =
      ps.map fun p => ⟨some p.1, some (if p.2 = 0 then p.1 >>> 24 else p.2)⟩ := by
  induction ps with
  | nil => rfl
  | cons p ps ih => exact congrArg (_ :: ·) ih

theorem quads_quadCells (qs : List Quad) : quads (quadCells qs) = qs.map some := by
  induction qs with
  | nil => rfl
  | cons q qs ih => exact congrArg (_ :: ·) ih

def boardPart (b : UInt32 × UInt32) : BoardPart :=
  ⟨some b.1, some (if b.2 = 0 then b.1 >>> 24 else b.2)⟩

def boardParts (bs : List (UInt32 × UInt32)) : List BoardPart :=
  if bs = [] then [⟨none, none⟩] else bs.map boardPart

def pmicRevs (qs : List Quad) : List (Option Quad) := if qs = [] then [none] else qs.map some

def counted (cs : List Candidate) : Except Fault (List Candidate) :=
  if sizeLimit ≤ cs.length then .error (.integerOverflow "dt identity count")
  else if bufferLimit < cs.length * byteSize then .error (.outOfMemory "dt candidates")
  else .ok cs

section

variable {root : Node} {name what : String} {group : Nat} {cells : List UInt32} {value : Bytes}

theorem cells?_eq_some (h : root.value? name = some (ofCells cells)) :
    root.properties.cells? name = some cells := by
  rw [Node.value?] at h
  simp only [Properties.cells?, h, cellsOf_ofCells, length_ofCells, Nat.mul_mod_right, if_true]

theorem groupedCells_absent (h : root.value? name = none) :
    groupedCells root name group what = .ok none := by
  simp only [groupedCells, h]

theorem groupedCells_ofCells (h : root.value? name = some (ofCells cells))
    (hgroup : cells.length % group = 0) : groupedCells root name group what = .ok (some cells) := by
  simp only [groupedCells, h, cells?_eq_some h, hgroup, if_true]

theorem groupedCells_misfit (h : root.value? name = some value)
    (hlength : ¬ 4 * group ∣ value.length) :
    groupedCells root name group what = .error (.invalidFormat what) := by
  have hget : root.properties.get? name = some value := h
  by_cases hwhole : value.length % 4 = 0
  · have hgroups : ¬ value.length / 4 % group = 0 := by
      intro hgroups
      have hdvd := Nat.mul_dvd_mul_left 4 (Nat.dvd_of_mod_eq_zero hgroups)
      rw [Nat.mul_div_cancel' (Nat.dvd_of_mod_eq_zero hwhole)] at hdvd
      exact hlength hdvd
    simp only [groupedCells, h, Properties.cells?, hget, hwhole, if_true, length_cellsOf, hgroups,
      if_false]
  · simp only [groupedCells, h, Properties.cells?, hget, hwhole, if_false]

theorem groupedCells_cases (root : Node) (name : String) (group : Nat) (what : String) :
    groupedCells root name group what = .error (.invalidFormat what) ∨
      ∃ cells, groupedCells root name group what = .ok cells := by
  unfold groupedCells
  split
  · exact .inr ⟨_, rfl⟩
  · exact .inl rfl
  · split
    · exact .inr ⟨_, rfl⟩
    · exact .inl rfl

theorem platformParts_pairs {ps : List (UInt32 × UInt32)} {hasBoard : Bool} (hps : ps ≠ [])
    (h : root.value? "qcom,msm-id" = some (ofCells (pairCells ps)))
    (hform : hasBoard = true ∨ ¬ 3 ∣ (pairCells ps).length) :
    platformParts root hasBoard = .ok (ps.map fun p => ⟨some p.1, none, some p.2⟩) := by
  have hne : pairCells ps ≠ [] := by
    rw [← List.length_pos_iff, length_pairCells]
    have := List.length_pos_iff.mpr hps
    omega
  have htriples : ¬ (¬ hasBoard = true ∧ (pairCells ps).length % 3 = 0 ∧ pairCells ps ≠ []) := by
    rintro ⟨hno, hmultiple, -⟩
    exact hform.elim hno fun hnot => hnot (Nat.dvd_of_mod_eq_zero hmultiple)
  have hpairs : (pairCells ps).length % 2 = 0 ∧ pairCells ps ≠ [] :=
    ⟨by rw [length_pairCells, Nat.mul_mod_left], hne⟩
  simp only [platformParts, h, cells?_eq_some h]
  rw [if_neg htriples, if_pos hpairs, pairs_pairCells]

theorem platformParts_triples {ts : List (UInt32 × UInt32 × UInt32)} (hts : ts ≠ [])
    (h : root.value? "qcom,msm-id" = some (ofCells (tripleCells ts))) :
    platformParts root false = .ok (ts.map fun t => ⟨some t.1, some t.2.1, some t.2.2⟩) := by
  have hne : tripleCells ts ≠ [] := by
    rw [← List.length_pos_iff, length_tripleCells]
    have := List.length_pos_iff.mpr hts
    omega
  have htriples : ¬ false = true ∧ (tripleCells ts).length % 3 = 0 ∧ tripleCells ts ≠ [] :=
    ⟨by decide, by rw [length_tripleCells, Nat.mul_mod_left], hne⟩
  simp only [platformParts, h, cells?_eq_some h]
  rw [if_pos htriples, triples_tripleCells]

theorem platformParts_misfit {hasBoard : Bool} (h : root.value? "qcom,msm-id" = some value)
    (hpairs : value = [] ∨ ¬ 8 ∣ value.length)
    (htriples : hasBoard = false → value = [] ∨ ¬ 12 ∣ value.length) :
    platformParts root hasBoard = .error (.invalidFormat "qcom,msm-id length") := by
  have hget : root.properties.get? "qcom,msm-id" = some value := h
  by_cases hwhole : value.length % 4 = 0
  · have hnone : cellsOf value ≠ [] → value ≠ [] := by
      rintro hcells rfl
      exact hcells rfl
    have hnotTriples :
        ¬ (¬ hasBoard = true ∧ (cellsOf value).length % 3 = 0 ∧ cellsOf value ≠ []) := by
      rintro ⟨hno, hmultiple, hcells⟩
      rw [length_cellsOf] at hmultiple
      rcases htriples (Bool.eq_false_iff.mpr hno) with hempty | hnot
      · exact hnone hcells hempty
      · omega
    have hnotPairs : ¬ ((cellsOf value).length % 2 = 0 ∧ cellsOf value ≠ []) := by
      rintro ⟨hmultiple, hcells⟩
      rw [length_cellsOf] at hmultiple
      rcases hpairs with hempty | hnot
      · exact hnone hcells hempty
      · omega
    simp only [platformParts, h, Properties.cells?, hget, hwhole, if_true]
    rw [if_neg hnotTriples, if_neg hnotPairs]
  · simp only [platformParts, h, Properties.cells?, hget, hwhole, if_false]

end

section

variable {root : Node} {location : Span} {index : Nat}

theorem counted_eq {platforms : List PlatformPart} {boards : List BoardPart}
    {pmics : List (Option Quad)} {cs : List Candidate} (hpmics : pmics ≠ [])
    (hlength : cs.length = platforms.length * boards.length * pmics.length) :
    (do
      let count ← mulSize (← mulSize platforms.length boards.length "dt identity count")
        pmics.length "dt identity count"
      reserve (count * byteSize) "dt candidates"
      return cs) = counted cs := by
  have hfirst := Nat.le_mul_of_pos_right (platforms.length * boards.length)
    (List.length_pos_iff.mpr hpmics)
  rw [counted, hlength]
  rcases Nat.lt_or_ge (platforms.length * boards.length) sizeLimit with hsome | hsome
  · rw [mulSize, if_pos hsome]
    show (mulSize _ _ _ >>= fun count => reserve (count * byteSize) _ >>= fun _ => pure cs) = _
    rcases Nat.lt_or_ge (platforms.length * boards.length * pmics.length) sizeLimit with hall | hall
    · rw [mulSize, if_pos hall, if_neg (Nat.not_le.mpr hall)]
      show (reserve _ _ >>= fun _ => pure cs) = _
      rcases Nat.lt_or_ge bufferLimit (platforms.length * boards.length * pmics.length * byteSize)
        with hlong | hfits
      · rw [reserve, if_neg (Nat.not_le.mpr hlong), if_pos hlong]
        rfl
      · rw [reserve, if_pos hfits, if_neg (Nat.not_lt.mpr hfits)]
        rfl
    · rw [mulSize, if_neg (Nat.not_lt.mpr hall), if_pos hall]
      rfl
  · rw [mulSize, if_neg (Nat.not_lt.mpr hsome), if_pos (Nat.le_trans hsome hfirst)]
    rfl

theorem expand_eq (board : Option (List (UInt32 × UInt32))) (pmic : Option (List Quad))
    {platforms : List PlatformPart}
    (hboard : root.value? "qcom,board-id" = board.map fun bs => ofCells (pairCells bs))
    (hpmic : root.value? "qcom,pmic-id" = pmic.map fun qs => ofCells (quadCells qs))
    (hplatforms : platformParts root board.isSome = .ok platforms) :
    expand root location index = counted (platforms.flatMap fun p =>
      (boardParts (board.getD [])).flatMap fun b => (pmicRevs (pmic.getD [])).map fun q =>
        ⟨p.platformId, p.socRev, b.variantId.or p.variantId, b.subtype, q, location, index⟩) := by
  have hboardCells : groupedCells root "qcom,board-id" 2 "qcom,board-id not a list of pairs" =
      .ok (board.map pairCells) := by
    cases board with
    | none => exact groupedCells_absent hboard
    | some bs => exact groupedCells_ofCells hboard (by rw [length_pairCells, Nat.mul_mod_left])
  have hpmicCells : groupedCells root "qcom,pmic-id" 4 "qcom,pmic-id not a list of quads" =
      .ok (pmic.map quadCells) := by
    cases pmic with
    | none => exact groupedCells_absent hpmic
    | some qs => exact groupedCells_ofCells hpmic (by rw [length_quadCells, Nat.mul_mod_left])
  have hboards : boardPairs ((board.map pairCells).getD []) = (board.getD []).map boardPart := by
    cases board with
    | none => rfl
    | some bs => exact boardPairs_pairCells bs
  have hpmics : quads ((pmic.map quadCells).getD []) = (pmic.getD []).map some := by
    cases pmic with
    | none => rfl
    | some qs => exact quads_quadCells qs
  have hbind {α β : Type} (a : α) (f : α → Except Fault β) : (Except.ok a >>= f) = f a := rfl
  rw [← Option.isSome_map (f := pairCells)] at hplatforms
  rw [expand, hboardCells, hbind, hpmicCells, hbind, hplatforms, hbind, hboards, hpmics]
  generalize board.getD [] = bs
  generalize pmic.getD [] = qs
  have hpmics : pmicRevs qs ≠ [] := by
    unfold pmicRevs
    split <;> simp_all
  have hcounted := counted_eq hpmics (length_combine (fun p b q =>
    (⟨p.platformId, p.socRev, b.variantId.or p.variantId, b.subtype, q, location, index⟩ : Candidate))
    platforms (boardParts bs) (pmicRevs qs))
  cases bs <;> cases qs <;> exact hcounted

theorem expand_of_board_misfit {value : Bytes} (h : root.value? "qcom,board-id" = some value)
    (hlength : ¬ 8 ∣ value.length) :
    ∃ what, expand root location index = .error (.invalidFormat what) := by
  rw [expand, groupedCells_misfit h hlength]
  exact ⟨_, rfl⟩

theorem expand_of_pmic_misfit {value : Bytes} (h : root.value? "qcom,pmic-id" = some value)
    (hlength : ¬ 16 ∣ value.length) :
    ∃ what, expand root location index = .error (.invalidFormat what) := by
  rw [expand, groupedCells_misfit h hlength]
  rcases groupedCells_cases root "qcom,board-id" 2 "qcom,board-id not a list of pairs" with
    hboard | ⟨cells, hboard⟩
  · rw [hboard]
    exact ⟨_, rfl⟩
  · rw [hboard]
    exact ⟨_, rfl⟩

theorem expand_of_platform_misfit {value : Bytes} (h : root.value? "qcom,msm-id" = some value)
    (hpairs : value = [] ∨ ¬ 8 ∣ value.length)
    (htriples : root.value? "qcom,board-id" = none → value = [] ∨ ¬ 12 ∣ value.length) :
    ∃ what, expand root location index = .error (.invalidFormat what) := by
  rcases groupedCells_cases root "qcom,board-id" 2 "qcom,board-id not a list of pairs" with
    hboard | ⟨board, hboard⟩
  · rw [expand, hboard]
    exact ⟨_, rfl⟩
  · have habsent : board.isSome = false → root.value? "qcom,board-id" = none := by
      intro hnone
      rw [groupedCells] at hboard
      split at hboard
      · assumption
      · cases hboard
      · obtain ⟨-, hsome⟩ := ite_eq_ok.mp hboard
        rw [hsome] at hnone
        cases hnone
    rw [expand, hboard]
    rcases groupedCells_cases root "qcom,pmic-id" 4 "qcom,pmic-id not a list of quads" with
      hpmic | ⟨pmic, hpmic⟩
    · rw [hpmic]
      exact ⟨_, rfl⟩
    · rw [hpmic]
      show ∃ what, (platformParts root board.isSome >>= _) = _
      rw [platformParts_misfit h hpairs fun hnone => htriples (habsent hnone)]
      exact ⟨_, rfl⟩

end

def ListsPmics (root : Node) (qs : List Quad) : Prop :=
  root.value? "qcom,pmic-id" = some (ofCells (quadCells qs)) ∨
    qs = [] ∧ root.value? "qcom,pmic-id" = none

theorem ListsPmics.exists_map {root : Node} {qs : List Quad} (h : ListsPmics root qs) :
    ∃ pmic : Option (List Quad), root.value? "qcom,pmic-id" =
      pmic.map (fun qs => ofCells (quadCells qs)) ∧ pmic.getD [] = qs := by
  rcases h with h | ⟨rfl, h⟩
  · exact ⟨some qs, h, rfl⟩
  · exact ⟨none, h, rfl⟩

/-- A blob stands for every combination of the platforms, boards and power chips it lists, in
either form of the platform list; a list of a length that no form has is refused. -/
theorem expand_identities (root : Node) (location : Span) (index : Nat) :
    (∀ (ps bs : List (UInt32 × UInt32)) (qs : List Quad), ps ≠ [] → bs ≠ [] →
      root.value? "qcom,msm-id" = some (ofCells (pairCells ps)) →
      root.value? "qcom,board-id" = some (ofCells (pairCells bs)) → ListsPmics root qs →
      expand root location index = counted (ps.flatMap fun (platform, rev) =>
        bs.flatMap fun (variant, subtype) => (pmicRevs qs).map fun q =>
          ⟨some platform, some rev, some variant,
            some (if subtype = 0 then variant >>> 24 else subtype), q, location, index⟩)) ∧
    (∀ (ts : List (UInt32 × UInt32 × UInt32)) (qs : List Quad), ts ≠ [] →
      root.value? "qcom,msm-id" = some (ofCells (tripleCells ts)) →
      root.value? "qcom,board-id" = none → ListsPmics root qs →
      expand root location index = counted (ts.flatMap fun (platform, variant, rev) =>
        (pmicRevs qs).map fun q =>
          ⟨some platform, some rev, some variant, none, q, location, index⟩)) ∧
    (∀ (ps : List (UInt32 × UInt32)) (qs : List Quad), ps ≠ [] →
      root.value? "qcom,msm-id" = some (ofCells (pairCells ps)) →
      (root.value? "qcom,board-id" = none ∧ ¬ 3 ∣ (pairCells ps).length ∨
        root.value? "qcom,board-id" = some []) → ListsPmics root qs →
      expand root location index = counted (ps.flatMap fun (platform, rev) =>
        (pmicRevs qs).map fun q => ⟨some platform, some rev, none, none, q, location, index⟩)) ∧
    ((∃ value, root.value? "qcom,board-id" = some value ∧ ¬ 8 ∣ value.length) ∨
      (∃ value, root.value? "qcom,pmic-id" = some value ∧ ¬ 16 ∣ value.length) ∨
      (∃ value, root.value? "qcom,msm-id" = some value ∧ (value = [] ∨ ¬ 8 ∣ value.length) ∧
        (root.value? "qcom,board-id" = none → value = [] ∨ ¬ 12 ∣ value.length)) →
      ∃ what, expand root location index = .error (.invalidFormat what)) := by
  refine ⟨?_, ?_, ?_, ?_⟩
  · intro ps bs qs hps hbs hmsm hboard hpmic
    obtain ⟨pmic, hvalue, rfl⟩ := hpmic.exists_map
    rw [expand_eq (some bs) pmic hboard hvalue (platformParts_pairs hps hmsm (.inl rfl)),
      List.flatMap_map, Option.getD_some, boardParts, if_neg hbs]
    simp only [List.flatMap_map]
    rfl
  · intro ts qs hts hmsm hboard hpmic
    obtain ⟨pmic, hvalue, rfl⟩ := hpmic.exists_map
    rw [expand_eq none pmic hboard hvalue (platformParts_triples hts hmsm), List.flatMap_map]
    simp only [Option.getD_none, boardParts, if_true, List.flatMap_singleton]
    rfl
  · intro ps qs hps hmsm hboard hpmic
    obtain ⟨pmic, hvalue, rfl⟩ := hpmic.exists_map
    obtain ⟨board, hnone, hboard, hform⟩ : ∃ board : Option (List (UInt32 × UInt32)),
        board.getD [] = [] ∧
        root.value? "qcom,board-id" = board.map (fun bs => ofCells (pairCells bs)) ∧
        (board.isSome = true ∨ ¬ 3 ∣ (pairCells ps).length) := by
      rcases hboard with ⟨hboard, hcount⟩ | hboard
      · exact ⟨none, rfl, hboard, .inr hcount⟩
      · exact ⟨some [], rfl, hboard, .inl rfl⟩
    rw [expand_eq board pmic hboard hvalue (platformParts_pairs hps hmsm hform), hnone, List.flatMap_map]
    simp only [boardParts, if_true, List.flatMap_singleton]
    rfl
  · rintro (⟨value, h, hlength⟩ | ⟨value, h, hlength⟩ | ⟨value, h, hpairs, htriples⟩)
    · exact expand_of_board_misfit h hlength
    · exact expand_of_pmic_misfit h hlength
    · exact expand_of_platform_misfit h hpairs htriples

def twoByTwo : Node := ⟨"", [
  ⟨"qcom,msm-id", ofCells (pairCells [(0x123, 1), (0x123, 2)])⟩,
  ⟨"qcom,board-id", ofCells (pairCells [(8, 1), (0x02000008, 0)])⟩,
  ⟨"qcom,pmic-id", ofCells (quadCells [⟨1, 2, 3, 4⟩])⟩], []⟩

def twoCells : Node := ⟨"", [⟨"qcom,pmic-id", be32 1 ++ be32 2⟩], []⟩

theorem expand_identities_twoByTwo :
    expand twoByTwo ⟨0, 100⟩ 3 = .ok [
      ⟨some 0x123, some 1, some 8, some 1, some ⟨1, 2, 3, 4⟩, ⟨0, 100⟩, 3⟩,
      ⟨some 0x123, some 1, some 0x02000008, some 2, some ⟨1, 2, 3, 4⟩, ⟨0, 100⟩, 3⟩,
      ⟨some 0x123, some 2, some 8, some 1, some ⟨1, 2, 3, 4⟩, ⟨0, 100⟩, 3⟩,
      ⟨some 0x123, some 2, some 0x02000008, some 2, some ⟨1, 2, 3, 4⟩, ⟨0, 100⟩, 3⟩] ∧
      ∃ what, expand twoCells ⟨0, 100⟩ 3 = .error (.invalidFormat what) := by
  obtain ⟨hpairs, -⟩ := expand_identities twoByTwo ⟨0, 100⟩ 3
  obtain ⟨-, -, -, hmisfit⟩ := expand_identities twoCells ⟨0, 100⟩ 3
  constructor
  · rw [hpairs [(0x123, 1), (0x123, 2)] [(8, 1), (0x02000008, 0)] [⟨1, 2, 3, 4⟩] (by simp) (by simp)
      rfl rfl (.inl rfl), counted, if_neg (by decide), if_neg (by decide)]
    rfl
  · exact hmisfit (.inr (.inl ⟨_, rfl, by decide⟩))

def repetitive (platforms boards pmics : Nat) : Node := ⟨"", [
  ⟨"qcom,msm-id", ofCells (pairCells (List.replicate platforms (1, 1)))⟩,
  ⟨"qcom,board-id", ofCells (pairCells (List.replicate boards (1, 1)))⟩,
  ⟨"qcom,pmic-id", ofCells (quadCells (List.replicate pmics ⟨1, 1, 1, 1⟩))⟩], []⟩

theorem expand_repetitive {platforms boards pmics : Nat} (location : Span) (index : Nat)
    (hplatforms : platforms ≠ 0) (hboards : boards ≠ 0) (hpmics : pmics ≠ 0)
    (hcount : platforms * boards * pmics < sizeLimit)
    (hlong : bufferLimit < platforms * boards * pmics * byteSize) :
    expand (repetitive platforms boards pmics) location index =
      .error (.outOfMemory "dt candidates") := by
  have hps : List.replicate platforms ((1, 1) : UInt32 × UInt32) ≠ [] := by simpa
  have hbs : List.replicate boards ((1, 1) : UInt32 × UInt32) ≠ [] := by simpa
  have hqs : List.replicate pmics (⟨1, 1, 1, 1⟩ : Quad) ≠ [] := by simpa
  have hparts : platformParts (repetitive platforms boards pmics) true =
      .ok ((List.replicate platforms (1, 1)).map fun p => ⟨some p.1, none, some p.2⟩) :=
    platformParts_pairs hps rfl (.inl rfl)
  rw [expand_eq (some _) (some _) rfl rfl hparts, counted,
    length_combine (fun (p : PlatformPart) (b : BoardPart) q => (⟨p.platformId, p.socRev,
      b.variantId.or p.variantId, b.subtype, q, location, index⟩ : Candidate))]
  simp only [Option.getD_some, boardParts, pmicRevs, hbs, hqs, if_false, List.length_map,
    List.length_replicate]
  rw [if_neg (Nat.not_le.mpr hcount), if_pos hlong]

theorem expand_crowded :
    (repetitive 600000 600000 330000).value? "qcom,msm-id" =
        some (ofCells (pairCells (List.replicate 600000 (1, 1)))) ∧
      (repetitive 600000 600000 330000).value? "qcom,board-id" =
        some (ofCells (pairCells (List.replicate 600000 (1, 1)))) ∧
      ListsPmics (repetitive 600000 600000 330000) (List.replicate 330000 ⟨1, 1, 1, 1⟩) ∧
      expand (repetitive 600000 600000 330000) ⟨0, 100⟩ 0 =
        .error (.outOfMemory "dt candidates") :=
  ⟨rfl, rfl, .inl rfl, expand_repetitive ⟨0, 100⟩ 0 (Nat.succ_ne_zero 599999)
    (Nat.succ_ne_zero 599999) (Nat.succ_ne_zero 329999) (by decide) (by decide)⟩

end Candidate

end BootAssembly
