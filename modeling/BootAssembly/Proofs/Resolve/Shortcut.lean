import BootAssembly.Proofs.Board.ExactMatch
import BootAssembly.Proofs.Resolve.Provenance

namespace BootAssembly

namespace Match

variable {board : Board} {c : Candidate}

def AcceptsAlone (board : Board) (scope : Scope) (c : Candidate) : Prop :=
  (select [c] board scope).outcome = .ok c

theorem acceptsAlone_of_select {cs : List Candidate} {scope : Scope}
    (h : (select cs board scope).outcome = .ok c) : AcceptsAlone board scope c := by
  obtain ⟨⟨⟨-, hadmits, -⟩, -⟩, hranks⟩ := select_eq_ok_iff.mp h
  rw [AcceptsAlone, select_singleton hadmits, if_neg hranks]

theorem exact_acceptsAlone_iff (h : c.Matches board) (hmodels : board.ModelsAgree) :
    AcceptsAlone board .full c ↔ c.foundry? = none ∨ c.foundry? = some board.foundryBits := by
  rw [AcceptsAlone, select_exact h hmodels]
  split <;> simp_all

end Match

namespace Candidate

/-- What selection would have found out about an exact match. -/
structure Vetted (c : Candidate) (board : Board) : Prop where
  admitted : c.admits board .full = true
  model : c.pmicModel? = none ∨ c.pmicModel? = some board.pmicModel
  accepted : Match.AcceptsAlone board .full c ↔
    c.foundry? = none ∨ c.foundry? = some board.foundryBits
  refused : ¬ Match.AcceptsAlone board .full c →
    (Match.select [c] board .full).outcome = .error .noDeviceTreeMatch

theorem vetted_of_isExact {c : Candidate} {board : Board} (hmodels : board.ModelsAgree)
    (h : c.isExact board = true) : c.Vetted board := by
  have hmatches := isExact_iff.mp h
  refine ⟨hmatches.admits, ?_, Match.exact_acceptsAlone_iff hmatches hmodels, fun hrefused => ?_⟩
  · rw [hmatches.pmicModel? hmodels]
    split
    · exact .inl rfl
    · exact .inr rfl
  · rw [Match.exact_acceptsAlone_iff hmatches hmodels] at hrefused
    rw [Match.select_exact hmatches hmodels, if_neg hrefused]

end Candidate

namespace Resolve

variable {board : Board}

/-- An exact match lacks nothing that selection asks for, other than the foundry; so with overlays
at hand a blob that selection would refuse is taken only for an exact match of a foreign foundry. -/
theorem exact_match_vetted (hmodels : board.ModelsAgree) :
    (∀ c : Candidate, c.isExact board = true → c.Vetted board) ∧
    ∀ windows image kernel layout overlays r,
      (resolve board windows image kernel layout overlays).outcome = .ok r →
      ∃ region start blobs, searchArea image kernel layout = .ok (region, start) ∧
        scan region start = .ok blobs ∧
        (r.origin = .exact → ∃ c ∈ identities region blobs, r.blob = slice c.location region ∧
          c.isExact board = true ∧ c.Vetted board) ∧
        ∀ table, overlays = some table → r.origin = .exact ∨
          ∃ layering : Layering region blobs board table, layering.merged.toBytes = .ok r.blob ∧
            Match.AcceptsAlone board .soc layering.soc ∧
            Match.AcceptsAlone board .full layering.best := by
  refine ⟨fun c hc => Candidate.vetted_of_isExact hmodels hc, ?_⟩
  intro windows image kernel layout overlays r h
  obtain ⟨region, start, blobs, harea, hscan, hchoose, -⟩ := resolve_eq_ok.mp h
  refine ⟨region, start, blobs, harea, hscan, ?_⟩
  cases provenance_of_choose hchoose with
  | single | matched => exact ⟨fun hcase => (nomatch hcase), fun _ hcase => (nomatch hcase)⟩
  | exact first _ =>
    have hexact := List.find?_some first
    refine ⟨fun _ => ?_, fun _ _ => .inl rfl⟩
    exact ⟨_, List.mem_of_find?_eq_some first, rfl, hexact,
      Candidate.vetted_of_isExact hmodels hexact⟩
  | layered layering _ written =>
    refine ⟨fun hcase => (nomatch hcase), fun table htable => .inr ?_⟩
    cases htable
    exact ⟨layering, written, Match.acceptsAlone_of_select layering.selected,
      Match.acceptsAlone_of_select layering.preferred⟩

def foundryBoard : Board := ⟨0x0100, 1, 1, 0x10, 2, ⟨0x11, 0, 0, 0⟩, ⟨0x11, 0, 0, 0⟩⟩

def foreignFoundry : Candidate where
  platformId := some 0x20100
  socRev := some 1
  variantId := some 0x10
  subtype := some 2
  pmicRev := some ⟨0x11, 0, 0, 0⟩
  location := ⟨0, 10⟩
  index := 0

theorem exact_match_vetted_foreign :
    foundryBoard.ModelsAgree ∧ foreignFoundry.isExact foundryBoard = true ∧
      foreignFoundry.Vetted foundryBoard ∧
      ¬ Match.AcceptsAlone foundryBoard .full foreignFoundry := by
  have hmodels : foundryBoard.ModelsAgree := by decide
  have hvetted := (exact_match_vetted hmodels).1 foreignFoundry (by decide)
  refine ⟨hmodels, by decide, hvetted, ?_⟩
  rw [hvetted.accepted]
  decide

theorem exact_match_refused_by_selection :
    ¬ ∀ (board : Board) (c : Candidate), board.ModelsAgree → c.isExact board = true →
      (Match.select [c] board .full).outcome = .ok c := by
  intro h
  have haccepted := h foundryBoard foreignFoundry (by decide) (by decide)
  have hrefused : (Match.select [foreignFoundry] foundryBoard .full).outcome =
      .error .noDeviceTreeMatch := by decide +kernel
  rw [hrefused] at haccepted
  cases haccepted

end Resolve

end BootAssembly
