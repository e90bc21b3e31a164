import BootAssembly.Proofs.Board.Ranking

namespace BootAssembly

namespace Board

def ModelsAgree (b : Board) : Prop := b.pmicModel = b.pmicRev.map (· &&& pmicModelMask)

instance (b : Board) : Decidable b.ModelsAgree := inferInstanceAs (Decidable (_ = _))

end Board

namespace Candidate

open Board

variable {board : Board} {c : Candidate}

structure Matches (c : Candidate) (board : Board) : Prop where
  platform : ∃ p, c.platformId = some p ∧ p &&& platformMask = board.platformId &&& platformMask
  revision : c.socRev = some board.socRev
  variant : ∃ v, c.variantId = some v ∧
    v &&& variantMatchMask = board.variantId &&& variantMatchMask
  subtype : ∃ s, c.subtype = some s ∧ s &&& subtypeMask = board.subtype &&& subtypeMask
  pmic : c.pmicRev = some board.pmicRev

theorem isExact_iff : c.isExact board = true ↔ c.Matches board := by
  simp only [isExact, List.all_cons, List.all_nil, Bool.and_true, Bool.and_eq_true, equals,
    Option.any_eq_true, beq_iff_eq]
  constructor
  · rintro ⟨hplatform, hrevision, hvariant, hsubtype, hpmic⟩
    exact ⟨hplatform, hrevision, hvariant, hsubtype, hpmic⟩
  · rintro ⟨hplatform, hrevision, hvariant, hsubtype, hpmic⟩
    exact ⟨hplatform, hrevision, hvariant, hsubtype, hpmic⟩

theorem and_eq_of_and_eq {v w mask part : UInt32} (h : v &&& mask = w &&& mask)
    (hpart : mask &&& part = part) : v &&& part = w &&& part := by
  rw [← hpart, ← UInt32.and_assoc, h, UInt32.and_assoc]

theorem Matches.admits (h : c.Matches board) : c.admits board .full = true := by
  obtain ⟨p, hp, hplatform⟩ := h.platform
  obtain ⟨v, hv, hvariant⟩ := h.variant
  obtain ⟨s, hs, hsubtype⟩ := h.subtype
  have htype : v &&& variantTypeMask = board.variantId &&& variantTypeMask :=
    and_eq_of_and_eq hvariant (by decide)
  have hversion : v &&& variantVersionMask = board.variantId &&& variantVersionMask :=
    and_eq_of_and_eq hvariant (by decide)
  simp only [Candidate.admits, admitsSoc, admitsVariant, admitsPmic, hp, hv, hs, h.revision, h.pmic,
    Option.all_some, hplatform, htype, hversion, hsubtype, beq_self_eq_true, UInt32.le_refl,
    decide_true, Bool.and_self]

theorem Matches.pmicModel? (h : c.Matches board) (hmodels : board.ModelsAgree) :
    c.pmicModel? = if board.pmicModel = .zero then none else some board.pmicModel := by
  rw [Candidate.pmicModel?, h.pmic, Option.map_some, ← hmodels]
  split <;> simp_all

theorem rank_map_beq_pos_iff {α : Type} [DecidableEq α] {field : Option α} {want : α} :
    0 < rank (field.map (· == want)) ↔ field = none ∨ field = some want := by
  cases field with
  | none => simp [rank]
  | some v =>
    by_cases h : v = want
    · simp [rank, h]
    · simp [rank, beq_false_of_ne h, h]

end Candidate

namespace Match

open Candidate

variable {board : Board} {c : Candidate}

theorem select_singleton {scope : Scope} (h : c.admits board scope) :
    (select [c] board scope).outcome =
      if 0 ∈ c.ranks board scope then .error .noDeviceTreeMatch else .ok c := by
  have hgreatest : FirstGreatest board scope [c] c :=
    ⟨⟨List.mem_singleton_self c, h, by simp⟩, [], [], rfl, by simp⟩
  split
  · rename_i hranks
    apply select_error_of_forall_ne
    intro d hd
    obtain ⟨⟨⟨hmem, -⟩, -⟩, hd⟩ := select_eq_ok_iff.mp hd
    rw [List.mem_singleton.mp hmem] at hd
    exact hd hranks
  · exact select_eq_ok_iff.mpr ⟨hgreatest, ‹_›⟩

theorem select_exact (h : c.Matches board) (hmodels : board.ModelsAgree) :
    (select [c] board .full).outcome =
      if c.foundry? = none ∨ c.foundry? = some board.foundryBits then .ok c
      else .error .noDeviceTreeMatch := by
  have hmodel : 0 < c.modelRank board := by
    rw [modelRank, rank_map_beq_pos_iff, h.pmicModel? hmodels]
    split
    · exact .inl rfl
    · exact .inr rfl
  have hranks : 0 ∈ c.ranks board .full ↔
      ¬ (c.foundry? = none ∨ c.foundry? = some board.foundryBits) := by
    rw [← rank_map_beq_pos_iff, ← foundryRank, ranks, List.mem_cons, List.mem_singleton]
    omega
  rw [select_singleton h.admits]
  simp only [hranks, ite_not]

end Match

end BootAssembly
