import BootAssembly.Board.Match
import Mathlib.Data.List.Lex

namespace BootAssembly

namespace Candidate

/-- Two for the board's own value, one for none, zero for any other. -/
def rank : Option Bool → Nat
  | some true => 2
  | none => 1
  | some false => 0

def foundryRank (board : Board) (c : Candidate) : Nat :=
  rank (c.foundry?.map (· == board.foundryBits))

def modelRank (board : Board) (c : Candidate) : Nat :=
  rank (c.pmicModel?.map (· == board.pmicModel))

def revision (board : Board) (c : Candidate) : UInt32 := c.socRev.getD board.socRev

def version (board : Board) (c : Candidate) : UInt32 :=
  (c.variantId.map (· &&& Board.variantVersionMask)).getD
    (board.variantId &&& Board.variantVersionMask)

def chipRevision (board : Board) (slot : Slot) (c : Candidate) : UInt32 :=
  (c.pmicRev.map (·.get slot)).getD (board.pmicRev.get slot)

def ranks (board : Board) (c : Candidate) : Scope → List Nat
  | .full => [c.foundryRank board, c.modelRank board]
  | .soc => [c.foundryRank board]

def numbers (board : Board) (c : Candidate) : Scope → List Nat
  | .full => [(c.revision board).toNat, (c.version board).toNat,
      (c.chipRevision board .first).toNat, (c.chipRevision board .second).toNat,
      (c.chipRevision board .third).toNat, (c.chipRevision board .fourth).toNat]
  | .soc => [(c.revision board).toNat]

def key (board : Board) (scope : Scope) (c : Candidate) : List Nat :=
  c.ranks board scope ++ c.numbers board scope

end Candidate

namespace Stage

def measure (board : Board) : Stage → Candidate → Nat
  | foundry => Candidate.foundryRank board
  | pmicModel => Candidate.modelRank board
  | socRev => fun c => (c.revision board).toNat
  | variantVersion => fun c => (c.version board).toNat
  | pmic slot => fun c => (c.chipRevision board slot).toNat

def Passes (board : Board) (c : Candidate) : Stage → Prop
  | foundry => 0 < c.foundryRank board
  | pmicModel => 0 < c.modelRank board
  | _ => True

instance (board : Board) (c : Candidate) : (stage : Stage) → Decidable (Passes board c stage)
  | foundry => inferInstanceAs (Decidable (_ < _))
  | pmicModel => inferInstanceAs (Decidable (_ < _))
  | socRev | variantVersion | pmic _ => inferInstanceAs (Decidable True)

def Within (board : Board) (c : Candidate) : Stage → Prop
  | foundry | pmicModel => True
  | socRev => c.revision board ≤ board.socRev
  | variantVersion => c.version board ≤ board.variantId &&& Board.variantVersionMask
  | pmic slot => c.chipRevision board slot ≤ board.pmicRev.get slot

theorem exactOrAbsent_eq_filter (field : Candidate → Option Bool) (set : List Candidate) :
    exactOrAbsent field set = set.filter fun c =>
      0 < Candidate.rank (field c) ∧
        ∀ d ∈ set, Candidate.rank (field d) ≤ Candidate.rank (field c) := by
  unfold exactOrAbsent
  split
  · rename_i hany
    obtain ⟨e, he, hexact⟩ : ∃ e ∈ set, field e = some true := by simpa using hany
    apply List.filter_congr
    intro c hc
    rw [Bool.eq_iff_iff, beq_iff_eq, decide_eq_true_iff]
    constructor
    · intro h
      refine ⟨by simp [h, Candidate.rank], fun d _ => ?_⟩
      rw [h]
      cases hd : field d with
      | none => simp [Candidate.rank]
      | some b => cases b <;> simp [Candidate.rank]
    · rintro ⟨-, h⟩
      have hbest := h e he
      rw [hexact] at hbest
      cases hf : field c with
      | none => simp [hf, Candidate.rank] at hbest
      | some b => cases b <;> simp_all [Candidate.rank]
  · rename_i hany
    have hno : ∀ d ∈ set, field d ≠ some true := by simpa using hany
    apply List.filter_congr
    intro c hc
    rw [Bool.eq_iff_iff, beq_iff_eq, decide_eq_true_iff]
    constructor
    · intro h
      refine ⟨by simp [h, Candidate.rank], fun d hd => ?_⟩
      have := hno d hd
      rw [h]
      cases hf : field d with
      | none => simp
      | some b => cases b <;> simp_all [Candidate.rank]
    · rintro ⟨h, -⟩
      have := hno c hc
      cases hf : field c with
      | none => rfl
      | some b => cases b <;> simp_all [Candidate.rank]

instance : Std.LawfulOrderMax UInt32 :=
  .of_max_le_iff
    (fun a b c => by
      simp only [max, UInt32.le_iff_toNat_le]
      split <;> omega)
    (fun a b => by
      simp only [max]
      split
      · exact .inr rfl
      · exact .inl rfl)

theorem greatestUpTo_eq_filter {board : UInt32} {value : Candidate → UInt32}
    {set : List Candidate} (h : ∀ c ∈ set, value c ≤ board) :
    greatestUpTo board value set = set.filter fun c =>
      ∀ d ∈ set, (value d).toNat ≤ (value c).toNat := by
  have hall : (set.map value).filter (· ≤ board) = set.map value := by
    rw [List.filter_eq_self]
    simpa using h
  unfold greatestUpTo
  rw [hall]
  cases hm : (set.map value).max? with
  | none =>
    have : set = [] := by simpa using hm
    subst this
    rfl
  | some best =>
    obtain ⟨hmem, hge⟩ := List.max?_eq_some_iff.mp hm
    obtain ⟨e, he, rfl⟩ := List.mem_map.mp hmem
    have hge : ∀ d ∈ set, value d ≤ value e := by simpa using hge
    apply List.filter_congr
    intro c hc
    rw [Bool.eq_iff_iff, beq_iff_eq, decide_eq_true_iff]
    constructor
    · intro hce d hd
      rw [hce]
      exact UInt32.le_iff_toNat_le.mp (hge d hd)
    · intro hmax
      exact UInt32.le_antisymm (hge c hc) (UInt32.le_iff_toNat_le.mpr (hmax e he))

theorem apply_eq_filter {board : Board} {stage : Stage} {set : List Candidate}
    (h : ∀ c ∈ set, stage.Within board c) :
    stage.apply board set = set.filter fun c =>
      stage.Passes board c ∧ ∀ d ∈ set, stage.measure board d ≤ stage.measure board c := by
  cases stage with
  | foundry => exact exactOrAbsent_eq_filter _ set
  | pmicModel => exact exactOrAbsent_eq_filter _ set
  | socRev => simpa [Passes, measure] using! greatestUpTo_eq_filter h
  | variantVersion => simpa [Passes, measure] using! greatestUpTo_eq_filter h
  | pmic slot => simpa [Passes, measure] using! greatestUpTo_eq_filter h

theorem apply_nil (board : Board) (stage : Stage) : stage.apply board [] = [] := by
  cases stage <;> rfl

theorem passes_of_measure_eq {board : Board} {stage : Stage} {c d : Candidate}
    (h : stage.measure board c = stage.measure board d) (hc : stage.Passes board c) :
    stage.Passes board d := by
  cases stage with
  | foundry => exact Nat.lt_of_lt_of_eq hc h
  | pmicModel => exact Nat.lt_of_lt_of_eq hc h
  | socRev | variantVersion | pmic => trivial

theorem foldl_apply_nil (board : Board) (stages : List Stage) :
    stages.foldl (fun set stage => stage.apply board set) [] = [] := by
  induction stages with
  | nil => rfl
  | cons stage stages ih => rw [List.foldl_cons, apply_nil, ih]

/-- A candidate wins when it passes every stage and no other one has a greater key. -/
def Wins (board : Board) (stages : List Stage) (set : List Candidate) (c : Candidate) : Prop :=
  (∀ stage ∈ stages, stage.Passes board c) ∧
    ∀ d ∈ set, stages.map (measure board · d) ≤ stages.map (measure board · c)

instance (board : Board) (stages : List Stage) (set : List Candidate) (c : Candidate) :
    Decidable (Wins board stages set c) := inferInstanceAs (Decidable (_ ∧ _))

theorem cons_le_iff (a b : Nat) (l m : List Nat) :
    a :: l ≤ b :: m ↔ a < b ∨ a = b ∧ l ≤ m := by
  rw [le_iff_lt_or_eq, List.cons_lt_cons_iff, le_iff_lt_or_eq, List.cons.injEq]
  tauto

theorem wins_cons {board : Board} {stage : Stage} {stages : List Stage} {set : List Candidate}
    {c : Candidate} (hc : c ∈ set) :
    Wins board (stage :: stages) set c ↔
      (stage.Passes board c ∧ ∀ d ∈ set, stage.measure board d ≤ stage.measure board c) ∧
        Wins board stages (set.filter fun d =>
          stage.Passes board d ∧ ∀ e ∈ set, stage.measure board e ≤ stage.measure board d) c := by
  simp only [Wins, List.forall_mem_cons, List.map_cons, cons_le_iff, List.mem_filter,
    decide_eq_true_eq, and_imp]
  constructor
  · rintro ⟨⟨hpass, hrest⟩, hmax⟩
    have hle : ∀ d ∈ set, stage.measure board d ≤ stage.measure board c := by
      intro d hd
      rcases hmax d hd with hlt | ⟨heq, -⟩ <;> omega
    refine ⟨⟨hpass, hle⟩, hrest, fun d hd _ hge => ?_⟩
    have hcd := hge c hc
    rcases hmax d hd with hlt | ⟨-, hkey⟩
    · omega
    · exact hkey
  · rintro ⟨⟨hpass, hle⟩, hrest, hmax⟩
    refine ⟨⟨hpass, hrest⟩, fun d hd => ?_⟩
    rcases Nat.lt_or_eq_of_le (hle d hd) with hlt | heq
    · exact .inl hlt
    · refine .inr ⟨heq, hmax d hd ?_ fun e he => heq ▸ hle e he⟩
      exact passes_of_measure_eq heq.symm hpass

theorem foldl_apply (board : Board) (stages : List Stage) (set : List Candidate)
    (h : ∀ c ∈ set, ∀ stage ∈ stages, stage.Within board c) :
    stages.foldl (fun set stage => stage.apply board set) set =
      set.filter fun c => Wins board stages set c := by
  induction stages generalizing set with
  | nil => simp [Wins]
  | cons stage stages ih =>
    rw [List.foldl_cons, apply_eq_filter fun c hc => h c hc stage List.mem_cons_self, ih,
      List.filter_filter]
    · apply List.filter_congr
      intro c hc
      rw [Bool.eq_iff_iff, Bool.and_eq_true, decide_eq_true_iff, decide_eq_true_iff,
        decide_eq_true_iff, wins_cons hc]
      exact and_comm
    · intro c hc s hs
      exact h c (List.mem_of_mem_filter hc) s (List.mem_cons_of_mem stage hs)

end Stage

namespace Candidate

theorem key_eq_measures (board : Board) (scope : Scope) (c : Candidate) :
    c.key board scope = (Stage.ofScope scope).map (·.measure board c) := by
  cases scope <;> rfl

theorem ranks_pos_iff (board : Board) (scope : Scope) (c : Candidate) :
    0 ∉ c.ranks board scope ↔ ∀ stage ∈ Stage.ofScope scope, stage.Passes board c := by
  cases scope <;>
    simp [ranks, Stage.ofScope, Stage.Passes, Nat.pos_iff_ne_zero, eq_comm]

theorem getD_le_of_all {o : Option UInt32} {bound : UInt32} (h : o.all (· ≤ bound)) :
    o.getD bound ≤ bound := by
  cases o with
  | none => exact UInt32.le_refl bound
  | some v => simpa using h

theorem revision_le_of_admitsSoc {board : Board} {c : Candidate} (h : c.admitsSoc board) :
    c.revision board ≤ board.socRev := by
  simp only [admitsSoc, Bool.and_eq_true] at h
  exact getD_le_of_all h.2

theorem version_le_of_admitsVariant {board : Board} {c : Candidate}
    (h : c.variantId.all (admitsVariant board)) :
    c.version board ≤ board.variantId &&& Board.variantVersionMask := by
  apply getD_le_of_all
  cases hv : c.variantId with
  | none => rfl
  | some v =>
    simp only [hv, Option.all_some, admitsVariant, Bool.and_eq_true] at h
    exact h.2

theorem chipRevision_le_of_admitsPmic {board : Board} {c : Candidate}
    (h : c.pmicRev.all (admitsPmic board)) (slot : Slot) :
    c.chipRevision board slot ≤ board.pmicRev.get slot := by
  apply getD_le_of_all
  cases hr : c.pmicRev with
  | none => rfl
  | some revs =>
    simp only [hr, Option.all_some, admitsPmic, Bool.and_eq_true] at h
    obtain ⟨⟨⟨h₁, h₂⟩, h₃⟩, h₄⟩ := h
    cases slot with
    | first => exact h₁
    | second => exact h₂
    | third => exact h₃
    | fourth => exact h₄

theorem within_of_admits {board : Board} {scope : Scope} {c : Candidate}
    (h : c.admits board scope) : ∀ stage ∈ Stage.ofScope scope, stage.Within board c := by
  cases scope with
  | soc => simp [Stage.ofScope, Stage.Within, revision_le_of_admitsSoc h]
  | full =>
    simp only [admits, Bool.and_eq_true] at h
    obtain ⟨⟨⟨hsoc, hvariant⟩, -⟩, hpmic⟩ := h
    simp [Stage.ofScope, Stage.Within, revision_le_of_admitsSoc hsoc,
      version_le_of_admitsVariant hvariant, chipRevision_le_of_admitsPmic hpmic]

end Candidate

namespace Match

theorem admitted_outcome (cs : List Candidate) (board : Board) (scope : Scope) :
    (admitted cs board scope).outcome = .ok (cs.filter (·.admits board scope)) := by
  unfold admitted
  rw [Traced.outcome_bind, Traced.outcome_forM fun _ => rfl]
  rfl

theorem narrow_outcome (board : Board) (stages : List Stage) (set : List Candidate) :
    (narrow board stages set).outcome =
      .ok (stages.foldl (fun set stage => stage.apply board set) set) := by
  induction stages generalizing set with
  | nil => rfl
  | cons stage stages ih =>
    unfold narrow
    split
    · rename_i h
      have hnil : set = [] := by simpa using h
      rw [hnil, Stage.foldl_apply_nil]
      rfl
    · rw [Traced.outcome_bind]
      exact ih (stage.apply board set)

theorem select_eq_find (cs : List Candidate) (board : Board) (scope : Scope) :
    (select cs board scope).outcome =
      let set := cs.filter (·.admits board scope)
      match set.find? fun c => Stage.Wins board (Stage.ofScope scope) set c with
      | some c => .ok c
      | none => .error .noDeviceTreeMatch := by
  have hwithin : ∀ c ∈ cs.filter (·.admits board scope),
      ∀ stage ∈ Stage.ofScope scope, stage.Within board c :=
    fun c hc => Candidate.within_of_admits (List.mem_filter.mp hc).2
  unfold select
  rw [Traced.outcome_bind, admitted_outcome]
  change (narrow board _ _ >>= _).outcome = _
  rw [Traced.outcome_bind, narrow_outcome, Stage.foldl_apply board _ _ hwithin]
  simp only [← List.head?_filter]
  generalize List.filter _ (cs.filter _) = left
  cases left <;> rfl

def Greatest (board : Board) (scope : Scope) (cs : List Candidate) (c : Candidate) : Prop :=
  c ∈ cs ∧ c.admits board scope ∧
    ∀ d ∈ cs, d.admits board scope → d.key board scope ≤ c.key board scope

def FirstGreatest (board : Board) (scope : Scope) (cs : List Candidate) (c : Candidate) : Prop :=
  Greatest board scope cs c ∧ ∃ front back, cs = front ++ c :: back ∧
    ∀ d ∈ front, d.admits board scope → d.key board scope < c.key board scope

variable {board : Board} {scope : Scope} {cs : List Candidate} {c d : Candidate}

theorem wins_iff (hc : c ∈ cs) (ha : c.admits board scope) :
    Stage.Wins board (Stage.ofScope scope) (cs.filter (·.admits board scope)) c ↔
      Greatest board scope cs c ∧ 0 ∉ c.ranks board scope := by
  simp only [Stage.Wins, ← Candidate.key_eq_measures, ← Candidate.ranks_pos_iff, List.mem_filter,
    and_imp, Greatest, hc, ha, true_and]
  exact and_comm

theorem ranks_eq_of_key_eq (h : c.key board scope = d.key board scope) :
    c.ranks board scope = d.ranks board scope := by
  have hlen : (c.ranks board scope).length = (d.ranks board scope).length := by
    cases scope <;> rfl
  exact (List.append_inj h hlen).1

theorem select_eq_ok_iff :
    (select cs board scope).outcome = .ok c ↔
      FirstGreatest board scope cs c ∧ 0 ∉ c.ranks board scope := by
  have hfind : (select cs board scope).outcome = .ok c ↔
      (cs.filter (·.admits board scope)).find?
        (Stage.Wins board (Stage.ofScope scope) (cs.filter (·.admits board scope)) ·) = some c := by
    rw [select_eq_find]
    dsimp only
    split
    · rename_i e he
      rw [he, Except.ok.injEq, Option.some.injEq]
    · rename_i he
      simp [he]
  rw [hfind, List.find?_filter, List.find?_eq_some_iff_append]
  simp only [decide_eq_true_eq, Bool.not_eq_true', Bool.eq_false_iff, ne_eq]
  constructor
  · rintro ⟨⟨ha, hwins⟩, front, back, rfl, hfront⟩
    have hmem : c ∈ front ++ c :: back := by simp
    obtain ⟨hgreat, hranks⟩ := (wins_iff hmem ha).mp hwins
    refine ⟨⟨hgreat, front, back, rfl, fun d hd hda => ?_⟩, hranks⟩
    have hdmem : d ∈ front ++ c :: back := List.mem_append_left _ hd
    refine lt_of_le_of_ne (hgreat.2.2 d hdmem hda) fun heq => hfront d hd ⟨hda, ?_⟩
    -- an equal key would have won earlier
    apply (wins_iff hdmem hda).mpr
    refine ⟨⟨hdmem, hda, fun e he hea => heq ▸ hgreat.2.2 e he hea⟩, ?_⟩
    rwa [ranks_eq_of_key_eq heq]
  · rintro ⟨⟨hgreat, front, back, rfl, hfront⟩, hranks⟩
    have hmem : c ∈ front ++ c :: back := by simp
    refine ⟨⟨hgreat.2.1, (wins_iff hmem hgreat.2.1).mpr ⟨hgreat, hranks⟩⟩, front, back, rfl, ?_⟩
    rintro d hd ⟨hda, hwins⟩
    have hdmem : d ∈ front ++ c :: back := List.mem_append_left _ hd
    have hle := ((wins_iff hdmem hda).mp hwins).1.2.2 c hmem hgreat.2.1
    exact absurd (hfront d hd hda) (not_lt.mpr hle)

theorem select_error_of_forall_ne (h : ∀ c, (select cs board scope).outcome ≠ .ok c) :
    (select cs board scope).outcome = .error .noDeviceTreeMatch := by
  rw [select_eq_find] at h ⊢
  dsimp only at h ⊢
  split
  · rename_i c hc
    exact absurd (by rw [hc]) (h c)
  · rfl

theorem mem_of_select (h : (select cs board scope).outcome = .ok c) : c ∈ cs :=
  (select_eq_ok_iff.mp h).1.1.1

theorem select_nil (board : Board) (scope : Scope) :
    (select [] board scope).outcome = .error .noDeviceTreeMatch :=
  select_error_of_forall_ne fun _ h => nomatch mem_of_select h

theorem exists_select_of_greatest (h : Greatest board scope cs c)
    (hranks : 0 ∉ c.ranks board scope) : ∃ d, (select cs board scope).outcome = .ok d := by
  by_contra hno
  have herr := select_error_of_forall_ne fun d hd => hno ⟨d, hd⟩
  rw [select_eq_find] at herr
  dsimp only at herr
  split at herr
  · cases herr
  · rename_i hnone
    have hc := List.find?_eq_none.mp hnone c (List.mem_filter.mpr ⟨h.1, h.2.1⟩)
    exact hc (decide_eq_true ((wins_iff h.1 h.2.1).mpr ⟨h, hranks⟩))

/-- Selection takes the first candidate with the greatest key, unless that key has a rank of
zero. -/
theorem select_lexicographic (cs : List Candidate) (board : Board) (scope : Scope) :
    ((∃ c, (select cs board scope).outcome = .ok c) ↔
        ∃ c, Greatest board scope cs c ∧ 0 ∉ c.ranks board scope) ∧
      (∀ c, (select cs board scope).outcome = .ok c ↔
        FirstGreatest board scope cs c ∧ 0 ∉ c.ranks board scope) ∧
      ((select cs board scope).outcome = .error .noDeviceTreeMatch ↔
        ¬ ∃ c, Greatest board scope cs c ∧ 0 ∉ c.ranks board scope) := by
  have hiff : (∃ c, (select cs board scope).outcome = .ok c) ↔
      ∃ c, Greatest board scope cs c ∧ 0 ∉ c.ranks board scope := by
    constructor
    · rintro ⟨c, hc⟩
      obtain ⟨hfirst, hranks⟩ := select_eq_ok_iff.mp hc
      exact ⟨c, hfirst.1, hranks⟩
    · rintro ⟨c, hc, hranks⟩
      exact exists_select_of_greatest hc hranks
  refine ⟨hiff, fun c => select_eq_ok_iff, ?_⟩
  rw [← hiff]
  constructor
  · rintro herr ⟨c, hc⟩
    rw [herr] at hc
    cases hc
  · intro h
    exact select_error_of_forall_ne fun c hc => h ⟨c, hc⟩

end Match

end BootAssembly
