import BootAssembly.Resolve
import Mathlib.Data.List.TakeWhile

namespace BootAssembly

theorem Candidate.expand_source {root : DeviceTree.Node} {location : Span} {index : Nat}
    {cs : List Candidate} (h : expand root location index = .ok cs) :
    ∀ c ∈ cs, c.location = location ∧ c.index = index := by
  obtain ⟨board, -, h⟩ := bind_eq_ok.mp h
  obtain ⟨pmic, -, h⟩ := bind_eq_ok.mp h
  obtain ⟨platforms, -, h⟩ := bind_eq_ok.mp h
  obtain ⟨_, -, h⟩ := bind_eq_ok.mp h
  obtain ⟨count, -, h⟩ := bind_eq_ok.mp h
  obtain ⟨_, -, h⟩ := bind_eq_ok.mp h
  cases h
  intro c hc
  obtain ⟨p, -, hc⟩ := List.mem_flatMap.mp hc
  obtain ⟨b, -, hc⟩ := List.mem_flatMap.mp hc
  obtain ⟨revs, -, rfl⟩ := List.mem_map.mp hc
  exact ⟨rfl, rfl⟩

namespace Resolve

open DeviceTree

def listed (region : Bytes) (blob : Span) (index : Nat) : Except Fault (List Candidate) := do
  let tree ← DeviceTree.parse (slice blob region)
  Candidate.expand tree.root blob index

def identitiesOf (region : Bytes) (blob : Span) (index : Nat) : List Candidate :=
  (listed region blob index).toOption.getD []

def identities (region : Bytes) (blobs : List Span) : List Candidate :=
  blobs.zipIdx.flatMap fun row => identitiesOf region row.1 row.2

def leading (table : Overlay.Table) (bytes : Bytes) : List (Overlay.Entry × Nat) :=
  table.entries.zipIdx.takeWhile fun row => (Header.probe? (slice row.1.span bytes)).isSome

def tableIdentities (table : Overlay.Table) (bytes : Bytes) : List Candidate :=
  (leading table bytes).flatMap fun row => identitiesOf bytes row.1.span row.2

theorem mem_identitiesOf {region : Bytes} {blob : Span} {index : Nat} {c : Candidate}
    (h : c ∈ identitiesOf region blob index) :
    c.location = blob ∧ c.index = index ∧
      ∃ tree, DeviceTree.parse (slice blob region) = .ok tree := by
  unfold identitiesOf at h
  cases hlisted : listed region blob index with
  | error e =>
    rw [hlisted] at h
    cases h
  | ok cs =>
    rw [hlisted] at h
    obtain ⟨tree, htree, hexpand⟩ := bind_eq_ok.mp hlisted
    obtain ⟨hlocation, hindex⟩ := Candidate.expand_source hexpand c h
    exact ⟨hlocation, hindex, tree, htree⟩

theorem mem_identities {region : Bytes} {blobs : List Span} {c : Candidate}
    (h : c ∈ identities region blobs) :
    blobs[c.index]? = some c.location ∧
      ∃ tree, DeviceTree.parse (slice c.location region) = .ok tree := by
  obtain ⟨⟨blob, index⟩, hrow, hc⟩ := List.mem_flatMap.mp h
  obtain ⟨rfl, rfl, htree⟩ := mem_identitiesOf hc
  exact ⟨List.mem_zipIdx_iff_getElem?.mp hrow, htree⟩

theorem mem_leading {table : Overlay.Table} {bytes : Bytes} {entry : Overlay.Entry} {i : Nat}
    (h : (entry, i) ∈ leading table bytes) :
    table.entries[i]? = some entry ∧
      ∀ j ≤ i, ∀ e, table.entries[j]? = some e → (Header.probe? (slice e.span bytes)).isSome := by
  obtain ⟨k, hk, hrow⟩ := List.mem_iff_getElem.mp h
  have hprefix (m : Nat) (hm : m < (leading table bytes).length) :
      ∃ e, table.entries[m]? = some e ∧ (leading table bytes)[m] = (e, m) := by
    have hwhole := List.prefix_iff_getElem?.mp (List.takeWhile_prefix
      fun row : Overlay.Entry × Nat => (Header.probe? (slice row.1.span bytes)).isSome) m hm
    rw [List.getElem?_zipIdx, Option.map_eq_some_iff] at hwhole
    obtain ⟨e, he, heq⟩ := hwhole
    rw [Nat.zero_add] at heq
    exact ⟨e, he, heq.symm⟩
  obtain ⟨e, he, heq⟩ := hprefix k hk
  rw [hrow, Prod.mk.injEq] at heq
  obtain ⟨rfl, rfl⟩ := heq
  refine ⟨he, fun j hj e' he' => ?_⟩
  have hjlt : j < (leading table bytes).length := Nat.lt_of_le_of_lt hj hk
  obtain ⟨f, hf, hat⟩ := hprefix j hjlt
  rw [he', Option.some.injEq] at hf
  have hmem : (leading table bytes)[j] ∈ leading table bytes := List.getElem_mem hjlt
  rw [hat, ← hf, leading] at hmem
  have hprobe := List.mem_takeWhile_imp hmem
  exact hprobe

theorem candidatesOf_outcome (region : Bytes) (blob : Span) (index : Nat) :
    (candidatesOf region blob index).outcome = .ok (identitiesOf region blob index) := by
  unfold candidatesOf identitiesOf listed
  cases DeviceTree.parse (slice blob region) with
  | error e => rfl
  | ok tree =>
    dsimp only [bind, Except.bind]
    cases Candidate.expand tree.root blob index <;> rfl

theorem candidates_outcome (region : Bytes) (blobs : List Span) :
    (candidates region blobs).outcome = .ok (identities region blobs) := by
  have hrows (rows : List (Span × Nat)) :
      (rows.mapM fun row => candidatesOf region row.1 row.2).outcome =
        .ok (rows.map fun row => identitiesOf region row.1 row.2) := by
    induction rows with
    | nil => rfl
    | cons row rows ih =>
      rw [List.mapM_cons, Traced.outcome_bind, candidatesOf_outcome]
      show (_ >>= _ : Report _).outcome = _
      rw [Traced.outcome_bind, ih]
      rfl
  rw [candidates, map_eq_pure_bind, Traced.outcome_bind, hrows, identities, List.flatMap_def]
  rfl

theorem blob_eq_ok {table : Overlay.Table} {bytes blob : Bytes} {i : Nat}
    (h : table.blob bytes i = .ok blob) :
    ∃ entry, table.entries[i]? = some entry ∧ blob = slice entry.span bytes := by
  unfold Overlay.Table.blob at h
  split at h
  · cases h
  · rename_i entry hentry
    split at h
    · cases h
    · rename_i part hpart
      cases h
      exact ⟨entry, hentry, (slice?_eq_some.mp hpart).2.2⟩

theorem tableCandidates_cons_eq_ok {table : Overlay.Table} {bytes : Bytes} {entry : Overlay.Entry}
    {i : Nat} {rows : List (Overlay.Entry × Nat)} {cs : List Candidate}
    (hentry : table.entries[i]? = some entry)
    (h : (tableCandidates table bytes ((entry, i) :: rows)).outcome = .ok cs) :
    (Header.probe? (slice entry.span bytes)).isSome = true ∧
        (∃ later, (tableCandidates table bytes rows).outcome = .ok later ∧
          cs = identitiesOf bytes entry.span i ++ later) ∨
      (Header.probe? (slice entry.span bytes)).isSome = false ∧ cs = [] := by
  obtain ⟨blob, hblob, h⟩ := Traced.outcome_bind_eq_ok.mp h
  obtain ⟨e, he, rfl⟩ := blob_eq_ok hblob
  rw [hentry] at he
  cases he
  by_cases hprobe : (Header.probe? (slice entry.span bytes)).isNone
  · rw [if_pos hprobe] at h
    obtain ⟨_, -, h⟩ := Traced.outcome_bind_eq_ok.mp h
    cases h
    rw [Option.isNone_iff_eq_none] at hprobe
    exact .inr ⟨by rw [hprobe, Option.isSome_none], rfl⟩
  · rw [if_neg hprobe] at h
    rw [Option.isNone_iff_eq_none, ← ne_eq, ← Option.isSome_iff_ne_none] at hprobe
    refine .inl ⟨hprobe, ?_⟩
    have hexpanded : (do
        let tree ← DeviceTree.parse (slice entry.span bytes)
        Candidate.expand tree.root entry.span i) = listed bytes entry.span i := rfl
    dsimp only at h
    rw [hexpanded] at h
    rw [identitiesOf]
    cases hlisted : listed bytes entry.span i with
    | ok own =>
      rw [hlisted] at h
      obtain ⟨_, hown, h⟩ := Traced.outcome_bind_eq_ok.mp h
      cases hown
      obtain ⟨later, hlater, h⟩ := Traced.outcome_bind_eq_ok.mp h
      cases h
      exact ⟨later, hlater, rfl⟩
    | error e =>
      rw [hlisted] at h
      obtain ⟨_, -, h⟩ := Traced.outcome_bind_eq_ok.mp h
      obtain ⟨_, hnone, h⟩ := Traced.outcome_bind_eq_ok.mp h
      cases hnone
      obtain ⟨later, hlater, h⟩ := Traced.outcome_bind_eq_ok.mp h
      cases h
      exact ⟨later, hlater, rfl⟩

theorem tableCandidates_eq_ok {table : Overlay.Table} {bytes : Bytes}
    {rows : List (Overlay.Entry × Nat)} (hrows : ∀ row ∈ rows, table.entries[row.2]? = some row.1)
    {cs : List Candidate} (h : (tableCandidates table bytes rows).outcome = .ok cs) :
    cs = (rows.takeWhile fun row => (Header.probe? (slice row.1.span bytes)).isSome).flatMap
      fun row => identitiesOf bytes row.1.span row.2 := by
  induction rows generalizing cs with
  | nil =>
    cases h
    rfl
  | cons row rows ih =>
    obtain ⟨entry, i⟩ := row
    rw [List.forall_mem_cons] at hrows
    rw [List.takeWhile_cons]
    rcases tableCandidates_cons_eq_ok hrows.1 h with ⟨hsome, later, hlater, rfl⟩ | ⟨hnone, rfl⟩
    · rw [if_pos hsome, List.flatMap_cons, ih hrows.2 hlater]
    · rw [if_neg (by rw [hnone]; decide), List.flatMap_nil]

theorem mem_tableIdentities {table : Overlay.Table} {bytes : Bytes} {c : Candidate}
    (h : c ∈ tableIdentities table bytes) :
    ∃ entry, table.entries[c.index]? = some entry ∧ c.location = entry.span ∧
      ∀ j ≤ c.index, ∀ e, table.entries[j]? = some e →
        (Header.probe? (slice e.span bytes)).isSome := by
  obtain ⟨⟨entry, i⟩, hrow, hc⟩ := List.mem_flatMap.mp h
  obtain ⟨hlocation, rfl, -⟩ := mem_identitiesOf hc
  obtain ⟨hentry, hleading⟩ := mem_leading hrow
  exact ⟨entry, hentry, hlocation, hleading⟩

end Resolve

end BootAssembly
