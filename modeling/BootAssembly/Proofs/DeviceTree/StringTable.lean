import BootAssembly.DeviceTree.Decode
import BootAssembly.DeviceTree.Encode

namespace BootAssembly.DeviceTree

def stringsOf (names : List Bytes) : Bytes := names.flatMap (· ++ [0])

def recordName (names : List Bytes) (name : Bytes) : List Bytes :=
  if name ∈ names then names else names ++ [name]

def StandsAt (table name : Bytes) (offset : Nat) : Prop :=
  ∃ front back, table = front ++ name ++ 0 :: back ∧ front.length = offset

theorem stringsOf_nil : stringsOf [] = [] := rfl

theorem stringsOf_append (names more : List Bytes) :
    stringsOf (names ++ more) = stringsOf names ++ stringsOf more :=
  List.flatMap_append

theorem stringsOf_cons (name : Bytes) (names : List Bytes) :
    stringsOf (name :: names) = name ++ 0 :: stringsOf names := by
  simp [stringsOf]

theorem stringsOf_mono {names more : List Bytes} (h : names <+: more) :
    stringsOf names <+: stringsOf more := by
  obtain ⟨rest, rfl⟩ := h
  rw [stringsOf_append]
  exact List.prefix_append _ _

theorem entryOffset?_nil (name : Bytes) : entryOffset? [] name = none := by
  rw [entryOffset?, if_pos rfl]

theorem entryOffset?_append {entry : Bytes} (h : 0 ∉ entry) (rest name : Bytes) :
    entryOffset? (entry ++ 0 :: rest) name =
      if entry = name then some 0
      else (entryOffset? rest name).map (· + (entry.length + 1)) := by
  have hdrop : (entry ++ 0 :: rest).drop (entry.length + 1) = rest := by
    rw [← List.drop_drop, List.drop_left]
    rfl
  rw [entryOffset?, if_neg (by simp), untilNul_append h]
  simp only [hdrop]

theorem entryOffset?_eq_none_iff {names : List Bytes} (h : ∀ n ∈ names, 0 ∉ n) (name : Bytes) :
    entryOffset? (stringsOf names) name = none ↔ name ∉ names := by
  induction names with
  | nil => simp [stringsOf_nil, entryOffset?_nil]
  | cons entry names ih =>
    simp only [List.forall_mem_cons] at h
    rw [stringsOf_cons, entryOffset?_append h.1, List.mem_cons, not_or]
    split
    · rename_i he
      simp [he]
    · rename_i he
      rw [Option.map_eq_none_iff, ih h.2]
      exact ⟨fun hn => ⟨fun e => he e.symm, hn⟩, And.right⟩

theorem mem_of_entryOffset? {names : List Bytes} (h : ∀ n ∈ names, 0 ∉ n) {name : Bytes}
    {offset : Nat} (ho : entryOffset? (stringsOf names) name = some offset) : name ∈ names := by
  apply Decidable.of_not_not
  intro hn
  rw [(entryOffset?_eq_none_iff h name).mpr hn] at ho
  cases ho

theorem standsAt_of_entryOffset? {names : List Bytes} (h : ∀ n ∈ names, 0 ∉ n) {name : Bytes}
    {offset : Nat} (ho : entryOffset? (stringsOf names) name = some offset) :
    StandsAt (stringsOf names) name offset := by
  induction names generalizing offset with
  | nil =>
    rw [stringsOf_nil, entryOffset?_nil] at ho
    cases ho
  | cons entry names ih =>
    simp only [List.forall_mem_cons] at h
    rw [stringsOf_cons, entryOffset?_append h.1] at ho
    rw [stringsOf_cons]
    split at ho
    · rename_i he
      cases ho
      exact ⟨[], stringsOf names, by rw [he]; rfl, rfl⟩
    · obtain ⟨k, hk, rfl⟩ := Option.map_eq_some_iff.mp ho
      obtain ⟨front, back, htable, rfl⟩ := ih h.2 hk
      refine ⟨entry ++ 0 :: front, back, by simp [htable], ?_⟩
      simp only [List.length_append, List.length_cons]
      omega

theorem StandsAt.mono {table larger name : Bytes} {offset : Nat} (h : StandsAt table name offset)
    (hl : table <+: larger) : StandsAt larger name offset := by
  obtain ⟨front, back, rfl, hf⟩ := h
  obtain ⟨more, rfl⟩ := hl
  exact ⟨front, back ++ more, by simp, hf⟩

theorem StandsAt.lt_length {table name : Bytes} {offset : Nat} (h : StandsAt table name offset) :
    offset < table.length := by
  obtain ⟨front, back, rfl, rfl⟩ := h
  simp only [List.length_append, List.length_cons]
  omega

theorem nameAt_of_standsAt {strings : Bytes} {name : String} {offset : Nat}
    (h : StandsAt strings (utf8 name) offset) (hn : 0 ∉ utf8 name) :
    nameAt strings offset = .ok name := by
  have hlt := h.lt_length
  obtain ⟨front, back, rfl, rfl⟩ := h
  have hdrop : (front ++ utf8 name ++ 0 :: back).drop front.length = utf8 name ++ 0 :: back := by
    rw [List.append_assoc, List.drop_left]
  unfold nameAt
  rw [if_neg (by omega), hdrop, splitNul_eq_some.mpr ⟨rfl, hn⟩]
  simp only [ofUtf8?_utf8]

theorem intern_table {names : List Bytes} (h : ∀ n ∈ names, 0 ∉ n) (name : Bytes) :
    (intern (stringsOf names) name).2 = stringsOf (recordName names name) := by
  unfold intern recordName
  cases ho : entryOffset? (stringsOf names) name with
  | none =>
    rw [if_neg ((entryOffset?_eq_none_iff h name).mp ho), stringsOf_append]
    simp [stringsOf]
  | some offset => rw [if_pos (mem_of_entryOffset? h ho)]

theorem intern_standsAt {names : List Bytes} (h : ∀ n ∈ names, 0 ∉ n) (name : Bytes) :
    StandsAt (stringsOf (recordName names name)) name (intern (stringsOf names) name).1 := by
  rw [← intern_table h]
  unfold intern
  cases ho : entryOffset? (stringsOf names) name with
  | none => exact ⟨stringsOf names, [], rfl, rfl⟩
  | some offset => exact standsAt_of_entryOffset? h ho

theorem prefix_recordName (names : List Bytes) (name : Bytes) : names <+: recordName names name := by
  unfold recordName
  split
  · exact List.prefix_refl names
  · exact List.prefix_append names [name]

theorem prefix_foldl_recordName (more names : List Bytes) : names <+: more.foldl recordName names := by
  induction more generalizing names with
  | nil => exact List.prefix_refl names
  | cons name more ih => exact (prefix_recordName names name).trans (ih _)

theorem mem_recordName {names : List Bytes} {name n : Bytes} (h : n ∈ recordName names name) :
    n ∈ names ∨ n = name := by
  unfold recordName at h
  split at h
  · exact .inl h
  · simpa using h

theorem mem_foldl_recordName {more names : List Bytes} {n : Bytes}
    (h : n ∈ more.foldl recordName names) : n ∈ names ∨ n ∈ more := by
  induction more generalizing names with
  | nil => exact .inl h
  | cons name more ih =>
    rcases ih h with h | h
    · rcases mem_recordName h with h | rfl
      · exact .inl h
      · exact .inr List.mem_cons_self
    · exact .inr (List.mem_cons_of_mem name h)

theorem nul_not_mem_recordName {names : List Bytes} {name : Bytes} (h : ∀ n ∈ names, 0 ∉ n)
    (hname : 0 ∉ name) : ∀ n ∈ recordName names name, 0 ∉ n := by
  intro n hmem
  rcases mem_recordName hmem with hmem | rfl
  · exact h n hmem
  · exact hname

theorem nul_not_mem_foldl_recordName {names more : List Bytes} (h : ∀ n ∈ names, 0 ∉ n)
    (hmore : ∀ n ∈ more, 0 ∉ n) : ∀ n ∈ more.foldl recordName names, 0 ∉ n := by
  intro n hmem
  rcases mem_foldl_recordName hmem with hmem | hmem
  · exact h n hmem
  · exact hmore n hmem

end BootAssembly.DeviceTree
