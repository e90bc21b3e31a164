import BootAssembly.Proofs.DeviceTree.StringTable

namespace BootAssembly.DeviceTree

def internAll (table : Bytes) : List String → List UInt32 × Bytes
  | [] => ([], table)
  | name :: names =>
    let (offset, table) := intern table (utf8 name)
    let (offsets, table) := internAll table names
    (UInt32.ofNat offset :: offsets, table)

theorem internAll_cons (table : Bytes) (name : String) (names : List String) :
    internAll table (name :: names) =
      let interned := intern table (utf8 name)
      (UInt32.ofNat interned.1 :: (internAll interned.2 names).1,
        (internAll interned.2 names).2) := rfl

theorem encodeProperties_cons (table : Bytes) (p : Property) (ps : Properties) :
    encodeProperties table (p :: ps) =
      let interned := intern table (utf8 p.name)
      (encodeProperty interned.1 p.value ++ (encodeProperties interned.2 ps).1,
        (encodeProperties interned.2 ps).2) := rfl

theorem encodeProperties_eq_internAll (table : Bytes) (ps : Properties) :
    encodeProperties table ps =
      (((internAll table (ps.map Property.name)).1.zip ps).flatMap fun entry =>
          encodeProperty entry.1.toNat entry.2.value,
        (internAll table (ps.map Property.name)).2) := by
  induction ps generalizing table with
  | nil => rfl
  | cons p ps ih =>
    rw [encodeProperties_cons, List.map_cons, internAll_cons, List.zip_cons_cons,
      List.flatMap_cons]
    simp only [ih, encodeProperty, UInt32.ofNat_toNat]

theorem entryOffset?_of_prefix {names more : List Bytes} (h : ∀ n ∈ names, 0 ∉ n)
    (hmore : names <+: more) {name : Bytes} {offset : Nat}
    (ho : entryOffset? (stringsOf names) name = some offset) :
    entryOffset? (stringsOf more) name = some offset := by
  obtain ⟨rest, rfl⟩ := hmore
  induction names generalizing offset with
  | nil =>
    rw [stringsOf_nil, entryOffset?_nil] at ho
    cases ho
  | cons entry names ih =>
    simp only [List.forall_mem_cons] at h
    rw [stringsOf_cons, entryOffset?_append h.1] at ho
    rw [List.cons_append, stringsOf_cons, entryOffset?_append h.1]
    split at ho
    · rename_i he
      rwa [if_pos he]
    · rename_i he
      obtain ⟨k, hk, rfl⟩ := Option.map_eq_some_iff.mp ho
      rw [if_neg he, ih h.2 hk, Option.map_some]

theorem entryOffset?_append_new {names : List Bytes} {name : Bytes} (h : ∀ n ∈ names, 0 ∉ n)
    (hname : 0 ∉ name) (hnew : name ∉ names) :
    entryOffset? (stringsOf (names ++ [name])) name = some (stringsOf names).length := by
  induction names with
  | nil =>
    rw [List.nil_append, stringsOf_cons, entryOffset?_append hname, if_pos rfl]
    rfl
  | cons entry names ih =>
    simp only [List.forall_mem_cons] at h
    rw [List.mem_cons, not_or] at hnew
    rw [List.cons_append, stringsOf_cons, entryOffset?_append h.1, if_neg (Ne.symm hnew.1),
      ih h.2 hnew.2, stringsOf_cons, Option.map_some, List.length_append, List.length_cons]
    congr 1
    omega

theorem entryOffset?_intern {names : List Bytes} {name : Bytes} (h : ∀ n ∈ names, 0 ∉ n)
    (hname : 0 ∉ name) :
    entryOffset? (stringsOf (recordName names name)) name =
      some (intern (stringsOf names) name).1 := by
  cases ho : entryOffset? (stringsOf names) name with
  | none =>
    have hnew := (entryOffset?_eq_none_iff h name).mp ho
    rw [recordName, if_neg hnew, intern, ho]
    exact entryOffset?_append_new h hname hnew
  | some offset =>
    rw [recordName, if_pos (mem_of_entryOffset? h ho), intern, ho]

variable {names : List String} {seen : List Bytes}

theorem internAll_table (hseen : ∀ n ∈ seen, 0 ∉ n) (hnames : ∀ name ∈ names, 0 ∉ utf8 name) :
    (internAll (stringsOf seen) names).2 =
      stringsOf ((names.map utf8).foldl recordName seen) := by
  induction names generalizing seen with
  | nil => rfl
  | cons name names ih =>
    rw [List.forall_mem_cons] at hnames
    rw [internAll_cons, List.map_cons, List.foldl_cons]
    simp only [intern_table hseen]
    exact ih (nul_not_mem_recordName hseen hnames.1) hnames.2

theorem length_internAll (table : Bytes) (names : List String) :
    (internAll table names).1.length = names.length := by
  induction names generalizing table with
  | nil => rfl
  | cons name names ih => rw [internAll_cons, List.length_cons, List.length_cons, ih]

theorem entryOffset?_internAll (hseen : ∀ n ∈ seen, 0 ∉ n)
    (hnames : ∀ name ∈ names, 0 ∉ utf8 name)
    (hsize : (internAll (stringsOf seen) names).2.length < UInt32.size) :
    ∀ call ∈ names.zip (internAll (stringsOf seen) names).1,
      entryOffset? (internAll (stringsOf seen) names).2 (utf8 call.1) = some call.2.toNat := by
  induction names generalizing seen with
  | nil => simp
  | cons name names ih =>
    rw [List.forall_mem_cons] at hnames
    have hrecorded := nul_not_mem_recordName hseen hnames.1
    rw [internAll_cons] at hsize ⊢
    simp only [intern_table hseen] at hsize ⊢
    rw [List.zip_cons_cons, List.forall_mem_cons]
    refine ⟨?_, ih hrecorded hnames.2 hsize⟩
    -- the offset is good in the block as it was then, which is the beginning of the final one
    have hgrown := prefix_foldl_recordName (names.map utf8) (recordName seen (utf8 name))
    have hfound := entryOffset?_of_prefix hrecorded hgrown (entryOffset?_intern hseen hnames.1)
    have hfinal : ∀ n ∈ (names.map utf8).foldl recordName (recordName seen (utf8 name)), 0 ∉ n := by
      apply nul_not_mem_foldl_recordName hrecorded
      simpa using hnames.2
    rw [internAll_table hrecorded hnames.2] at hsize ⊢
    have hlt := (standsAt_of_entryOffset? hfinal hfound).lt_length
    rw [hfound, UInt32.toNat_ofNat_of_lt' (Nat.lt_trans hlt hsize)]

theorem recordName_eraseDups (before : List String) (name : String) :
    recordName (before.eraseDups.map utf8) (utf8 name) =
      (before ++ [name]).eraseDups.map utf8 := by
  have hmem : utf8 name ∈ before.eraseDups.map utf8 ↔ name ∈ before := by
    simp [utf8_inj]
  rw [recordName, List.eraseDups_append]
  by_cases h : name ∈ before
  · rw [if_pos (hmem.mpr h)]
    simp [List.removeAll, h]
  · have hsingle : [name].eraseDups = [name] := rfl
    rw [if_neg fun hold => h (hmem.mp hold)]
    simp [List.removeAll, h, hsingle]

theorem foldl_recordName_eraseDups (before names : List String) :
    (names.map utf8).foldl recordName (before.eraseDups.map utf8) =
      (before ++ names).eraseDups.map utf8 := by
  induction names generalizing before with
  | nil => rw [List.append_nil]; rfl
  | cons name names ih =>
    rw [List.map_cons, List.foldl_cons, recordName_eraseDups, ih, List.append_assoc,
      List.singleton_append]

/-- However often names are asked for, the block holds each of them once, in the order in which
they came first, and every word given out leads back to its name. -/
theorem internAll_consistent {names : List String} (hnul : ∀ name ∈ names, 0 ∉ utf8 name)
    (hsize : (internAll [] names).2.length < UInt32.size) :
    (internAll [] names).2 = stringsOf (names.eraseDups.map utf8) ∧
      (internAll [] names).1.length = names.length ∧
      (∀ call ∈ names.zip (internAll [] names).1,
        nameAt (internAll [] names).2 call.2.toNat = .ok call.1) ∧
      ∀ call ∈ names.zip (internAll [] names).1, ∀ other ∈ names.zip (internAll [] names).1,
        call.2 = other.2 ↔ call.1 = other.1 := by
  have hempty : ∀ n ∈ ([] : List Bytes), 0 ∉ n := nofun
  have htable := internAll_table hempty hnul
  have hfound := entryOffset?_internAll hempty hnul hsize
  rw [stringsOf_nil] at htable hfound
  have hread : ∀ call ∈ names.zip (internAll [] names).1,
      nameAt (internAll [] names).2 call.2.toNat = .ok call.1 := by
    intro call hcall
    have hname := hnul call.1 (List.of_mem_zip hcall).1
    have hoffset := hfound call hcall
    rw [htable] at hoffset ⊢
    refine nameAt_of_standsAt (standsAt_of_entryOffset? ?_ hoffset) hname
    exact nul_not_mem_foldl_recordName hempty (by simpa using hnul)
  refine ⟨htable.trans ?_, length_internAll [] names, hread, ?_⟩
  · exact congrArg stringsOf (foldl_recordName_eraseDups [] names)
  · intro call hcall other hother
    constructor
    · intro h
      have hsame := hread call hcall
      rw [h, hread other hother] at hsame
      exact (Except.ok.inj hsame).symm
    · intro h
      have hsame := hfound call hcall
      rw [h, hfound other hother] at hsame
      exact UInt32.toNat_inj.mp (Option.some.inj hsame).symm

def overlappingNames : List String := ["us-reg", "reg", "", "us-reg", "g", ""]

theorem internAll_consistent_overlapping : (∀ name ∈ overlappingNames, 0 ∉ utf8 name) ∧
    (internAll [] overlappingNames).2.length < UInt32.size ∧
      (internAll [] overlappingNames).1 = [0, 7, 11, 0, 12, 11] ∧
      (internAll [] overlappingNames).2 = stringsOf (["us-reg", "reg", "", "g"].map utf8) ∧
      nameAt (internAll [] overlappingNames).2 12 = .ok "g" := by
  have hnul : ∀ name ∈ overlappingNames, 0 ∉ utf8 name := by decide +kernel
  have hsize : (internAll [] overlappingNames).2.length < UInt32.size := by decide +kernel
  obtain ⟨htable, -, hread, -⟩ := internAll_consistent hnul hsize
  exact ⟨hnul, hsize, by decide +kernel, htable, hread ("g", 12) (by decide +kernel)⟩

end BootAssembly.DeviceTree
