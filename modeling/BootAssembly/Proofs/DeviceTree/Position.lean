import BootAssembly.DeviceTree.Path

namespace BootAssembly.DeviceTree

abbrev Position := List Nat

namespace Node

def at? : Position → Node → Option Node
  | [], n => some n
  | i :: pos, n => n.children[i]?.bind (at? pos)

def modifyPosition (f : Node → Node) : Position → Node → Node
  | [], n => f n
  | i :: pos, n => { n with children := n.children.modify i (modifyPosition f pos) }

def locate? : List String → Node → Option Position
  | [], _ => some []
  | name :: names, n =>
    (n.children.findIdx? (·.answersTo name)).bind fun i =>
      n.children[i]?.bind fun c => (locate? names c).map (i :: ·)

mutual

def positioned : Node → List (Position × Node)
  | ⟨name, properties, children⟩ =>
    ([], ⟨name, properties, children⟩) :: forestPositioned 0 children

def forestPositioned (i : Nat) : List Node → List (Position × Node)
  | [] => []
  | c :: cs => (positioned c).map (fun p => (i :: p.1, p.2)) ++ forestPositioned (i + 1) cs

end

@[simp] theorem at?_nil (n : Node) : n.at? [] = some n := rfl

@[simp] theorem at?_cons (n : Node) (i : Nat) (pos : Position) :
    n.at? (i :: pos) = n.children[i]?.bind (at? pos) := rfl

theorem at?_singleton (n : Node) (i : Nat) : n.at? [i] = n.children[i]? := by
  rw [at?_cons]
  cases n.children[i]? <;> rfl

theorem at?_append (n : Node) (pos rest : Position) :
    n.at? (pos ++ rest) = (n.at? pos).bind (at? rest) := by
  induction pos generalizing n with
  | nil => rfl
  | cons i pos ih =>
    rw [List.cons_append, at?_cons, at?_cons]
    cases n.children[i]? with
    | none => rfl
    | some c => exact ih c

theorem at?_modifyPosition (f : Node → Node) (n : Node) (pos rest : Position) :
    (n.modifyPosition f pos).at? (pos ++ rest) = (n.at? pos).bind fun m => (f m).at? rest := by
  induction pos generalizing n with
  | nil => rfl
  | cons i pos ih =>
    rw [List.cons_append, at?_cons, at?_cons, modifyPosition, List.getElem?_modify]
    cases n.children[i]? with
    | none => rfl
    | some c => simpa using ih c

theorem modifyPosition_congr {f g : Node → Node} {n m : Node} {pos : Position}
    (hm : n.at? pos = some m) (h : f m = g m) : n.modifyPosition f pos = n.modifyPosition g pos := by
  induction pos generalizing n with
  | nil =>
    cases hm
    exact h
  | cons i pos ih =>
    obtain ⟨c, hc, hm⟩ := Option.bind_eq_some_iff.mp hm
    rw [modifyPosition, modifyPosition]
    congr 1
    apply List.ext_getElem?
    intro j
    rw [List.getElem?_modify, List.getElem?_modify]
    by_cases hij : i = j
    · subst hij
      simp [hc, ih hm]
    · simp [hij]

theorem at?_modifyPosition_of_apart {f : Node → Node} {n : Node} {pos other : Position}
    (h : ¬ pos <+: other) (h' : ¬ other <+: pos) :
    (n.modifyPosition f pos).at? other = n.at? other := by
  induction pos generalizing n other with
  | nil => exact absurd (List.nil_prefix) h
  | cons i pos ih =>
    cases other with
    | nil => exact absurd (List.nil_prefix) h'
    | cons j other =>
      rw [at?_cons, at?_cons, modifyPosition, List.getElem?_modify]
      cases n.children[j]? with
      | none => rfl
      | some c =>
        by_cases hij : i = j
        · subst hij
          rw [List.cons_prefix_cons] at h h'
          simpa using ih (fun hp => h ⟨rfl, hp⟩) (fun hp => h' ⟨rfl, hp⟩)
        · simp [hij]

theorem at?_modifyPosition_above (f : Node → Node) (n : Node) (pos : Position) (i : Nat)
    (rest : Position) :
    (n.modifyPosition f (pos ++ i :: rest)).at? pos =
      (n.at? pos).map (modifyPosition f (i :: rest)) := by
  induction pos generalizing n with
  | nil => rfl
  | cons j pos ih =>
    rw [List.cons_append, at?_cons, at?_cons, modifyPosition, List.getElem?_modify]
    cases n.children[j]? with
    | none => rfl
    | some c => simpa using ih c

theorem modifyFirst_eq_modify {p : Node → Bool} {f : Node → Node} {cs : List Node} {i : Nat}
    (h : cs.findIdx? p = some i) : modifyFirst p f cs = cs.modify i f := by
  induction cs generalizing i with
  | nil => simp at h
  | cons c cs ih =>
    rw [List.findIdx?_cons] at h
    rw [modifyFirst]
    split at h
    · rename_i hc
      cases h
      rw [if_pos hc, List.modify_zero_cons]
    · rename_i hc
      obtain ⟨j, hj, rfl⟩ := Option.map_eq_some_iff.mp h
      rw [if_neg hc, List.modify_succ_cons, ih hj]

theorem find?_eq_getElem? (p : Node → Bool) (cs : List Node) :
    cs.find? p = (cs.findIdx? p).bind (cs[·]?) := by
  induction cs with
  | nil => rfl
  | cons c cs ih =>
    rw [List.find?_cons, List.findIdx?_cons]
    cases p c with
    | true => rfl
    | false =>
      rw [if_neg Bool.false_ne_true, ih]
      cases cs.findIdx? p <;> rfl

theorem descend?_eq_at? (names : List String) (n : Node) :
    n.descend? names = (n.locate? names).bind (n.at? ·) := by
  induction names generalizing n with
  | nil => rfl
  | cons name names ih =>
    rw [descend?, locate?, child?, find?_eq_getElem?]
    cases hi : n.children.findIdx? (·.answersTo name) with
    | none => rfl
    | some i =>
      cases hc : n.children[i]? with
      | none => simp [hc]
      | some c => simp [hc, ih, Option.bind_map, Function.comp_def]

theorem modifyAt_eq_modifyPosition {f : Node → Node} {names : List String} {n : Node}
    {pos : Position} (h : n.locate? names = some pos) :
    n.modifyAt f names = n.modifyPosition f pos := by
  induction names generalizing n pos with
  | nil =>
    cases h
    rfl
  | cons name names ih =>
    obtain ⟨i, hi, h⟩ := Option.bind_eq_some_iff.mp h
    obtain ⟨c, hc, h⟩ := Option.bind_eq_some_iff.mp h
    obtain ⟨rest, hrest, rfl⟩ := Option.map_eq_some_iff.mp h
    rw [modifyAt, modifyPosition, modifyFirst_eq_modify hi]
    congr 1
    apply List.ext_getElem?
    intro j
    rw [List.getElem?_modify, List.getElem?_modify]
    by_cases hij : i = j
    · subst hij
      simp [hc, ih hrest]
    · simp [hij]

theorem isSome_at?_of_locate? {names : List String} {n : Node} {pos : Position}
    (h : n.locate? names = some pos) : ∃ m, n.at? pos = some m := by
  induction names generalizing n pos with
  | nil =>
    cases h
    exact ⟨n, rfl⟩
  | cons name names ih =>
    obtain ⟨i, hi, h⟩ := Option.bind_eq_some_iff.mp h
    obtain ⟨c, hc, h⟩ := Option.bind_eq_some_iff.mp h
    obtain ⟨rest, hrest, rfl⟩ := Option.map_eq_some_iff.mp h
    obtain ⟨m, hm⟩ := ih hrest
    exact ⟨m, by simp [hc, hm]⟩

theorem locate?_singleton {name : String} {n : Node} {pos : Position} :
    n.locate? [name] = some pos ↔
      ∃ i, n.children.findIdx? (·.answersTo name) = some i ∧ pos = [i] := by
  simp only [locate?, Option.map_some, Option.bind_eq_some_iff]
  constructor
  · rintro ⟨i, hi, c, -, hpos⟩
    exact ⟨i, hi, (Option.some.inj hpos).symm⟩
  · rintro ⟨i, hi, rfl⟩
    obtain ⟨hlt, -⟩ := List.findIdx?_eq_some_iff_getElem.mp hi
    exact ⟨i, hi, _, List.getElem?_eq_getElem hlt, rfl⟩

theorem locate?_concat_eq_some {names : List String} {name : String} {n : Node} {pos : Position} :
    n.locate? (names ++ [name]) = some pos ↔ ∃ parent m i, n.locate? names = some parent ∧
      n.at? parent = some m ∧ m.children.findIdx? (·.answersTo name) = some i ∧
        pos = parent ++ [i] := by
  induction names generalizing n pos with
  | nil =>
    rw [List.nil_append, locate?_singleton]
    constructor
    · rintro ⟨i, hi, rfl⟩
      exact ⟨[], n, i, rfl, rfl, hi, rfl⟩
    · rintro ⟨parent, m, i, hparent, hm, hi, rfl⟩
      cases hparent
      cases hm
      exact ⟨i, hi, rfl⟩
  | cons first names ih =>
    rw [List.cons_append, locate?, locate?]
    cases hj : n.children.findIdx? (·.answersTo first) with
    | none => simp
    | some j =>
      obtain ⟨c, hc⟩ : ∃ c, n.children[j]? = some c :=
        ⟨_, List.getElem?_eq_getElem (List.findIdx?_eq_some_iff_getElem.mp hj).1⟩
      simp only [Option.bind_some, hc, Option.map_eq_some_iff, ih]
      constructor
      · rintro ⟨_, ⟨parent, m, i, hparent, hm, hi, rfl⟩, rfl⟩
        exact ⟨j :: parent, m, i, ⟨parent, hparent, rfl⟩, by rw [at?_cons, hc]; exact hm, hi, rfl⟩
      · rintro ⟨_, m, i, ⟨parent, hparent, rfl⟩, hm, hi, rfl⟩
        rw [at?_cons, hc] at hm
        exact ⟨parent ++ [i], ⟨parent, m, i, hparent, hm, hi, rfl⟩, rfl⟩

theorem descend?_concat (names : List String) (name : String) (n : Node) :
    n.descend? (names ++ [name]) = (n.descend? names).bind (·.child? name) := by
  induction names generalizing n with
  | nil =>
    show (n.child? name).bind some = n.child? name
    cases n.child? name <;> rfl
  | cons first names ih =>
    rw [List.cons_append, descend?, descend?, Option.bind_assoc]
    exact congrArg (n.child? first).bind (funext ih)

theorem modifyPosition_of_at?_eq_none {f : Node → Node} {n : Node} {pos : Position}
    (h : n.at? pos = none) : n.modifyPosition f pos = n := by
  induction pos generalizing n with
  | nil => cases h
  | cons i pos ih =>
    have hsame : n.children.modify i (modifyPosition f pos) = n.children := by
      apply List.ext_getElem?
      intro j
      rw [List.getElem?_modify]
      split
      · rename_i hij
        subst hij
        cases hc : n.children[i]? with
        | none => rfl
        | some c =>
          rw [at?_cons, hc] at h
          exact congrArg some (ih h)
      · cases n.children[j]? <;> rfl
    rw [modifyPosition, hsame]
    cases n
    rfl

mutual

theorem mem_positioned : (n : Node) → (pos : Position) → (m : Node) →
    ((pos, m) ∈ n.positioned ↔ n.at? pos = some m)
  | ⟨name, properties, children⟩, pos, m => by
    rw [positioned, List.mem_cons, mem_forestPositioned]
    cases pos with
    | nil => simp [eq_comm]
    | cons i pos =>
      simp only [List.cons.injEq, reduceCtorEq, Prod.mk.injEq, false_and, false_or, Nat.zero_add,
        at?_cons, Option.bind_eq_some_iff]
      constructor
      · rintro ⟨_, _, c, ⟨rfl, rfl⟩, hc, hm⟩
        exact ⟨c, hc, hm⟩
      · rintro ⟨c, hc, hm⟩
        exact ⟨i, pos, c, ⟨rfl, rfl⟩, hc, hm⟩

theorem mem_forestPositioned : (cs : List Node) → (start : Nat) → (pos : Position) → (m : Node) →
    ((pos, m) ∈ forestPositioned start cs ↔
      ∃ i rest c, pos = (start + i) :: rest ∧ cs[i]? = some c ∧ c.at? rest = some m)
  | [], start, pos, m => by simp [forestPositioned]
  | c :: cs, start, pos, m => by
    rw [forestPositioned, List.mem_append, mem_forestPositioned cs, List.mem_map]
    constructor
    · rintro (⟨⟨rest, m'⟩, hmem, heq⟩ | ⟨i, rest, d, rfl, hd, hm⟩)
      · cases heq
        exact ⟨0, rest, c, rfl, rfl, (mem_positioned c rest m').mp hmem⟩
      · exact ⟨i + 1, rest, d, by rw [Nat.add_assoc, Nat.add_comm 1 i], hd, hm⟩
    · rintro ⟨i, rest, d, rfl, hd, hm⟩
      cases i with
      | zero =>
        cases hd
        exact .inl ⟨(rest, m), (mem_positioned c rest m).mpr hm, rfl⟩
      | succ i => exact .inr ⟨i, rest, d, by rw [Nat.add_assoc, Nat.add_comm 1 i], hd, hm⟩

end

mutual

theorem map_snd_positioned : (n : Node) → n.positioned.map Prod.snd = n.toList
  | ⟨name, properties, children⟩ => by
    rw [positioned, toList, List.map_cons, map_snd_forestPositioned]

theorem map_snd_forestPositioned : (cs : List Node) → (start : Nat) →
    (forestPositioned start cs).map Prod.snd = forestToList cs
  | [], _ => rfl
  | c :: cs, start => by
    rw [forestPositioned, forestToList, List.map_append, map_snd_forestPositioned cs,
      List.map_map, ← map_snd_positioned c]
    rfl

end

mutual

theorem nodup_positions : (n : Node) → (n.positioned.map Prod.fst).Nodup
  | ⟨name, properties, children⟩ => by
    rw [positioned, List.map_cons, List.nodup_cons]
    refine ⟨?_, nodup_forestPositions children 0⟩
    intro hroot
    obtain ⟨⟨pos, m⟩, hmem, hnil⟩ := List.mem_map.mp hroot
    obtain ⟨i, rest, c, hpos, -⟩ := (mem_forestPositioned children 0 pos m).mp hmem
    rw [hpos] at hnil
    cases hnil

theorem nodup_forestPositions : (cs : List Node) → (start : Nat) →
    ((forestPositioned start cs).map Prod.fst).Nodup
  | [], _ => List.nodup_nil
  | c :: cs, start => by
    have hfirst : (c.positioned.map fun p => start :: p.1).Nodup := by
      rw [List.Nodup, List.pairwise_map]
      refine (List.pairwise_map.mp (nodup_positions c)).imp ?_
      intro p q hne heq
      exact hne (List.cons.inj heq).2
    rw [forestPositioned, List.map_append, List.map_map, List.nodup_append]
    refine ⟨hfirst, nodup_forestPositions cs (start + 1), ?_⟩
    -- positions in the first tree begin with a number that those in the others are beyond
    rintro _ hpos _ hpos' rfl
    obtain ⟨_, -, rfl⟩ := List.mem_map.mp hpos
    obtain ⟨⟨pos', m⟩, hmem, heq⟩ := List.mem_map.mp hpos'
    obtain ⟨i, rest, d, rfl, -⟩ := (mem_forestPositioned cs (start + 1) pos' m).mp hmem
    have := (List.cons.inj heq).1
    omega

end

theorem forestToList_eq (cs : List Node) : forestToList cs = cs.flatMap toList := by
  induction cs with
  | nil => rfl
  | cons c cs ih => rw [forestToList, ih, List.flatMap_cons]

theorem forestToList_append (cs ds : List Node) :
    forestToList (cs ++ ds) = forestToList cs ++ forestToList ds := by
  rw [forestToList_eq, forestToList_eq, forestToList_eq, List.flatMap_append]

theorem mem_forestToList_iff (cs : List Node) (m : Node) :
    m ∈ forestToList cs ↔
      ∃ (i : Nat) (pos : Position) (c : Node), cs[i]? = some c ∧ c.at? pos = some m := by
  rw [← map_snd_forestPositioned cs 0, List.mem_map]
  constructor
  · rintro ⟨⟨pos, m'⟩, hmem, rfl⟩
    obtain ⟨i, rest, c, -, hc, hm⟩ := (mem_forestPositioned cs 0 pos m').mp hmem
    exact ⟨i, rest, c, hc, hm⟩
  · rintro ⟨i, pos, c, hc, hm⟩
    exact ⟨((0 + i) :: pos, m), (mem_forestPositioned cs 0 _ m).mpr ⟨i, pos, c, rfl, hc, hm⟩, rfl⟩

theorem mem_toList_iff (n m : Node) : m ∈ n.toList ↔ ∃ pos, n.at? pos = some m := by
  rw [← map_snd_positioned, List.mem_map]
  constructor
  · rintro ⟨⟨pos, m'⟩, hmem, rfl⟩
    exact ⟨pos, (mem_positioned n pos m').mp hmem⟩
  · rintro ⟨pos, h⟩
    exact ⟨(pos, m), (mem_positioned n pos m).mpr h, rfl⟩

theorem mem_toList_of_at? {n m : Node} {pos : Position} (h : n.at? pos = some m) : m ∈ n.toList :=
  (mem_toList_iff n m).mpr ⟨pos, h⟩

theorem mem_toList_self (n : Node) : n ∈ n.toList := mem_toList_of_at? (at?_nil n)

theorem toList_subset_of_at? {n m : Node} {pos : Position} (h : n.at? pos = some m) :
    m.toList ⊆ n.toList := by
  intro d hd
  obtain ⟨rest, hrest⟩ := (mem_toList_iff m d).mp hd
  have hall : n.at? (pos ++ rest) = some d := by
    rw [at?_append, h]
    exact hrest
  exact mem_toList_of_at? hall

theorem toList_sublist_of_mem_children {n c : Node} (h : c ∈ n.children) :
    c.toList.Sublist n.toList := by
  cases n
  rw [toList, forestToList_eq]
  exact (List.sublist_flatten_of_mem (List.mem_map_of_mem h)).cons _

theorem toList_subset_of_mem_children {n c : Node} (h : c ∈ n.children) : c.toList ⊆ n.toList :=
  (toList_sublist_of_mem_children h).subset

end Node

end BootAssembly.DeviceTree
