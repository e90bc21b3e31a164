import BootAssembly.Proofs.Overlay.Union
import Mathlib.Data.List.Find

namespace BootAssembly.DeviceTree

namespace Node

def seek? (means : Node → String → Bool) : List String → Node → Option Position
  | [], _ => some []
  | name :: names, n =>
    (n.children.findIdx? (means · name)).bind fun i =>
      n.children[i]?.bind fun c => (seek? means names c).map (i :: ·)

def trail? : List String → Node → Option Position := seek? fun n name => n.name = name

def Unelided (root : Node) : Prop :=
  ∀ n ∈ root.toList, ∀ c ∈ n.children, ∀ d ∈ n.children, d.name ≠ c.name → stem d.name ≠ c.name

theorem locate?_eq_seek? : locate? = seek? answersTo := by
  funext names n
  induction names generalizing n with
  | nil => rfl
  | cons name names ih => simp only [locate?, seek?, ih]

theorem seek?_cons_eq_some {means : Node → String → Bool} {name : String} {names : List String}
    {n : Node} {pos : Position} :
    seek? means (name :: names) n = some pos ↔ ∃ i c rest,
      n.children.findIdx? (means · name) = some i ∧ n.children[i]? = some c ∧
        seek? means names c = some rest ∧ pos = i :: rest := by
  simp only [seek?, Option.bind_eq_some_iff, Option.map_eq_some_iff]
  constructor
  · rintro ⟨i, hi, c, hc, rest, hrest, rfl⟩
    exact ⟨i, c, rest, hi, hc, hrest, rfl⟩
  · rintro ⟨i, c, rest, hi, hc, hrest, rfl⟩
    exact ⟨i, hi, c, hc, rest, hrest, rfl⟩

theorem seek?_append {means : Node → String → Bool} {names more : List String} {n m : Node}
    {pos rest : Position} (h : seek? means names n = some pos) (hm : n.at? pos = some m)
    (hmore : seek? means more m = some rest) :
    seek? means (names ++ more) n = some (pos ++ rest) := by
  induction names generalizing n pos with
  | nil =>
    cases h
    cases hm
    exact hmore
  | cons name names ih =>
    obtain ⟨i, c, below, hi, hc, hbelow, rfl⟩ := seek?_cons_eq_some.mp h
    rw [at?_cons, hc] at hm
    exact seek?_cons_eq_some.mpr ⟨i, c, below ++ rest, hi, hc, ih hbelow hm, rfl⟩

theorem locate?_append {names more : List String} {n m : Node} {pos rest : Position}
    (h : n.locate? names = some pos) (hm : n.at? pos = some m)
    (hmore : m.locate? more = some rest) : n.locate? (names ++ more) = some (pos ++ rest) := by
  rw [locate?_eq_seek?] at h hmore ⊢
  exact seek?_append h hm hmore

theorem Grows.findIdx? {t t' : Node} (h : t.Grows t') {p : Node → Bool}
    (hp : ∀ m n : Node, m.name = n.name → p m = p n) {i : Nat}
    (hi : t.children.findIdx? p = some i) : t'.children.findIdx? p = some i := by
  have hname : p = (fun name => p (.new name)) ∘ Node.name :=
    funext fun n => hp n (.new n.name) rfl
  rw [hname, ← List.findIdx?_map] at hi ⊢
  exact h.map_name_children.findIdx?_eq_some hi

theorem Grows.seek? {t t' : Node} (h : t.Grows t') {means : Node → String → Bool}
    (hmeans : ∀ m n name, m.name = n.name → means m name = means n name) {names : List String}
    {pos : Position} (hpos : t.seek? means names = some pos) : t'.seek? means names = some pos := by
  induction names generalizing t t' pos with
  | nil => exact hpos
  | cons name names ih =>
    obtain ⟨i, c, rest, hi, hc, hrest, rfl⟩ := seek?_cons_eq_some.mp hpos
    obtain ⟨c', hc', hgrows⟩ := h.child hc
    have hi' := h.findIdx? (fun m n => hmeans m n name) hi
    exact seek?_cons_eq_some.mpr ⟨i, c', rest, hi', hc', ih hgrows hrest, rfl⟩

theorem answersTo_congr {m n : Node} (name : String) (h : m.name = n.name) :
    m.answersTo name = n.answersTo name := by
  rw [answersTo, answersTo, h]

theorem Grows.locate? {t t' : Node} (h : t.Grows t') {names : List String} {pos : Position}
    (hpos : t.locate? names = some pos) : t'.locate? names = some pos := by
  rw [locate?_eq_seek?] at hpos ⊢
  exact h.seek? (fun m n name hname => answersTo_congr name hname) hpos

theorem Grows.trail? {t t' : Node} (h : t.Grows t') {names : List String} {pos : Position}
    (hpos : t.trail? names = some pos) : t'.trail? names = some pos :=
  h.seek? (fun m n name hname => by simp [hname]) hpos

theorem Grows.trail?_of_at? {t t' m : Node} (h : t.Grows t') {names : List String}
    {pos : Position} (hm : t.at? pos = some m) (hpos : t'.trail? names = some pos) :
    t.trail? names = some pos := by
  induction names generalizing t t' pos with
  | nil => exact hpos
  | cons name names ih =>
    obtain ⟨i, c', rest, hi, hc', hrest, rfl⟩ := seek?_cons_eq_some.mp hpos
    obtain ⟨c, hc, hm⟩ := Option.bind_eq_some_iff.mp hm
    obtain ⟨d, hd, hgrows⟩ := h.child hc
    rw [hc'] at hd
    cases hd
    exact seek?_cons_eq_some.mpr ⟨i, c, rest, (h.findIdx?_name_iff hc name).mp hi, hc,
      ih hgrows hm hrest, rfl⟩

theorem Unelided.below {n m : Node} (h : n.Unelided) (hm : m ∈ n.toList) : m.Unelided := by
  obtain ⟨pos, hpos⟩ := (mem_toList_iff n m).mp hm
  exact fun d hd => h d (toList_subset_of_at? hpos hd)

theorem Unelided.answersTo {n c d : Node} (h : n.Unelided) (hc : c ∈ n.children)
    (hd : d ∈ n.children) : d.answersTo c.name = decide (d.name = c.name) := by
  have hstem := h n (mem_toList_self n) c hc d hd
  by_cases hname : d.name = c.name
  · simp [Node.answersTo, hname]
  · simp [Node.answersTo, hname, hstem hname]

theorem Unelided.locate?_of_trail? {n : Node} (h : n.Unelided) {names : List String}
    {pos : Position} (hpos : n.trail? names = some pos) : n.locate? names = some pos := by
  rw [locate?_eq_seek?]
  induction names generalizing n pos with
  | nil => exact hpos
  | cons name names ih =>
    obtain ⟨i, c, rest, hi, hc, hrest, rfl⟩ := seek?_cons_eq_some.mp hpos
    have hmem := List.mem_of_getElem? hc
    obtain ⟨hlt, hfirst, hbefore⟩ := List.findIdx?_eq_some_iff_getElem.mp hi
    have hname : name = c.name := by
      rw [(List.getElem?_eq_some_iff.mp hc).2] at hfirst
      exact (of_decide_eq_true hfirst).symm
    subst hname
    have hsame : n.children.findIdx? (·.answersTo c.name) = some i := by
      rw [List.findIdx?_eq_some_iff_getElem]
      refine ⟨hlt, ?_, fun j hj => ?_⟩
      · rwa [h.answersTo hmem (List.getElem_mem hlt)]
      · rw [h.answersTo hmem (List.getElem_mem _)]
        exact hbefore j hj
    exact seek?_cons_eq_some.mpr ⟨i, c, rest, hsame, hc,
      ih (h.below (toList_subset_of_mem_children hmem (mem_toList_self c))) hrest, rfl⟩

theorem follow?_eq_some {names : List String} {n m : Node} :
    n.follow? names = some m ↔ ∃ pos, n.trail? names = some pos ∧ n.at? pos = some m := by
  induction names generalizing n with
  | nil => simp [follow?, trail?, seek?, eq_comm]
  | cons name names ih =>
    rw [follow?, Option.bind_eq_some_iff]
    constructor
    · rintro ⟨c, hc, hm⟩
      obtain ⟨rest, hrest, hm⟩ := ih.mp hm
      rw [find?_eq_getElem?] at hc
      obtain ⟨i, hi, hc⟩ := Option.bind_eq_some_iff.mp hc
      exact ⟨i :: rest, seek?_cons_eq_some.mpr ⟨i, c, rest, hi, hc, hrest, rfl⟩, by simp [hc, hm]⟩
    · rintro ⟨pos, hpos, hm⟩
      obtain ⟨i, c, rest, hi, hc, hrest, rfl⟩ := seek?_cons_eq_some.mp hpos
      rw [at?_cons, hc] at hm
      exact ⟨c, by rw [find?_eq_getElem?, hi]; exact hc, ih.mpr ⟨rest, hrest, hm⟩⟩

theorem Unelided.child?_eq_find? {n n' c : Node} (h : n'.Unelided) (hgrows : n.Grows n')
    (hc : c ∈ n'.children) : n.child? c.name = n.children.find? (·.name = c.name) := by
  apply List.find?_congr
  intro d hd
  obtain ⟨d', hd', hname⟩ :=
    List.mem_map.mp (hgrows.map_name_children.subset (List.mem_map_of_mem hd))
  rw [answersTo_congr c.name hname.symm, h.answersTo hc hd', hname]

theorem name_of_follow? {names : List String} {n m : Node} (h : n.follow? names = some m)
    {name : String} (hname : name ∈ names) : ∃ c ∈ forestToList n.children, c.name = name := by
  induction names generalizing n with
  | nil => cases hname
  | cons first names ih =>
    obtain ⟨c, hc, h⟩ := Option.bind_eq_some_iff.mp h
    have hmem := List.mem_of_find?_eq_some hc
    rw [forestToList_eq]
    rcases List.mem_cons.mp hname with rfl | hname
    · have hfirst := List.find?_some hc
      exact ⟨c, List.mem_flatMap.mpr ⟨c, hmem, mem_toList_self c⟩, of_decide_eq_true hfirst⟩
    · obtain ⟨d, hd, rfl⟩ := ih h hname
      rw [forestToList_eq] at hd
      obtain ⟨e, he, hd⟩ := List.mem_flatMap.mp hd
      exact ⟨d, List.mem_flatMap.mpr ⟨c, hmem, toList_subset_of_mem_children he hd⟩, rfl⟩

theorem Unambiguous.below {n m : Node} (h : n.Unambiguous) (hm : m ∈ n.toList) :
    m.Unambiguous := by
  obtain ⟨pos, hpos⟩ := (mem_toList_iff n m).mp hm
  exact ⟨fun d hd => h.properties d (toList_subset_of_at? hpos hd),
    fun d hd => h.children d (toList_subset_of_at? hpos hd)⟩

end Node

end BootAssembly.DeviceTree

namespace BootAssembly.Overlay

open DeviceTree

theorem trail?_merge {source s : Node} (h : source.Unambiguous) {names : List String}
    (hs : source.follow? names = some s) (target : Node) :
    ∃ pos, (merge source target).trail? names = some pos ∧
      (merge source target).at? pos = some (merge s ((target.at? pos).getD (.new s.name))) := by
  have hgrows := (draws_merge source target).grows
  have hmerged := follow?_merge h target names
  rw [hs] at hmerged
  obtain ⟨pos, hpos, hat⟩ := Node.follow?_eq_some.mp hmerged
  refine ⟨pos, hpos, ?_⟩
  -- what the names led to before the merge stood at the same position then
  suffices target.follow? names = target.at? pos by rw [hat, this]
  cases htarget : target.at? pos with
  | some m => exact Node.follow?_eq_some.mpr ⟨pos, hgrows.trail?_of_at? htarget hpos, htarget⟩
  | none =>
    rw [Option.eq_none_iff_forall_ne_some]
    intro m hm
    obtain ⟨before, hbefore, hm⟩ := Node.follow?_eq_some.mp hm
    have hsame := hgrows.trail? hbefore
    rw [hpos, Option.some.injEq] at hsame
    rw [← hsame, htarget] at hm
    cases hm

end BootAssembly.Overlay
