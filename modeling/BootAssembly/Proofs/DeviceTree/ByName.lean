import BootAssembly.DeviceTree.Node

namespace BootAssembly

structure PutByName {α β : Type} (name : α → String) (wanted : β → String) (new : String → α)
    (update : α → β → α) (put : List α → β → List α) : Prop where
  put_nil : ∀ b, put [] b = [update (new (wanted b)) b]
  put_cons : ∀ x l b, put (x :: l) b = if name x = wanted b then update x b :: l else x :: put l b
  name_new : ∀ s, name (new s) = s
  name_update : ∀ x b, name (update x b) = name x

namespace PutByName

variable {α β : Type} {name : α → String} {wanted : β → String} {new : String → α}
  {update : α → β → α} {put : List α → β → List α}

section

variable (h : PutByName name wanted new update put)

include h

theorem name_foldl (bs : List β) (x : α) : name (bs.foldl update x) = name x := by
  induction bs generalizing x with
  | nil => rfl
  | cons b bs ih => rw [List.foldl_cons, ih, h.name_update]

theorem foldl_cons (x : α) (l : List α) (bs : List β) :
    bs.foldl put (x :: l) = (bs.filter (wanted · = name x)).foldl update x ::
      (bs.filter (wanted · ≠ name x)).foldl put l := by
  induction bs generalizing x l with
  | nil => rfl
  | cons b bs ih =>
    rw [List.foldl_cons, h.put_cons]
    by_cases hb : wanted b = name x
    · rw [if_pos hb.symm, ih, h.name_update]
      simp [hb]
    · rw [if_neg fun e => hb e.symm, ih]
      simp [hb]

theorem foldl_nil (b : β) (bs : List β) :
    (b :: bs).foldl put [] = (b :: bs).foldl put [new (wanted b)] := by
  rw [List.foldl_cons, List.foldl_cons, h.put_nil, h.put_cons, if_pos (h.name_new _)]

theorem find?_put (l : List α) (b : β) (s : String) :
    (put l b).find? (name · = s) =
      if wanted b = s then some (update ((l.find? (name · = s)).getD (new s)) b)
      else l.find? (name · = s) := by
  induction l with
  | nil =>
    rw [h.put_nil, List.find?_singleton, h.name_update, h.name_new]
    by_cases hb : wanted b = s <;> simp [hb]
  | cons x l ih =>
    rw [h.put_cons]
    by_cases hx : name x = wanted b
    · rw [if_pos hx]
      by_cases hb : wanted b = s <;> simp [h.name_update, hx, hb]
    · rw [if_neg hx, List.find?_cons, ih]
      by_cases hb : wanted b = s
      · have hne : name x ≠ s := fun e => hx (e.trans hb.symm)
        simp [hb, hne]
      · by_cases hxs : name x = s <;> simp [hb, hxs]

theorem find?_foldl (bs : List β) (l : List α) (s : String) :
    (bs.foldl put l).find? (name · = s) =
      if bs.filter (wanted · = s) = [] then l.find? (name · = s)
      else some ((bs.filter (wanted · = s)).foldl update
        ((l.find? (name · = s)).getD (new s))) := by
  induction bs generalizing l with
  | nil => rfl
  | cons b bs ih =>
    rw [List.foldl_cons, ih, h.find?_put]
    by_cases hb : wanted b = s
    · by_cases hrest : bs.filter (wanted · = s) = [] <;> simp [hb, hrest]
    · simp [hb]

theorem prefix_map_name (bs : List β) (l : List α) :
    l.map name <+: (bs.foldl put l).map name := by
  induction l generalizing bs with
  | nil => exact List.nil_prefix
  | cons x l ih =>
    rw [h.foldl_cons, List.map_cons, List.map_cons, h.name_foldl]
    exact List.cons_prefix_cons.mpr ⟨rfl, ih _⟩

theorem exists_of_getElem?_ne {bs : List β} {l : List α} {j : Nat} {x y : α}
    (hx : l[j]? = some x) (hy : (bs.foldl put l)[j]? = some y) (hne : y ≠ x) :
    ∃ b ∈ bs, wanted b = name x := by
  induction l generalizing bs j with
  | nil => simp at hx
  | cons z l ih =>
    rw [h.foldl_cons] at hy
    cases j with
    | zero =>
      cases hx
      cases hsame : bs.filter (wanted · = name x) with
      | nil =>
        rw [hsame] at hy
        cases hy
        exact absurd rfl hne
      | cons b same =>
        have hb : b ∈ bs.filter (wanted · = name x) := hsame ▸ List.mem_cons_self
        rw [List.mem_filter] at hb
        exact ⟨b, hb.1, of_decide_eq_true hb.2⟩
    | succ j =>
      obtain ⟨b, hb, hname⟩ := ih hx hy
      exact ⟨b, (List.mem_filter.mp hb).1, hname⟩

theorem foldl_twice_cons {x : α} {l : List α} {bs others : List β}
    (hothers : bs.filter (wanted · ≠ name x) = others)
    (hsame : ∀ same ⊆ bs, same.foldl update (same.foldl update x) = same.foldl update x)
    (hrest : others.foldl put (others.foldl put l) = others.foldl put l) :
    bs.foldl put (bs.foldl put (x :: l)) = bs.foldl put (x :: l) := by
  rw [h.foldl_cons x l, h.foldl_cons, h.name_foldl, hothers, hrest,
    hsame _ List.filter_sublist.subset]

theorem foldl_twice_nil {bs : List β}
    (hsame : ∀ same ⊆ bs, ∀ x, same.foldl update (same.foldl update x) = same.foldl update x) :
    bs.foldl put (bs.foldl put []) = bs.foldl put [] := by
  induction hlength : bs.length using Nat.strongRecOn generalizing bs with
  | ind length ih =>
    cases bs with
    | nil => rfl
    | cons b bs =>
      -- the first item makes the first member, and fewer items are left for the rest of the list
      have hfewer : (bs.filter (wanted · ≠ wanted b)).length < length := by
        have := List.length_filter_le (wanted · ≠ wanted b) bs
        rw [List.length_cons] at hlength
        omega
      have hsub : bs.filter (wanted · ≠ wanted b) ⊆ b :: bs :=
        fun c hc => List.mem_cons_of_mem b (List.filter_sublist.subset hc)
      rw [h.foldl_nil]
      apply h.foldl_twice_cons _ (fun same hsub => hsame same hsub _)
        (ih _ hfewer (fun same hs => hsame same (List.Subset.trans hs hsub)) rfl)
      simp [h.name_new]

theorem foldl_twice {bs : List β}
    (hsame : ∀ same ⊆ bs, ∀ x, same.foldl update (same.foldl update x) = same.foldl update x)
    (l : List α) : bs.foldl put (bs.foldl put l) = bs.foldl put l := by
  induction l generalizing bs with
  | nil => exact h.foldl_twice_nil hsame
  | cons x l ih =>
    refine h.foldl_twice_cons rfl (fun same hsub => hsame same hsub x) (ih fun same hs => ?_)
    exact hsame same (List.Subset.trans hs List.filter_sublist.subset)

end

end PutByName

theorem DeviceTree.Properties.putByName_set :
    PutByName Property.name Property.name (⟨·, []⟩) (fun p q => { p with value := q.value })
      (fun (ps : Properties) q => ps.set q.name q.value) where
  put_nil _ := rfl
  put_cons _ _ _ := rfl
  name_new _ := rfl
  name_update _ _ := rfl

end BootAssembly
