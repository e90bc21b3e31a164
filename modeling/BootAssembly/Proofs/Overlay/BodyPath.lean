import BootAssembly.Proofs.Overlay.Target
import Mathlib.Data.List.Basic

namespace BootAssembly.Overlay

open DeviceTree

def bodyPath (fragment : String) : String := "/" ++ fragment ++ "/" ++ bodyName

def pathTail (names : List String) : List Char := names.flatMap fun name => '/' :: name.toList

theorem toList_foldl_pathBelow {names : List String} (h : ∀ name ∈ names, name ≠ "")
    {parent : String} (hparent : parent ≠ "/") :
    (names.foldl pathBelow parent).toList = parent.toList ++ pathTail names := by
  induction names generalizing parent with
  | nil => simp [pathTail]
  | cons name names ih =>
    rw [List.forall_mem_cons] at h
    have hbelow : pathBelow parent name = parent ++ "/" ++ name := by
      rw [pathBelow, if_neg fun hroot => h.1 hroot.2, if_neg hparent]
    have hne : parent ++ "/" ++ name ≠ "/" := by
      intro heq
      have hlength := congrArg (fun text => text.toList.length) heq
      have hname : name.toList.length ≠ 0 := by simpa using h.1
      simp only [String.toList_append, List.length_append] at hlength
      have hslash : "/".toList.length = 1 := by decide
      omega
    rw [List.foldl_cons, hbelow, ih h.2 hne]
    simp [pathTail]

theorem toList_foldl_pathBelow_root {names : List String} (h : ∀ name ∈ names, name ≠ "")
    (hne : names ≠ []) : (names.foldl pathBelow "/").toList = pathTail names := by
  obtain ⟨name, names, rfl⟩ := List.exists_cons_of_ne_nil hne
  rw [List.forall_mem_cons] at h
  have hbelow : pathBelow "/" name = "/" ++ name := by
    rw [pathBelow, if_neg fun hroot => h.1 hroot.2, if_pos rfl]
  have hlonger : "/" ++ name ≠ "/" := by
    intro heq
    exact h.1 (by simpa using congrArg String.toList heq)
  rw [List.foldl_cons, hbelow, toList_foldl_pathBelow h.2 hlonger]
  simp [pathTail]

def rebaseBy? (path : String) (p : Placed) : Option String :=
  match p.body.toList.isPrefixOf? path.toList with
  | none => none
  | some rest =>
    if rest = [] then some p.target
    else if rest.head? = some '/' then
      some (if p.target = "/" then .ofList rest else p.target ++ .ofList rest)
    else none

theorem rebase?_eq_findSome? (placed : List Placed) (path : String) :
    rebase? placed path = placed.findSome? (rebaseBy? path) := rfl

def PointsInto (fragment path : String) : Prop :=
  path = bodyPath fragment ∨ ((bodyPath fragment).toList ++ ['/']) <+: path.toList

theorem pointsInto_of_rebaseBy? {path moved fragment : String} {p : Placed}
    (hbody : p.body = bodyPath fragment) (h : rebaseBy? path p = some moved) :
    PointsInto fragment path := by
  unfold rebaseBy? at h
  split at h
  · cases h
  · rename_i rest hrest
    have hpath := List.isPrefixOf?_eq_some_iff_append_eq.mp hrest
    rw [hbody] at hpath
    split at h
    · rename_i hnil
      left
      rw [← String.toList_inj, ← hpath, hnil, List.append_nil]
    · split at h
      · rename_i hhead
        right
        obtain ⟨rest, rfl⟩ := List.head?_eq_some_iff.mp hhead
        exact ⟨rest, by rw [← hpath, List.append_assoc]; rfl⟩
      · cases h

theorem rebaseBy?_foldl_pathBelow {names : List String} (h : ∀ name ∈ names, name ≠ "")
    {p : Placed} (hbody : p.body ≠ "/") :
    rebaseBy? (names.foldl pathBelow p.body) p = some (names.foldl pathBelow p.target) := by
  have hrest : p.body.toList.isPrefixOf? (names.foldl pathBelow p.body).toList =
      some (pathTail names) := by
    rw [List.isPrefixOf?_eq_some_iff_append_eq, toList_foldl_pathBelow h hbody]
  rw [rebaseBy?, hrest]
  cases names with
  | nil => rfl
  | cons name names =>
    have hne : pathTail (name :: names) ≠ [] := by simp [pathTail]
    have hhead : (pathTail (name :: names)).head? = some '/' := by simp [pathTail]
    dsimp only
    rw [if_neg hne, if_pos hhead]
    congr 1
    rw [← String.toList_inj]
    split
    · rename_i htarget
      rw [htarget, toList_foldl_pathBelow_root h (List.cons_ne_nil _ _), String.toList_ofList]
    · rename_i htarget
      rw [toList_foldl_pathBelow h htarget, String.toList_append, String.toList_ofList]

theorem eq_of_pointsInto {a b path : String} (ha : '/' ∉ a.toList) (hb : '/' ∉ b.toList)
    (hpa : PointsInto a path) (hpb : PointsInto b path) : a = b := by
  have hfirst : ∀ name : String, '/' ∉ name.toList → PointsInto name path →
      (path.toList.drop 1).takeWhile (· ≠ '/') = name.toList := by
    intro name hname hpoints
    obtain ⟨rest, hpath⟩ : ∃ rest, path.toList = '/' :: (name.toList ++ '/' :: rest) := by
      rcases hpoints with rfl | ⟨rest, hpath⟩
      · exact ⟨bodyName.toList, by simp [bodyPath]⟩
      · exact ⟨bodyName.toList ++ '/' :: rest, by simp [← hpath, bodyPath]⟩
    rw [hpath, List.drop_one, List.tail_cons, takeWhile_ne_append hname]
  rw [← String.toList_inj, ← hfirst a ha hpa, hfirst b hb hpb]

theorem bodyPath_ne_slash (fragment : String) : bodyPath fragment ≠ "/" := by
  intro heq
  have hlength := congrArg (fun text => text.toList.length) heq
  have hslash : "/".toList.length = 1 := by decide
  have hbody : bodyName.toList.length = 11 := by decide
  simp only [bodyPath, String.toList_append, List.length_append] at hlength
  omega

theorem rebase?_foldl_pathBelow {placed : List Placed} {fragment : String} {names : List String}
    (hplaced : ∀ p ∈ placed, ∃ name, '/' ∉ name.toList ∧ p.body = bodyPath name)
    (hnames : ∀ name ∈ names, name ≠ "") (hslash : '/' ∉ fragment.toList) {p : Placed}
    (hp : p ∈ placed) (hbody : p.body = bodyPath fragment) :
    ∃ q ∈ placed, q.body = bodyPath fragment ∧
      rebase? placed (names.foldl pathBelow (bodyPath fragment)) =
        some (names.foldl pathBelow q.target) := by
  have hmoved : ∀ q : Placed, q.body = bodyPath fragment →
      rebaseBy? (names.foldl pathBelow (bodyPath fragment)) q =
        some (names.foldl pathBelow q.target) := by
    intro q hq
    rw [← hq]
    exact rebaseBy?_foldl_pathBelow hnames (hq ▸ bodyPath_ne_slash fragment)
  have hsome : (rebase? placed (names.foldl pathBelow (bodyPath fragment))).isSome := by
    rw [rebase?_eq_findSome?, List.findSome?_isSome_iff]
    exact ⟨p, hp, by rw [hmoved p hbody]; rfl⟩
  obtain ⟨moved, hrebase⟩ := Option.isSome_iff_exists.mp hsome
  -- the entry that moves the path need not be `p`, but its fragment has the same name
  obtain ⟨q, hq, hfirst⟩ := List.exists_of_findSome?_eq_some hrebase
  obtain ⟨name, hname, hqbody⟩ := hplaced q hq
  have hsame : name = fragment :=
    eq_of_pointsInto hname hslash (pointsInto_of_rebaseBy? hqbody hfirst)
      (pointsInto_of_rebaseBy? hbody (hmoved p hbody))
  rw [hsame] at hqbody
  have hvalue := hmoved q hqbody
  rw [show rebaseBy? _ q = some moved from hfirst] at hvalue
  exact ⟨q, hq, hqbody, hrebase.trans hvalue⟩

theorem nul_mem_pathBelow (parent name : String) :
    0 ∈ utf8 (pathBelow parent name) ↔ 0 ∈ utf8 parent ∨ 0 ∈ utf8 name := by
  have hslash : 0 ∉ utf8 "/" := by decide
  have hempty : 0 ∉ utf8 "" := by decide
  unfold pathBelow
  split
  · rename_i hroot
    simp [hroot.1, hroot.2, hslash, hempty]
  · split
    · rename_i hparent
      simp [hparent, utf8_append, hslash]
    · simp [utf8_append, hslash]

theorem nul_mem_foldl_pathBelow (names : List String) (parent : String) :
    0 ∈ utf8 (names.foldl pathBelow parent) ↔
      0 ∈ utf8 parent ∨ ∃ name ∈ names, 0 ∈ utf8 name := by
  induction names generalizing parent with
  | nil => simp
  | cons name names ih => simp [ih, nul_mem_pathBelow, or_assoc]

theorem nul_not_mem_of_textOf {value : Bytes} {text : String} (h : textOf value = .ok text) :
    0 ∉ utf8 text := by
  unfold textOf at h
  split at h
  · cases h
    rw [utf8_of_ofUtf8? ‹_›]
    exact nul_not_mem_untilNul value
  · cases h

theorem nul_not_mem_targetPath {t : DeviceTree} {fragment : Node} {path : String}
    (hnames : ∀ n ∈ t.root.toList, 0 ∉ utf8 n.name) (h : targetPath t fragment = .ok path) :
    0 ∉ utf8 path := by
  unfold targetPath at h
  split at h
  · split at h
    · rename_i hpath
      cases h
      rw [pathOf?_eq] at hpath
      obtain ⟨⟨pos, m⟩, -, rfl⟩ := Option.map_eq_some_iff.mp hpath
      rw [nul_mem_foldl_pathBelow, nul_mem_pathBelow]
      rintro ((hempty | hroot) | ⟨name, hname, hnul⟩)
      · exact absurd hempty (by decide)
      · exact hnames t.root (Node.mem_toList_self _) hroot
      · obtain ⟨n, hn, rfl⟩ := mem_namesAlong hname
        obtain ⟨i, rest, c, hc, hn⟩ := (Node.mem_forestToList_iff _ n).mp hn
        have hat : t.root.at? (i :: rest) = some n := by rw [Node.at?_cons, hc]; exact hn
        exact hnames n (Node.mem_toList_of_at? hat) hnul
    · cases h
  · split at h
    · exact nul_not_mem_of_textOf h
    · cases h

theorem textOf_nulTerminated {text : String} (h : 0 ∉ utf8 text) :
    textOf (nulTerminated text) = .ok text := by
  rw [textOf, nulTerminated, untilNul_append h, ofUtf8?_utf8]

end BootAssembly.Overlay
