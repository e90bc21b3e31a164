import BootAssembly.BootImage.Layout
import Mathlib.Algebra.Order.Floor.Div
import Mathlib.Order.Bounds.Defs

namespace BootAssembly

def OverflowsOnly {α : Type} (x : Except Fault α) : Prop :=
  ∀ fault, x = .error fault → ∃ what, fault = .integerOverflow what

theorem OverflowsOnly.pure {α : Type} (a : α) : OverflowsOnly (.ok a) := by
  intro fault h
  cases h

theorem OverflowsOnly.bind {α β : Type} {x : Except Fault α} {f : α → Except Fault β}
    (hx : OverflowsOnly x) (hf : ∀ a, OverflowsOnly (f a)) : OverflowsOnly (x >>= f) := by
  cases x with
  | ok a => exact hf a
  | error e =>
    intro fault h
    cases h
    exact hx e rfl

theorem addWord_overflows (a b : UInt32) (what : String) : OverflowsOnly (addWord a b what) := by
  intro fault h
  unfold addWord at h
  split at h
  · cases h
  · exact ⟨what, (Except.error.inj h).symm⟩

theorem sumWords_overflows (words : List UInt32) (what : String) :
    OverflowsOnly (sumWords words what) := by
  suffices ∀ total, OverflowsOnly (words.foldlM (addWord · · what) total) from this 0
  induction words with
  | nil => exact fun total => .pure total
  | cons word words ih =>
    intro total
    rw [List.foldlM_cons]
    exact (addWord_overflows total word what).bind ih

theorem roundUp_overflows {page : UInt32} (hpage : page ≠ 0) (size : UInt32) (what : String) :
    OverflowsOnly (roundUp size page what) := by
  rw [roundUp, if_neg hpage]
  exact (addWord_overflows _ _ what).bind fun _ => .pure _

theorem toNat_add_of_lt {a b : UInt32} (h : a.toNat + b.toNat < UInt32.size) :
    (a + b).toNat = a.toNat + b.toNat := by
  rw [UInt32.toNat_add]
  exact Nat.mod_eq_of_lt h

theorem addWord_eq_ok_iff {a b n : UInt32} {what : String} :
    addWord a b what = .ok n ↔
      a.toNat + b.toNat < UInt32.size ∧ n.toNat = a.toNat + b.toNat := by
  rw [addWord_eq_ok]
  apply and_congr_right
  intro hfits
  rw [← toNat_add_of_lt hfits, UInt32.toNat_inj]

theorem foldlM_addWord_eq_ok {words : List UInt32} {total n : UInt32} {what : String} :
    words.foldlM (addWord · · what) total = .ok n ↔
      total.toNat + (words.map UInt32.toNat).sum < UInt32.size ∧
        n.toNat = total.toNat + (words.map UInt32.toNat).sum := by
  induction words generalizing total with
  | nil =>
    have htotal := total.toNat_lt
    simp only [List.foldlM_nil, List.map_nil, List.sum_nil, Nat.add_zero, UInt32.toNat_inj]
    constructor
    · rintro ⟨⟩
      exact ⟨htotal, rfl⟩
    · rintro ⟨-, rfl⟩
      rfl
  | cons word words ih =>
    simp only [List.foldlM_cons, bind_eq_ok, addWord_eq_ok_iff, ih, List.map_cons, List.sum_cons]
    constructor
    · rintro ⟨next, ⟨-, hnext⟩, hfits, hn⟩
      omega
    · rintro ⟨hfits, hn⟩
      have hword : (total + word).toNat = total.toNat + word.toNat := toNat_add_of_lt (by omega)
      exact ⟨total + word, by omega⟩

theorem sumWords_eq_ok {words : List UInt32} {n : UInt32} {what : String} :
    sumWords words what = .ok n ↔
      (words.map UInt32.toNat).sum < UInt32.size ∧ n.toNat = (words.map UInt32.toNat).sum := by
  rw [sumWords, foldlM_addWord_eq_ok, UInt32.toNat_zero, Nat.zero_add]

def wholePages (page size : Nat) : Nat := page * (size ⌈/⌉ page)

theorem isLeast_wholePages {page : Nat} (hpage : 0 < page) (size : Nat) :
    IsLeast {n | page ∣ n ∧ size ≤ n} (wholePages page size) := by
  refine ⟨⟨Nat.dvd_mul_right _ _, (ceilDiv_le_iff_le_mul hpage).mp (Nat.le_refl _)⟩, ?_⟩
  rintro n ⟨⟨pages, rfl⟩, hsize⟩
  exact Nat.mul_le_mul_left page ((ceilDiv_le_iff_le_mul hpage).mpr hsize)

theorem le_wholePages {page : Nat} (hpage : 0 < page) (size : Nat) : size ≤ wholePages page size :=
  (isLeast_wholePages hpage size).1.2

theorem wholePages_eq {page size padding : Nat} (hwhole : page ∣ size + padding)
    (htight : padding < page) : wholePages page size = size + padding := by
  have hpage : 0 < page := Nat.lt_of_le_of_lt (Nat.zero_le _) htight
  have hleast := isLeast_wholePages hpage size
  apply Nat.le_antisymm (hleast.2 ⟨hwhole, Nat.le_add_right _ _⟩)
  obtain ⟨⟨few, hfew⟩, hsize⟩ := hleast.1
  obtain ⟨many, hmany⟩ := hwhole
  rw [hfew] at hsize ⊢
  rw [hmany]
  apply Nat.mul_le_mul_left
  -- one page fewer would leave some of the bytes out
  by_contra hlt
  have hpages : page * (few + 1) ≤ page * many := Nat.mul_le_mul_left page (by omega)
  rw [Nat.mul_succ] at hpages
  omega

theorem toNat_pos {word : UInt32} (h : word ≠ 0) : 0 < word.toNat :=
  UInt32.lt_iff_toNat_lt.mp (UInt32.pos_iff_ne_zero.mpr h)

theorem roundUp_eq_ok {size page n : UInt32} {what : String} (hpage : page ≠ 0) :
    roundUp size page what = .ok n ↔
      size.toNat + (page.toNat - 1) < UInt32.size ∧
        n.toNat = wholePages page.toNat size.toNat := by
  have hpos := toNat_pos hpage
  have hpred : (page - 1).toNat = page.toNat - 1 :=
    UInt32.toNat_sub_of_le page 1 (UInt32.le_iff_toNat_le.mpr hpos)
  have hrounded {bumped : UInt32} (h : bumped.toNat = size.toNat + (page.toNat - 1)) :
      (bumped / page * page).toNat = wholePages page.toNat size.toNat := by
    have hword := Nat.lt_of_le_of_lt (Nat.div_mul_le_self bumped.toNat page.toNat) bumped.toNat_lt
    rw [UInt32.toNat_mul, UInt32.toNat_div, Nat.mod_eq_of_lt hword, h, wholePages,
      Nat.ceilDiv_eq_add_pred_div, Nat.mul_comm, Nat.add_sub_assoc hpos]
  simp only [roundUp, if_neg hpage, bind_eq_ok, addWord_eq_ok_iff, hpred]
  constructor
  · rintro ⟨bumped, ⟨hfits, hbumped⟩, hn⟩
    cases hn
    exact ⟨hfits, hrounded hbumped⟩
  · rintro ⟨hfits, hn⟩
    have hbumped : (size + (page - 1)).toNat = size.toNat + (page.toNat - 1) := by
      rw [toNat_add_of_lt (by rwa [hpred]), hpred]
    refine ⟨size + (page - 1), ⟨hfits, hbumped⟩, congrArg Except.ok ?_⟩
    exact UInt32.toNat_inj.mp ((hrounded hbumped).trans hn.symm)

theorem exists_roundUp {page : UInt32} (hpage : page ≠ 0) (size : UInt32) (what : String)
    (h : page.toNat + wholePages page.toNat size.toNat < UInt32.size) :
    ∃ n, roundUp size page what = .ok n ∧ n.toNat = wholePages page.toNat size.toNat := by
  have hsize := le_wholePages (toNat_pos hpage) size.toNat
  have hword : (UInt32.ofNat (wholePages page.toNat size.toNat)).toNat =
      wholePages page.toNat size.toNat := UInt32.toNat_ofNat_of_lt' (by omega)
  exact ⟨_, (roundUp_eq_ok hpage).mpr ⟨by omega, hword⟩, hword⟩

theorem exists_addWord (a b : UInt32) (what : String) (h : a.toNat + b.toNat < UInt32.size) :
    ∃ n, addWord a b what = .ok n ∧ n.toNat = a.toNat + b.toNat :=
  ⟨a + b, addWord_eq_ok.mpr ⟨h, rfl⟩, toNat_add_of_lt h⟩

theorem exists_sumWords (words : List UInt32) (what : String)
    (h : (words.map UInt32.toNat).sum < UInt32.size) : ∃ n, sumWords words what = .ok n :=
  ⟨.ofNat _, sumWords_eq_ok.mpr ⟨h, UInt32.toNat_ofNat_of_lt' h⟩⟩

namespace BootImage

namespace Header

variable (h : Header)

def room (size : UInt32) : Nat := wholePages h.pageSize.toNat size.toNat

def ramdiskOffset : Nat := h.pageSize.toNat + h.room h.kernelSize

def secondOffset : Nat := h.ramdiskOffset + h.room h.ramdiskSize

def treeOffset : Nat := h.secondOffset + h.room h.secondSize

def extent : Nat := h.treeOffset + h.room h.deviceTreeSize

end Header

structure Region.Holds (r : Region) (page : UInt32) (offset : Nat) (size : UInt32) : Prop where
  offset_eq : r.offset.toNat = offset
  size_eq : r.size = size
  actual_eq : r.actual.toNat = wholePages page.toNat size.toNat

structure Layout.Exact (l : Layout) (h : Header) : Prop where
  pageSize : l.pageSize = h.pageSize
  kernel : l.kernel.Holds h.pageSize h.pageSize.toNat h.kernelSize
  ramdisk : l.ramdisk.Holds h.pageSize h.ramdiskOffset h.ramdiskSize
  second : l.second.Holds h.pageSize h.secondOffset h.secondSize
  deviceTree : l.deviceTree.Holds h.pageSize h.treeOffset h.deviceTreeSize
  imageSize : l.imageSize.toNat = h.extent

theorem Region.Holds.eq {r s : Region} {page size : UInt32} {offset : Nat}
    (hr : r.Holds page offset size) (hs : s.Holds page offset size) : r = s := by
  obtain ⟨offset, size, actual⟩ := r
  have hoffset := UInt32.toNat_inj.mp (hr.offset_eq.trans hs.offset_eq.symm)
  have hactual := UInt32.toNat_inj.mp (hr.actual_eq.trans hs.actual_eq.symm)
  have hsize := hr.size_eq.trans hs.size_eq.symm
  dsimp only at hoffset hactual hsize
  rw [hoffset, hactual, hsize]

namespace Layout

variable {h : Header} {l : Layout}

theorem Exact.eq {other : Layout} (hl : l.Exact h) (ho : other.Exact h) : l = other := by
  have hsize := UInt32.toNat_inj.mp (hl.imageSize.trans ho.imageSize.symm)
  obtain ⟨pageSize, kernel, ramdisk, second, deviceTree, imageSize⟩ := l
  obtain ⟨hpage, hkernel, hramdisk, hsecond, htree, -⟩ := hl
  dsimp only at hpage hkernel hramdisk hsecond htree hsize
  rw [hkernel.eq ho.kernel, hramdisk.eq ho.ramdisk, hsecond.eq ho.second,
    htree.eq ho.deviceTree, hpage, ← ho.pageSize, hsize]

theorem ofHeader_overflows (hpage : h.pageSize ≠ 0) : OverflowsOnly (ofHeader h) := by
  unfold ofHeader
  refine (roundUp_overflows hpage _ _).bind fun _ => ?_
  refine (roundUp_overflows hpage _ _).bind fun _ => ?_
  refine (roundUp_overflows hpage _ _).bind fun _ => ?_
  refine (roundUp_overflows hpage _ _).bind fun _ => ?_
  refine (addWord_overflows _ _ _).bind fun _ => ?_
  refine (addWord_overflows _ _ _).bind fun _ => ?_
  refine (addWord_overflows _ _ _).bind fun _ => ?_
  exact (sumWords_overflows _ _).bind fun _ => .pure _

theorem exact_of_ofHeader (hpage : h.pageSize ≠ 0) (hl : ofHeader h = .ok l) :
    h.extent < UInt32.size ∧ l.Exact h := by
  obtain ⟨kernel, hkernel, hl⟩ := bind_eq_ok.mp hl
  obtain ⟨ramdisk, hramdisk, hl⟩ := bind_eq_ok.mp hl
  obtain ⟨second, hsecond, hl⟩ := bind_eq_ok.mp hl
  obtain ⟨tree, htree, hl⟩ := bind_eq_ok.mp hl
  obtain ⟨ramdiskOffset, hramdiskOffset, hl⟩ := bind_eq_ok.mp hl
  obtain ⟨secondOffset, hsecondOffset, hl⟩ := bind_eq_ok.mp hl
  obtain ⟨treeOffset, htreeOffset, hl⟩ := bind_eq_ok.mp hl
  obtain ⟨imageSize, himageSize, hl⟩ := bind_eq_ok.mp hl
  cases hl
  have hkernel := ((roundUp_eq_ok hpage).mp hkernel).2
  have hramdisk := ((roundUp_eq_ok hpage).mp hramdisk).2
  have hsecond := ((roundUp_eq_ok hpage).mp hsecond).2
  have htree := ((roundUp_eq_ok hpage).mp htree).2
  have hramdiskOffset := (addWord_eq_ok_iff.mp hramdiskOffset).2
  have hsecondOffset := (addWord_eq_ok_iff.mp hsecondOffset).2
  have htreeOffset := (addWord_eq_ok_iff.mp htreeOffset).2
  -- of all the checks the last one alone bounds the extent
  obtain ⟨hfits, hsum⟩ := sumWords_eq_ok.mp himageSize
  simp only [List.map_cons, List.map_nil, List.sum_cons, List.sum_nil] at hfits hsum
  rw [hkernel] at hramdiskOffset
  rw [hramdiskOffset, hramdisk] at hsecondOffset
  rw [hsecondOffset, hsecond] at htreeOffset
  have hextent : h.pageSize.toNat + (kernel.toNat + (ramdisk.toNat + (second.toNat +
      (tree.toNat + 0)))) = h.extent := by
    simp only [hkernel, hramdisk, hsecond, htree, Header.extent, Header.treeOffset,
      Header.secondOffset, Header.ramdiskOffset, Header.room]
    omega
  rw [hextent] at hfits hsum
  exact ⟨hfits, rfl, ⟨rfl, rfl, hkernel⟩, ⟨hramdiskOffset, rfl, hramdisk⟩,
    ⟨hsecondOffset, rfl, hsecond⟩, ⟨htreeOffset, rfl, htree⟩, hsum⟩

theorem exists_ofHeader (hpage : h.pageSize ≠ 0) (hextent : h.extent < UInt32.size) :
    ∃ l, ofHeader h = .ok l := by
  simp only [Header.extent, Header.treeOffset, Header.secondOffset, Header.ramdiskOffset,
    Header.room] at hextent
  obtain ⟨kernel, hkernel, kernel_eq⟩ := exists_roundUp hpage h.kernelSize "kernel size" (by omega)
  obtain ⟨ramdisk, hramdisk, ramdisk_eq⟩ :=
    exists_roundUp hpage h.ramdiskSize "ramdisk size" (by omega)
  obtain ⟨second, hsecond, second_eq⟩ := exists_roundUp hpage h.secondSize "second size" (by omega)
  obtain ⟨tree, htree, tree_eq⟩ :=
    exists_roundUp hpage h.deviceTreeSize "device tree size" (by omega)
  obtain ⟨ramdiskOffset, hramdiskOffset, ramdiskOffset_eq⟩ :=
    exists_addWord h.pageSize kernel "ramdisk offset" (by omega)
  obtain ⟨secondOffset, hsecondOffset, secondOffset_eq⟩ :=
    exists_addWord ramdiskOffset ramdisk "second offset" (by omega)
  obtain ⟨treeOffset, htreeOffset, treeOffset_eq⟩ :=
    exists_addWord secondOffset second "device tree offset" (by omega)
  obtain ⟨imageSize, himageSize⟩ :=
    exists_sumWords [h.pageSize, kernel, ramdisk, second, tree] "image size" (by
      simp only [List.map_cons, List.map_nil, List.sum_cons, List.sum_nil]
      omega)
  simp only [ofHeader, bind_eq_ok]
  exact ⟨_, kernel, hkernel, ramdisk, hramdisk, second, hsecond, tree, htree, ramdiskOffset,
    hramdiskOffset, secondOffset, hsecondOffset, treeOffset, htreeOffset, imageSize, himageSize, rfl⟩

theorem ofHeader_eq_ok (hpage : h.pageSize ≠ 0) :
    ofHeader h = .ok l ↔ h.extent < UInt32.size ∧ l.Exact h := by
  refine ⟨exact_of_ofHeader hpage, ?_⟩
  rintro ⟨hextent, hl⟩
  obtain ⟨found, hfound⟩ := exists_ofHeader hpage hextent
  rw [hfound, (exact_of_ofHeader hpage hfound).2.eq hl]

end Layout

end BootImage

end BootAssembly
