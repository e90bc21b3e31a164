import BootAssembly.Proofs.Deflate.Stored

namespace BootAssembly.Deflate

theorem lowBits_inj {n v w : Nat} (hv : v < 2 ^ n) (hw : w < 2 ^ n) (h : lowBits n v = lowBits n w) :
    v = w := by
  have hread := takeNumber_lowBits hv []
  rw [h, takeNumber_lowBits hw] at hread
  cases hread
  rfl

namespace PrefixCode

def Diverge (v w : Bits) : Prop := ¬ v <+: w ∧ ¬ w <+: v

theorem Diverge.symm {v w : Bits} (h : Diverge v w) : Diverge w v := And.symm h

def Decodes (code : PrefixCode) (word : Bits) (symbol : Nat) : Prop :=
  ∀ rest, code.decode (word ++ rest) = some (symbol, rest)

section Insertion

variable {code : PrefixCode} {word other : Bits} {symbol new : Nat}

theorem decodes_insert (symbol : Nat) (word : Bits) (code : PrefixCode) :
    (code.insert symbol word).Decodes word symbol := by
  induction word generalizing code with
  | nil => exact fun _ => rfl
  | cons b word ih =>
    intro rest
    cases b with
    | false => exact ih (code.branch false) rest
    | true => exact ih (code.branch true) rest

theorem Decodes.branch {b : Bool} (h : code.Decodes (b :: word) symbol) :
    (code.branch b).Decodes word symbol := by
  intro rest
  have hrest := h rest
  cases code with
  | empty => cases hrest
  | leaf s =>
    have hlength := congrArg (Option.elim · 0 (·.2.length)) hrest
    simp only [decode, Option.elim_some, List.length_cons, List.length_append] at hlength
    omega
  | fork zero one => cases b <;> exact hrest

theorem Decodes.insert (h : code.Decodes word symbol) (hdiverge : Diverge word other) :
    (code.insert new other).Decodes word symbol := by
  induction other generalizing code word with
  | nil => exact absurd List.nil_prefix hdiverge.2
  | cons c other ih =>
    cases word with
    | nil => exact absurd List.nil_prefix hdiverge.1
    | cons b word =>
      have hbelow : b = c → Diverge word other := by
        rintro rfl
        rwa [Diverge, List.prefix_cons_inj, List.prefix_cons_inj] at hdiverge
      intro rest
      cases b <;> cases c
      · exact ih h.branch (hbelow rfl) rest
      · exact h.branch rest
      · exact h.branch rest
      · exact ih h.branch (hbelow rfl) rest

theorem Decodes.foldl {ws : List (Bits × Nat)} (h : code.Decodes word symbol)
    (hdiverge : ∀ w ∈ ws, Diverge word w.1) :
    (ws.foldl (fun code (word, symbol) => code.insert symbol word) code).Decodes word symbol := by
  induction ws generalizing code with
  | nil => exact h
  | cons w ws ih =>
    rw [List.forall_mem_cons] at hdiverge
    exact ih (h.insert hdiverge.1) hdiverge.2

theorem decodes_foldl {ws : List (Bits × Nat)} (hws : ws.Pairwise fun v w => Diverge v.1 w.1)
    (hword : (word, symbol) ∈ ws) (code : PrefixCode) :
    (ws.foldl (fun code (word, symbol) => code.insert symbol word) code).Decodes word symbol := by
  induction ws generalizing code with
  | nil => cases hword
  | cons w ws ih =>
    obtain ⟨hfirst, hws⟩ := List.pairwise_cons.mp hws
    rcases List.mem_cons.mp hword with rfl | hword
    · exact (decodes_insert symbol word code).foldl hfirst
    · exact ih hws hword _

end Insertion

section Numbering

variable {lengths : List Nat} {length symbol : Nat}

/-- The canonical word of a symbol: those of one length are numbered in the order of their symbols. -/
def wordOf (lengths : List Nat) (length symbol : Nat) : Bits :=
  (lowBits length (firstWord lengths length + (lengths.take symbol).count length)).reverse

theorem diverge_lowBits {m d n k : Nat} (hn : n < 2 ^ m) (hk : k < 2 ^ (m + d))
    (hbetween : n ≠ k / 2 ^ d) :
    Diverge (lowBits m n).reverse (lowBits (m + d) k).reverse := by
  have hfront : (lowBits (m + d) k).reverse =
      (lowBits m (k / 2 ^ d)).reverse ++ (lowBits d k).reverse := by
    rw [Nat.add_comm m d, lowBits_add, List.reverse_append]
  have hshort : k / 2 ^ d < 2 ^ m := by
    rw [Nat.div_lt_iff_lt_mul (Nat.two_pow_pos d), ← Nat.pow_add]
    exact hk
  have hbegins : ¬ (lowBits m n).reverse <+: (lowBits (m + d) k).reverse := by
    intro h
    rw [hfront] at h
    have hsame := (List.prefix_of_prefix_length_le h (List.prefix_append _ _) (by simp)).eq_of_length
      (by simp)
    exact hbetween (lowBits_inj hn hshort (List.reverse_inj.mp hsame))
  refine ⟨hbegins, fun h => hbegins ?_⟩
  have hlength := h.length_le
  rw [List.length_reverse, List.length_reverse, length_lowBits, length_lowBits] at hlength
  have hsame := h.eq_of_length (by rw [List.length_reverse, List.length_reverse, length_lowBits,
    length_lowBits, Nat.le_antisymm hlength (Nat.le_add_right m d)])
  exact hsame ▸ List.prefix_rfl

theorem firstWord_mul_le (hlength : length ≠ 0) (d : Nat) :
    (firstWord lengths length + lengths.count length) * 2 ^ (d + 1) ≤
      firstWord lengths (length + (d + 1)) := by
  induction d with
  | zero =>
    rw [firstWord, if_neg hlength]
    omega
  | succ d ih =>
    rw [← Nat.add_assoc length, firstWord, Nat.pow_succ, ← Nat.mul_assoc]
    omega

def Fits (lengths : List Nat) : Prop :=
  firstWord lengths (maxLength + 1) ≤ 2 ^ (maxLength + 1)

theorem Fits.le_two_pow (h : Fits lengths) (hpos : length ≠ 0) (hmax : length ≤ maxLength) :
    firstWord lengths length + lengths.count length ≤ 2 ^ length := by
  obtain ⟨d, hd⟩ := Nat.exists_eq_add_of_le hmax
  have hspace : (firstWord lengths length + lengths.count length) * 2 ^ (d + 1) ≤
      2 ^ (maxLength + 1) := by
    refine Nat.le_trans (firstWord_mul_le hpos d) ?_
    rw [← Nat.add_assoc, ← hd]
    exact h
  rw [hd, Nat.add_assoc, Nat.pow_add 2 length] at hspace
  exact Nat.le_of_mul_le_mul_right hspace (Nat.two_pow_pos _)

theorem length_symbolsOf (lengths : List Nat) (length : Nat) :
    (symbolsOf lengths length).length = lengths.count length := by
  have hcount : (lengths.zipIdx.map Prod.fst).count length = lengths.count length := by
    rw [List.zipIdx_map_fst]
  rw [symbolsOf, List.length_map, ← List.countP_eq_length_filter, ← hcount, List.count,
    List.countP_map]
  rfl

theorem bounds_of_mem_zipIdx {n : Nat}
    (h : (symbol, n) ∈ (symbolsOf lengths length).zipIdx (firstWord lengths length)) :
    firstWord lengths length ≤ n ∧ n < firstWord lengths length + lengths.count length := by
  obtain ⟨hfirst, hlast, -⟩ := List.mem_zipIdx h
  rw [length_symbolsOf] at hlast
  exact ⟨hfirst, hlast⟩

theorem pairwise_words (h : Fits lengths) :
    (words lengths).Pairwise fun v w => Diverge v.1 w.1 := by
  have hspace {length : Nat} (hmem : length ∈ List.range' 1 maxLength) :
      firstWord lengths length + lengths.count length ≤ 2 ^ length := by
    rw [List.mem_range'_1] at hmem
    exact h.le_two_pow (by omega) (by omega)
  rw [words, List.pairwise_flatMap]
  constructor
  · intro length hlength
    rw [List.pairwise_map]
    have hnumbers : ((symbolsOf lengths length).zipIdx (firstWord lengths length)).Pairwise
        fun v w => v.2 < w.2 := by
      rw [← List.pairwise_map, List.zipIdx_map_snd]
      exact List.pairwise_lt_range'
    apply hnumbers.imp_of_mem
    rintro ⟨_, n⟩ ⟨_, k⟩ hn hk hlt
    have hn := Nat.lt_of_lt_of_le (bounds_of_mem_zipIdx hn).2 (hspace hlength)
    have hk := Nat.lt_of_lt_of_le (bounds_of_mem_zipIdx hk).2 (hspace hlength)
    apply diverge_lowBits (d := 0) hn hk
    rw [Nat.pow_zero, Nat.div_one]
    exact Nat.ne_of_lt hlt
  · apply List.Pairwise.imp_of_mem ?_ List.pairwise_lt_range'
    intro length longer hlength hlonger hlt v hv w hw
    obtain ⟨⟨_, n⟩, hn, rfl⟩ := List.mem_map.mp hv
    obtain ⟨⟨_, k⟩, hk, rfl⟩ := List.mem_map.mp hw
    obtain ⟨d, rfl⟩ := Nat.exists_eq_add_of_lt hlt
    have hpos : length ≠ 0 := by
      rw [List.mem_range'_1] at hlength
      omega
    obtain ⟨-, hn⟩ := bounds_of_mem_zipIdx hn
    obtain ⟨hfirst, hk⟩ := bounds_of_mem_zipIdx hk
    -- the longer words go on behind the end of the shorter ones
    have hbehind := Nat.le_trans (firstWord_mul_le hpos d) hfirst
    rw [← Nat.le_div_iff_mul_le (Nat.two_pow_pos _)] at hbehind
    exact diverge_lowBits (Nat.lt_of_lt_of_le hn (hspace hlength))
      (Nat.lt_of_lt_of_le hk (hspace hlonger)) (Nat.ne_of_lt (Nat.lt_of_lt_of_le hn hbehind))

theorem mem_zipIdx_symbols {as : List Nat} {i : Nat} (h : as[i]? = some length)
    (base start : Nat) :
    (base + i, start + (as.take i).count length) ∈
      (((as.zipIdx base).filter fun (l, _) => l == length).map (·.2)).zipIdx start := by
  induction as generalizing i base start with
  | nil => cases h
  | cons a as ih =>
    rw [List.zipIdx_cons, List.filter_cons]
    cases i with
    | zero =>
      cases h
      simp
    | succ i =>
      have hrest (start : Nat) := ih h (base + 1) start
      by_cases ha : a = length
      · have hnext := hrest (start + 1)
        subst ha
        simp only [beq_self_eq_true, if_true, List.map_cons, List.zipIdx_cons, List.take_succ_cons,
          List.count_cons_self]
        rw [Nat.add_right_comm base 1 i, Nat.add_right_comm start 1] at hnext
        exact List.mem_cons_of_mem _ hnext
      · have hnext := hrest start
        simp only [beq_eq_false_iff_ne.mpr ha, Bool.false_eq_true, if_false, List.take_succ_cons,
          List.count_cons_of_ne ha]
        rwa [Nat.add_right_comm base 1 i] at hnext

theorem wordOf_mem (h : lengths[symbol]? = some length) (hpos : length ≠ 0)
    (hmax : length ≤ maxLength) : (wordOf lengths length symbol, symbol) ∈ words lengths := by
  have hsymbol := mem_zipIdx_symbols h 0 (firstWord lengths length)
  rw [Nat.zero_add] at hsymbol
  refine List.mem_flatMap.mpr ⟨length, ?_, List.mem_map.mpr ⟨_, hsymbol, rfl⟩⟩
  rw [List.mem_range'_1]
  omega

theorem fits_of_isComplete (h : IsComplete lengths) : Fits lengths := Nat.le_of_eq h

theorem countP_below_succ (hlength : length ≠ 0) (as : List Nat) :
    as.countP (fun l => 0 < l ∧ l < length + 1) =
      as.countP (fun l => 0 < l ∧ l < length) + as.count length := by
  induction as with
  | nil => rfl
  | cons a as ih =>
    rw [List.countP_cons, List.countP_cons, List.count_cons, ih]
    simp only [decide_eq_true_eq, beq_iff_eq]
    split <;> split <;> split <;> omega

theorem firstWord_le (lengths : List Nat) (length : Nat) :
    firstWord lengths length ≤ 2 ^ length * lengths.countP fun l => 0 < l ∧ l < length := by
  induction length with
  | zero => exact Nat.zero_le _
  | succ length ih =>
    rw [firstWord]
    by_cases hlength : length = 0
    · subst hlength
      exact Nat.zero_le _
    · have hgrow := Nat.mul_le_mul_right (lengths.count length) (Nat.one_le_two_pow (n := length))
      rw [if_neg hlength, countP_below_succ hlength, Nat.pow_succ', Nat.mul_assoc,
        Nat.mul_add (2 ^ length)]
      omega

theorem fits_of_used_le_one (h : used lengths ≤ 1) : Fits lengths := by
  have hbelow : lengths.countP (fun l => 0 < l ∧ l < maxLength + 1) ≤ used lengths := by
    apply List.countP_mono_left
    intro l _ hl
    simp only [decide_eq_true_eq] at hl ⊢
    exact hl.1
  calc firstWord lengths (maxLength + 1)
      ≤ 2 ^ (maxLength + 1) * lengths.countP fun l => 0 < l ∧ l < maxLength + 1 :=
        firstWord_le lengths _
    _ ≤ 2 ^ (maxLength + 1) * 1 := Nat.mul_le_mul_left _ (Nat.le_trans hbelow h)
    _ = 2 ^ (maxLength + 1) := Nat.mul_one _

theorem decodes_ofWords (h : Fits lengths) (hsymbol : lengths[symbol]? = some length)
    (hpos : length ≠ 0) (hmax : length ≤ maxLength) :
    (ofWords (words lengths)).Decodes (wordOf lengths length symbol) symbol :=
  decodes_foldl (pairwise_words h) (wordOf_mem hsymbol hpos hmax) empty

theorem exists_split_of_used_le_one (h : used lengths ≤ 1) (hsymbol : lengths[symbol]? = some length)
    (hpos : length ≠ 0) :
    ∃ front back, lengths = front ++ length :: back ∧ lengths.take symbol = front ∧
      (∀ l ∈ front, l = 0) ∧ ∀ l ∈ back, l = 0 := by
  obtain ⟨hlt, rfl⟩ := List.getElem?_eq_some_iff.mp hsymbol
  have hsplit : lengths = lengths.take symbol ++ lengths[symbol] :: lengths.drop (symbol + 1) := by
    rw [← List.drop_eq_getElem_cons hlt, List.take_append_drop]
  have hused := h
  rw [used, hsplit, List.countP_append, List.countP_cons,
    if_pos (decide_eq_true (Nat.pos_of_ne_zero hpos))] at hused
  have hfront : (lengths.take symbol).countP (0 < ·) = 0 := by omega
  have hback : (lengths.drop (symbol + 1)).countP (0 < ·) = 0 := by omega
  simp only [List.countP_eq_zero, decide_eq_true_eq, Nat.not_lt, Nat.le_zero_eq] at hfront hback
  exact ⟨_, _, hsplit, rfl, hfront, hback⟩

theorem firstWord_eq_zero (h : ∀ l, l ≠ 0 → l < length → lengths.count l = 0) :
    firstWord lengths length = 0 := by
  induction length with
  | zero => rfl
  | succ length ih =>
    rw [firstWord, ih fun l hl hlt => h l hl (Nat.lt_succ_of_lt hlt)]
    split
    · rfl
    · rw [h length ‹_› (Nat.lt_succ_self length)]

theorem foldl_add_of_eq_zero {as : List Nat} (h : ∀ a ∈ as, a = 0) (n : Nat) :
    as.foldl (· + ·) n = n := by
  induction as generalizing n with
  | nil => rfl
  | cons a as ih =>
    rw [List.forall_mem_cons] at h
    rw [List.foldl_cons, h.1, Nat.add_zero, ih h.2]

theorem wordOf_of_used_le_one (h : used lengths ≤ 1) (hsymbol : lengths[symbol]? = some length)
    (hpos : length ≠ 0) : wordOf lengths length symbol = List.replicate length false := by
  obtain ⟨front, back, rfl, htake, hfront, hback⟩ := exists_split_of_used_le_one h hsymbol hpos
  have hcount {as : List Nat} {l : Nat} (hl : l ≠ 0) (has : ∀ a ∈ as, a = 0) : as.count l = 0 :=
    List.count_eq_zero.mpr fun hmem => hl (has l hmem)
  have hfirst : firstWord (front ++ length :: back) length = 0 := by
    apply firstWord_eq_zero
    intro l hl hshorter
    rw [List.count_append, List.count_cons_of_ne (Nat.ne_of_gt hshorter), hcount hl hfront,
      hcount hl hback]
  rw [wordOf, hfirst, htake, hcount hpos hfront, lowBits_zero, List.reverse_replicate]

theorem diverge_strayWords (h : used lengths ≤ 1) (hsymbol : lengths[symbol]? = some length)
    (hpos : length ≠ 0) :
    ∀ w ∈ strayWords lengths, Diverge (wordOf lengths length symbol) w.1 := by
  have hsum : lengths.foldl (· + ·) 0 = length := by
    obtain ⟨front, back, rfl, -, hfront, hback⟩ := exists_split_of_used_le_one h hsymbol hpos
    rw [List.foldl_append, foldl_add_of_eq_zero hfront, List.foldl_cons,
      foldl_add_of_eq_zero hback, Nat.zero_add]
  intro w hw
  rw [wordOf_of_used_le_one h hsymbol hpos]
  unfold strayWords at hw
  split at hw
  · obtain ⟨zeros, hzeros, rfl⟩ := List.mem_map.mp hw
    rw [List.mem_range'_1, hsum] at hzeros
    have hmem : true ∈ List.replicate zeros false ++ [true] := List.mem_concat_self
    have hnone : true ∉ List.replicate length false := by simp
    refine ⟨fun hbegins => ?_, fun hbegins => hnone (hbegins.mem hmem)⟩
    have hlength := hbegins.length_le
    rw [List.length_append, List.length_replicate, List.length_replicate] at hlength
    have hsame := hbegins.eq_of_length (by
      rw [List.length_append, List.length_replicate, List.length_replicate, List.length_singleton]
      change length ≤ zeros + 1 at hlength
      omega)
    exact hnone (hsame ▸ hmem)
  · cases hw

/-- Lengths that use up the code space give a code that reads every canonical word back as its
symbol, and so does a lone length. -/
theorem exists_decodes (h : used lengths ≤ 1 ∨ IsComplete lengths) :
    ∃ code, ofLengths? lengths = some code ∧
      ∀ symbol length, lengths[symbol]? = some length → length ≠ 0 → length ≤ maxLength →
        code.Decodes (wordOf lengths length symbol) symbol := by
  by_cases hused : used lengths ≤ 1
  · refine ⟨_, if_pos hused, fun symbol length hsymbol hpos hmax => ?_⟩
    have hword := decodes_ofWords (fits_of_used_le_one hused) hsymbol hpos hmax
    rw [ofWords, List.foldl_append]
    exact hword.foldl (diverge_strayWords hused hsymbol hpos)
  · have hcomplete := h.resolve_left hused
    refine ⟨_, (if_neg hused).trans (if_pos hcomplete), fun symbol length hsymbol hpos hmax => ?_⟩
    exact decodes_ofWords (fits_of_isComplete hcomplete) hsymbol hpos hmax

example : wordOf [3, 3, 3, 3, 3, 2, 4, 4] 4 6 = [true, true, true, false] := by decide

end Numbering

end PrefixCode

end BootAssembly.Deflate
