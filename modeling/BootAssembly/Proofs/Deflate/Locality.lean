import BootAssembly.Proofs.Deflate.Bound

namespace BootAssembly.Deflate

def Aligned (more rest : Bits) : Prop := more.length % 8 = rest.length % 8

/-- A reader that looks at nothing behind what it takes, except at where the bytes end. -/
structure Local {α : Type} (read : Bits → Option (α × Bits)) : Prop where
  taken : ∀ {bits a rest}, read bits = some (a, rest) →
    ∃ used, bits = used ++ rest ∧ ∀ more, Aligned more rest → read (used ++ more) = some (a, more)

theorem Aligned.append {more rest : Bits} (h : Aligned more rest) (used : Bits) :
    Aligned (used ++ more) (used ++ rest) := by
  simp only [Aligned, List.length_append] at h ⊢
  omega

namespace Local

variable {α β : Type} {read : Bits → Option (α × Bits)}

theorem pure (a : α) : Local fun bits => some (a, bits) := by
  refine ⟨fun {bits b rest} h => ?_⟩
  cases h
  exact ⟨[], rfl, fun more _ => rfl⟩

theorem none : Local fun _ => (.none : Option (α × Bits)) := by
  refine ⟨fun {bits a rest} h => ?_⟩
  cases h

theorem congr (hread : Local read) {same : Bits → Option (α × Bits)}
    (h : ∀ bits, same bits = read bits) : Local same := by
  rw [funext h]
  exact hread

theorem bind (hread : Local read) {next : α → Bits → Option (β × Bits)}
    (hnext : ∀ a, Local (next a)) :
    Local fun bits => (read bits).bind fun found => next found.1 found.2 := by
  refine ⟨fun {bits b rest} h => ?_⟩
  obtain ⟨⟨a, middle⟩, ha, hb⟩ := Option.bind_eq_some_iff.mp h
  obtain ⟨first, rfl, hfirst⟩ := hread.taken ha
  obtain ⟨second, rfl, hsecond⟩ := (hnext a).taken hb
  refine ⟨first ++ second, by rw [List.append_assoc], fun more hmore => ?_⟩
  have hmiddle := hfirst (second ++ more) (hmore.append second)
  rw [List.append_assoc]
  exact Option.bind_eq_some_iff.mpr ⟨_, hmiddle, hsecond more hmore⟩

theorem ite {p : Prop} [Decidable p] {other : Bits → Option (α × Bits)} (hread : Local read)
    (hother : Local other) : Local fun bits => if p then read bits else other bits := by
  by_cases hp : p
  · simpa only [if_pos hp] using hread
  · simpa only [if_neg hp] using hother

theorem onValue (hread : Local read) (f : α → β) :
    Local fun bits => Deflate.onValue f (read bits) := by
  refine ⟨fun {bits b rest} h => ?_⟩
  obtain ⟨a, ha, rfl⟩ := onValue_eq_some.mp h
  obtain ⟨used, rfl, hused⟩ := hread.taken ha
  exact ⟨used, rfl, fun more hmore => onValue_eq_some.mpr ⟨a, hused more hmore, rfl⟩⟩

theorem cons {next : Bool → Bits → Option (α × Bits)} (hnext : ∀ b, Local (next b))
    (hnil : read [] = .none) (hcons : ∀ b bits, read (b :: bits) = next b bits) : Local read := by
  refine ⟨fun {bits a rest} h => ?_⟩
  cases bits with
  | nil =>
    rw [hnil] at h
    cases h
  | cons b bits =>
    rw [hcons] at h
    obtain ⟨used, rfl, hused⟩ := (hnext b).taken h
    refine ⟨b :: used, rfl, fun more hmore => ?_⟩
    rw [List.cons_append, hcons]
    exact hused more hmore

end Local

theorem takeNumber_local (width : Nat) : Local (takeNumber width) := by
  induction width with
  | zero => exact .pure 0
  | succ width ih => exact .cons (fun b => ih.onValue _) rfl fun _ _ => rfl

theorem decode_local (code : PrefixCode) : Local code.decode := by
  induction code with
  | empty => exact .none
  | leaf symbol => exact .pure symbol
  | fork zero one ihzero ihone =>
    have hbranch (b : Bool) : Local (if b then one.decode else zero.decode) := by
      cases b
      · exact ihzero
      · exact ihone
    refine .cons hbranch rfl fun b bits => ?_
    cases b <;> rfl

theorem takeClass?_local (classes : List (Nat × Nat)) (index : Nat) :
    Local (takeClass? classes index) := by
  unfold takeClass?
  cases classes[index]? with
  | none => exact .none
  | some entry => exact (takeNumber_local entry.2).onValue _

theorem takeDistance?_local (distances : PrefixCode) : Local (takeDistance? distances) := by
  refine ((decode_local distances).bind (takeClass?_local distanceClasses)).congr fun bits => ?_
  rw [takeDistance?]
  cases distances.decode bits <;> rfl

theorem takeCopy?_local (codes : Codes) (index : Nat) : Local (takeCopy? codes index) := by
  refine ((takeClass?_local lengthClasses index).bind fun length =>
    (takeDistance?_local codes.distances).onValue (Symbol.copy length)).congr fun bits => ?_
  rw [takeCopy?]
  cases takeClass? lengthClasses index bits <;> rfl

theorem takeSymbol?_local (codes : Codes) : Local (takeSymbol? codes) := by
  have hsymbol (symbol : Nat) : Local fun rest =>
      if symbol < 256 then some (Symbol.literal (UInt8.ofNat symbol), rest)
      else if symbol = 256 then some (.endOfBlock, rest)
      else takeCopy? codes (symbol - 257) rest :=
    .ite (.pure _) (.ite (.pure _) (takeCopy?_local codes _))
  refine .cons (fun b => (decode_local (codes.literals.branch b)).bind hsymbol) rfl ?_
  intro b bits
  rw [takeSymbol?]
  cases (codes.literals.branch b).decode bits <;> rfl

theorem takeNumbers_local (width count : Nat) : Local (takeNumbers width count) := by
  induction count with
  | zero => exact .pure []
  | succ count ih =>
    refine ((takeNumber_local width).bind fun n => ih.onValue (n :: ·)).congr fun bits => ?_
    rw [takeNumbers]
    cases takeNumber width bits <;> rfl

theorem takeRun?_local (code : PrefixCode) (previous : Option Nat) :
    Local (takeRun? code previous) := by
  have hrun {again : Bits → Option ((Nat × Nat) × Bits)} (hagain : Local again) (symbol : Nat) :
      Local fun rest =>
        if symbol < 16 then some ((symbol, 1), rest)
        else if symbol = 16 then again rest
        else if symbol = 17 then onValue (fun n => (0, n + 3)) (takeNumber 3 rest)
        else onValue (fun n => (0, n + 11)) (takeNumber 7 rest) :=
    .ite (.pure _) <| .ite hagain <| .ite ((takeNumber_local 3).onValue _)
      ((takeNumber_local 7).onValue _)
  cases previous with
  | none =>
    refine ((decode_local code).bind (hrun .none)).congr fun bits => ?_
    rw [takeRun?]
    cases code.decode bits <;> rfl
  | some length =>
    have hagain := (takeNumber_local 2).onValue fun n => (length, n + 3)
    refine ((decode_local code).bind (hrun hagain)).congr fun bits => ?_
    rw [takeRun?]
    cases code.decode bits <;> rfl

theorem takeLengths?_local (code : PrefixCode) (wanted : Nat) (previous : Option Nat) :
    Local (takeLengths? code wanted previous) := by
  induction wanted using Nat.strongRecOn generalizing previous with
  | ind wanted ih =>
    by_cases hwanted : wanted = 0
    · refine (Local.pure []).congr fun bits => ?_
      rw [takeLengths?, if_pos hwanted]
    · have hrest (run : Nat × Nat) : Local fun rest =>
          if 0 < run.2 ∧ run.2 ≤ wanted then
            onValue (List.replicate run.2 run.1 ++ ·)
              (takeLengths? code (wanted - run.2) (some run.1) rest)
          else none := by
        by_cases hrun : 0 < run.2 ∧ run.2 ≤ wanted
        · simp only [if_pos hrun]
          exact (ih (wanted - run.2) (by omega) (some run.1)).onValue _
        · simp only [if_neg hrun]
          exact .none
      refine ((takeRun?_local code previous).bind hrest).congr fun bits => ?_
      rw [takeLengths?, if_neg hwanted]
      cases takeRun? code previous bits <;> rfl

theorem takeCodes?_local : Local takeCodes? := by
  refine ⟨fun {bits codes rest} h => ?_⟩
  unfold takeCodes? at h
  obtain ⟨⟨literals, _⟩, h₁, h⟩ := Option.bind_eq_some_iff.mp h
  obtain ⟨⟨distances, _⟩, h₂, h⟩ := Option.bind_eq_some_iff.mp h
  obtain ⟨⟨written, _⟩, h₃, h⟩ := Option.bind_eq_some_iff.mp h
  obtain ⟨⟨short, _⟩, h₄, h⟩ := Option.bind_eq_some_iff.mp h
  obtain ⟨lengthCode, hlengthCode, h⟩ := Option.bind_eq_some_iff.mp h
  obtain ⟨_, hguard, h⟩ := Option.bind_eq_some_iff.mp h
  obtain ⟨⟨lengths, _⟩, h₅, h⟩ := Option.bind_eq_some_iff.mp h
  obtain ⟨distanceCode, hdistances, h⟩ := Option.bind_eq_some_iff.mp h
  obtain ⟨literalCode, hliterals, h⟩ := Option.bind_eq_some_iff.mp h
  cases h
  obtain ⟨first, rfl, hfirst⟩ := (takeNumber_local 5).taken h₁
  obtain ⟨second, rfl, hsecond⟩ := (takeNumber_local 5).taken h₂
  obtain ⟨third, rfl, hthird⟩ := (takeNumber_local 4).taken h₃
  obtain ⟨fourth, rfl, hfourth⟩ := (takeNumbers_local 3 _).taken h₄
  obtain ⟨fifth, rfl, hfifth⟩ := (takeLengths?_local lengthCode _ none).taken h₅
  refine ⟨first ++ (second ++ (third ++ (fourth ++ fifth))), by simp only [List.append_assoc], ?_⟩
  intro more hmore
  have hafter := hmore.append fifth
  simp only [List.append_assoc]
  unfold takeCodes?
  refine Option.bind_eq_some_iff.mpr ⟨_, hfirst _ (((hafter.append _).append _).append _), ?_⟩
  refine Option.bind_eq_some_iff.mpr ⟨_, hsecond _ ((hafter.append _).append _), ?_⟩
  refine Option.bind_eq_some_iff.mpr ⟨_, hthird _ (hafter.append _), ?_⟩
  refine Option.bind_eq_some_iff.mpr ⟨_, hfourth _ hafter, ?_⟩
  refine Option.bind_eq_some_iff.mpr ⟨_, hlengthCode, ?_⟩
  refine Option.bind_eq_some_iff.mpr ⟨_, hguard, ?_⟩
  refine Option.bind_eq_some_iff.mpr ⟨_, hfifth more hmore, ?_⟩
  refine Option.bind_eq_some_iff.mpr ⟨_, hdistances, ?_⟩
  exact Option.bind_eq_some_iff.mpr ⟨_, hliterals, rfl⟩

theorem storedLength?_local : Local storedLength? := by
  refine ⟨fun {bits length rest} h => ?_⟩
  unfold storedLength? at h
  obtain ⟨⟨_, _⟩, h₁, h⟩ := Option.bind_eq_some_iff.mp h
  obtain ⟨⟨inverted, _⟩, h₂, h⟩ := Option.bind_eq_some_iff.mp h
  obtain ⟨_, hguard, h⟩ := Option.bind_eq_some_iff.mp h
  cases h
  obtain ⟨first, hbits, hfirst⟩ := (takeNumber_local 16).taken h₁
  obtain ⟨second, rfl, hsecond⟩ := (takeNumber_local 16).taken h₂
  have hsplit : bits = bits.take (bits.length % 8) ++ (first ++ (second ++ rest)) := by
    rw [← hbits, toByteBoundary, List.take_append_drop]
  refine ⟨bits.take (bits.length % 8) ++ (first ++ second), ?_, ?_⟩
  · simpa only [List.append_assoc] using hsplit
  · intro more hmore
    have hafter := hmore.append second
    have hboundary : toByteBoundary (bits.take (bits.length % 8) ++ (first ++ (second ++ more))) =
        first ++ (second ++ more) := by
      have haligned := (hafter.append first).append (bits.take (bits.length % 8))
      rw [← hsplit] at haligned
      have hskipped : (bits.take (bits.length % 8)).length = bits.length % 8 := by
        rw [List.length_take]
        omega
      rw [toByteBoundary, haligned, List.drop_left' hskipped]
    simp only [List.append_assoc]
    rw [storedLength?, hboundary]
    refine Option.bind_eq_some_iff.mpr ⟨_, hfirst _ hafter, ?_⟩
    refine Option.bind_eq_some_iff.mpr ⟨_, hsecond more hmore, ?_⟩
    exact Option.bind_eq_some_iff.mpr ⟨_, hguard, rfl⟩

/-- A run that depends on what it takes alone: where it succeeds, it writes the same to every output
that has room for the result, and every other output is found to be too small. -/
structure Confined (run : Nat → Bits → Array UInt8 → Except Fault (Bits × Array UInt8)) : Prop where
  taken : ∀ {limit bits out rest result}, run limit bits out = .ok (rest, result) →
    out.size ≤ result.size ∧ ∃ used, bits = used ++ rest ∧
      ∀ limit' more, out.size ≤ limit' → Aligned more rest →
        run limit' (used ++ more) out =
          if result.size ≤ limit' then .ok (more, result) else .error exceeds

variable {limit limit' : Nat} {bits rest : Bits} {out result : Array UInt8}

theorem write_eq_ok {symbol : Symbol} (h : write limit symbol out = .ok result) :
    out.size ≤ result.size ∧ ∀ limit', out.size ≤ limit' →
      write limit' symbol out = if result.size ≤ limit' then .ok result else .error exceeds := by
  cases symbol with
  | literal byte =>
    rw [write] at h
    split at h
    · cases h
      rw [Array.size_push]
      refine ⟨by omega, fun limit' _ => ?_⟩
      simp only [write, Nat.lt_iff_add_one_le]
    · cases h
  | endOfBlock =>
    cases h
    refine ⟨Nat.le_refl _, fun limit' hroom => ?_⟩
    rw [if_pos hroom, write]
  | copy length distance =>
    rw [write] at h
    split at h
    · cases h
    rename_i hdistance
    split at h
    · cases h
      rw [copyBack_size]
      refine ⟨by omega, fun limit' _ => ?_⟩
      rw [write, if_neg hdistance]
    · cases h

theorem inflateSymbols_confined (codes : Codes) : Confined (inflateSymbols codes) := by
  refine ⟨fun {limit bits out rest result} h => ?_⟩
  fun_induction inflateSymbols codes limit bits out with
  | case1 => cases h
  | case2 bits out next hsymbol =>
    cases h
    obtain ⟨used, rfl, hused⟩ := (takeSymbol?_local codes).taken hsymbol
    refine ⟨Nat.le_refl _, used, rfl, fun limit' more hroom hmore => ?_⟩
    rw [inflateSymbols_of_end (hused more hmore), if_pos hroom]
  | case3 => cases h
  | case4 bits out symbol next hend hsymbol written hwrite ih =>
    obtain ⟨hgrown, later, rfl, hlater⟩ := ih h
    obtain ⟨used, rfl, hused⟩ := (takeSymbol?_local codes).taken hsymbol
    obtain ⟨hlarger, hrewrite⟩ := write_eq_ok hwrite
    refine ⟨by omega, used ++ later, by rw [List.append_assoc], fun limit' more hroom hmore => ?_⟩
    rw [List.append_assoc, inflateSymbols_of_symbol (hused _ (hmore.append later)) hend,
      hrewrite limit' hroom]
    by_cases hwritten : written.size ≤ limit'
    · rw [if_pos hwritten]
      exact hlater limit' more hwritten hmore
    · rw [if_neg hwritten, if_neg (by omega)]
      rfl

theorem copyStored_confined (n : Nat) : Confined fun limit => copyStored limit n := by
  refine ⟨fun {limit bits out rest result} h => ?_⟩
  fun_induction copyStored limit n bits out with
  | case1 bits out =>
    cases h
    refine ⟨Nat.le_refl _, [], rfl, fun limit' more hroom _ => ?_⟩
    rw [copyStored, if_pos hroom]
    rfl
  | case2 => cases h
  | case3 n bits out _ byte next hbyte ih =>
    obtain ⟨hgrown, later, rfl, hlater⟩ := ih h
    obtain ⟨used, rfl, hused⟩ := (takeNumber_local 8).taken hbyte
    rw [Array.size_push] at hgrown
    refine ⟨by omega, used ++ later, by rw [List.append_assoc], fun limit' more hroom hmore => ?_⟩
    rw [List.append_assoc, copyStored]
    by_cases hfull : out.size < limit'
    · rw [if_pos hfull]
      simp only [hused _ (hmore.append later)]
      exact hlater limit' more (by rw [Array.size_push]; omega) hmore
    · rw [if_neg hfull, if_neg (by omega)]
  | case4 => cases h

theorem Confined.congr {run same : Nat → Bits → Array UInt8 → Except Fault (Bits × Array UInt8)}
    (hrun : Confined run) (h : ∀ limit bits out, same limit bits out = run limit bits out) :
    Confined same := by
  rw [show same = run from funext fun limit => funext fun bits => funext (h limit bits)]
  exact hrun

theorem Confined.after {α : Type} {read : Bits → Option (α × Bits)} (hread : Local read)
    {next : α → Nat → Bits → Array UInt8 → Except Fault (Bits × Array UInt8)}
    (hnext : ∀ a, Confined (next a)) :
    Confined fun limit bits out =>
      match read bits with
      | none => .error corrupt
      | some (a, rest) => next a limit rest out := by
  refine ⟨fun {limit bits out rest result} h => ?_⟩
  split at h
  · cases h
  · rename_i a middle ha
    obtain ⟨first, rfl, hfirst⟩ := hread.taken ha
    obtain ⟨hgrown, second, rfl, hsecond⟩ := (hnext a).taken h
    refine ⟨hgrown, first ++ second, by rw [List.append_assoc], fun limit' more hroom hmore => ?_⟩
    simp only [List.append_assoc, hfirst _ (hmore.append second)]
    exact hsecond limit' more hroom hmore

theorem inflateBlock_confined (kind : BlockKind) :
    Confined fun limit => inflateBlock limit kind := by
  cases kind with
  | stored =>
    refine (Confined.after storedLength?_local copyStored_confined).congr fun limit bits out => ?_
    rw [inflateBlock]
    cases storedLength? bits <;> rfl
  | fixed => exact inflateSymbols_confined fixedCodes
  | dynamic =>
    refine (Confined.after takeCodes?_local inflateSymbols_confined).congr fun limit bits out => ?_
    rw [inflateBlock]
    cases takeCodes? bits <;> rfl
  | reserved =>
    refine ⟨fun {limit bits out rest result} h => ?_⟩
    cases h

theorem inflateBlocks_confined : Confined inflateBlocks := by
  refine ⟨fun {limit bits out rest result} h => ?_⟩
  fun_induction inflateBlocks limit bits out with
  | case1 => cases h
  | case2 out low high bits next written hblock =>
    cases h
    obtain ⟨hgrown, used, rfl, hused⟩ := (inflateBlock_confined _).taken hblock
    refine ⟨hgrown, true :: low :: high :: used, rfl, fun limit' more hroom hmore => ?_⟩
    simp only [List.cons_append]
    rw [inflateBlocks_cons, hused limit' more hroom hmore]
    split <;> rfl
  | case3 out final low high bits next written hblock hfinal ih =>
    obtain ⟨hgrown, later, rfl, hlater⟩ := ih h
    obtain ⟨hlarger, used, rfl, hused⟩ := (inflateBlock_confined _).taken hblock
    refine ⟨by omega, final :: low :: high :: (used ++ later),
      by simp only [List.cons_append, List.append_assoc], fun limit' more hroom hmore => ?_⟩
    simp only [List.cons_append, List.append_assoc]
    rw [inflateBlocks_cons, hused limit' _ hroom (hmore.append later)]
    by_cases hwritten : written.size ≤ limit'
    · rw [if_pos hwritten]
      show afterBlock limit' final (later ++ more, written) = _
      rw [afterBlock, if_neg hfinal]
      exact hlater limit' more hwritten hmore
    · rw [if_neg hwritten, if_neg (by omega)]
      rfl
  | case4 => cases h

theorem bitsOf_append (front back : Bytes) : bitsOf (front ++ back) = bitsOf front ++ bitsOf back :=
  List.flatMap_append

theorem bitsOf_take (n : Nat) (bytes : Bytes) :
    bitsOf (bytes.take n) = (bitsOf bytes).take (8 * n) := by
  rcases Nat.le_total bytes.length n with hlong | hshort
  · rw [List.take_of_length_le hlong, List.take_of_length_le (by rw [length_bitsOf]; omega)]
  · have hfront : (bitsOf (bytes.take n)).length = 8 * n := by
      rw [length_bitsOf, List.length_take]
      omega
    conv => rhs; rw [← List.take_append_drop n bytes, bitsOf_append, List.take_left' hfront]

theorem inflate_taken {input data : Bytes} {taken : Nat}
    (h : inflate limit input = .ok (data, taken)) :
    taken ≤ input.length ∧ ∀ s limit', inflate limit' (input.take taken ++ s) =
      if data.length ≤ limit' then .ok (data, taken) else .error exceeds := by
  unfold inflate at h
  split at h
  · cases h
  rename_i rest out hblocks
  cases h
  obtain ⟨-, used, hbits, hused⟩ := inflateBlocks_confined.taken hblocks
  have hlength := congrArg List.length hbits
  rw [length_bitsOf, List.length_append] at hlength
  refine ⟨Nat.sub_le _ _, fun s limit' => ?_⟩
  -- the byte that holds the last bit taken is taken as a whole
  have hfront : bitsOf (input.take (input.length - rest.length / 8) ++ s) =
      used ++ (rest.take (rest.length % 8) ++ bitsOf s) := by
    rw [bitsOf_append, bitsOf_take, hbits, List.take_append, List.take_of_length_le (by omega),
      List.append_assoc]
    congr 3
    omega
  have hmore : (rest.take (rest.length % 8) ++ bitsOf s).length =
      rest.length % 8 + 8 * s.length := by
    rw [List.length_append, List.length_take, length_bitsOf]
    omega
  have haligned : Aligned (rest.take (rest.length % 8) ++ bitsOf s) rest := by
    rw [Aligned, hmore]
    omega
  have hrun := hused limit' _ (Nat.zero_le _) haligned
  rw [inflate, hfront, hrun]
  have hdata : out.toList.length = out.size := Array.length_toList
  by_cases hfits : out.size ≤ limit'
  · rw [if_pos hfits, if_pos (hdata ▸ hfits)]
    simp only [hmore, List.length_append, List.length_take]
    congr 2
    omega
  · rw [if_neg hfits, if_neg (hdata ▸ hfits)]

end BootAssembly.Deflate
