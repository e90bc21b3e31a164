import BootAssembly.Kernel
import BootAssembly.Proofs.Deflate.Locality
import Mathlib.Data.List.Basic

namespace BootAssembly.Gzip

structure Skips (skip : Bytes → Nat → Except Fault Nat) : Prop where
  within : ∀ {front back : Bytes} {start stop}, skip (front ++ back) start = .ok stop →
    start ≤ stop ∧ (stop ≤ front.length → ∀ s, skip (front ++ s) start = .ok stop)

theorem skipText_eq_ok {bytes : Bytes} {start stop : Nat} :
    skipText bytes start = .ok stop ↔
      ∃ text rest, start ≤ bytes.length ∧ bytes.drop start = text ++ 0 :: rest ∧ 0 ∉ text ∧
        start + (text.length + 1) < sizeLimit ∧ stop = start + (text.length + 1) := by
  rw [skipText, refuse_eq_ok]
  constructor
  · rintro ⟨hstart, h⟩
    split at h
    · cases h
    · rename_i text rest hsplit
      obtain ⟨hdrop, hnul⟩ := splitNul_eq_some.mp hsplit
      exact ⟨text, rest, by omega, hdrop, hnul, addSize_eq_ok.mp h⟩
  · rintro ⟨text, rest, hstart, hdrop, hnul, hsum⟩
    refine ⟨by omega, ?_⟩
    rw [splitNul_eq_some.mpr ⟨hdrop, hnul⟩]
    exact addSize_eq_ok.mpr hsum

theorem skipText_skips : Skips skipText := by
  refine ⟨fun {front back start stop} h => ?_⟩
  obtain ⟨text, rest, hstart, hdrop, hnul, hsum, rfl⟩ := skipText_eq_ok.mp h
  refine ⟨by omega, fun hstop s => ?_⟩
  rw [List.drop_append_of_le_length (by omega)] at hdrop
  -- the string and its NUL lie in the front
  have htext : text ++ [0] <+: front.drop start ++ back :=
    ⟨rest, by rw [hdrop, List.append_assoc]; rfl⟩
  have hprefix : text ++ [0] <+: front.drop start := by
    refine List.prefix_of_prefix_length_le htext (List.prefix_append _ _) ?_
    simp only [List.length_append, List.length_singleton, List.length_drop]
    omega
  obtain ⟨rest', hfront⟩ := hprefix
  refine skipText_eq_ok.mpr ⟨text, rest' ++ s, ?_, ?_, hnul, hsum, rfl⟩
  · rw [List.length_append]
    omega
  · rw [List.drop_append_of_le_length (by omega), ← hfront, List.append_assoc, List.append_assoc]
    rfl

theorem skipExtra_skips : Skips skipExtra := by
  refine ⟨fun {front back start stop} h => ?_⟩
  obtain ⟨lengthEnd, hlengthEnd, h⟩ := bind_eq_ok.mp h
  obtain ⟨hfits, h⟩ := refuse_eq_ok.mp h
  obtain ⟨-, rfl⟩ := addSize_eq_ok.mp hlengthEnd
  obtain ⟨hsum, rfl⟩ := addSize_eq_ok.mp h
  refine ⟨by omega, fun hstop s => ?_⟩
  have hlength : le16At (front ++ s) start = le16At (front ++ back) start := by
    rw [le16At_append (by omega), le16At_append (by omega)]
  refine bind_eq_ok.mpr ⟨_, hlengthEnd, refuse_eq_ok.mpr ⟨?_, ?_⟩⟩
  · rw [List.length_append]
    omega
  · rw [hlength]
    exact h

theorem addSize_skips (n : Nat) (what : String) : Skips fun _ start => addSize start n what := by
  refine ⟨fun {front back start stop} h => ⟨?_, fun _ _ => h⟩⟩
  have := (addSize_eq_ok.mp h).2
  omega

variable {skip next : Bytes → Nat → Except Fault Nat}

theorem Skips.skipIf (h : Skips skip) (present : Bool) :
    Skips fun bytes => Gzip.skipIf present (skip bytes) := by
  cases present with
  | true => exact h
  | false =>
    refine ⟨fun {front back start stop} h => ?_⟩
    cases h
    exact ⟨Nat.le_refl _, fun _ _ => rfl⟩

theorem Skips.bind (h : Skips skip) (hnext : Skips next) :
    Skips fun bytes start => skip bytes start >>= next bytes := by
  refine ⟨fun {front back start stop} hstop => ?_⟩
  obtain ⟨middle, hmiddle, hstop⟩ := bind_eq_ok.mp hstop
  obtain ⟨hfirst, hskip⟩ := h.within hmiddle
  obtain ⟨hsecond, hthen⟩ := hnext.within hstop
  refine ⟨Nat.le_trans hfirst hsecond, fun hfits s => ?_⟩
  exact bind_eq_ok.mpr ⟨middle, hskip (Nat.le_trans hsecond hfits) s, hthen hfits s⟩

theorem Skips.le (h : Skips skip) {bytes : Bytes} {start stop : Nat}
    (hstop : skip bytes start = .ok stop) : start ≤ stop :=
  (@Skips.within _ h [] bytes start stop hstop).1

def skipFields (flags : UInt8) (bytes : Bytes) (start : Nat) : Except Fault Nat :=
  skipIf (hasExtra flags) (skipExtra bytes) start >>=
    fun start => skipIf (hasName flags) (skipText bytes) start >>=
    fun start => skipIf (hasComment flags) (skipText bytes) start >>=
    skipIf (hasHeaderCrc flags) (addSize · 2 "gzip header crc")

theorem skipFields_skips (flags : UInt8) : Skips (skipFields flags) :=
  (skipExtra_skips.skipIf _).bind <| (skipText_skips.skipIf _).bind <|
    (skipText_skips.skipIf _).bind <| (addSize_skips 2 _).skipIf _

theorem bodyOffset_eq_ok {bytes : Bytes} {body : Nat} :
    bodyOffset bytes = .ok body ↔
      (headerSize ≤ bytes.length ∧ bytes.take 2 = magic ∧ bytes.getD 2 0 = deflateMethod ∧
        hasReserved (bytes.getD 3 0) = false) ∧
      skipFields (bytes.getD 3 0) bytes headerSize = .ok body ∧ body ≤ bytes.length := by
  unfold bodyOffset
  rw [guard_eq_ok, guard_eq_ok, guard_eq_ok]
  constructor
  · rintro ⟨hmember, hmethod, hreserved, h⟩
    obtain ⟨_, hextra, h⟩ := bind_eq_ok.mp h
    obtain ⟨_, hname, h⟩ := bind_eq_ok.mp h
    obtain ⟨_, hcomment, h⟩ := bind_eq_ok.mp h
    obtain ⟨_, hcrc, h⟩ := bind_eq_ok.mp h
    obtain ⟨hfits, h⟩ := guard_eq_ok.mp h
    cases h
    simp only [not_or, not_not, Nat.not_lt] at hmember hmethod
    refine ⟨⟨hmember.1, hmember.2, hmethod, Bool.eq_false_iff.mpr hreserved⟩, ?_, by omega⟩
    exact bind_eq_ok.mpr ⟨_, hextra, bind_eq_ok.mpr ⟨_, hname, bind_eq_ok.mpr ⟨_, hcomment, hcrc⟩⟩⟩
  · rintro ⟨⟨hlength, hmagic, hmethod, hreserved⟩, h, hfits⟩
    obtain ⟨_, hextra, h⟩ := bind_eq_ok.mp h
    obtain ⟨_, hname, h⟩ := bind_eq_ok.mp h
    obtain ⟨_, hcomment, hcrc⟩ := bind_eq_ok.mp h
    refine ⟨by simpa [hmagic] using hlength, not_not.mpr hmethod, ?_⟩
    refine ⟨Bool.eq_false_iff.mp hreserved, ?_⟩
    refine bind_eq_ok.mpr ⟨_, hextra, bind_eq_ok.mpr ⟨_, hname, bind_eq_ok.mpr ⟨_, hcomment, ?_⟩⟩⟩
    exact bind_eq_ok.mpr ⟨_, hcrc, guard_eq_ok.mpr ⟨by omega, rfl⟩⟩

theorem bodyOffset_append {front back : Bytes} {body : Nat}
    (h : bodyOffset (front ++ back) = .ok body) (hbody : body ≤ front.length) (s : Bytes) :
    bodyOffset (front ++ s) = .ok body := by
  obtain ⟨⟨hlength, hmagic, hmethod, hreserved⟩, hfields, hfits⟩ := bodyOffset_eq_ok.mp h
  have hfixed := (skipFields_skips _).le hfields
  rw [headerSize] at hfixed
  have hbyte (i : Nat) (hi : i < 10) : (front ++ s).getD i 0 = (front ++ back).getD i 0 := by
    rw [List.getD_eq_getElem?_getD, List.getD_eq_getElem?_getD,
      List.getElem?_append_left (by omega), List.getElem?_append_left (by omega)]
  have htake : (front ++ s).take 2 = (front ++ back).take 2 := by
    rw [List.take_append_of_le_length (by omega), List.take_append_of_le_length (by omega)]
  refine bodyOffset_eq_ok.mpr ⟨⟨?_, ?_, ?_, ?_⟩, ?_, ?_⟩
  · rw [List.length_append, headerSize]
    omega
  · rw [htake, hmagic]
  · rw [hbyte 2 (by omega), hmethod]
  · rw [hbyte 3 (by omega), hreserved]
  · rw [hbyte 3 (by omega)]
    exact ((skipFields_skips _).within hfields).2 hbody s
  · rw [List.length_append]
    omega

theorem gunzip_eq_ok {input data : Bytes} {limit stop : Nat} :
    gunzip input limit = .ok (data, stop) ↔
      ∃ body taken, bodyOffset input = .ok body ∧
        Deflate.inflate limit (input.drop body) = .ok (data, taken) ∧
        stop = body + taken + trailerSize ∧ stop < sizeLimit ∧ stop ≤ input.length ∧
        le32At input (body + taken) = crc32 data ∧
        le32At input (body + taken + 4) = UInt32.ofNat data.length := by
  constructor
  · intro h
    obtain ⟨body, hbody, h⟩ := bind_eq_ok.mp h
    obtain ⟨⟨found, taken⟩, hinflate, h⟩ := bind_eq_ok.mp h
    obtain ⟨trailer, htrailer, h⟩ := bind_eq_ok.mp h
    obtain ⟨position, hposition, h⟩ := bind_eq_ok.mp h
    obtain ⟨hfits, h⟩ := guard_eq_ok.mp h
    obtain ⟨hsize, h⟩ := guard_eq_ok.mp h
    obtain ⟨hcrc, h⟩ := guard_eq_ok.mp h
    cases h
    rw [Deflate.inflateInto_eq] at hinflate
    obtain ⟨-, rfl⟩ := addSize_eq_ok.mp htrailer
    obtain ⟨hsum, rfl⟩ := addSize_eq_ok.mp hposition
    exact ⟨body, taken, hbody, hinflate, rfl, hsum, by omega, not_not.mp hcrc, not_not.mp hsize⟩
  · rintro ⟨body, taken, hbody, hinflate, rfl, hsum, hfits, hcrc, hsize⟩
    rw [← Deflate.inflateInto_eq (.initial limit (input.drop body))] at hinflate
    refine bind_eq_ok.mpr ⟨_, hbody, bind_eq_ok.mpr ⟨_, hinflate, ?_⟩⟩
    refine bind_eq_ok.mpr ⟨_, addSize_eq_ok.mpr ⟨by omega, rfl⟩, ?_⟩
    refine bind_eq_ok.mpr ⟨_, addSize_eq_ok.mpr ⟨hsum, rfl⟩, ?_⟩
    refine guard_eq_ok.mpr ⟨by omega, guard_eq_ok.mpr ⟨not_not.mpr hsize, ?_⟩⟩
    exact guard_eq_ok.mpr ⟨not_not.mpr hcrc, rfl⟩

theorem gunzip_of_inflate_error {input : Bytes} {limit body : Nat} {fault : Fault}
    (hbody : bodyOffset input = .ok body)
    (h : Deflate.inflate limit (input.drop body) = .error fault) :
    gunzip input limit = .error fault := by
  rw [gunzip, hbody]
  show Deflate.inflateInto _ (input.drop body) >>= _ = _
  rw [Deflate.inflateInto_eq, h]
  rfl

variable {input data : Bytes} {limit n : Nat}

theorem gunzip_length_le (h : gunzip input limit = .ok (data, n)) : data.length ≤ limit := by
  obtain ⟨body, taken, -, hinflate, -⟩ := gunzip_eq_ok.mp h
  exact Deflate.inflate_length_le hinflate

theorem gunzip_trailer (h : gunzip input limit = .ok (data, n)) :
    slice ⟨n - 8, n⟩ input =
      littleEndian 4 (crc32 data).toNat ++ littleEndian 4 (data.length % UInt32.size) := by
  obtain ⟨body, taken, -, -, rfl, -, hfits, hcrc, hsize⟩ := gunzip_eq_ok.mp h
  rw [trailerSize] at hfits ⊢
  have hchecksum := le32_le32At (show body + taken + 4 ≤ input.length by omega)
  have hlength := le32_le32At (show body + taken + 4 + 4 ≤ input.length by omega)
  rw [hcrc, le32] at hchecksum
  rw [hsize, le32, UInt32.toNat_ofNat'] at hlength
  rw [hchecksum, hlength, ← slice_split (Nat.le_add_right _ _) (Nat.le_add_right _ _),
    Nat.add_sub_cancel]

theorem gunzip_take_append (h : gunzip input limit = .ok (data, n)) (s : Bytes) (limit' : Nat) :
    gunzip (input.take n ++ s) limit' =
      if data.length ≤ limit' then .ok (data, n)
      else .error (.decompressFailed "kernel exceeds available window") := by
  obtain ⟨body, taken, hbody, hinflate, hn, hsum, hfits, hcrc, hsize⟩ := gunzip_eq_ok.mp h
  rw [trailerSize] at hn
  have hmember : (input.take n).length = n := List.length_take_of_le hfits
  have hoffset : bodyOffset (input.take n ++ s) = .ok body := by
    rw [← List.take_append_drop n input] at hbody
    exact bodyOffset_append hbody (by omega) s
  -- the stream, with the trailer and what follows behind it
  have hdrop : (input.take n ++ s).drop body =
      (input.drop body).take taken ++ ((input.take n).drop (body + taken) ++ s) := by
    have hfront : (input.drop body).take taken = ((input.take n).drop body).take taken := by
      rw [List.drop_take, List.take_take, Nat.min_eq_left (by omega)]
    rw [List.drop_append_of_le_length (by omega), hfront, ← List.append_assoc, ← List.drop_drop,
      List.take_append_drop]
  have hrun := (Deflate.inflate_taken hinflate).2 ((input.take n).drop (body + taken) ++ s) limit'
  rw [← hdrop] at hrun
  by_cases hroom : data.length ≤ limit'
  · rw [if_pos hroom] at hrun ⊢
    have hword (offset : Nat) (ho : offset + 4 ≤ n) :
        le32At (input.take n ++ s) offset = le32At input offset := by
      conv => rhs; rw [← List.take_append_drop n input]
      rw [le32At_append (by omega), le32At_append (by omega)]
    refine gunzip_eq_ok.mpr ⟨body, taken, hoffset, hrun, by rw [hn]; rfl, hsum, ?_, ?_, ?_⟩
    · rw [List.length_append]
      omega
    · rw [hword _ (by omega), hcrc]
    · rw [hword _ (by omega), hsize]
  · rw [if_neg hroom] at hrun ⊢
    exact gunzip_of_inflate_error hoffset hrun

theorem length_of_gunzip (h : gunzip input limit = .ok (data, n)) :
    headerSize + trailerSize ≤ n ∧ n ≤ input.length := by
  obtain ⟨body, taken, hbody, -, rfl, -, hfits, -⟩ := gunzip_eq_ok.mp h
  have hfixed := (skipFields_skips _).le (bodyOffset_eq_ok.mp hbody).2.1
  exact ⟨by omega, hfits⟩

theorem isMember_of_gunzip (h : gunzip input limit = .ok (data, n)) : isMember input = true := by
  obtain ⟨hlong, hfits⟩ := length_of_gunzip h
  obtain ⟨body, -, hbody, -⟩ := gunzip_eq_ok.mp h
  have hmagic := (bodyOffset_eq_ok.mp hbody).1.2.1
  rw [trailerSize] at hlong
  simp only [isMember, hmagic, beq_self_eq_true, Bool.and_true, decide_eq_true_eq]
  omega

theorem unpack_of_gunzip {raw : Bytes} {w : Windows} {room : Nat} (region : Span)
    (hroom : w.kernelRoom false = .ok room) (h : gunzip raw room = .ok (data, n)) :
    (Kernel.unpack raw region w).outcome = .ok ⟨data, some n, region⟩ := by
  rw [Kernel.unpack, if_pos (isMember_of_gunzip h)]
  refine Traced.outcome_bind_eq_ok.mpr ⟨room, hroom, ?_⟩
  refine Traced.outcome_bind_eq_ok.mpr ⟨(), rfl, ?_⟩
  refine Traced.outcome_bind_eq_ok.mpr ⟨(data, n), h, ?_⟩
  exact Traced.outcome_bind_eq_ok.mpr ⟨(), rfl, rfl⟩

def repetitive : Bytes :=
  [0x1f, 0x8b, 8, 8, 0, 0, 0, 0, 0, 3, 0x6b, 0, 75, 41, 73, 82, 72, 65, 96, 0, 176, 211, 59, 5,
    15, 0, 0, 0]

end BootAssembly.Gzip
