import BootAssembly.Proofs.Deflate.Stored
import BootAssembly.Proofs.Gzip.Member
import BootAssembly.Proofs.Gzip.Remainder

namespace BootAssembly.Gzip

def Passes (skip : Bytes → Nat → Except Fault Nat) (field : Bytes) : Prop :=
  ∀ front rest, front.length + field.length < sizeLimit →
    skip (front ++ (field ++ rest)) front.length = .ok (front.length + field.length)

namespace Passes

variable {skip next : Bytes → Nat → Except Fault Nat} {field after : Bytes}

theorem bind (h : Passes skip field) (hnext : Passes next after) :
    Passes (fun bytes start => skip bytes start >>= next bytes) (field ++ after) := by
  intro front rest hsize
  rw [List.length_append] at hsize ⊢
  have hfirst := h front (after ++ rest) (by omega)
  have hsecond := hnext (front ++ field) rest (by rw [List.length_append]; omega)
  rw [List.length_append, List.append_assoc, Nat.add_assoc] at hsecond
  rw [List.append_assoc]
  exact bind_eq_ok.mpr ⟨_, hfirst, hsecond⟩

theorem skipIf {α : Type} {encode : α → Bytes} (h : ∀ a, Passes skip (encode a)) (part : Option α) :
    Passes (fun bytes => Gzip.skipIf part.isSome (skip bytes)) (part.elim [] encode) := by
  cases part with
  | none => exact fun _ _ _ => rfl
  | some a => exact h a

end Passes

structure ClosedText where
  text : Bytes
  nul_not_mem : 0 ∉ text

structure ExtraField where
  bytes : Bytes
  short : bytes.length ≤ 65535

def ClosedText.encode (t : ClosedText) : Bytes := t.text ++ [0]

def ExtraField.encode (e : ExtraField) : Bytes := littleEndian 2 e.bytes.length ++ e.bytes

theorem skipText_passes (t : ClosedText) : Passes skipText t.encode := by
  intro front rest hsize
  have hlength : t.encode.length = t.text.length + 1 := List.length_append
  rw [hlength] at hsize ⊢
  refine skipText_eq_ok.mpr ⟨t.text, rest, ?_, ?_, t.nul_not_mem, hsize, rfl⟩
  · rw [List.length_append]
    omega
  · rw [List.drop_left, ClosedText.encode, List.append_assoc]
    rfl

theorem le16At_left {n : Nat} (hn : n < UInt16.size) (front rest : Bytes) :
    (le16At (front ++ (littleEndian 2 n ++ rest)) front.length).toNat = n := by
  rw [le16At, List.drop_left, List.take_left' (length_littleEndian 2 n),
    ofLittleEndian_littleEndian hn, UInt16.toNat_ofNat_of_lt' hn]

theorem skipExtra_passes (e : ExtraField) : Passes skipExtra e.encode := by
  intro front rest hsize
  have hshort := e.short
  have hlength : e.encode.length = 2 + e.bytes.length := by
    rw [ExtraField.encode, List.length_append, length_littleEndian]
  rw [hlength] at hsize ⊢
  have hread : (le16At (front ++ (e.encode ++ rest)) front.length).toNat = e.bytes.length := by
    rw [ExtraField.encode, List.append_assoc]
    exact le16At_left (by rw [UInt16.size]; omega) front _
  refine bind_eq_ok.mpr ⟨_, addSize_eq_ok.mpr ⟨by omega, rfl⟩, refuse_eq_ok.mpr ⟨?_, ?_⟩⟩
  · rw [List.length_append, List.length_append, hlength]
    omega
  · rw [hread]
    exact addSize_eq_ok.mpr ⟨by omega, by omega⟩

theorem addSize_passes {field : Bytes} {what : String} :
    Passes (fun _ start => addSize start field.length what) field :=
  fun _ _ hsize => addSize_eq_ok.mpr ⟨hsize, rfl⟩

def flagsOf (isText headerCrc extra name comment : Bool) : UInt8 :=
  UInt8.ofNat (isText.toNat + 2 * headerCrc.toNat + 4 * extra.toNat + 8 * name.toNat +
    16 * comment.toNat)

theorem has_flagsOf (isText headerCrc extra name comment : Bool) :
    hasHeaderCrc (flagsOf isText headerCrc extra name comment) = headerCrc ∧
      hasExtra (flagsOf isText headerCrc extra name comment) = extra ∧
      hasName (flagsOf isText headerCrc extra name comment) = name ∧
      hasComment (flagsOf isText headerCrc extra name comment) = comment ∧
      hasReserved (flagsOf isText headerCrc extra name comment) = false := by
  revert isText headerCrc extra name comment
  decide

structure MemberHeader where
  isText : Bool
  modified : UInt32
  extraFlags : UInt8
  system : UInt8
  extra : Option ExtraField
  name : Option ClosedText
  comment : Option ClosedText
  checksum : Option UInt16

namespace MemberHeader

variable (h : MemberHeader)

def flags : UInt8 :=
  flagsOf h.isText h.checksum.isSome h.extra.isSome h.name.isSome h.comment.isSome

def fixedPart : Bytes :=
  magic ++ (deflateMethod :: h.flags :: (le32 h.modified ++ [h.extraFlags, h.system]))

def fields : Bytes :=
  h.extra.elim [] (·.encode) ++ (h.name.elim [] (·.encode) ++ (h.comment.elim [] (·.encode) ++
    h.checksum.elim [] fun c => littleEndian 2 c.toNat))

def encode : Bytes := h.fixedPart ++ h.fields

theorem length_fixedPart : h.fixedPart.length = headerSize := by
  simp [fixedPart, magic, headerSize]

theorem skipFields_passes : Passes (skipFields h.flags) h.fields := by
  obtain ⟨hcrc, hextra, hname, hcomment, -⟩ :=
    has_flagsOf h.isText h.checksum.isSome h.extra.isSome h.name.isSome h.comment.isSome
  have hchecksum (c : UInt16) : Passes (fun _ start => addSize start 2 "gzip header crc")
      (littleEndian 2 c.toNat) := addSize_passes
  unfold skipFields flags fields
  rw [hcrc, hextra, hname, hcomment]
  exact (Passes.skipIf skipExtra_passes h.extra).bind <|
    (Passes.skipIf skipText_passes h.name).bind <|
    (Passes.skipIf skipText_passes h.comment).bind <| Passes.skipIf hchecksum h.checksum

theorem bodyOffset_encode {h : MemberHeader} (hsize : h.encode.length < sizeLimit) (rest : Bytes) :
    bodyOffset (h.encode ++ rest) = .ok h.encode.length := by
  have hlength : h.encode.length = headerSize + h.fields.length := by
    rw [encode, List.length_append, length_fixedPart]
  have hflags : (h.encode ++ rest).getD 3 0 = h.flags := rfl
  have hreserved : hasReserved h.flags = false := (has_flagsOf _ _ _ _ _).2.2.2.2
  have hfields := h.skipFields_passes h.fixedPart rest
  rw [length_fixedPart, ← hlength, ← List.append_assoc] at hfields
  refine bodyOffset_eq_ok.mpr ⟨⟨?_, rfl, rfl, ?_⟩, ?_, ?_⟩
  · rw [List.length_append]
    omega
  · rw [hflags, hreserved]
  · rw [hflags]
    exact hfields hsize
  · rw [List.length_append]
    omega

end MemberHeader

structure StoredMember where
  header : MemberHeader
  stream : Deflate.StoredStream

namespace StoredMember

variable (m : StoredMember)

def data : Bytes := m.stream.data

noncomputable def encode : Bytes :=
  m.header.encode ++ (m.stream.encode ++
    (le32 (Crc32.checksum m.data) ++ le32 (UInt32.ofNat m.data.length)))

theorem length_encode :
    m.encode.length = m.header.encode.length + m.stream.encode.length + trailerSize := by
  simp only [encode, List.length_append, length_le32, trailerSize]
  omega

theorem gunzip_of_room {m : StoredMember} (hsize : m.encode.length < sizeLimit) :
    gunzip m.encode m.data.length = .ok (m.data, m.encode.length) := by
  have hlength := m.length_encode
  have hfront : m.header.encode ++ m.stream.encode ++
      (le32 (crc32 m.data) ++ le32 (UInt32.ofNat m.data.length)) = m.encode := by
    rw [encode, Crc32.crc32_eq_checksum, List.append_assoc]
  have hword (offset : Nat) :
      le32At m.encode (m.header.encode.length + m.stream.encode.length + offset) =
        le32At (le32 (crc32 m.data) ++ le32 (UInt32.ofNat m.data.length)) offset := by
    rw [← hfront, ← List.length_append, le32At_left]
  refine gunzip_eq_ok.mpr ⟨m.header.encode.length, m.stream.encode.length, ?_, ?_, hlength, hsize,
    Nat.le_refl _, ?_, ?_⟩
  · exact MemberHeader.bodyOffset_encode (by omega) _
  · rw [encode, List.drop_left]
    exact Deflate.inflate_stored (Nat.le_refl _) _
  · exact (hword 0).trans (le32At_zero _ _)
  · have hsecond := le32At_left (le32 (crc32 m.data)) (le32 (UInt32.ofNat m.data.length)) 0
    rw [hword 4]
    exact hsecond.trans (List.append_nil (le32 (UInt32.ofNat m.data.length)) ▸ le32At_zero _ [])

def annotated : StoredMember where
  header :=
    { isText := true, modified := 0x5f5e1000, extraFlags := 2, system := 3,
      extra := some ⟨[0x41, 0x70, 1, 0, 7], by decide⟩, name := some ⟨[0x49, 0x6d, 0x67], by decide⟩,
      comment := some ⟨[], by decide⟩, checksum := some 0xbeef }
  stream := ⟨[⟨[1, 2, 3], 0, by decide⟩, ⟨[], 31, by decide⟩], ⟨[4], 5, by decide⟩⟩

end StoredMember

end BootAssembly.Gzip
