import BootAssembly.Proofs.DeviceTree.Serialisation
import BootAssembly.Resolve

namespace BootAssembly

open DeviceTree

theorem DeviceTree.Header.headerSize_lt_of_read {bytes : Bytes} {h : Header}
    (hread : read bytes = .ok h) : headerSize < h.totalSize.toNat := by
  obtain ⟨-, -, -, hcheck⟩ := read_eq_ok_iff.mp hread
  obtain ⟨-, -, -, hbehind, hbelow⟩ := of_check hcheck
  rw [UInt32.lt_iff_toNat_lt] at hbelow
  omega

theorem DeviceTree.Header.probe?_eq_some {bytes : Bytes} {h : Header} :
    probe? bytes = some h ↔ read bytes = .ok h := by
  rw [probe?]
  cases read bytes <;> simp [Except.toOption]

namespace Resolve

/-- An accepted header stands at the start of the range, gives the range's length, and the range
lies within the region. -/
def BlobAt (region : Bytes) (s : Span) : Prop :=
  ∃ header, Header.read (region.drop s.start) = .ok header ∧
    s.stop = s.start + header.totalSize.toNat ∧ s.stop ≤ region.length

inductive Chain (region : Bytes) : Nat → List Span → Nat → Prop
  | done (start : Nat) : Chain region start [] start
  | blob {start stop last : Nat} {spans : List Span} (first : BlobAt region ⟨start, stop⟩)
      (rest : Chain region stop spans last) : Chain region start (⟨start, stop⟩ :: spans) last

def NoBlob (rest : Bytes) : Prop :=
  ∀ header, Header.probe? rest = some header → rest.length < header.totalSize.toNat

def Whole (blob : Bytes) : Prop :=
  ∃ header, Header.read blob = .ok header ∧ header.totalSize.toNat = blob.length

def spansFrom : Nat → List Bytes → List Span
  | _, [] => []
  | start, blob :: blobs => ⟨start, start + blob.length⟩ :: spansFrom (start + blob.length) blobs

variable {region : Bytes} {start stop last : Nat} {spans : List Span}

theorem BlobAt.lt (h : BlobAt region ⟨start, stop⟩) : start < stop := by
  obtain ⟨header, hread, hstop, -⟩ := h
  have := Header.headerSize_lt_of_read hread
  dsimp only at hstop
  omega

theorem BlobAt.stop_eq {other : Nat} (h : BlobAt region ⟨start, stop⟩)
    (h' : BlobAt region ⟨start, other⟩) : stop = other := by
  obtain ⟨header, hread, hstop, -⟩ := h
  obtain ⟨header', hread', hstop', -⟩ := h'
  rw [hread] at hread'
  cases hread'
  exact hstop.trans hstop'.symm

theorem scan_of_blobAt (hregion : region.length ≤ bufferLimit) (h : BlobAt region ⟨start, stop⟩) :
    scan region start = (scan region stop).map (⟨start, stop⟩ :: ·) := by
  have hlimits : bufferLimit + UInt32.size < sizeLimit := by decide
  have hlt := h.lt
  obtain ⟨header, hread, hstop, hfits⟩ := h
  have hbehind := Header.headerSize_lt_of_read hread
  have hword := header.totalSize.toNat_lt
  have hsize : UInt32.size = 2 ^ 32 := rfl
  dsimp only at hread hstop hfits
  -- the guard asks for more than a header, which every blob has
  rw [scan, if_neg (by omega), if_pos (by omega), Header.probe?_eq_some.mpr hread]
  dsimp only
  rw [← hstop, if_neg (by omega), if_pos ⟨hlt, hfits⟩]
  cases scan region stop <;> rfl

theorem scan_of_end (hregion : region.length ≤ bufferLimit) (hstart : start ≤ region.length)
    (hend : ∀ stop, ¬ BlobAt region ⟨start, stop⟩) : scan region start = .ok [] := by
  have hlimits : bufferLimit + UInt32.size < sizeLimit := by decide
  have hsize : UInt32.size = 2 ^ 32 := rfl
  rw [scan, if_neg (by rw [headerSize]; omega)]
  split
  · cases hprobe : Header.probe? (region.drop start) with
    | none => rfl
    | some header =>
      have hword := header.totalSize.toNat_lt
      have hfits : ¬ start + header.totalSize.toNat ≤ region.length := fun hle =>
        hend _ ⟨header, Header.probe?_eq_some.mp hprobe, rfl, hle⟩
      dsimp only
      rw [if_neg (by omega), if_neg fun h => hfits h.2]
  · rfl

theorem Chain.scan_eq (h : Chain region start spans last) (hregion : region.length ≤ bufferLimit)
    (hstart : start ≤ region.length) (hend : ∀ stop, ¬ BlobAt region ⟨last, stop⟩) :
    scan region start = .ok spans := by
  induction h with
  | done start => exact scan_of_end hregion hstart hend
  | blob hfirst hrest ih =>
    obtain ⟨-, -, -, hfits⟩ := id hfirst
    rw [scan_of_blobAt hregion hfirst, ih hfits hend]
    rfl

theorem exists_chain (region : Bytes) (start : Nat) :
    ∃ spans last, Chain region start spans last ∧ ∀ stop, ¬ BlobAt region ⟨last, stop⟩ := by
  induction hleft : region.length - start using Nat.strongRecOn generalizing start with
  | ind left ih =>
    by_cases hblob : ∃ stop, BlobAt region ⟨start, stop⟩
    · obtain ⟨stop, hblob⟩ := hblob
      have hlt := hblob.lt
      obtain ⟨-, -, -, hfits⟩ := id hblob
      dsimp only at hfits
      obtain ⟨spans, last, hchain, hend⟩ := ih (region.length - stop) (by omega) stop rfl
      exact ⟨_, last, .blob hblob hchain, hend⟩
    · exact ⟨[], start, .done start, not_exists.mp hblob⟩

theorem Chain.prefix_of_end {others : List Span} {other : Nat}
    (h : Chain region start others other) (hfull : Chain region start spans last)
    (hend : ∀ stop, ¬ BlobAt region ⟨last, stop⟩) : others <+: spans := by
  induction h generalizing spans with
  | done start => exact List.nil_prefix
  | blob hfirst hrest ih =>
    cases hfull with
    | done => exact absurd hfirst (hend _)
    | blob hfirst' hrest' =>
      cases hfirst.stop_eq hfirst'
      exact List.cons_prefix_cons.mpr ⟨rfl, ih hrest'⟩

theorem chain_spansFrom {blobs : List Bytes} {rest : Bytes}
    (hregion : region.drop start = blobs.flatten ++ rest) (hstart : start ≤ region.length)
    (hwhole : ∀ blob ∈ blobs, Whole blob) :
    Chain region start (spansFrom start blobs) (start + blobs.flatten.length) := by
  induction blobs generalizing start with
  | nil => exact .done start
  | cons blob blobs ih =>
    rw [List.forall_mem_cons] at hwhole
    obtain ⟨⟨header, hread, hlength⟩, hwhole⟩ := hwhole
    rw [List.flatten_cons, List.append_assoc] at hregion
    have hsizes := congrArg List.length hregion
    rw [List.length_drop, List.length_append] at hsizes
    have hfits : start + blob.length ≤ region.length := by omega
    have hbehind : region.drop (start + blob.length) = blobs.flatten ++ rest := by
      rw [← List.drop_drop, hregion, List.drop_left]
    have hfirst : BlobAt region ⟨start, start + blob.length⟩ := by
      refine ⟨header, ?_, by rw [hlength], hfits⟩
      rw [hregion, Header.read_append (Header.read_eq_ok_iff.mp hread).1, hread]
    have hlater := ih hbehind hfits hwhole
    rw [List.flatten_cons, List.length_append, ← Nat.add_assoc]
    exact .blob hfirst hlater

theorem not_blobAt_of_noBlob {rest : Bytes} (h : NoBlob rest) (hrest : region.drop start = rest) :
    ¬ BlobAt region ⟨start, stop⟩ := by
  rintro ⟨header, hread, hstop, hfits⟩
  rw [hrest] at hread
  have hlong := h header (Header.probe?_eq_some.mpr hread)
  rw [← hrest, List.length_drop] at hlong
  dsimp only at hstop hfits
  omega

theorem scan_blobs {blobs : List Bytes} {rest : Bytes} (hbytes : region.length ≤ bufferLimit)
    (hregion : region.drop start = blobs.flatten ++ rest) (hstart : start ≤ region.length)
    (hwhole : ∀ blob ∈ blobs, Whole blob) (hrest : NoBlob rest) :
    scan region start = .ok (spansFrom start blobs) := by
  have hbehind : region.drop (start + blobs.flatten.length) = rest := by
    rw [← List.drop_drop, hregion, List.drop_left]
  exact (chain_spansFrom hregion hstart hwhole).scan_eq hbytes hstart fun _ =>
    not_blobAt_of_noBlob hrest hbehind

/-- The search finds the blobs that follow one another from its start, all of them: any other chain
from there is the beginning of what it finds, and no blob stands behind the last one. -/
theorem scan_chain {region : Bytes} {start : Nat} (hstart : start ≤ region.length)
    (hregion : region.length ≤ bufferLimit) :
    ∃ spans last, scan region start = .ok spans ∧ Chain region start spans last ∧
      (∀ stop, ¬ BlobAt region ⟨last, stop⟩) ∧
      (∀ others other, Chain region start others other → others <+: spans) ∧
      ∀ blobs rest, region.drop start = blobs.flatten ++ rest → (∀ blob ∈ blobs, Whole blob) →
        NoBlob rest → spans = spansFrom start blobs := by
  obtain ⟨spans, last, hchain, hend⟩ := exists_chain region start
  have hscan := hchain.scan_eq hregion hstart hend
  refine ⟨spans, last, hscan, hchain, hend, fun _ _ h => h.prefix_of_end hchain hend, ?_⟩
  intro blobs rest hblobs hwhole hrest
  rw [scan_blobs hregion hblobs hstart hwhole hrest] at hscan
  exact (Except.ok.inj hscan).symm

def shortestHeader : Header := ⟨41, 40, 40, 40, 17, 16, 0, 0, 0⟩

def shortestBlob : Bytes := encodeHeader shortestHeader ++ [0]

theorem scan_chain_shortest :
    let region := [7] ++ (blobOf empty ++ shortestBlob)
    1 ≤ region.length ∧ region.length ≤ bufferLimit ∧ region.length = 114 ∧
      scan region 1 = .ok [⟨1, 73⟩, ⟨73, 114⟩] := by
  intro region
  have hlength : region.length = 114 := by decide +kernel
  have hbuffer : 114 ≤ bufferLimit := by decide
  have hstart : 1 ≤ region.length := by omega
  have hregion : region.length ≤ bufferLimit := by omega
  have hfirst : Whole (blobOf empty) :=
    ⟨headerOf empty, Header.probe?_eq_some.mp (by decide +kernel), by decide +kernel⟩
  have hsecond : Whole shortestBlob :=
    ⟨shortestHeader, Header.probe?_eq_some.mp (by decide +kernel), by decide +kernel⟩
  have hwhole : ∀ blob ∈ [blobOf empty, shortestBlob], Whole blob := by simp [hfirst, hsecond]
  have hblobs : region.drop 1 = [blobOf empty, shortestBlob].flatten ++ [] := by
    simp [region]
  obtain ⟨spans, -, hscan, -, -, -, hrow⟩ := scan_chain hstart hregion
  have hspans : spansFrom 1 [blobOf empty, shortestBlob] = [⟨1, 73⟩, ⟨73, 114⟩] := by
    decide +kernel
  rw [hrow _ _ hblobs hwhole nofun, hspans] at hscan
  exact ⟨hstart, hregion, hlength, hscan⟩

end Resolve

end BootAssembly
