import BootAssembly.Proofs.DeviceTree.Acceptance
import BootAssembly.Proofs.Overlay.References
import BootAssembly.Proofs.Overlay.Splicing

namespace BootAssembly.Overlay

open DeviceTree

theorem forall_mem_set {P : String → Prop} {ps : Properties} (h : ∀ p ∈ ps, P p.name)
    {name : String} (hname : P name) (value : Bytes) : ∀ p ∈ ps.set name value, P p.name := by
  induction ps with
  | nil => simpa [Properties.set] using hname
  | cons p ps ih =>
    rw [List.forall_mem_cons] at h
    rw [Properties.set]
    split
    · exact List.forall_mem_cons.mpr ⟨h.1, h.2⟩
    · exact List.forall_mem_cons.mpr ⟨h.1, ih h.2⟩

theorem forall_mem_lay {P : String → Prop} {ps : Properties} (h : ∀ p ∈ ps, P p.name) {s : Node}
    (hs : ∀ p ∈ s.properties, P p.name) : ∀ p ∈ lay ps s, P p.name := by
  rw [lay]
  generalize s.properties = qs at hs
  induction qs generalizing ps with
  | nil => exact h
  | cons q qs ih =>
    rw [List.forall_mem_cons] at hs
    exact ih (forall_mem_set h hs.1 q.value) hs.2

theorem nulFree_of_overlaid {sources : List Node} {n n' : Node} (h : Overlaid sources n n')
    (hn : n.NulFree) (hs : ∀ s ∈ sources, s.NulFree) : n'.NulFree := by
  refine ⟨h.name ▸ hn.1, ?_⟩
  rw [h.properties]
  obtain ⟨-, hproperties⟩ := hn
  generalize n.properties = ps at hproperties
  clear h
  induction sources generalizing ps with
  | nil => exact hproperties
  | cons s sources ih =>
    rw [List.forall_mem_cons] at hs
    exact ih hs.2 _ (forall_mem_lay (P := fun name => 0 ∉ utf8 name) hproperties hs.1.2)

theorem nulFree_of_outline_eq {n n' : Node} (h : n'.outline = n.outline) (hn : n.NulFree) :
    n'.NulFree := by
  obtain ⟨hname, hproperties, -⟩ := Node.outline_eq_iff.mp h
  have hnames := congrArg (List.map Property.name) hproperties
  rw [Properties.map_name_outline, Properties.map_name_outline] at hnames
  refine ⟨hname ▸ hn.1, fun p hp => ?_⟩
  have hmem : p.name ∈ n'.properties.map Property.name := List.mem_map_of_mem hp
  rw [hnames] at hmem
  obtain ⟨q, hq, hsame⟩ := List.mem_map.mp hmem
  exact hsame ▸ hn.2 q hq

theorem nulFree_of_mem_bodies {base overlay prepared : DeviceTree}
    (h : prepare base overlay = .ok prepared) (hoverlay : ∀ n ∈ overlay.root.toList, n.NulFree)
    {s : Node} (hs : s ∈ (grafts base prepared).flatMap (·.body.toList)) : s.NulFree := by
  have hprepared : ∀ n ∈ prepared.root.toList, n.NulFree := by
    intro n hn
    obtain ⟨-, m, -, -, hm, houtline⟩ := exists_of_mem_prepared h hn
    exact nulFree_of_outline_eq houtline (hoverlay m hm)
  rcases mem_bodies hs with hmem | ⟨labels, hlabels, placed, -, rfl | rfl⟩
  · exact hprepared s hmem
  · exact ⟨show 0 ∉ utf8 "" by decide, nofun⟩
  · refine ⟨show 0 ∉ utf8 symbolsName by decide, fun p hp => ?_⟩
    obtain ⟨label, hlabel, hname, -⟩ := mem_rebased hp
    exact hname ▸ (hprepared labels hlabels).2 label hlabel

theorem nulFree_apply {base overlay merged : DeviceTree}
    (h : (apply base overlay).outcome = .ok merged) (hbase : ∀ n ∈ base.root.toList, n.NulFree)
    (hoverlay : ∀ n ∈ overlay.root.toList, n.NulFree) : ∀ n ∈ merged.root.toList, n.NulFree := by
  obtain ⟨prepared, hprepared, rfl⟩ := apply_eq_ok h
  intro n' hn'
  obtain ⟨pos, hpos⟩ := (Node.mem_toList_iff _ n').mp hn'
  obtain ⟨n, sources, hsources, hlaid, hn⟩ := (draws_foldl_onto _ base).origin pos n' hpos
  have hpool := fun s hs => nulFree_of_mem_bodies hprepared hoverlay (s := s) hs
  apply nulFree_of_overlaid hlaid _ fun s hs => hpool s (hsources s hs)
  rcases hn with hn | ⟨-, s, hs, rfl⟩
  · exact hbase n (Node.mem_toList_of_at? hn)
  · exact ⟨(hpool s hs).1, nofun⟩

/-- Of two blobs that can be read the merged tree's blob can be read again, as that tree, unless an
overlay node has come to lie deeper than the reader goes. -/
theorem parse_merged {baseBlob overlayBlob b : Bytes} {base overlay merged : DeviceTree}
    (hbase : parse baseBlob = .ok base) (hoverlay : parse overlayBlob = .ok overlay)
    (h : (apply base overlay).outcome = .ok merged) (hb : toBytes merged = .ok b) :
    parse b = if merged.root.height ≤ maxDepth then .ok merged
      else .error (.invalidFormat "fdt nesting too deep") := by
  have hnul := nulFree_apply h (portable_of_parse hbase).nulFree (portable_of_parse hoverlay).nulFree
  have hreserved : ∀ r ∈ merged.reservations, ¬ (r.address = 0 ∧ r.size = 0) := by
    obtain ⟨prepared, -, rfl⟩ := apply_eq_ok h
    rw [foldl_onto_eq]
    exact (portable_of_parse hbase).reserved
  have hread := parse_written hnul hreserved hb []
  rwa [List.append_nil] at hread

theorem parse_blobOf_self {t : DeviceTree} (hlimit : encodedSize t < UInt32.size)
    (h : t.Portable) : parse (blobOf t) = .ok t := by
  rw [← parse_blobOf hlimit h [], List.append_nil]

def enabledPorts : DeviceTree where
  bootCpu := 0
  reservations := []
  root := ⟨"", [], [⟨"uart", [⟨"phandle", be32 1⟩, ⟨"status", nulTerminated "okay"⟩], []⟩,
    ⟨"uart@100", [], []⟩]⟩

theorem parse_merged_ports :
    (apply orderedPorts enablePort).outcome = .ok enabledPorts ∧
      ∃ b, toBytes enabledPorts = .ok b ∧ parse b = .ok enabledPorts := by
  have hbase : parse (blobOf orderedPorts) = .ok orderedPorts :=
    parse_blobOf_self (by decide +kernel) ⟨by decide, by decide, by decide⟩
  have hoverlay : parse (blobOf enablePort) = .ok enablePort :=
    parse_blobOf_self (by decide +kernel) ⟨by decide, by decide, by decide⟩
  have happly : (apply orderedPorts enablePort).outcome = .ok enabledPorts := by decide +kernel
  have hb := toBytes_eq_ok_iff.mpr ⟨show encodedSize enabledPorts < _ by decide +kernel, rfl⟩
  have hread := parse_merged hbase hoverlay happly hb
  rw [if_pos (show enabledPorts.root.height ≤ maxDepth by decide)] at hread
  exact ⟨happly, _, hb, hread⟩

def chain : Nat → Node → Node
  | 0, n => n
  | levels + 1, n => ⟨"a", [], [chain levels n]⟩

def shaft (n : Node) : DeviceTree where
  bootCpu := 0
  reservations := []
  root := ⟨"", [], [chain 63 n]⟩

def deepenShaft : DeviceTree where
  bootCpu := 0
  reservations := []
  root := ⟨"", [], [
    ⟨"fragment@0", [⟨"target-path", (List.replicate 64 [0x2f, 0x61]).flatten ++ [0]⟩],
      [⟨"__overlay__", [], [⟨"b", [], []⟩]⟩]⟩]⟩

theorem merged_blob_refused :
    ∃ shallow deep b, parse (blobOf shallow) = .ok shallow ∧
      parse (blobOf deepenShaft) = .ok deepenShaft ∧
      (apply shallow deepenShaft).outcome = .ok deep ∧ toBytes deep = .ok b ∧
      parse b = .error (.invalidFormat "fdt nesting too deep") := by
  have hshallow : (shaft ⟨"a", [], []⟩).Portable :=
    ⟨by decide +kernel, by decide +kernel, by decide⟩
  have hdeep : ∀ n ∈ (shaft ⟨"a", [], [⟨"b", [], []⟩]⟩).root.toList, n.NulFree := by
    decide +kernel
  have hb : toBytes (shaft ⟨"a", [], [⟨"b", [], []⟩]⟩) =
      .ok (blobOf (shaft ⟨"a", [], [⟨"b", [], []⟩]⟩)) :=
    toBytes_eq_ok_iff.mpr ⟨by decide +kernel, rfl⟩
  have hread := parse_written hdeep nofun hb []
  rw [List.append_nil, if_neg (by decide +kernel)] at hread
  refine ⟨shaft ⟨"a", [], []⟩, shaft ⟨"a", [], [⟨"b", [], []⟩]⟩, _, ?_, ?_, ?_, hb, hread⟩
  · exact parse_blobOf_self (by decide +kernel) hshallow
  · exact parse_blobOf_self (by decide +kernel) ⟨by decide +kernel, by decide, by decide⟩
  · decide +kernel

end BootAssembly.Overlay
