import BootAssembly.Proofs.DeviceTree.Position
import BootAssembly.Proofs.DeviceTree.RoundTrip

namespace BootAssembly.DeviceTree

structure Node.Readable (depth : Nat) (n : Node) : Prop where
  nulFree : ∀ m ∈ n.toList, m.NulFree
  shallow : n.height + depth ≤ maxDepth

def Entered : List Node → Prop
  | [] => True
  | n :: outer => n.Readable outer.length ∧ Entered outer

theorem Node.forestHeight_append (cs ds : List Node) :
    forestHeight (cs ++ ds) = max (forestHeight cs) (forestHeight ds) := by
  induction cs with
  | nil => rw [List.nil_append, forestHeight, Nat.zero_max]
  | cons c cs ih => rw [List.cons_append, forestHeight, forestHeight, ih, Nat.max_assoc]

namespace Node.Readable

variable {depth : Nat} {n c : Node}

theorem new {name : String} (hname : 0 ∉ utf8 name) (hdepth : depth ≤ maxDepth) :
    (Node.new name).Readable depth := by
  constructor
  · simpa [Node.new, toList, forestToList, NulFree] using hname
  · rw [Node.new, height, forestHeight]
    omega

theorem addProperty (h : n.Readable depth) {p : Property} (hp : 0 ∉ utf8 p.name) :
    Node.Readable depth { n with properties := n.properties ++ [p] } := by
  obtain ⟨hnul, hshallow⟩ := h
  cases n
  rw [toList, List.forall_mem_cons] at hnul
  refine ⟨?_, hshallow⟩
  rw [toList, List.forall_mem_cons]
  refine ⟨⟨hnul.1.1, fun q hq => ?_⟩, hnul.2⟩
  rcases List.mem_append.mp hq with hq | hq
  · exact hnul.1.2 q hq
  · rwa [List.mem_singleton.mp hq]

theorem addChild (h : n.Readable depth) (hc : c.Readable (depth + 1)) :
    Node.Readable depth { n with children := n.children ++ [c] } := by
  obtain ⟨hnul, hshallow⟩ := h
  cases n
  rw [toList, List.forall_mem_cons] at hnul
  constructor
  · rw [toList, List.forall_mem_cons]
    refine ⟨hnul.1, fun m hm => ?_⟩
    simp only [forestToList_append, List.mem_append, forestToList, List.append_nil] at hm
    rcases hm with hm | hm
    · exact hnul.2 m hm
    · exact hc.nulFree m hm
  · have hdeep := hc.shallow
    simp only [height, forestHeight_append, forestHeight] at hshallow ⊢
    omega

end Node.Readable

theorem takeName_nulFree {bytes rest : Bytes} {name : String}
    (h : takeName bytes = .ok (name, rest)) : 0 ∉ utf8 name := by
  unfold takeName at h
  split at h
  · cases h
  · rename_i hsplit
    split at h
    · cases h
    · rename_i htext
      cases h
      rw [utf8_of_ofUtf8? htext]
      exact (splitNul_eq_some.mp hsplit).2

theorem nameAt_nulFree {strings : Bytes} {offset : Nat} {name : String}
    (h : nameAt strings offset = .ok name) : 0 ∉ utf8 name := by
  unfold nameAt at h
  split at h
  · cases h
  · split at h
    · cases h
    · rename_i hsplit
      split at h
      · cases h
      · rename_i htext
        cases h
        rw [utf8_of_ofUtf8? htext]
        exact (splitNul_eq_some.mp hsplit).2

theorem takeProperty_nulFree {strings bytes rest : Bytes} {p : Property}
    (h : takeProperty strings bytes = .ok (p, rest)) : 0 ∉ utf8 p.name := by
  unfold takeProperty at h
  split at h
  · cases h
  split at h
  · cases h
  split at h
  · cases h
  split at h
  · cases h
  · rename_i hname
    cases h
    exact nameAt_nulFree hname

theorem takeItem_property_nulFree {strings bytes rest : Bytes} {depth : Nat} {p : Property}
    (h : takeItem strings depth bytes = .ok (.property p, rest)) : 0 ∉ utf8 p.name := by
  unfold takeItem at h
  split at h
  · cases h
  split at h
  · split at h
    · cases h
    · rename_i hp
      cases h
      exact takeProperty_nulFree hp
  · split at h
    · cases h
    split at h <;> cases h
  all_goals cases h

theorem takeItem_child_readable {strings bytes rest : Bytes} {depth : Nat} {name : String}
    (h : takeItem strings depth bytes = .ok (.child name, rest)) :
    (Node.new name).Readable depth := by
  unfold takeItem at h
  split at h
  · cases h
  split at h
  · split at h <;> cases h
  · split at h
    · cases h
    · rename_i hdepth
      split at h
      · cases h
      · rename_i hname
        cases h
        exact .new (takeName_nulFree hname) (Nat.not_lt.mp hdepth)
  all_goals cases h

theorem takeNode_readable {strings rest bytes : Bytes} {root current : Node} {outer : List Node}
    (h : takeNode strings current outer bytes = .ok (root, rest))
    (hentered : Entered (current :: outer)) : root.Readable 0 := by
  fun_induction takeNode strings current outer bytes with
  | case1 => cases h
  | case2 current outer bytes rest hitem ih => exact ih h hentered
  | case3 current outer bytes p rest hitem ih =>
    exact ih h ⟨hentered.1.addProperty (takeItem_property_nulFree hitem), hentered.2⟩
  | case4 current outer bytes name rest hitem ih =>
    exact ih h ⟨takeItem_child_readable hitem, hentered⟩
  | case5 current bytes rest hitem =>
    cases h
    exact hentered.1
  | case6 current bytes rest parent outer _ hitem ih =>
    exact ih h ⟨hentered.2.1.addChild hentered.1, hentered.2.2⟩

theorem decodeStructure_readable {strings block : Bytes} {root : Node}
    (h : decodeStructure strings block = .ok root) : root.Readable 0 := by
  obtain ⟨⟨first, afterTag⟩, -, h⟩ := bind_eq_ok.mp h
  by_cases hfirst : first = .beginNode
  · simp only [hfirst, ne_eq, not_true_eq_false, if_false] at h
    obtain ⟨⟨name, afterName⟩, hname, h⟩ := bind_eq_ok.mp h
    obtain ⟨⟨root', afterRoot⟩, hroot, h⟩ := bind_eq_ok.mp h
    obtain ⟨⟨last, _⟩, -, h⟩ := bind_eq_ok.mp h
    have hread := takeNode_readable hroot
      ⟨.new (takeName_nulFree hname) (Nat.zero_le maxDepth), trivial⟩
    by_cases hlast : last = .finish
    · simp only [hlast, not_true_eq_false, if_false] at h
      cases h
      exact hread
    · simp only [hlast, not_false_eq_true, if_true] at h
      cases h
  · simp only [ne_eq, hfirst, not_false_eq_true, if_true] at h
    cases h

theorem decodeReservations_nonzero {bytes : Bytes} {rs : List Reservation}
    (h : decodeReservations bytes = .ok rs) : ∀ r ∈ rs, ¬ (r.address = 0 ∧ r.size = 0) := by
  fun_induction decodeReservations bytes generalizing rs with
  | case1 => cases h
  | case2 =>
    cases h
    exact nofun
  | case3 => cases h
  | case4 bytes entry rest hsplit r hr rs' hrest =>
    rename_i ih
    cases h
    exact List.forall_mem_cons.mpr ⟨hr, ih hrest⟩

theorem portable_of_parse {bytes : Bytes} {t : DeviceTree} (h : parse bytes = .ok t) :
    t.Portable := by
  obtain ⟨header, -, h⟩ := bind_eq_ok.mp h
  cases hsplit : splitExact header.totalSize.toNat bytes with
  | none =>
    rw [hsplit] at h
    cases h
  | some parts =>
    rw [hsplit] at h
    obtain ⟨⟨blob, _⟩, -, h⟩ := bind_eq_ok.mp h
    obtain ⟨reservations, hreservations, h⟩ := bind_eq_ok.mp h
    obtain ⟨stringsSpan, -, h⟩ := bind_eq_ok.mp h
    obtain ⟨structSpan, -, h⟩ := bind_eq_ok.mp h
    obtain ⟨root, hroot, h⟩ := bind_eq_ok.mp h
    cases h
    obtain ⟨hnul, hshallow⟩ := decodeStructure_readable hroot
    exact ⟨hnul, hshallow, decodeReservations_nonzero hreservations⟩

def tooDeep : Fault := .invalidFormat "fdt nesting too deep"

theorem takeItem_tooDeep {strings rest : Bytes} {depth : Nat} (h : maxDepth < depth) :
    takeItem strings depth (beginTag ++ rest) = .error tooDeep := by
  simp only [beginTag, takeItem, takeWord_be32]
  rw [show Tag.ofWord 1 = .beginNode from rfl]
  simp only [if_pos h, tooDeep]

theorem takeNode_of_error {strings bytes : Bytes} {current : Node} {outer : List Node} {e : Fault}
    (h : takeItem strings (outer.length + 1) bytes = .error e) :
    takeNode strings current outer bytes = .error e := by
  rw [takeNode]
  split <;> rename_i hi <;> rw [h] at hi <;> cases hi
  rfl

section

variable {strings : Bytes} (hstrings : strings.length < UInt32.size)

include hstrings

mutual

theorem takeNode_node_tooDeep {names : List Bytes} (h : ∀ n ∈ names, 0 ∉ n) :
    (c : Node) → (current : Node) → (outer : List Node) → (rest : Bytes) →
    c.NulFree → (∀ m ∈ Node.forestToList c.children, m.NulFree) →
    maxDepth < c.height + 1 + outer.length →
    (encodeNode (stringsOf names) c).2 <+: strings →
    (encodeNode (stringsOf names) c).1.length < UInt32.size →
    takeNode strings current outer ((encodeNode (stringsOf names) c).1 ++ rest) = .error tooDeep
  | ⟨name, ps, cs⟩, current, outer, rest, hc, hcs, hdepth, htable, hsize => by
    have hps : ∀ n ∈ propertyNames ps, 0 ∉ n := nul_not_mem_propertyNames hc
    have hbelow : ∀ m ∈ Node.forestToList cs, m.NulFree := hcs
    have hnames := nul_not_mem_foldl_recordName h hps
    have hown := encodeProperties_table h ps hps
    rw [Node.height] at hdepth
    rw [encodeNode_mk] at htable hsize ⊢
    simp only [hown, List.length_append] at htable hsize
    simp only [hown, List.append_assoc]
    rcases Nat.lt_or_ge maxDepth (outer.length + 1) with hover | hunder
    · exact takeNode_of_error (takeItem_tooDeep hover)
    · have hprefix : (encodeProperties (stringsOf names) ps).2 <+: strings := by
        rw [hown]
        rw [encodeForest_table hnames cs hbelow] at htable
        exact (stringsOf_mono (prefix_foldl_recordName _ _)).trans htable
      rw [takeNode_of_child (takeItem_child hc.1 hunder _),
        takeNode_properties h hps hprefix hstrings (by omega)]
      exact takeNode_forest_tooDeep hnames cs _ (current :: outer) _ hbelow hunder
        (by rw [List.length_cons]; omega) htable (by omega)

theorem takeNode_forest_tooDeep {names : List Bytes} (h : ∀ n ∈ names, 0 ∉ n) :
    (cs : List Node) → (current : Node) → (outer : List Node) → (rest : Bytes) →
    (∀ n ∈ Node.forestToList cs, n.NulFree) → outer.length ≤ maxDepth →
    maxDepth < Node.forestHeight cs + outer.length →
    (encodeForest (stringsOf names) cs).2 <+: strings →
    (encodeForest (stringsOf names) cs).1.length < UInt32.size →
    takeNode strings current outer ((encodeForest (stringsOf names) cs).1 ++ rest) = .error tooDeep
  | [], current, outer, rest, _, hunder, hdepth, _, _ => by
    rw [Node.forestHeight] at hdepth
    omega
  | c :: cs, current, outer, rest, hcs, hunder, hdepth, htable, hsize => by
    obtain ⟨hc, hbelow, hcs⟩ := forest_forall_cons.mp hcs
    rw [Node.forestHeight] at hdepth
    have hfirst := encodeNode_table h c hc hbelow
    have hnames := nul_not_mem_foldl_recordName h (nul_not_mem_nodeNames hc hbelow)
    rw [encodeForest_cons] at htable hsize ⊢
    simp only [hfirst, List.length_append] at htable hsize
    have hprefix : (encodeNode (stringsOf names) c).2 <+: strings := by
      rw [hfirst]
      rw [encodeForest_table hnames cs hcs] at htable
      exact (stringsOf_mono (prefix_foldl_recordName _ _)).trans htable
    simp only [hfirst, List.append_assoc]
    rcases Nat.lt_or_ge maxDepth (c.height + 1 + outer.length) with hdeep | hshallow
    · exact takeNode_node_tooDeep h c current outer _ hc hbelow hdeep hprefix (by omega)
    · rw [takeNode_node h hstrings c current outer _ hc hbelow hshallow hprefix (by omega)]
      exact takeNode_forest_tooDeep hnames cs _ outer rest hcs hunder (by omega) htable (by omega)

end

theorem decodeStructure_tooDeep {root : Node} (h : ∀ n ∈ root.toList, n.NulFree)
    (hdepth : maxDepth < root.height) (htable : (encodeNode [] root).2 = strings)
    (hsize : (encodeNode [] root).1.length < UInt32.size) :
    decodeStructure strings ((encodeNode [] root).1 ++ finishTag) = .error tooDeep := by
  cases root with | mk name ps cs
  rw [Node.toList, List.forall_mem_cons] at h
  obtain ⟨hn, hbelow⟩ := h
  have hno : ∀ n ∈ ([] : List Bytes), 0 ∉ n := fun n hmem => absurd hmem List.not_mem_nil
  have hps : ∀ n ∈ propertyNames ps, 0 ∉ n := nul_not_mem_propertyNames hn
  have hnames := nul_not_mem_foldl_recordName hno hps
  have hown := encodeProperties_table hno ps hps
  rw [show ([] : Bytes) = stringsOf [] from rfl, encodeNode_mk] at htable hsize ⊢
  simp only [hown, List.length_append] at htable hsize
  have hprefix : (encodeProperties (stringsOf []) ps).2 <+: strings := by
    rw [hown, ← htable, encodeForest_table hnames cs hbelow]
    exact stringsOf_mono (prefix_foldl_recordName _ _)
  have hbody : takeNode strings (.new name) [] ((encodeProperties (stringsOf []) ps).1 ++
      ((encodeForest (stringsOf ((propertyNames ps).foldl recordName [])) cs).1 ++
        (endTag ++ finishTag))) = .error tooDeep := by
    rw [takeNode_properties hno hps hprefix hstrings (by omega)]
    exact takeNode_forest_tooDeep hstrings hnames cs _ [] _ hbelow (Nat.zero_le _) hdepth
      (htable ▸ List.prefix_refl _) (by omega)
  have hfirst := takeTag_be32 1 (by decide)
  simp only [hown, List.append_assoc, decodeStructure, beginTag, hfirst]
  simp only [bind, Except.bind, takeName_append hn.1, hbody]
  rfl

end

/-- A blob is read back just when its nodes are not nested too deep; that is the only reason for
which it can be refused. -/
theorem parse_written {t : DeviceTree} (hnul : ∀ n ∈ t.root.toList, n.NulFree)
    (hreserved : ∀ r ∈ t.reservations, ¬ (r.address = 0 ∧ r.size = 0)) {b : Bytes}
    (h : toBytes t = .ok b) (rest : Bytes) :
    parse (b ++ rest) = if t.root.height ≤ maxDepth then .ok t else .error tooDeep := by
  obtain ⟨hlimit, rfl⟩ := toBytes_eq_ok_iff.mp h
  split
  · exact parse_blobOf hlimit ⟨hnul, ‹_›, hreserved⟩ rest
  · have hsize : encodedSize t = structStart t + ((encodeNode [] t.root).1.length +
        finishTag.length) + (stringsBytes t).length := by
      rw [← List.length_append]
      rfl
    have hroot : decodeStructure (stringsBytes t) (structBytes t) = .error tooDeep :=
      decodeStructure_tooDeep (by omega) hnul (Nat.not_le.mp ‹_›) rfl (by omega)
    rw [parse_blobOf_eq hlimit hreserved, hroot]
    rfl

end BootAssembly.DeviceTree
