import BootAssembly.Proofs.DeviceTree.Interning
import BootAssembly.Proofs.DeviceTree.Portable

namespace BootAssembly.DeviceTree

variable {strings rest : Bytes} {current : Node} {outer : List Node}

theorem takeWord_append {word : Bytes} (h : word.length = 4) (rest : Bytes) :
    takeWord (word ++ rest) = .ok (ofBe32 word, rest) := by
  match word, h with
  | [a, b, c, d], _ => rfl

theorem takeWord_be32 (v : UInt32) (rest : Bytes) : takeWord (be32 v ++ rest) = .ok (v, rest) := by
  rw [takeWord_append (length_be32 v), ofBe32_be32]

theorem takeName_nulTerminated {name : String} {padding : Bytes} (h : 0 ∉ utf8 name)
    (hpadding : padding.length = gap ((utf8 name).length + 1)) (rest : Bytes) :
    takeName (nulTerminated name ++ (padding ++ rest)) = .ok (name, rest) := by
  have hsplit : nulTerminated name ++ (padding ++ rest) = utf8 name ++ 0 :: (padding ++ rest) := by
    rw [nulTerminated, List.append_assoc, List.singleton_append]
  rw [hsplit, takeName, splitNul_eq_some.mpr ⟨rfl, h⟩]
  simp only [ofUtf8?_utf8]
  rw [List.drop_left' hpadding]

theorem takeName_append {name : String} (h : 0 ∉ utf8 name) (rest : Bytes) :
    takeName (padded (nulTerminated name) ++ rest) = .ok (name, rest) := by
  have hlength : (nulTerminated name).length = (utf8 name).length + 1 := by
    rw [nulTerminated, List.length_append, List.length_singleton]
  rw [padded, List.append_assoc, hlength]
  exact takeName_nulTerminated h List.length_replicate rest

theorem takeProperty_of_standsAt {p : Property} {length offset : UInt32} {padding : Bytes}
    (hn : 0 ∉ utf8 p.name) (hlength : length.toNat = p.value.length)
    (hs : StandsAt strings (utf8 p.name) offset.toNat)
    (hpadding : padding.length = gap p.value.length) (rest : Bytes) :
    takeProperty strings (be32 length ++ (be32 offset ++ (p.value ++ (padding ++ rest)))) =
      .ok (p, rest) := by
  have hsplit : splitExact p.value.length (p.value ++ (padding ++ rest)) =
      some (p.value, padding ++ rest) := splitExact_eq_some.mpr ⟨rfl, rfl⟩
  simp only [takeProperty, takeWord_be32, hlength, hsplit, nameAt_of_standsAt hs hn]
  rw [List.drop_left' hpadding]

theorem takeProperty_append {p : Property} {offset : Nat} (hn : 0 ∉ utf8 p.name)
    (hs : StandsAt strings (utf8 p.name) offset) (ho : strings.length < UInt32.size)
    (hv : p.value.length < UInt32.size) (rest : Bytes) :
    takeProperty strings (be32 (UInt32.ofNat p.value.length) ++
      (be32 (UInt32.ofNat offset) ++ (padded p.value ++ rest))) = .ok (p, rest) := by
  have hoffset : (UInt32.ofNat offset).toNat = offset :=
    UInt32.toNat_ofNat_of_lt' (Nat.lt_trans hs.lt_length ho)
  rw [padded, List.append_assoc]
  exact takeProperty_of_standsAt hn (UInt32.toNat_ofNat_of_lt' hv) (hoffset.symm ▸ hs)
    List.length_replicate rest

theorem takeItem_property {p : Property} {offset : Nat} (hn : 0 ∉ utf8 p.name)
    (hs : StandsAt strings (utf8 p.name) offset) (ho : strings.length < UInt32.size)
    (hv : p.value.length < UInt32.size) (depth : Nat) (rest : Bytes) :
    takeItem strings depth (encodeProperty offset p.value ++ rest) = .ok (.property p, rest) := by
  have hp := takeProperty_append hn hs ho hv rest
  simp only [encodeProperty, propertyTag, List.append_assoc, takeItem, takeWord_be32]
  rw [show Tag.ofWord 3 = .property from rfl]
  simp only [hp]

theorem takeItem_child {name : String} (hn : 0 ∉ utf8 name) {depth : Nat} (hd : depth ≤ maxDepth)
    (rest : Bytes) :
    takeItem strings depth (beginTag ++ (padded (nulTerminated name) ++ rest)) =
      .ok (.child name, rest) := by
  simp only [beginTag, takeItem, takeWord_be32]
  rw [show Tag.ofWord 1 = .beginNode from rfl]
  simp only [if_neg (Nat.not_lt.mpr hd), takeName_append hn]

theorem takeItem_close (depth : Nat) (rest : Bytes) :
    takeItem strings depth (endTag ++ rest) = .ok (.close, rest) := by
  simp only [endTag, takeItem, takeWord_be32]
  rfl

theorem takeNode_of_property {bytes : Bytes} {p : Property}
    (h : takeItem strings (outer.length + 1) bytes = .ok (.property p, rest)) :
    takeNode strings current outer bytes =
      takeNode strings { current with properties := current.properties ++ [p] } outer rest := by
  rw [takeNode]
  split <;> rename_i hi <;> rw [h] at hi <;> cases hi
  rfl

theorem takeNode_of_child {bytes : Bytes} {name : String}
    (h : takeItem strings (outer.length + 1) bytes = .ok (.child name, rest)) :
    takeNode strings current outer bytes =
      takeNode strings (.new name) (current :: outer) rest := by
  rw [takeNode]
  split <;> rename_i hi <;> rw [h] at hi <;> cases hi
  rfl

theorem takeNode_of_close {bytes : Bytes} {parent : Node}
    (h : takeItem strings ((parent :: outer).length + 1) bytes = .ok (.close, rest)) :
    takeNode strings current (parent :: outer) bytes =
      takeNode strings { parent with children := parent.children ++ [current] } outer rest := by
  rw [takeNode]
  split <;> rename_i hi <;> rw [h] at hi <;> cases hi
  rfl

theorem takeNode_of_last_close {bytes : Bytes}
    (h : takeItem strings 1 bytes = .ok (.close, rest)) :
    takeNode strings current [] bytes = .ok (current, rest) := by
  rw [takeNode]
  split <;> rename_i hi <;> rw [List.length_nil, h] at hi <;> cases hi
  rfl

theorem encodeForest_cons (table : Bytes) (c : Node) (cs : List Node) :
    encodeForest table (c :: cs) =
      ((encodeNode table c).1 ++ (encodeForest (encodeNode table c).2 cs).1,
        (encodeForest (encodeNode table c).2 cs).2) := rfl

theorem encodeNode_mk (table : Bytes) (name : String) (ps : Properties) (cs : List Node) :
    encodeNode table ⟨name, ps, cs⟩ =
      let own := encodeProperties table ps
      let below := encodeForest own.2 cs
      (beginTag ++ padded (nulTerminated name) ++ own.1 ++ below.1 ++ endTag, below.2) := rfl

theorem encodeProperties_table {names : List Bytes} (h : ∀ n ∈ names, 0 ∉ n) (ps : Properties)
    (hps : ∀ n ∈ propertyNames ps, 0 ∉ n) :
    (encodeProperties (stringsOf names) ps).2 =
      stringsOf ((propertyNames ps).foldl recordName names) := by
  have hnames : ∀ name ∈ ps.map Property.name, 0 ∉ utf8 name := by
    simpa [propertyNames] using hps
  rw [encodeProperties_eq_internAll, internAll_table h hnames, List.map_map]
  rfl

mutual

theorem encodeNode_table {names : List Bytes} (h : ∀ n ∈ names, 0 ∉ n) :
    (n : Node) → n.NulFree → (∀ m ∈ Node.forestToList n.children, m.NulFree) →
    (encodeNode (stringsOf names) n).2 = stringsOf
      ((propertyNames n.properties ++ forestNames n.children).foldl recordName names)
  | ⟨name, ps, cs⟩, hn, hcs => by
    have hps := nul_not_mem_propertyNames hn
    rw [List.foldl_append, encodeNode_mk]
    simp only [encodeProperties_table h ps hps]
    exact encodeForest_table (nul_not_mem_foldl_recordName h hps) cs hcs

theorem encodeForest_table {names : List Bytes} (h : ∀ n ∈ names, 0 ∉ n) :
    (cs : List Node) → (∀ n ∈ Node.forestToList cs, n.NulFree) →
    (encodeForest (stringsOf names) cs).2 = stringsOf ((forestNames cs).foldl recordName names)
  | [], _ => rfl
  | c :: cs, hcs => by
    obtain ⟨hc, hbelow, hcs⟩ := forest_forall_cons.mp hcs
    rw [encodeForest_cons, forestNames_cons, ← List.append_assoc, List.foldl_append]
    simp only [encodeNode_table h c hc hbelow]
    exact encodeForest_table (nul_not_mem_foldl_recordName h (nul_not_mem_nodeNames hc hbelow)) cs
      hcs

end

theorem value_length_le (offset : Nat) (value : Bytes) :
    value.length ≤ (encodeProperty offset value).length := by
  simp only [encodeProperty, padded, List.length_append]
  omega

theorem value_length_le_encodeProperties {p : Property} {ps : Properties} (h : p ∈ ps)
    (table : Bytes) : p.value.length ≤ (encodeProperties table ps).1.length := by
  induction ps generalizing table with
  | nil => cases h
  | cons q ps ih =>
    simp only [encodeProperties_cons, List.length_append]
    rcases List.mem_cons.mp h with rfl | h
    · have hfirst := value_length_le (intern table (utf8 p.name)).1 p.value
      omega
    · have hrest := ih h (intern table (utf8 q.name)).2
      omega

mutual

theorem value_length_le_encodeNode {m : Node} {p : Property} (hp : p ∈ m.properties) :
    (n : Node) → m ∈ n.toList → (table : Bytes) → p.value.length ≤ (encodeNode table n).1.length
  | ⟨name, ps, cs⟩, hm, table => by
    simp only [encodeNode_mk, List.length_append]
    rw [Node.toList, List.mem_cons] at hm
    rcases hm with rfl | hm
    · have hown := value_length_le_encodeProperties hp table
      dsimp only at hown
      omega
    · have hbelow := value_length_le_encodeForest hp cs hm (encodeProperties table ps).2
      omega

theorem value_length_le_encodeForest {m : Node} {p : Property} (hp : p ∈ m.properties) :
    (cs : List Node) → m ∈ Node.forestToList cs → (table : Bytes) →
      p.value.length ≤ (encodeForest table cs).1.length
  | [], hm, _ => by cases hm
  | c :: cs, hm, table => by
    simp only [encodeForest_cons, List.length_append]
    rw [Node.forestToList, List.mem_append] at hm
    rcases hm with hm | hm
    · have hfirst := value_length_le_encodeNode hp c hm table
      omega
    · have hrest := value_length_le_encodeForest hp cs hm (encodeNode table c).2
      omega

end

theorem takeNode_properties {names : List Bytes} (h : ∀ n ∈ names, 0 ∉ n) {ps : Properties}
    (hps : ∀ n ∈ propertyNames ps, 0 ∉ n)
    (htable : (encodeProperties (stringsOf names) ps).2 <+: strings)
    (hstrings : strings.length < UInt32.size)
    (hsize : (encodeProperties (stringsOf names) ps).1.length < UInt32.size) :
    takeNode strings current outer ((encodeProperties (stringsOf names) ps).1 ++ rest) =
      takeNode strings { current with properties := current.properties ++ ps } outer rest := by
  induction ps generalizing names current with
  | nil => cases current; simp [encodeProperties]
  | cons p ps ih =>
    have hps' := hps
    simp only [propertyNames, List.map_cons, List.forall_mem_cons] at hps
    obtain ⟨hp, hps⟩ := hps
    have hnames := nul_not_mem_recordName h hp
    have hstands : StandsAt strings (utf8 p.name) (intern (stringsOf names) (utf8 p.name)).1 := by
      apply (intern_standsAt h (utf8 p.name)).mono
      rw [encodeProperties_table h _ hps'] at htable
      exact (stringsOf_mono (prefix_foldl_recordName (propertyNames ps) _)).trans htable
    simp only [encodeProperties_cons, intern_table h, List.length_append] at htable hsize
    have hvalue := value_length_le (intern (stringsOf names) (utf8 p.name)).1 p.value
    simp only [encodeProperties_cons, intern_table h, List.append_assoc]
    rw [takeNode_of_property (takeItem_property hp hstands hstrings (by omega) _ _),
      ih hnames hps htable (by omega)]
    simp

mutual

theorem takeNode_node {names : List Bytes} (h : ∀ n ∈ names, 0 ∉ n)
    (hstrings : strings.length < UInt32.size) :
    (c : Node) → (current : Node) → (outer : List Node) → (rest : Bytes) →
    c.NulFree → (∀ m ∈ Node.forestToList c.children, m.NulFree) →
    c.height + 1 + outer.length ≤ maxDepth →
    (encodeNode (stringsOf names) c).2 <+: strings →
    (encodeNode (stringsOf names) c).1.length < UInt32.size →
    takeNode strings current outer ((encodeNode (stringsOf names) c).1 ++ rest) =
      takeNode strings { current with children := current.children ++ [c] } outer rest
  | ⟨name, ps, cs⟩, current, outer, rest, hc, hcs, hdepth, htable, hsize => by
    have hps : ∀ n ∈ propertyNames ps, 0 ∉ n := nul_not_mem_propertyNames hc
    have hbelow : ∀ m ∈ Node.forestToList cs, m.NulFree := hcs
    have hnames := nul_not_mem_foldl_recordName h hps
    have hown := encodeProperties_table h ps hps
    have hheight : Node.forestHeight cs + (outer.length + 1) ≤ maxDepth := by
      rw [Node.height] at hdepth
      omega
    rw [encodeNode_mk] at htable hsize ⊢
    simp only [hown, List.length_append] at htable hsize
    have hprefix : (encodeProperties (stringsOf names) ps).2 <+: strings := by
      rw [hown]
      rw [encodeForest_table hnames cs hbelow] at htable
      exact (stringsOf_mono (prefix_foldl_recordName _ _)).trans htable
    simp only [hown, List.append_assoc]
    rw [takeNode_of_child (takeItem_child hc.1 (by omega) _),
      takeNode_properties h hps hprefix hstrings (by omega),
      takeNode_forest hnames hstrings cs _ (current :: outer) _ hbelow hheight htable (by omega),
      takeNode_of_close (takeItem_close _ rest)]
    rfl

theorem takeNode_forest {names : List Bytes} (h : ∀ n ∈ names, 0 ∉ n)
    (hstrings : strings.length < UInt32.size) :
    (cs : List Node) → (current : Node) → (outer : List Node) → (rest : Bytes) →
    (∀ n ∈ Node.forestToList cs, n.NulFree) →
    Node.forestHeight cs + outer.length ≤ maxDepth →
    (encodeForest (stringsOf names) cs).2 <+: strings →
    (encodeForest (stringsOf names) cs).1.length < UInt32.size →
    takeNode strings current outer ((encodeForest (stringsOf names) cs).1 ++ rest) =
      takeNode strings { current with children := current.children ++ cs } outer rest
  | [], current, outer, rest, _, _, _, _ => by
    cases current
    simp [encodeForest]
  | c :: cs, current, outer, rest, hcs, hdepth, htable, hsize => by
    obtain ⟨hc, hbelow, hcs⟩ := forest_forall_cons.mp hcs
    rw [Node.forestHeight] at hdepth
    have hfirst := encodeNode_table h c hc hbelow
    have hnames := nul_not_mem_foldl_recordName h (nul_not_mem_nodeNames hc hbelow)
    rw [encodeForest_cons] at htable hsize ⊢
    simp only [hfirst, List.length_append] at htable hsize
    have hprefix : (encodeNode (stringsOf names) c).2 <+: strings := by
      rw [hfirst]
      rw [encodeForest_table hnames cs hcs] at htable
      exact (stringsOf_mono (prefix_foldl_recordName _ _)).trans htable
    simp only [hfirst, List.append_assoc]
    rw [takeNode_node h hstrings c current outer _ hc hbelow (by omega) hprefix (by omega),
      takeNode_forest hnames hstrings cs _ outer rest hcs (by omega) htable (by omega)]
    simp

end

end BootAssembly.DeviceTree
