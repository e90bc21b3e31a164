import BootAssembly.Proofs.DeviceTree.Acceptance

namespace BootAssembly.DeviceTree

def nopTag : Bytes := be32 4

def nops (count : Nat) : Bytes := (List.replicate count nopTag).flatten

/-- What may stand between a node's name and its end: its properties and its subnodes, either kind
in its own order, and empty words. Names are found by their offsets; padding may be any bytes. -/
inductive Body (strings : Bytes) : Properties → List Node → Bytes → Prop
  | empty : Body strings [] [] []
  | nop {ps cs body} (hbody : Body strings ps cs body) : Body strings ps cs (nopTag ++ body)
  | property {p : Property} {length offset : UInt32} {padding : Bytes} {ps cs body}
      (hlength : length.toNat = p.value.length)
      (hname : StandsAt strings (utf8 p.name) offset.toNat)
      (hpadding : padding.length = gap p.value.length) (hbody : Body strings ps cs body) :
      Body strings (p :: ps) cs
        (propertyTag ++ (be32 length ++ (be32 offset ++ (p.value ++ (padding ++ body)))))
  | child {name : String} {padding : Bytes} {ps cs below qs ds body}
      (hpadding : padding.length = gap ((utf8 name).length + 1))
      (hbelow : Body strings ps cs below) (hbody : Body strings qs ds body) :
      Body strings qs (⟨name, ps, cs⟩ :: ds)
        (beginTag ++ (nulTerminated name ++ (padding ++ (below ++ (endTag ++ body)))))

inductive StructureBlock (strings : Bytes) : Node → Bytes → Prop
  | mk {name : String} {padding : Bytes} {ps cs body} (before after : Nat) (rest : Bytes)
      (hpadding : padding.length = gap ((utf8 name).length + 1))
      (hbody : Body strings ps cs body) :
      StructureBlock strings ⟨name, ps, cs⟩
        (nops before ++ (beginTag ++ (nulTerminated name ++ (padding ++ (body ++ (endTag ++
          (nops after ++ (finishTag ++ rest))))))))

variable {strings bytes rest : Bytes} {current root : Node} {outer : List Node}

theorem nops_succ (count : Nat) : nops (count + 1) = nopTag ++ nops count := by
  rw [nops, List.replicate_succ, List.flatten_cons, nops]

theorem takeWord_eq_ok {word : UInt32} :
    takeWord bytes = .ok (word, rest) ↔ bytes = be32 word ++ rest := by
  constructor
  · intro h
    unfold takeWord at h
    split at h
    · rename_i a b c d _
      cases h
      rw [be32_ofBe32 rfl]
      rfl
    · cases h
  · rintro rfl
    exact takeWord_be32 word rest

theorem exists_padding (count : Nat) (bytes : Bytes) :
    ∃ padding, bytes = padding ++ bytes.drop count ∧
      (bytes.drop count ≠ [] → padding.length = count) := by
  refine ⟨bytes.take count, (List.take_append_drop count bytes).symm, ?_⟩
  intro hne
  rw [List.length_take]
  have hpos := List.length_pos_iff.mpr hne
  rw [List.length_drop] at hpos
  omega

theorem takeName_eq_ok {name : String} (h : takeName bytes = .ok (name, rest)) :
    ∃ padding, bytes = nulTerminated name ++ (padding ++ rest) ∧
      (rest ≠ [] → padding.length = gap ((utf8 name).length + 1)) := by
  unfold takeName at h
  split at h
  · cases h
  rename_i text after hsplit
  obtain ⟨rfl, -⟩ := splitNul_eq_some.mp hsplit
  split at h
  · cases h
  rename_i htext
  cases h
  have hutf := utf8_of_ofUtf8? htext
  subst hutf
  obtain ⟨padding, hafter, hpadding⟩ := exists_padding (gap ((utf8 name).length + 1)) after
  refine ⟨padding, ?_, hpadding⟩
  rw [← hafter, nulTerminated, List.append_assoc]
  rfl

theorem standsAt_of_nameAt {name : String} {offset : Nat} (h : nameAt strings offset = .ok name) :
    StandsAt strings (utf8 name) offset := by
  unfold nameAt at h
  split at h
  · cases h
  rename_i hwithin
  split at h
  · cases h
  rename_i text back hsplit
  split at h
  · cases h
  rename_i htext
  cases h
  have hdrop := (splitNul_eq_some.mp hsplit).1
  refine ⟨strings.take offset, back, ?_, ?_⟩
  · rw [utf8_of_ofUtf8? htext, List.append_assoc, ← hdrop, List.take_append_drop]
  · rw [List.length_take]
    omega

theorem takeProperty_eq_ok {p : Property} (h : takeProperty strings bytes = .ok (p, rest)) :
    ∃ length offset padding,
      bytes = be32 length ++ (be32 offset ++ (p.value ++ (padding ++ rest))) ∧
      length.toNat = p.value.length ∧ StandsAt strings (utf8 p.name) offset.toNat ∧
      (rest ≠ [] → padding.length = gap p.value.length) := by
  unfold takeProperty at h
  split at h
  · cases h
  rename_i length afterLength hlength
  split at h
  · cases h
  rename_i offset afterOffset hoffset
  split at h
  · cases h
  rename_i value afterValue hvalue
  split at h
  · cases h
  rename_i name hname
  cases h
  obtain ⟨rfl, hsize⟩ := splitExact_eq_some.mp hvalue
  obtain ⟨padding, hafter, hpadding⟩ := exists_padding (gap value.length) afterValue
  refine ⟨length, offset, padding, ?_, hsize.symm, standsAt_of_nameAt hname, hpadding⟩
  rw [takeWord_eq_ok.mp hlength, takeWord_eq_ok.mp hoffset, ← hafter]

theorem Tag.eq_of_ofWord {v w : UInt32} (h : Tag.ofWord v = Tag.ofWord w)
    (hknown : Tag.ofWord w ≠ .unknown) : v = w := by
  unfold Tag.ofWord at h hknown
  grind

def Item.Spells (strings : Bytes) : Item → Bytes → Bytes → Prop
  | .skip, bytes, rest => bytes = nopTag ++ rest
  | .close, bytes, rest => bytes = endTag ++ rest
  | .child name, bytes, rest =>
    ∃ padding, bytes = beginTag ++ (nulTerminated name ++ (padding ++ rest)) ∧
      (rest ≠ [] → padding.length = gap ((utf8 name).length + 1))
  | .property p, bytes, rest =>
    ∃ length offset padding,
      bytes = propertyTag ++ (be32 length ++ (be32 offset ++ (p.value ++ (padding ++ rest)))) ∧
      length.toNat = p.value.length ∧ StandsAt strings (utf8 p.name) offset.toNat ∧
      (rest ≠ [] → padding.length = gap p.value.length)

theorem takeItem_spells {item : Item} {depth : Nat}
    (h : takeItem strings depth bytes = .ok (item, rest)) : item.Spells strings bytes rest := by
  unfold takeItem at h
  split at h
  · cases h
  rename_i word afterWord hword
  rw [takeWord_eq_ok] at hword
  subst hword
  split at h <;> rename_i htag
  · rw [Tag.eq_of_ofWord (w := 3) htag (by decide)]
    split at h
    · cases h
    · rename_i hp
      cases h
      obtain ⟨length, offset, padding, rfl, hrest⟩ := takeProperty_eq_ok hp
      exact ⟨length, offset, padding, rfl, hrest⟩
  · rw [Tag.eq_of_ofWord (w := 1) htag (by decide)]
    split at h
    · cases h
    split at h
    · cases h
    · rename_i hname
      cases h
      obtain ⟨padding, rfl, hpadding⟩ := takeName_eq_ok hname
      exact ⟨padding, rfl, hpadding⟩
  · rw [Tag.eq_of_ofWord (w := 2) htag (by decide)]
    cases h
    rfl
  · rw [Tag.eq_of_ofWord (w := 4) htag (by decide)]
    cases h
    rfl
  · cases h
  · cases h

def Node.extended (n : Node) (ps : Properties) (cs : List Node) : Node :=
  ⟨n.name, n.properties ++ ps, n.children ++ cs⟩

def Unwinds (strings : Bytes) (root : Node) (rest : Bytes) : List Node → Node → Bytes → Prop
  | [], done, bytes => done = root ∧ bytes = rest
  | parent :: outer, done, bytes =>
    ∃ ps cs body after, Body strings ps cs body ∧ bytes = body ++ (endTag ++ after) ∧
      Unwinds strings root rest outer
        (Node.extended { parent with children := parent.children ++ [done] } ps cs) after

def Remaining (strings : Bytes) (root : Node) (rest : Bytes) (outer : List Node) (current : Node)
    (bytes : Bytes) : Prop :=
  ∃ ps cs body after, Body strings ps cs body ∧ bytes = body ++ (endTag ++ after) ∧
    Unwinds strings root rest outer (current.extended ps cs) after

theorem Remaining.ne_nil (h : Remaining strings root rest outer current bytes) : bytes ≠ [] := by
  obtain ⟨ps, cs, body, after, -, rfl, -⟩ := h
  have hlength : (body ++ (endTag ++ after)).length ≠ 0 := by
    have htag : endTag.length = 4 := length_be32 2
    rw [List.length_append, List.length_append]
    omega
  exact fun hnil => hlength (by rw [hnil]; rfl)

theorem Node.extended_nil (n : Node) : n.extended [] [] = n := by
  cases n
  simp only [extended, List.append_nil]

theorem Node.extended_property (n : Node) (p : Property) (ps : Properties) (cs : List Node) :
    extended { n with properties := n.properties ++ [p] } ps cs = n.extended (p :: ps) cs := by
  simp [extended]

theorem Node.extended_child (n c : Node) (ps : Properties) (cs : List Node) :
    extended { n with children := n.children ++ [c] } ps cs = n.extended ps (c :: cs) := by
  simp [extended]

theorem Node.extended_new (name : String) (ps : Properties) (cs : List Node) :
    (Node.new name).extended ps cs = ⟨name, ps, cs⟩ := rfl

theorem remaining_of_takeNode (h : takeNode strings current outer bytes = .ok (root, rest)) :
    Remaining strings root rest outer current bytes := by
  fun_induction takeNode strings current outer bytes with
  | case1 => cases h
  | case2 current outer bytes next hitem ih =>
    have hbytes := takeItem_spells hitem
    obtain ⟨ps, cs, body, after, hbody, rfl, hafter⟩ := ih h
    exact ⟨ps, cs, nopTag ++ body, after, .nop hbody, by rw [hbytes, List.append_assoc], hafter⟩
  | case3 current outer bytes p next hitem ih =>
    obtain ⟨length, offset, padding, rfl, hlength, hname, hpadding⟩ := takeItem_spells hitem
    have hnext := (ih h).ne_nil
    obtain ⟨ps, cs, body, after, hbody, rfl, hafter⟩ := ih h
    rw [Node.extended_property] at hafter
    refine ⟨p :: ps, cs, _, after, .property hlength hname (hpadding hnext) hbody, ?_, hafter⟩
    simp only [List.append_assoc]
  | case4 current outer bytes name next hitem ih =>
    obtain ⟨padding, rfl, hpadding⟩ := takeItem_spells hitem
    have hnext := (ih h).ne_nil
    obtain ⟨ps, cs, below, after, hbelow, rfl, qs, ds, body, behind, hbody, rfl, hafter⟩ := ih h
    rw [Node.extended_child] at hafter
    refine ⟨qs, _, _, behind, .child (hpadding hnext) hbelow hbody, ?_, hafter⟩
    simp only [List.append_assoc]
  | case5 current bytes next hitem =>
    have hbytes := takeItem_spells hitem
    cases h
    exact ⟨[], [], [], rest, .empty, hbytes, root.extended_nil, rfl⟩
  | case6 current bytes next parent outer _ hitem ih =>
    have hbytes := takeItem_spells hitem
    refine ⟨[], [], [], next, .empty, hbytes, ?_⟩
    rw [Node.extended_nil]
    exact ih h

theorem takeNode_nop (current : Node) (outer : List Node) (rest : Bytes) :
    takeNode strings current outer (nopTag ++ rest) = takeNode strings current outer rest := by
  have h : takeItem strings (outer.length + 1) (nopTag ++ rest) = .ok (.skip, rest) := by
    simp only [nopTag, takeItem, takeWord_be32]
    rfl
  conv => lhs; rw [takeNode]
  split <;> rename_i hi <;> rw [h] at hi <;> cases hi
  rfl

theorem takeNode_body {ps : Properties} {cs : List Node} {body : Bytes}
    (h : Body strings ps cs body) (hps : ∀ p ∈ ps, 0 ∉ utf8 p.name)
    (hcs : ∀ n ∈ Node.forestToList cs, n.NulFree)
    (hdepth : Node.forestHeight cs + outer.length ≤ maxDepth) :
    takeNode strings current outer (body ++ rest) =
      takeNode strings (current.extended ps cs) outer rest := by
  induction h generalizing current outer rest with
  | empty => rw [Node.extended_nil, List.nil_append]
  | nop _ ih => rw [List.append_assoc, takeNode_nop, ih hps hcs hdepth]
  | @property p length offset padding ps cs body hlength hname hpadding _ ih =>
    rw [List.forall_mem_cons] at hps
    have hitem (tail : Bytes) : takeItem strings (outer.length + 1) (propertyTag ++ (be32 length ++
        (be32 offset ++ (p.value ++ (padding ++ tail))))) = .ok (.property p, tail) := by
      have hp := takeProperty_of_standsAt hps.1 hlength hname hpadding tail
      simp only [propertyTag, takeItem, takeWord_be32]
      rw [show Tag.ofWord 3 = .property from rfl]
      simp only [hp]
    simp only [List.append_assoc]
    rw [takeNode_of_property (hitem _), ih hps.2 hcs hdepth, Node.extended_property]
  | @child name padding ps cs below qs ds body hpadding _ _ ihbelow ihbody =>
    obtain ⟨hc, hbelow, hds⟩ := forest_forall_cons.mp hcs
    rw [Node.forestHeight, Node.height] at hdepth
    have hitem (tail : Bytes) : takeItem strings (outer.length + 1) (beginTag ++
        (nulTerminated name ++ (padding ++ tail))) = .ok (.child name, tail) := by
      have hname := takeName_nulTerminated hc.1 hpadding tail
      simp only [beginTag, takeItem, takeWord_be32]
      rw [show Tag.ofWord 1 = .beginNode from rfl]
      simp only [if_neg (Nat.not_lt.mpr (show outer.length + 1 ≤ maxDepth by omega)), hname]
    simp only [List.append_assoc]
    rw [takeNode_of_child (hitem _), ihbelow hc.2 hbelow (by rw [List.length_cons]; omega),
      Node.extended_new, takeNode_of_close (takeItem_close _ _), ihbody hps hds (by omega),
      Node.extended_child]

theorem takeTag_nops (count : Nat) (bytes : Bytes) : takeTag (nops count ++ bytes) = takeTag bytes := by
  induction count with
  | zero => rfl
  | succ count ih =>
    rw [nops_succ, List.append_assoc, takeTag]
    split <;> rename_i hw <;> rw [nopTag, takeWord_be32] at hw <;> cases hw
    rw [if_pos (show Tag.ofWord 4 = .nop from rfl)]
    exact ih

theorem takeTag_eq_ok {tag : Tag} (h : takeTag bytes = .ok (tag, rest)) :
    ∃ count word, bytes = nops count ++ (be32 word ++ rest) ∧ Tag.ofWord word = tag := by
  fun_induction takeTag bytes with
  | case1 => cases h
  | case2 bytes word next hword hnop ih =>
    obtain ⟨count, last, hnext, htag⟩ := ih h
    refine ⟨count + 1, last, ?_, htag⟩
    rw [takeWord_eq_ok.mp hword, Tag.eq_of_ofWord (w := 4) hnop (by decide), nops_succ, hnext,
      nopTag, List.append_assoc]
  | case3 bytes word next hword hnop =>
    cases h
    exact ⟨0, word, takeWord_eq_ok.mp hword, rfl⟩

theorem decodeStructure_of_block {block : Bytes} (h : StructureBlock strings root block)
    (hnul : ∀ n ∈ root.toList, n.NulFree) (hdepth : root.height ≤ maxDepth) :
    decodeStructure strings block = .ok root := by
  obtain @⟨name, padding, ps, cs, body, before, after, rest, hpadding, hbody⟩ := h
  rw [Node.toList, List.forall_mem_cons] at hnul
  rw [Node.height] at hdepth
  have hshallow : Node.forestHeight cs + ([] : List Node).length ≤ maxDepth := hdepth
  have hfirst := takeTag_be32 1 (by decide)
  have hlast := takeTag_be32 9 (by decide)
  have hroot (tail : Bytes) : takeNode strings (.new name) [] (body ++ (endTag ++ tail)) =
      .ok (⟨name, ps, cs⟩, tail) := by
    rw [takeNode_body hbody hnul.1.2 hnul.2 hshallow, Node.extended_new,
      takeNode_of_last_close (takeItem_close 1 tail)]
  simp only [decodeStructure, takeTag_nops, beginTag, hfirst]
  simp only [bind, Except.bind, takeName_nulTerminated hnul.1.1 hpadding, hroot, takeTag_nops,
    finishTag, hlast]
  rfl

theorem block_of_decodeStructure {block : Bytes} (h : decodeStructure strings block = .ok root) :
    StructureBlock strings root block := by
  obtain ⟨⟨first, afterTag⟩, htag, h⟩ := bind_eq_ok.mp h
  by_cases hfirst : first = .beginNode
  · simp only [hfirst, ne_eq, not_true_eq_false, if_false] at h
    obtain ⟨⟨name, afterName⟩, hname, h⟩ := bind_eq_ok.mp h
    obtain ⟨⟨root', afterRoot⟩, hroot, h⟩ := bind_eq_ok.mp h
    obtain ⟨⟨last, rest⟩, hend, h⟩ := bind_eq_ok.mp h
    by_cases hlast : last = .finish
    · simp only [hlast, not_true_eq_false, if_false] at h
      cases h
      subst hfirst hlast
      obtain ⟨before, word, rfl, hword⟩ := takeTag_eq_ok htag
      obtain ⟨after, word', rfl, hword'⟩ := takeTag_eq_ok hend
      obtain ⟨padding, rfl, hpadding⟩ := takeName_eq_ok hname
      have hremaining := remaining_of_takeNode hroot
      have hne := hremaining.ne_nil
      obtain ⟨ps, cs, body, behind, hbody, rfl, rfl, rfl⟩ := hremaining
      rw [Tag.eq_of_ofWord (w := 1) hword (by decide), Tag.eq_of_ofWord (w := 9) hword' (by decide)]
      exact .mk before after rest (hpadding hne) hbody
    · simp only [hlast, not_false_eq_true, if_true] at h
      cases h
  · simp only [ne_eq, hfirst, not_false_eq_true, if_true] at h
    cases h

end BootAssembly.DeviceTree
