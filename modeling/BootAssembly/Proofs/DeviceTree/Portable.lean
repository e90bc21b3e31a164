import BootAssembly.Proofs.DeviceTree.StringTable

namespace BootAssembly.DeviceTree

namespace Node

mutual

def height : Node → Nat
  | ⟨_, _, children⟩ => forestHeight children

def forestHeight : List Node → Nat
  | [] => 0
  | c :: cs => max (height c + 1) (forestHeight cs)

end

theorem height_lt_of_mem_children {n c : Node} (h : c ∈ n.children) : c.height < n.height := by
  obtain ⟨name, properties, children⟩ := n
  rw [height]
  induction children with
  | nil => cases h
  | cons d children ih =>
    rw [forestHeight]
    rcases List.mem_cons.mp h with rfl | h
    · omega
    · have := ih h
      omega

def NulFree (n : Node) : Prop :=
  0 ∉ utf8 n.name ∧ ∀ p ∈ n.properties, 0 ∉ utf8 p.name

instance (n : Node) : Decidable n.NulFree := inferInstanceAs (Decidable (_ ∧ _))

end Node

def propertyNames (ps : Properties) : List Bytes := ps.map (utf8 ·.name)

def forestNames (cs : List Node) : List Bytes :=
  (Node.forestToList cs).flatMap (propertyNames ·.properties)

end BootAssembly.DeviceTree

namespace BootAssembly

/-- A tree whose every part a blob can express. -/
structure DeviceTree.Portable (t : DeviceTree) : Prop where
  nulFree : ∀ n ∈ t.root.toList, n.NulFree
  shallow : t.root.height ≤ DeviceTree.maxDepth
  reserved : ∀ r ∈ t.reservations, ¬ (r.address = 0 ∧ r.size = 0)

end BootAssembly

namespace BootAssembly.DeviceTree

theorem forestNames_cons (c : Node) (cs : List Node) :
    forestNames (c :: cs) =
      propertyNames c.properties ++ (forestNames c.children ++ forestNames cs) := by
  cases c
  simp [forestNames, Node.forestToList, Node.toList]

theorem forest_forall_cons {P : Node → Prop} {c : Node} {cs : List Node} :
    (∀ n ∈ Node.forestToList (c :: cs), P n) ↔
      P c ∧ (∀ n ∈ Node.forestToList c.children, P n) ∧ ∀ n ∈ Node.forestToList cs, P n := by
  cases c
  simp only [Node.forestToList, Node.toList, List.cons_append, List.forall_mem_cons,
    List.forall_mem_append]

theorem nul_not_mem_propertyNames {n : Node} (h : n.NulFree) :
    ∀ name ∈ propertyNames n.properties, 0 ∉ name := by
  simpa [propertyNames] using h.2

theorem nul_not_mem_forestNames {cs : List Node} (h : ∀ n ∈ Node.forestToList cs, n.NulFree) :
    ∀ name ∈ forestNames cs, 0 ∉ name := by
  intro name hname
  obtain ⟨n, hn, hmem⟩ := List.mem_flatMap.mp hname
  exact nul_not_mem_propertyNames (h n hn) name hmem

theorem nul_not_mem_nodeNames {n : Node} (h : n.NulFree)
    (hbelow : ∀ m ∈ Node.forestToList n.children, m.NulFree) :
    ∀ name ∈ propertyNames n.properties ++ forestNames n.children, 0 ∉ name := by
  intro name hname
  rcases List.mem_append.mp hname with hname | hname
  · exact nul_not_mem_propertyNames h name hname
  · exact nul_not_mem_forestNames hbelow name hname

end BootAssembly.DeviceTree
