import BootAssembly.Patch.TreeEdit

namespace BootAssembly.Patch

open DeviceTree

inductive Disable where
  | status
  | deviceType
deriving DecidableEq, Repr

structure FusedBlock where
  mask : UInt32
  parent : String
  nodes : List String
  how : Disable
deriving DecidableEq, Repr

def fusedBlocks : List FusedBlock :=
  [⟨1, "/cpus", ["cpu@400", "cpu@500", "cpu@600", "cpu@700"], .deviceType⟩,
    ⟨2, "/soc", ["qcom,kgsl-3d0", "qcom,kgsl-iommu", "qcom,gmu"], .status⟩,
    ⟨4, "/soc", ["qcom,vidc"], .status⟩,
    ⟨8, "/soc", ["qcom,cam-cpas", "qcom,cam-isp"], .status⟩,
    ⟨16, "/soc", ["qcom,mdss_mdp"], .status⟩]

def Disable.apply : Disable → Node → Node
  | status => Node.setValue "status" (nulTerminated "disabled")
  | deviceType => Node.setValue "device_type" (nulTerminated "nak")

def hideChild (block : FusedBlock) (name : String) : TreeEdit Nat := do
  let parent ← TreeEdit.node? block.parent
  match parent.bind (·.child? name) with
  | none =>
    Report.debug "dtpatch" s!"partial goods: no {block.parent}/{name}"
    return 0
  | some _ =>
    TreeEdit.modifyNode block.parent fun n =>
      { n with children := Node.modifyFirst (·.answersTo name) block.how.apply n.children }
    return 1

def hideBlock (block : FusedBlock) : TreeEdit Nat := do
  match ← TreeEdit.node? block.parent with
  | none =>
    Report.debug "dtpatch" s!"partial goods: no {block.parent} node"
    return 0
  | some _ => return (← block.nodes.mapM (hideChild block)).foldl (· + ·) 0

def hideFused (mask : UInt32) (blocks : List FusedBlock) : TreeEdit Nat := do
  let counts ← (blocks.filter fun b => mask &&& b.mask ≠ 0).mapM hideBlock
  let hidden := counts.foldl (· + ·) 0
  Report.info "dtpatch"
    s!"partial goods mask {hex mask.toNat}: {decimal hidden} node(s) disabled"
  return hidden

end BootAssembly.Patch
