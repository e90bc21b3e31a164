import BootAssembly.Board.Candidate
import BootAssembly.Report

namespace BootAssembly

inductive Scope where
  | full
  | soc
deriving DecidableEq, Repr

def Scope.text : Scope → String
  | full => "Full"
  | soc => "Soc"

inductive Stage where
  | foundry
  | pmicModel
  | socRev
  | variantVersion
  | pmic (slot : Slot)
deriving DecidableEq, Repr

namespace Stage

def text : Stage → String
  | foundry => "Foundry"
  | pmicModel => "PmicModel"
  | socRev => "SocRev"
  | variantVersion => "VariantVersion"
  | pmic slot => "Pmic(" ++ decimal slot.index ++ ")"

def ofScope : Scope → List Stage
  | .full => [foundry, pmicModel, socRev, variantVersion, pmic .first, pmic .second, pmic .third,
      pmic .fourth]
  | .soc => [foundry, socRev]

def exactOrAbsent (field : Candidate → Option Bool) (set : List Candidate) : List Candidate :=
  if set.any (field · == some true) then set.filter (field · == some true)
  else set.filter (field · == none)

def greatestUpTo (board : UInt32) (value : Candidate → UInt32) (set : List Candidate) :
    List Candidate :=
  match ((set.map value).filter (· ≤ board)).max? with
  | some best => set.filter (value · == best)
  | none => []

/-- Narrows the set by one field. A number that a candidate does not give counts as the board's. -/
def apply (board : Board) : Stage → List Candidate → List Candidate
  | foundry => exactOrAbsent fun c => c.foundry?.map (· == board.foundryBits)
  | pmicModel => exactOrAbsent fun c => c.pmicModel?.map (· == board.pmicModel)
  | socRev => greatestUpTo board.socRev fun c => c.socRev.getD board.socRev
  | variantVersion =>
    let version := board.variantId &&& Board.variantVersionMask
    greatestUpTo version fun c =>
      (c.variantId.map (· &&& Board.variantVersionMask)).getD version
  | pmic slot =>
    greatestUpTo (board.pmicRev.get slot) fun c =>
      (c.pmicRev.map (·.get slot)).getD (board.pmicRev.get slot)

end Stage

namespace Candidate

open Board

def admitsSoc (c : Candidate) (board : Board) : Bool :=
  (c.platformId.all fun p => p &&& platformMask == board.platformId &&& platformMask) &&
    c.socRev.all fun r => r ≤ board.socRev

def admitsVariant (board : Board) (v : UInt32) : Bool :=
  v &&& variantTypeMask == board.variantId &&& variantTypeMask &&
    v &&& variantVersionMask ≤ board.variantId &&& variantVersionMask

def admitsPmic (board : Board) (revs : Quad) : Bool :=
  revs.first ≤ board.pmicRev.first && revs.second ≤ board.pmicRev.second &&
    revs.third ≤ board.pmicRev.third && revs.fourth ≤ board.pmicRev.fourth

def admits (c : Candidate) (board : Board) : Scope → Bool
  | .soc => c.admitsSoc board
  | .full => c.admitsSoc board && c.variantId.all (admitsVariant board) &&
      (c.subtype.all fun s => s &&& subtypeMask == board.subtype &&& subtypeMask) &&
      c.pmicRev.all (admitsPmic board)

def wordText : Option UInt32 → String
  | none => "None"
  | some v => "Some(" ++ hexDigits v.toNat ++ ")"

def quadText : Option Quad → String
  | none => "None"
  | some q => "Some([" ++ ", ".intercalate (q.toList.map fun v => hexDigits v.toNat) ++ "])"

def rejection (c : Candidate) : String :=
  s!"reject blob {decimal c.index} platform {wordText c.platformId} soc {wordText c.socRev} " ++
    s!"variant {wordText c.variantId} subtype {wordText c.subtype} pmic {quadText c.pmicRev}"

end Candidate

namespace Match

def admitted (cs : List Candidate) (board : Board) (scope : Scope) : Report (List Candidate) := do
  (cs.filter (!·.admits board scope)).forM fun c => Report.debug "dtb" c.rejection
  let set := cs.filter (·.admits board scope)
  Report.debug "dtb"
    s!"{scope.text}: admitted {decimal set.length} of {decimal cs.length} candidates"
  return set

def narrow (board : Board) : List Stage → List Candidate → Report (List Candidate)
  | [], set => pure set
  | stage :: stages, set =>
    if set.isEmpty then pure set
    else do
      let set := stage.apply board set
      Report.debug "dtb" s!"{stage.text}: {decimal set.length} left"
      narrow board stages set

def select (cs : List Candidate) (board : Board) (scope : Scope) : Report Candidate := do
  let set ← admitted cs board scope
  match ← narrow board (Stage.ofScope scope) set with
  | c :: _ =>
    Report.debug "dtb"
      s!"selected blob {decimal c.index} at {hex c.location.start}..{hex c.location.stop}"
    return c
  | [] =>
    Report.warn "dtb" "no candidate survived the match pipeline"
    .fail .noDeviceTreeMatch

end Match

end BootAssembly
