import BootAssembly.Board.Identity

namespace BootAssembly

structure Candidate where
  platformId : Option UInt32
  socRev : Option UInt32
  variantId : Option UInt32
  subtype : Option UInt32
  pmicRev : Option Quad
  location : Span
  index : Nat
deriving DecidableEq, Repr

inductive MatchField where
  | soc
  | version
  | foundry
  | variant
  | subtype
  | pmic
deriving DecidableEq, Repr

def MatchField.mask : MatchField → UInt32
  | soc => 1
  | version => 2
  | foundry => 4
  | variant => 8
  | subtype => 16
  | pmic => 32

namespace Candidate

open Board

def foundry? (c : Candidate) : Option UInt32 :=
  (c.platformId.map (· &&& foundryMask)).filter (· ≠ 0)

def pmicModel? (c : Candidate) : Option Quad :=
  (c.pmicRev.map (Quad.map (· &&& pmicModelMask))).filter (· ≠ .zero)

def equals (c : Candidate) (board : Board) : MatchField → Bool
  | .soc => c.platformId.any fun p => p &&& platformMask == board.platformId &&& platformMask
  | .version => c.socRev == some board.socRev
  | .foundry => c.foundry? == some board.foundryBits
  | .variant =>
    c.variantId.any fun v => v &&& variantMatchMask == board.variantId &&& variantMatchMask
  | .subtype => c.subtype.any fun s => s &&& subtypeMask == board.subtype &&& subtypeMask
  | .pmic => c.pmicRev == some board.pmicRev

def matchFields : List MatchField := [.soc, .version, .foundry, .variant, .subtype, .pmic]

def score (c : Candidate) (board : Board) : UInt32 :=
  (matchFields.filter (c.equals board)).foldl (fun bits field => bits ||| field.mask) 0

def isExact (c : Candidate) (board : Board) : Bool :=
  [.soc, .version, .variant, .subtype, .pmic].all (c.equals board)

structure PlatformPart where
  platformId : Option UInt32
  variantId : Option UInt32
  socRev : Option UInt32
deriving DecidableEq, Repr

structure BoardPart where
  variantId : Option UInt32
  subtype : Option UInt32
deriving DecidableEq, Repr

def triples : List UInt32 → List PlatformPart
  | p :: v :: r :: rest => ⟨some p, some v, some r⟩ :: triples rest
  | _ => []

def pairs : List UInt32 → List PlatformPart
  | p :: r :: rest => ⟨some p, none, some r⟩ :: pairs rest
  | _ => []

/-- A subtype of zero stands in the top byte of the variant instead. -/
def boardPairs : List UInt32 → List BoardPart
  | v :: s :: rest => ⟨some v, some (if s = 0 then v >>> 24 else s)⟩ :: boardPairs rest
  | _ => []

def quads : List UInt32 → List (Option Quad)
  | a :: b :: c :: d :: rest => some ⟨a, b, c, d⟩ :: quads rest
  | _ => []

def groupedCells (root : DeviceTree.Node) (name : String) (group : Nat) (what : String) :
    Except Fault (Option (List UInt32)) :=
  match root.value? name, root.properties.cells? name with
  | none, _ => .ok none
  | some _, none => .error (.invalidFormat what)
  | some _, some cells =>
    if cells.length % group = 0 then .ok (some cells) else .error (.invalidFormat what)

/-- Without board ids the platform ids may be in the older form, which is preferred. -/
def platformParts (root : DeviceTree.Node) (hasBoard : Bool) : Except Fault (List PlatformPart) :=
  match root.value? "qcom,msm-id", root.properties.cells? "qcom,msm-id" with
  | none, _ => .ok [⟨none, none, none⟩]
  | some _, none => .error (.invalidFormat "qcom,msm-id length")
  | some _, some cells =>
    if ¬ hasBoard ∧ cells.length % 3 = 0 ∧ cells ≠ [] then .ok (triples cells)
    else if cells.length % 2 = 0 ∧ cells ≠ [] then .ok (pairs cells)
    else .error (.invalidFormat "qcom,msm-id length")

def byteSize : Nat := 80

def expand (root : DeviceTree.Node) (location : Span) (index : Nat) :
    Except Fault (List Candidate) := do
  let board ← groupedCells root "qcom,board-id" 2 "qcom,board-id not a list of pairs"
  let pmic ← groupedCells root "qcom,pmic-id" 4 "qcom,pmic-id not a list of quads"
  let platforms ← platformParts root board.isSome
  let boards : List BoardPart := match boardPairs (board.getD []) with
    | [] => [⟨none, none⟩]
    | parts => parts
  let pmics : List (Option Quad) := match quads (pmic.getD []) with
    | [] => [none]
    | revs => revs
  let count ← mulSize (← mulSize platforms.length boards.length "dt identity count") pmics.length
    "dt identity count"
  reserve (count * byteSize) "dt candidates"
  return platforms.flatMap fun p => boards.flatMap fun b => pmics.map fun pmicRev =>
    { platformId := p.platformId, socRev := p.socRev, variantId := b.variantId.or p.variantId,
      subtype := b.subtype, pmicRev, location, index }

end Candidate

end BootAssembly
