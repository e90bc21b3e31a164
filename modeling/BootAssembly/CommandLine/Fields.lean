import BootAssembly.Text
import BootAssembly.Trust

namespace BootAssembly

inductive VerityMode where
  | logging
  | enforcing
deriving DecidableEq, Repr

def VerityMode.text : VerityMode → String
  | logging => "logging"
  | enforcing => "enforcing"

/-- Where the system partition is: the place counted from zero on one storage, the unit and the
place counted from one on the other. -/
inductive SystemPath where
  | emmc (index : UInt32)
  | ufs (lun : UInt8) (partition : UInt32)
deriving DecidableEq, Repr

def unitLetters : List String := ["a", "b", "c", "d", "e", "f", "g", "h"]

def SystemPath.render : SystemPath → Except Fault String
  | emmc index =>
    if index.toNat + 1 < UInt32.size then .ok (" root=/dev/mmcblk0p" ++ decimal (index.toNat + 1))
    else .error (.integerOverflow "system partition index")
  | ufs lun partition =>
    match unitLetters[lun.toNat]? with
    | some letter => .ok (" root=/dev/sd" ++ letter ++ decimal partition.toNat)
    | none => .error (.invalidFormat "ufs lun out of range")

namespace CommandLine

structure VerifiedBoot where
  state : TrustState
  verity : Option VerityMode
  fragment : String
deriving DecidableEq, Repr

structure RootClause where
  skipInitramfs : Bool
  systemPath : SystemPath
deriving DecidableEq, Repr

structure Fields where
  verifiedBoot : Option VerifiedBoot := none
  bootDevice : Option String := none
  serialNo : Option String := none
  factoryMode : Option String := none
  chargerPause : Bool := false
  alarmBoot : Bool := false
  baseband : Option String := none
  displayPanel : Option String := none
  theftProtection : Bool := false
  slotSuffix : Option String := none
  root : Option RootClause := none
  overlayIndex : Option Nat := none
deriving DecidableEq, Repr

end CommandLine

end BootAssembly
