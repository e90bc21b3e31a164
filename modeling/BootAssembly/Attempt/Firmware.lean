import BootAssembly.Attempt.State
import BootAssembly.Board.Identity
import BootAssembly.Patch
import BootAssembly.Trust

namespace BootAssembly.Attempt

structure Metadata where
  unlocked : Bool := false
  verity : Option VerityMode := none
  bootDevice : Option String := none
  serialNo : Option String := none
  factoryMode : Option String := none
  chargerPause : Bool := false
  alarmBoot : Bool := false
  baseband : Option String := none
  displayPanel : Option String := none
  theftProtection : Bool := false
  slotSuffix : Option String := none
  devImage : Bool := false
  systemPath : Option SystemPath := none
  kaslrSeed : Option UInt64 := none
  splash : Option Patch.Splash := none
  disabledSubsystems : UInt32 := 0
deriving DecidableEq, Repr

structure Request where
  recovery : Bool := false
  metadata : Metadata := {}
deriving DecidableEq, Repr

/-- How the firmware around an attempt answers. Each answer may depend on all that it is asked
with; `overlays` is absent on boards without an overlay partition, and `write` is also told how
many writes came before. -/
structure Firmware where
  load : String → Except Fault Bytes
  verify : String → Bytes → Except Fault Verdict
  identity : Except Fault Board
  ramBase : Except Fault UInt64
  ramRegions : Except Fault (List RamRegion)
  overlays : Option (Except Fault Bytes)
  patch : Bytes → Patch.Request → Report Bytes
  write : Nat → UInt64 → Bytes → Except Fault Unit

inductive Call where
  | load (partition : String)
  | verify (partition : String) (image : Bytes)
  | identity
  | ramBase
  | overlays
  | ramRegions
  | patch (blob : Bytes) (request : Patch.Request)
  | write (address : UInt64) (bytes : Bytes)
deriving DecidableEq, Repr

/-- One thing that an attempt does where others can see it. A call counts when it is made, whatever
its answer. -/
inductive Event where
  | noted (note : Note)
  | called (call : Call)
  | entered (state : State)
deriving DecidableEq, Repr

namespace Event

def note? : Event → Option Note
  | noted note => some note
  | _ => none

def call? : Event → Option Call
  | called call => some call
  | _ => none

def state? : Event → Option State
  | entered state => some state
  | _ => none

end Event

end BootAssembly.Attempt
