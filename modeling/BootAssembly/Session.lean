import BootAssembly.Attempt.Run

namespace BootAssembly

open Attempt

structure Session where
  config : Config
  history : List State := []
deriving DecidableEq, Repr

namespace Session

def state (s : Session) : State := s.history.getLast?.getD .start

def attempt (s : Session) (request : Request) (firmware : Firmware) : Finished × Session :=
  let finished := finish (run s.config request firmware)
  (finished, { s with history := finished.history })

def decide (s : Session) (request : Request) (firmware : Firmware) : Finished × Session :=
  let (finished, s) := s.attempt request firmware
  let (decision, notes) := finished.decision.fallBack s.config.fallback request.recovery
  (⟨decision, finished.events ++ notes.map .noted⟩, s)

def launchNote (handoff : Handoff) : Note :=
  ⟨.info, "orchestrator", s!"entering kernel at {hex handoff.kernelEntry.toNat}, " ++
    s!"dtb {hex handoff.deviceTree.toNat}, flags {hex handoff.bootFlags.toNat}"⟩

end Session

end BootAssembly
