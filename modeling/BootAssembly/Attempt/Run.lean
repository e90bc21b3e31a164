import BootAssembly.Attempt.Step

namespace BootAssembly.Attempt

abbrev Run := Traced Event Abort

def transition (current next : State) : List Event :=
  [.noted ⟨.info, "orchestrator", current.text ++ " -> " ++ next.text⟩, .entered next]

def advance {α : Type} (current next : State) (work : Step α) : Run α := do
  let a ← work.mapError (Abort.mk current)
  (transition current next).forM Traced.record
  return a

def run (config : Config) (request : Request) (firmware : Firmware) : Run Handoff := do
  let loaded ← advance .start .validated (load config request firmware)
  let x ← advance .validated .extracted (extract config request firmware loaded)
  let tree ← advance .extracted .treeResolved (resolveTree config firmware loaded x)
  let plan ← advance .treeResolved .layoutPlanned
    (Step.ofReport (MemoryPlan.make loaded.layout x.kernel x.base config.addresses))
  let line ← advance .layoutPlanned .commandLineBuilt
    (buildCommandLine config request loaded x tree)
  advance .commandLineBuilt .treePatched
    (place config request firmware loaded x.kernel tree.blob plan line)
  return Handoff.ofPlan plan (handoffFlags request x.trust tree)

structure Finished where
  decision : Decision
  events : List Event
deriving DecidableEq, Repr

namespace Finished

def history (x : Finished) : List State := .start :: x.events.filterMap Event.state?

def calls (x : Finished) : List Call := x.events.filterMap Event.call?

def notes (x : Finished) : List Note := x.events.filterMap Event.note?

end Finished

def finish (x : Run Handoff) : Finished :=
  match x.outcome with
  | .ok handoff => ⟨.proceed handoff, x.trace ++ transition .treePatched .proceed⟩
  | .error why =>
    ⟨.abort why, x.trace ++
      (.noted ⟨.critical, "orchestrator", "boot attempt aborted " ++ why.text⟩ ::
        transition why.after .abort)⟩

end BootAssembly.Attempt
