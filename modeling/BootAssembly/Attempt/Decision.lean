import BootAssembly.Attempt.State
import BootAssembly.Config
import BootAssembly.Memory.Handoff
import BootAssembly.Trust

namespace BootAssembly.Attempt

inductive Cause where
  | failed (fault : Fault)
  | untrusted (state : TrustState) (reason : String)
deriving DecidableEq, Repr

structure Abort where
  after : State
  cause : Cause
deriving DecidableEq, Repr

namespace Abort

def kind? (a : Abort) : Option FaultKind :=
  match a.cause with
  | .failed fault => some fault.kind
  | .untrusted _ _ => none

def isRed (a : Abort) : Bool :=
  match a.cause with
  | .failed _ => false
  | .untrusted state _ => state == .red

def text (a : Abort) : String :=
  match a.cause with
  | .failed fault => s!"after {a.after.text}: {fault.message}"
  | .untrusted state reason => s!"after {a.after.text}: {reason} (boot state {state.text})"

end Abort

inductive Decision where
  | proceed (handoff : Handoff)
  | retryRecovery
  | fallbackToFastboot
  | abort (why : Abort)
deriving DecidableEq, Repr

namespace Decision

def state : Decision → State
  | proceed _ => .proceed
  | retryRecovery => .retryRecovery
  | fallbackToFastboot => .fallbackToFastboot
  | abort _ => .abort

def text : Decision → String
  | proceed handoff => "proceed, entry " ++ hex handoff.kernelEntry.toNat
  | retryRecovery => "retry in recovery"
  | fallbackToFastboot => "fall back to fastboot"
  | abort why => "abort " ++ why.text

def fallBack (policy : FallbackPolicy) (inRecovery : Bool) : Decision → Decision × List Note
  | abort why =>
    if why.isRed then
      (abort why, [⟨.critical, "orchestrator", "boot state red, powering off"⟩])
    else if policy = .recoveryThenFastboot ∧ ¬ inRecovery then
      (retryRecovery, [⟨.warn, "orchestrator", "falling back to recovery"⟩])
    else (fallbackToFastboot, [⟨.warn, "orchestrator", "falling back to fastboot"⟩])
  | decision => (decision, [])

end Decision

end BootAssembly.Attempt
