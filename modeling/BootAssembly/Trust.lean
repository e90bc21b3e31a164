import BootAssembly.Report

namespace BootAssembly

inductive TrustState where
  | green
  | yellow
  | orange
  | red
deriving DecidableEq, Repr

def TrustState.text : TrustState → String
  | green => "green"
  | yellow => "yellow"
  | orange => "orange"
  | red => "red"

structure Verdict where
  state : TrustState
  fragment : String
  continueAllowed : Bool
deriving DecidableEq, Repr

inductive TrustDecision where
  | proceed (state : TrustState) (fragment : String)
  | refuse (state : TrustState) (reason : String)
deriving DecidableEq, Repr

namespace TrustDecision

/-- A verifier that failed has checked nothing, so its error never lets an image through, on an
unlocked device neither. -/
def ofVerdict (verdict : Except Fault Verdict) : TrustDecision :=
  match verdict with
  | .error _ => refuse .red "image verification failed"
  | .ok v =>
    if v.state = .red then refuse .red "boot state red"
    else if v.continueAllowed then proceed v.state v.fragment
    else refuse v.state "verifier refused to continue"

def note (verdict : Except Fault Verdict) (unlocked : Bool) : Note :=
  match verdict with
  | .error e =>
    let lock := if unlocked then "unlocked" else "locked"
    ⟨.critical, "verify", s!"verification failed ({lock}): {e.message}"⟩
  | .ok v =>
    if v.state = .red then ⟨.critical, "verify", "boot state RED"⟩
    else if v.continueAllowed then ⟨.info, "verify", "boot state " ++ v.state.text⟩
    else ⟨.warn, "verify", "verifier refused to continue"⟩

end TrustDecision

end BootAssembly
