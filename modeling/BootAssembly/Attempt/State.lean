namespace BootAssembly.Attempt

inductive State where
  | start
  | validated
  | extracted
  | treeResolved
  | layoutPlanned
  | commandLineBuilt
  | treePatched
  | proceed
  | retryRecovery
  | fallbackToFastboot
  | abort
deriving DecidableEq, Repr

namespace State

def text : State → String
  | start => "start"
  | validated => "validated"
  | extracted => "extracted"
  | treeResolved => "device-tree-resolved"
  | layoutPlanned => "layout-planned"
  | commandLineBuilt => "cmdline-built"
  | treePatched => "device-tree-patched"
  | proceed => "proceed"
  | retryRecovery => "retry-recovery"
  | fallbackToFastboot => "fallback-fastboot"
  | abort => "abort"

def isTerminal : State → Bool
  | proceed | retryRecovery | fallbackToFastboot | abort => true
  | _ => false

def pipeline : List State :=
  [start, validated, extracted, treeResolved, layoutPlanned, commandLineBuilt, treePatched]

end State

end BootAssembly.Attempt
