namespace BootAssembly

inductive Fault where
  | invalidFormat (what : String)
  | malformedSizes (what : String)
  | integerOverflow (what : String)
  | decompressFailed (what : String)
  | layoutOverflow (what : String)
  | noDeviceTreeMatch
  | outOfMemory (what : String)
  | buildInconsistency (what : String)
  | collaborator (what : String)
deriving DecidableEq, Repr

inductive FaultKind where
  | invalidFormat
  | malformedSizes
  | integerOverflow
  | decompressFailed
  | layoutOverflow
  | noDeviceTreeMatch
  | outOfMemory
  | buildInconsistency
  | collaborator
deriving DecidableEq, Repr

namespace Fault

def kind : Fault → FaultKind
  | invalidFormat _ => .invalidFormat
  | malformedSizes _ => .malformedSizes
  | integerOverflow _ => .integerOverflow
  | decompressFailed _ => .decompressFailed
  | layoutOverflow _ => .layoutOverflow
  | noDeviceTreeMatch => .noDeviceTreeMatch
  | outOfMemory _ => .outOfMemory
  | buildInconsistency _ => .buildInconsistency
  | collaborator _ => .collaborator

def message : Fault → String
  | invalidFormat what => "invalid format: " ++ what
  | malformedSizes what => "malformed sizes: " ++ what
  | integerOverflow what => "integer overflow: " ++ what
  | decompressFailed what => "kernel decompression failed: " ++ what
  | layoutOverflow what => "layout overflow: " ++ what
  | noDeviceTreeMatch => "no device tree matches this hardware"
  | outOfMemory what => "out of memory: " ++ what
  | buildInconsistency what => "build inconsistency: " ++ what
  | collaborator what => "collaborator failure: " ++ what

end Fault

end BootAssembly
