import BootAssembly.Fault
import BootAssembly.Traced

namespace BootAssembly

inductive Severity where
  | debug
  | info
  | warn
  | critical
deriving DecidableEq, Repr

structure Note where
  severity : Severity
  source : String
  text : String
deriving DecidableEq, Repr

abbrev Report := Traced Note Fault

namespace Report

def debug (source text : String) : Report Unit := Traced.record ⟨.debug, source, text⟩

def info (source text : String) : Report Unit := Traced.record ⟨.info, source, text⟩

def warn (source text : String) : Report Unit := Traced.record ⟨.warn, source, text⟩

def critical (source text : String) : Report Unit := Traced.record ⟨.critical, source, text⟩

end Report

end BootAssembly
