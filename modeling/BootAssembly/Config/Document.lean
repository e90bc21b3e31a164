import BootAssembly.Config

namespace BootAssembly

/-- A configuration as written: nothing in it has been checked. A number with a point, an exponent
or a signed zero is a `fraction`, whatever its value. -/
inductive Document where
  | null
  | flag (value : Bool)
  | integer (value : Int)
  | fraction
  | text (value : String)
  | list (items : List Document)
  | table (entries : List (String × Document))
deriving Inhabited

namespace Document

def fields? (names : List String) : Document → Option (List (String × Document))
  | table entries => some entries
  | list items => if items.length ≤ names.length then some (names.zip items) else none
  | _ => none

def field? {α : Type} (entries : List (String × Document)) (name : String)
    (read? : Document → Option α) (absent : α) : Option α :=
  match entries.lookup name with
  | some value => read? value
  | none => some absent

def natBelow? (bound : Nat) : Document → Option Nat
  | integer n => if 0 ≤ n ∧ n < bound then some n.toNat else none
  | _ => none

def word? (d : Document) : Option UInt32 := (natBelow? UInt32.size d).map UInt32.ofNat

def address? (d : Document) : Option UInt64 := (natBelow? UInt64.size d).map UInt64.ofNat

def optional? {α : Type} (read? : Document → Option α) : Document → Option (Option α)
  | null => some none
  | d => (read? d).map some

def capabilities? : Document → Option Capabilities
  | text t => Capabilities.parse? t
  | _ => none

def policyNamed? : String → Option FallbackPolicy
  | "fastboot" => some .fastboot
  | "recovery_then_fastboot" => some .recoveryThenFastboot
  | _ => none

def policy? : Document → Option FallbackPolicy
  | text t => policyNamed? t
  | table [(name, null)] => policyNamed? name
  | _ => none

def addresses? (d : Document) : Option AddressConfig := do
  let entries ← d.fields? ["kernel", "kernel_32", "device_tree", "ramdisk", "ramdisk_end"]
  let absent : AddressConfig := {}
  return {
    kernel := ← field? entries "kernel" address? absent.kernel
    kernel32 := ← field? entries "kernel_32" address? absent.kernel32
    deviceTree := ← field? entries "device_tree" address? absent.deviceTree
    ramdisk := ← field? entries "ramdisk" address? absent.ramdisk
    ramdiskEnd := ← field? entries "ramdisk_end" address? absent.ramdiskEnd }

end Document

/-- Reads a configuration. Unknown fields are ignored and absent ones take their defaults; any
malformed value refuses the whole document. -/
def Config.ofDocument? (d : Document) : Option Config := do
  let entries ← d.fields?
    ["capabilities", "addresses", "max_page_size", "expected_page_size", "fallback"]
  let absent : Config := {}
  return {
    capabilities := ← Document.field? entries "capabilities" Document.capabilities?
      absent.capabilities
    addresses := ← Document.field? entries "addresses" Document.addresses? absent.addresses
    maxPageSize := ← Document.field? entries "max_page_size" Document.word? absent.maxPageSize
    expectedPageSize := ← Document.field? entries "expected_page_size"
      (Document.optional? Document.word?) absent.expectedPageSize
    fallback := ← Document.field? entries "fallback" Document.policy? absent.fallback }

end BootAssembly
