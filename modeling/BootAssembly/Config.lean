import BootAssembly.Config.Capability
import BootAssembly.Fault

namespace BootAssembly

structure AddressConfig where
  kernel : UInt64 := 0x80000
  kernel32 : UInt64 := 0x8000
  deviceTree : UInt64 := 0x2000000
  ramdisk : UInt64 := 0x2200000
  ramdiskEnd : UInt64 := 0x4000000
deriving DecidableEq, Repr

inductive FallbackPolicy where
  | fastboot
  | recoveryThenFastboot
deriving DecidableEq, Repr

structure Config where
  capabilities : Capabilities := .ofList [.verifiedBoot, .kaslrSeed]
  addresses : AddressConfig := {}
  maxPageSize : UInt32 := 16384
  expectedPageSize : Option UInt32 := none
  fallback : FallbackPolicy := .fastboot
deriving DecidableEq, Repr

namespace Config

def has (config : Config) (c : Capability) : Bool := config.capabilities.has c

def validate (config : Config) : Except Fault Unit :=
  if config.has .verifiedBoot2 ∧ ¬ config.has .multiSlot then
    .error (.invalidFormat "verified boot 2 requires multi slot")
  else .ok ()

end Config

end BootAssembly
