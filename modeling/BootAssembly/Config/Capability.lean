import BootAssembly.Text

namespace BootAssembly

inductive Capability where
  | verifiedBoot
  | verifiedBoot2
  | theftProtection
  | multiSlot
  | overlays
  | systemAsRoot
  | kaslrSeed
  | splashUpdate
  | fstabUpdate
  | partialGoods
deriving DecidableEq, Repr

namespace Capability

def all : List Capability :=
  [verifiedBoot, verifiedBoot2, theftProtection, multiSlot, overlays, systemAsRoot, kaslrSeed,
    splashUpdate, fstabUpdate, partialGoods]

def mask : Capability → UInt32
  | verifiedBoot => 1
  | verifiedBoot2 => 2
  | theftProtection => 4
  | multiSlot => 8
  | overlays => 16
  | systemAsRoot => 32
  | kaslrSeed => 64
  | splashUpdate => 128
  | fstabUpdate => 256
  | partialGoods => 512

def word : Capability → String
  | verifiedBoot => "VERIFIED_BOOT"
  | verifiedBoot2 => "VERIFIED_BOOT_2"
  | theftProtection => "MDTP"
  | multiSlot => "MULTI_SLOT"
  | overlays => "DTBO"
  | systemAsRoot => "SYSTEM_AS_ROOT"
  | kaslrSeed => "KASLR_SEED"
  | splashUpdate => "SPLASH_UPDATE"
  | fstabUpdate => "FSTAB_UPDATE"
  | partialGoods => "PARTIAL_GOODS"

end Capability

structure Capabilities where
  bits : UInt32
deriving DecidableEq, Repr

namespace Capabilities

def includes (caps : Capabilities) (mask : UInt32) : Bool := caps.bits &&& mask == mask

def has (caps : Capabilities) (c : Capability) : Bool := caps.includes c.mask

def ofList (cs : List Capability) : Capabilities := ⟨cs.foldl (fun bits c => bits ||| c.mask) 0⟩

def flagBits? : List Char → Option UInt32
  | [] => none
  | '0' :: 'x' :: digits => readHexWord? digits
  | name => (Capability.all.find? (·.word.toList = name)).map Capability.mask

def parse? (text : String) : Option Capabilities :=
  if (trimBlank text.toList).isEmpty then some ⟨0⟩
  else
    ((text.toList.splitOn '|').mapM fun part => flagBits? (trimBlank part)).map
      fun flags => ⟨flags.foldl (· ||| ·) 0⟩

end Capabilities

end BootAssembly
