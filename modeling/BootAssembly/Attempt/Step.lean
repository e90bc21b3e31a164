import BootAssembly.Attempt.Decision
import BootAssembly.Attempt.Firmware
import BootAssembly.Resolve

namespace BootAssembly.Attempt

abbrev Step := Traced Event Cause

namespace Step

def ofReport {α : Type} (x : Report α) : Step α := (x.mapTrace .noted).mapError .failed

instance : MonadLift Report Step where
  monadLift := ofReport

instance : MonadLift (Except Fault) Step where
  monadLift x := ofReport (.ofExcept x)

def ask {α : Type} (call : Call) (answer : Report α) : Step α := do
  Traced.record (.called call)
  ofReport answer

end Step

def partition (config : Config) (request : Request) : String :=
  if config.has .multiSlot then "boot" ++ request.metadata.slotSuffix.getD ""
  else if request.recovery then "recovery"
  else "boot"

structure Loaded where
  image : Bytes
  header : BootImage.Header
  layout : BootImage.Layout
deriving DecidableEq, Repr

def load (config : Config) (request : Request) (firmware : Firmware) : Step Loaded := do
  config.validate
  let name := partition config request
  Report.info "orchestrator" ("loading " ++ name)
  let image ← Step.ask (.load name) (.ofExcept (firmware.load name))
  let (header, layout) ← BootImage.inspect ⟨config.maxPageSize, config.expectedPageSize⟩ image
  layout.checkFits image.length
  return ⟨image, header, layout⟩

structure Trust where
  state : TrustState
  fragment : String
deriving DecidableEq, Repr

def passGate (config : Config) (request : Request) (firmware : Firmware) (image : Bytes) :
    Step (Option Trust) := do
  if config.has .verifiedBoot then
    let name := partition config request
    let verdict := firmware.verify name image
    Traced.record (.called (.verify name image))
    Traced.record (.noted (TrustDecision.note verdict request.metadata.unlocked))
    match TrustDecision.ofVerdict verdict with
    | .proceed state fragment => return some ⟨state, fragment⟩
    | .refuse state reason => .fail (.untrusted state reason)
  else
    Report.debug "orchestrator" "verified boot disabled, trust gate skipped"
    return none

structure Extracted where
  trust : Option Trust
  board : Board
  base : UInt64
  windows : Windows
  kernel : Kernel
deriving DecidableEq, Repr

def extract (config : Config) (request : Request) (firmware : Firmware) (loaded : Loaded) :
    Step Extracted := do
  let trust ← passGate config request firmware loaded.image
  let board ← Step.ask .identity (.ofExcept firmware.identity)
  let base ← Step.ask .ramBase (.ofExcept firmware.ramBase)
  let windows ← Windows.derive base config.addresses
  let kernel ← Kernel.extract loaded.image loaded.layout windows
  return ⟨trust, board, base, windows, kernel⟩

def loadOverlays (config : Config) (firmware : Firmware) : Step (Option Bytes) := do
  if config.has .overlays then
    match firmware.overlays with
    | some answer => some <$> Step.ask .overlays (.ofExcept answer)
    | none =>
      Report.warn "orchestrator" "dtbo capability set but no dtbo source"
      return none
  else return none

def resolveTree (config : Config) (firmware : Firmware) (loaded : Loaded) (x : Extracted) :
    Step Resolved := do
  let overlays ← loadOverlays config firmware
  Resolve.resolve x.board x.windows loaded.image x.kernel loaded.layout overlays

def slotted (config : Config) (metadata : Metadata) : Bool :=
  config.has .multiSlot && !metadata.devImage

def verifiedBoot (config : Config) (metadata : Metadata) (trust : Trust) :
    CommandLine.VerifiedBoot :=
  if config.has .verifiedBoot2 then ⟨trust.state, none, trust.fragment⟩
  else ⟨trust.state, metadata.verity, ""⟩

def rootClause (config : Config) (request : Request) : Report (Option CommandLine.RootClause) := do
  if config.has .systemAsRoot || slotted config request.metadata then
    match request.metadata.systemPath with
    | some path => return some ⟨!request.recovery, path⟩
    | none =>
      Report.warn "orchestrator" "system partition unknown, no root= clause"
      return none
  else return none

def fields (config : Config) (request : Request) (trust : Option Trust) (overlay : Option Nat)
    (root : Option CommandLine.RootClause) : CommandLine.Fields :=
  let m := request.metadata
  { verifiedBoot := trust.map (verifiedBoot config m)
    bootDevice := m.bootDevice
    serialNo := m.serialNo
    factoryMode := m.factoryMode
    chargerPause := m.chargerPause
    alarmBoot := m.alarmBoot
    baseband := m.baseband
    displayPanel := m.displayPanel
    theftProtection := config.has .theftProtection && m.theftProtection
    slotSuffix := if slotted config m then m.slotSuffix else none
    root
    overlayIndex := overlay }

def buildCommandLine (config : Config) (request : Request) (loaded : Loaded) (x : Extracted)
    (tree : Resolved) : Step CommandLine := do
  let root ← rootClause config request
  CommandLine.build loaded.header.commandLine
    (fields config request x.trust tree.overlayIndex root)

def patchRequest (config : Config) (request : Request) (line : CommandLine) (plan : MemoryPlan)
    (ram : List RamRegion) : Patch.Request where
  commandLine := line
  plan := plan
  ram := ram
  kaslrSeed := request.metadata.kaslrSeed
  splash := request.metadata.splash
  bootDevice := request.metadata.bootDevice
  disabledSubsystems := request.metadata.disabledSubsystems
  capabilities := config.capabilities

def writeAll (firmware : Firmware) (plan : MemoryPlan) (kernel ramdisk tree : Bytes) :
    Step Unit := do
  let write (i : Nat) (address : UInt64) (bytes : Bytes) : Step Unit :=
    Step.ask (.write address bytes) (.ofExcept (firmware.write i address bytes))
  write 0 plan.kernelAddr kernel
  write 1 plan.ramdiskAddr ramdisk
  write 2 plan.deviceTreeAddr tree

def place (config : Config) (request : Request) (firmware : Firmware) (loaded : Loaded)
    (kernel : Kernel) (blob : Bytes) (plan : MemoryPlan) (line : CommandLine) : Step Unit := do
  let ram ← Step.ask .ramRegions (.ofExcept firmware.ramRegions)
  let request := patchRequest config request line plan ram
  let tree ← Step.ask (.patch blob request) (firmware.patch blob request)
  plan.checkTreeFits tree.length
  let ramdisk ← BootImage.Layout.payload loaded.layout.ramdisk loaded.image
  writeAll firmware plan kernel.bytes ramdisk tree

def handoffFlags (request : Request) (trust : Option Trust) (tree : Resolved) : UInt32 :=
  (if request.recovery then Handoff.recovery else 0) |||
    (if request.metadata.unlocked then Handoff.unlocked else 0) |||
    (if trust.isSome then Handoff.verified else 0) |||
    (if tree.overlayIndex.isSome then Handoff.overlayApplied else 0)

end BootAssembly.Attempt
