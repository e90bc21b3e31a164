import BootAssembly.Attempt.Run

namespace BootAssembly.Attempt

variable {α : Type} {config : Config} {request : Request} {firmware : Firmware} {loaded : Loaded}
  {blob : Bytes} {plan : MemoryPlan} {line : CommandLine}

theorem outcome_ofReport_eq_ok {x : Report α} {a : α} :
    (Step.ofReport x).outcome = .ok a ↔ x.outcome = .ok a := by
  obtain ⟨outcome, trace⟩ := x
  cases outcome <;> simp [Step.ofReport, Traced.mapError, Traced.mapTrace]

theorem outcome_ofReport_eq_error {x : Report α} {cause : Cause} :
    (Step.ofReport x).outcome = .error cause ↔
      ∃ fault, x.outcome = .error fault ∧ cause = .failed fault := by
  obtain ⟨outcome, trace⟩ := x
  cases outcome <;> simp [Step.ofReport, Traced.mapError, Traced.mapTrace, eq_comm]

theorem outcome_ask_eq_ok {call : Call} {answer : Report α} {a : α} :
    (Step.ask call answer).outcome = .ok a ↔ answer.outcome = .ok a :=
  outcome_ofReport_eq_ok

theorem load_eq_ok (h : (load config request firmware).outcome = .ok loaded) :
    config.validate = .ok () ∧ firmware.load (partition config request) = .ok loaded.image ∧
      (BootImage.inspect ⟨config.maxPageSize, config.expectedPageSize⟩ loaded.image).outcome =
        .ok (loaded.header, loaded.layout) ∧
      (loaded.layout.checkFits loaded.image.length).outcome = .ok () := by
  obtain ⟨_, hvalid, h⟩ := Traced.outcome_bind_eq_ok.mp h
  obtain ⟨_, -, h⟩ := Traced.outcome_bind_eq_ok.mp h
  obtain ⟨image, himage, h⟩ := Traced.outcome_bind_eq_ok.mp h
  obtain ⟨⟨header, layout⟩, hinspect, h⟩ := Traced.outcome_bind_eq_ok.mp h
  obtain ⟨_, hfits, h⟩ := Traced.outcome_bind_eq_ok.mp h
  cases h
  exact ⟨outcome_ofReport_eq_ok.mp hvalid, outcome_ask_eq_ok.mp himage,
    outcome_ofReport_eq_ok.mp hinspect, outcome_ofReport_eq_ok.mp hfits⟩

theorem extract_eq_ok {x : Extracted}
    (h : (extract config request firmware loaded).outcome = .ok x) :
    (passGate config request firmware loaded.image).outcome = .ok x.trust ∧
      firmware.identity = .ok x.board ∧ firmware.ramBase = .ok x.base ∧
      (Windows.derive x.base config.addresses).outcome = .ok x.windows ∧
      (Kernel.extract loaded.image loaded.layout x.windows).outcome = .ok x.kernel := by
  obtain ⟨trust, hgate, h⟩ := Traced.outcome_bind_eq_ok.mp h
  obtain ⟨board, hboard, h⟩ := Traced.outcome_bind_eq_ok.mp h
  obtain ⟨base, hbase, h⟩ := Traced.outcome_bind_eq_ok.mp h
  obtain ⟨windows, hwindows, h⟩ := Traced.outcome_bind_eq_ok.mp h
  obtain ⟨kernel, hkernel, h⟩ := Traced.outcome_bind_eq_ok.mp h
  cases h
  exact ⟨hgate, outcome_ask_eq_ok.mp hboard, outcome_ask_eq_ok.mp hbase,
    outcome_ofReport_eq_ok.mp hwindows, outcome_ofReport_eq_ok.mp hkernel⟩

structure Ready (config : Config) (request : Request) (firmware : Firmware) (loaded : Loaded)
    (blob : Bytes) (plan : MemoryPlan) (line : CommandLine) where
  ram : List RamRegion
  patched : Bytes
  ramdisk : Bytes
  ram_ok : firmware.ramRegions = .ok ram
  patched_ok : (firmware.patch blob (patchRequest config request line plan ram)).outcome =
    .ok patched
  fits : plan.checkTreeFits patched.length = .ok ()
  ramdisk_ok : BootImage.Layout.payload loaded.layout.ramdisk loaded.image = .ok ramdisk

namespace Ready

def writes (r : Ready config request firmware loaded blob plan line) (kernel : Kernel) :
    List (UInt64 × Bytes) :=
  [(plan.kernelAddr, kernel.bytes), (plan.ramdiskAddr, r.ramdisk), (plan.deviceTreeAddr, r.patched)]

def calls (r : Ready config request firmware loaded blob plan line) (kernel : Kernel) :
    List Call :=
  [.ramRegions, .patch blob (patchRequest config request line plan r.ram)] ++
    (r.writes kernel).map fun target => .write target.1 target.2

end Ready

theorem ready_of_place_ok {kernel : Kernel}
    (h : (place config request firmware loaded kernel blob plan line).outcome = .ok ()) :
    Nonempty (Ready config request firmware loaded blob plan line) := by
  obtain ⟨ram, hram, h⟩ := Traced.outcome_bind_eq_ok.mp h
  obtain ⟨patched, hpatched, h⟩ := Traced.outcome_bind_eq_ok.mp h
  obtain ⟨_, hfits, h⟩ := Traced.outcome_bind_eq_ok.mp h
  obtain ⟨ramdisk, hramdisk, h⟩ := Traced.outcome_bind_eq_ok.mp h
  exact ⟨⟨ram, patched, ramdisk, outcome_ask_eq_ok.mp hram, outcome_ask_eq_ok.mp hpatched,
    outcome_ofReport_eq_ok.mp hfits, outcome_ofReport_eq_ok.mp hramdisk⟩⟩

theorem place_of_ready (r : Ready config request firmware loaded blob plan line)
    (hwrite : ∀ i address bytes, firmware.write i address bytes = .ok ()) (kernel : Kernel) :
    (place config request firmware loaded kernel blob plan line).outcome = .ok () := by
  have hwrites : (writeAll firmware plan kernel.bytes r.ramdisk r.patched).outcome = .ok () := by
    refine Traced.outcome_bind_eq_ok.mpr ⟨(), outcome_ask_eq_ok.mpr (hwrite _ _ _), ?_⟩
    refine Traced.outcome_bind_eq_ok.mpr ⟨(), outcome_ask_eq_ok.mpr (hwrite _ _ _), ?_⟩
    exact outcome_ask_eq_ok.mpr (hwrite _ _ _)
  refine Traced.outcome_bind_eq_ok.mpr ⟨_, outcome_ask_eq_ok.mpr r.ram_ok, ?_⟩
  refine Traced.outcome_bind_eq_ok.mpr ⟨_, outcome_ask_eq_ok.mpr r.patched_ok, ?_⟩
  refine Traced.outcome_bind_eq_ok.mpr ⟨_, outcome_ofReport_eq_ok.mpr r.fits, ?_⟩
  exact Traced.outcome_bind_eq_ok.mpr ⟨_, outcome_ofReport_eq_ok.mpr r.ramdisk_ok, hwrites⟩

end BootAssembly.Attempt
