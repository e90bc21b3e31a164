import BootAssembly.Proofs.Attempt.Steps

namespace BootAssembly.Attempt

variable {ε α β : Type} {config : Config} {request : Request} {firmware : Firmware}
  {loaded : Loaded} {blob : Bytes} {plan : MemoryPlan} {line : CommandLine}

def callsOf (events : List Event) : List Call := events.filterMap Event.call?

def statesOf (events : List Event) : List State := events.filterMap Event.state?

theorem callsOf_append (events more : List Event) :
    callsOf (events ++ more) = callsOf events ++ callsOf more :=
  List.filterMap_append

theorem statesOf_append (events more : List Event) :
    statesOf (events ++ more) = statesOf events ++ statesOf more :=
  List.filterMap_append

theorem callsOf_bind_prefix (x : Traced Event ε α) (f : α → Traced Event ε β) :
    callsOf x.trace <+: callsOf (x >>= f).trace := by
  rw [Traced.trace_bind, callsOf_append]
  exact List.prefix_append _ _

structure Asks (x : Traced Event ε α) (calls : List Call) : Prop where
  inOrder : callsOf x.trace <+: calls
  all : ∀ a, x.outcome = .ok a → callsOf x.trace = calls
  still : statesOf x.trace = []

namespace Asks

theorem nil {x : Traced Event ε α} (hc : callsOf x.trace = []) (hs : statesOf x.trace = []) :
    Asks x [] :=
  ⟨hc ▸ List.prefix_refl [], fun _ _ => hc, hs⟩

theorem pure (a : α) : Asks (Pure.pure a : Traced Event ε α) [] := nil rfl rfl

theorem fail (e : ε) (calls : List Call) : Asks (.fail e : Traced Event ε α) calls := by
  refine ⟨List.nil_prefix, ?_, rfl⟩
  intro a ha
  cases ha

theorem called (call : Call) : Asks (Traced.record (.called call) : Step Unit) [call] :=
  ⟨List.prefix_refl _, fun _ _ => rfl, rfl⟩

theorem noted (note : Note) : Asks (Traced.record (.noted note) : Step Unit) [] := nil rfl rfl

theorem ofReport (x : Report α) : Asks (Step.ofReport x) [] := by
  have hnotes : ∀ notes : List Note, callsOf (notes.map .noted) = [] ∧
      statesOf (notes.map .noted) = [] := by
    intro notes
    induction notes with
    | nil => exact ⟨rfl, rfl⟩
    | cons note notes ih => exact ih
  exact nil (hnotes x.trace).1 (hnotes x.trace).2

theorem bind {x : Traced Event ε α} {f : α → Traced Event ε β} {first rest : List Call}
    (hx : Asks x first) (hf : ∀ a, x.outcome = .ok a → Asks (f a) rest) :
    Asks (x >>= f) (first ++ rest) := by
  cases h : x.outcome with
  | error e =>
    have ht : (x >>= f).trace = x.trace := by simp [Traced.trace_bind, h]
    refine ⟨?_, ?_, ?_⟩
    · rw [ht]
      exact hx.inOrder.trans (List.prefix_append first rest)
    · intro b hb
      rw [Traced.outcome_bind, h] at hb
      cases hb
    · rw [ht, hx.still]
  | ok a =>
    have ha := hf a h
    have ht : (x >>= f).trace = x.trace ++ (f a).trace := by simp [Traced.trace_bind, h]
    have hcalls : callsOf (x >>= f).trace = first ++ callsOf (f a).trace := by
      rw [ht, callsOf_append, hx.all a h]
    refine ⟨?_, ?_, ?_⟩
    · rw [hcalls]
      exact (List.prefix_append_right_inj first).mpr ha.inOrder
    · intro b hb
      rw [Traced.outcome_bind, h] at hb
      rw [hcalls, ha.all b hb]
    · rw [ht, statesOf_append, hx.still, ha.still]
      rfl

theorem silent_bind {x : Traced Event ε α} {f : α → Traced Event ε β} {calls : List Call}
    (hx : Asks x []) (hf : ∀ a, x.outcome = .ok a → Asks (f a) calls) : Asks (x >>= f) calls :=
  bind hx hf

theorem bind_silent {x : Traced Event ε α} {f : α → Traced Event ε β} {calls : List Call}
    (hx : Asks x calls) (hf : ∀ a, x.outcome = .ok a → Asks (f a) []) : Asks (x >>= f) calls := by
  have h := bind hx hf
  rwa [List.append_nil] at h

theorem ask (call : Call) (answer : Report α) : Asks (Step.ask call answer) [call] :=
  bind (called call) fun _ _ => ofReport answer

end Asks

theorem load_asks : Asks (load config request firmware) [.load (partition config request)] := by
  unfold load
  apply Asks.silent_bind (Asks.ofReport _)
  intro _ _
  apply Asks.silent_bind (Asks.ofReport _)
  intro _ _
  apply Asks.bind (Asks.ask _ _)
  intro image _
  apply Asks.silent_bind (Asks.ofReport _)
  intro parts _
  apply Asks.silent_bind (Asks.ofReport _)
  intro _ _
  exact Asks.pure _

def gateCalls (config : Config) (request : Request) (image : Bytes) : List Call :=
  if config.has .verifiedBoot then [.verify (partition config request) image] else []

theorem passGate_asks (image : Bytes) :
    Asks (passGate config request firmware image) (gateCalls config request image) := by
  unfold passGate gateCalls
  split
  · apply Asks.bind_silent (Asks.called _)
    intro _ _
    apply Asks.silent_bind (Asks.noted _)
    intro _ _
    split
    · exact Asks.pure _
    · exact Asks.fail _ _
  · apply Asks.silent_bind (Asks.ofReport _)
    intro _ _
    exact Asks.pure _

theorem extract_asks (loaded : Loaded) :
    Asks (extract config request firmware loaded)
      (gateCalls config request loaded.image ++ [.identity, .ramBase]) := by
  unfold extract
  apply Asks.bind (passGate_asks _)
  intro trust _
  apply Asks.bind (Asks.ask .identity _)
  intro board _
  apply Asks.bind_silent (Asks.ask .ramBase _)
  intro base _
  apply Asks.silent_bind (Asks.ofReport _)
  intro windows _
  apply Asks.silent_bind (Asks.ofReport _)
  intro kernel _
  exact Asks.pure _

def overlayCalls (config : Config) (firmware : Firmware) : List Call :=
  if config.has .overlays ∧ firmware.overlays.isSome then [.overlays] else []

theorem loadOverlays_asks : Asks (loadOverlays config firmware) (overlayCalls config firmware) := by
  unfold loadOverlays overlayCalls
  by_cases hc : config.has .overlays
  · cases ho : firmware.overlays with
    | some answer =>
      simp only [hc, Option.isSome_some, and_self, if_true]
      apply Asks.bind_silent (Asks.ask .overlays _)
      intro table _
      exact Asks.pure _
    | none =>
      simp only [hc, Option.isSome_none, Bool.false_eq_true, and_false, if_true, if_false]
      apply Asks.silent_bind (Asks.ofReport _)
      intro _ _
      exact Asks.pure _
  · simp only [hc]
    exact Asks.pure _

theorem resolveTree_asks (loaded : Loaded) (x : Extracted) :
    Asks (resolveTree config firmware loaded x) (overlayCalls config firmware) := by
  unfold resolveTree
  apply Asks.bind_silent loadOverlays_asks
  intro overlays _
  exact Asks.ofReport _

theorem buildCommandLine_asks (loaded : Loaded) (x : Extracted) (tree : Resolved) :
    Asks (buildCommandLine config request loaded x tree) [] := by
  unfold buildCommandLine
  apply Asks.silent_bind (Asks.ofReport _)
  intro root _
  exact Asks.ofReport _

theorem writeAll_asks (plan : MemoryPlan) (kernel ramdisk tree : Bytes) :
    Asks (writeAll firmware plan kernel ramdisk tree)
      [.write plan.kernelAddr kernel, .write plan.ramdiskAddr ramdisk,
        .write plan.deviceTreeAddr tree] := by
  unfold writeAll
  apply Asks.bind (Asks.ask (.write plan.kernelAddr kernel) _)
  intro _ _
  apply Asks.bind (Asks.ask (.write plan.ramdiskAddr ramdisk) _)
  intro _ _
  exact Asks.ask _ _

theorem place_asks (r : Ready config request firmware loaded blob plan line) (kernel : Kernel) :
    Asks (place config request firmware loaded kernel blob plan line) (r.calls kernel) := by
  unfold place
  apply Asks.bind (Asks.ask .ramRegions _)
  intro ram hram
  have hsame : ram = r.ram := Except.ok.inj ((outcome_ask_eq_ok.mp hram).symm.trans r.ram_ok)
  subst hsame
  apply Asks.bind (Asks.ask (.patch blob (patchRequest config request line plan r.ram)) _)
  intro patched hpatched
  have hsame : patched = r.patched :=
    Except.ok.inj ((outcome_ask_eq_ok.mp hpatched).symm.trans r.patched_ok)
  subst hsame
  apply Asks.silent_bind (Asks.ofReport _)
  intro _ _
  apply Asks.silent_bind (Asks.ofReport _)
  intro ramdisk hramdisk
  have hsame : ramdisk = r.ramdisk :=
    Except.ok.inj ((outcome_ofReport_eq_ok.mp hramdisk).symm.trans r.ramdisk_ok)
  subst hsame
  exact writeAll_asks plan kernel.bytes r.ramdisk r.patched

theorem place_asks_of_unready (h : ¬ Nonempty (Ready config request firmware loaded blob plan line))
    (kernel : Kernel) : ∃ wanted,
      Asks (place config request firmware loaded kernel blob plan line)
        [.ramRegions, .patch blob wanted] := by
  unfold place
  cases hram : firmware.ramRegions with
  | error fault =>
    refine ⟨patchRequest config request line plan [], ?_⟩
    apply Asks.bind (Asks.ask .ramRegions _)
    intro ram ha
    cases ha
  | ok ram =>
    refine ⟨patchRequest config request line plan ram, ?_⟩
    apply Asks.bind (Asks.ask .ramRegions _)
    intro other ha
    have hsame : other = ram := Except.ok.inj (outcome_ask_eq_ok.mp ha).symm
    subst hsame
    apply Asks.bind_silent (Asks.ask (.patch blob (patchRequest config request line plan other)) _)
    intro patched hpatched
    apply Asks.silent_bind (Asks.ofReport _)
    intro _ hfits
    apply Asks.silent_bind (Asks.ofReport _)
    intro ramdisk hramdisk
    exact absurd ⟨⟨other, patched, ramdisk, hram, outcome_ask_eq_ok.mp hpatched,
      outcome_ofReport_eq_ok.mp hfits, outcome_ofReport_eq_ok.mp hramdisk⟩⟩ h

end BootAssembly.Attempt
