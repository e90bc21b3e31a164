import BootAssembly.Proofs.Attempt.TrustGate

namespace BootAssembly

open Attempt

def TrustDecision.refusal? : TrustDecision → Option Cause
  | .proceed _ _ => none
  | .refuse state reason => some (.untrusted state reason)

namespace Attempt

def failure? {α : Type} : Except Fault α → Option Cause
  | .ok _ => none
  | .error fault => some (.failed fault)

def Firmware.refusal? (firmware : Firmware) (written : Nat) : Call → Option Cause
  | .load name => failure? (firmware.load name)
  | .verify name image => (TrustDecision.ofVerdict (firmware.verify name image)).refusal?
  | .identity => failure? firmware.identity
  | .ramBase => failure? firmware.ramBase
  | .overlays => firmware.overlays.bind failure?
  | .ramRegions => failure? firmware.ramRegions
  | .patch blob request => failure? (firmware.patch blob request).outcome
  | .write address bytes => failure? (firmware.write written address bytes)

/-- After a refused call nothing more is asked, and the work fails for the cause of the refusal. -/
def Heeds {ε α : Type} (firmware : Firmware) (blame : ε → Cause) (written : Nat)
    (x : Traced Event ε α) : Prop :=
  ∀ front call back cause, callsOf x.trace = front ++ call :: back →
    firmware.refusal? (written + (writesOf front).length) call = some cause →
    back = [] ∧ ∃ e, x.outcome = .error e ∧ blame e = cause

namespace Heeds

variable {ε α β : Type} {firmware : Firmware} {blame : ε → Cause} {written : Nat}

theorem quiet {x : Traced Event ε α} (h : Asks x []) : Heeds firmware blame written x := by
  intro front call back cause hcalls
  rw [List.prefix_nil.mp h.inOrder] at hcalls
  exact absurd hcalls.symm (List.append_ne_nil_of_right_ne_nil _ (List.cons_ne_nil _ _))

theorem single {x : Traced Event ε α} {call : Call} (hcalls : callsOf x.trace = [call])
    (h : ∀ cause, firmware.refusal? written call = some cause →
      ∃ e, x.outcome = .error e ∧ blame e = cause) : Heeds firmware blame written x := by
  intro front other back cause hsplit hrefused
  rw [hcalls] at hsplit
  obtain ⟨rfl, rfl, rfl⟩ : front = [] ∧ other = call ∧ back = [] := by
    cases front with
    | nil =>
      cases hsplit
      exact ⟨rfl, rfl, rfl⟩
    | cons first front =>
      cases (List.append_eq_nil_iff.mp (List.cons.inj hsplit).2.symm).2
  exact ⟨rfl, h cause hrefused⟩

theorem bind {x : Traced Event ε α} {f : α → Traced Event ε β} (hx : Heeds firmware blame written x)
    (hf : ∀ a, x.outcome = .ok a →
      Heeds firmware blame (written + (writesOf (callsOf x.trace)).length) (f a)) :
    Heeds firmware blame written (x >>= f) := by
  intro front call back cause hcalls hrefused
  cases hout : x.outcome with
  | error e =>
    rw [Traced.trace_bind, hout] at hcalls
    dsimp only at hcalls
    rw [List.append_nil] at hcalls
    obtain ⟨hback, e, he, hblame⟩ := hx front call back cause hcalls hrefused
    exact ⟨hback, e, Traced.outcome_bind_of_error he, hblame⟩
  | ok a =>
    rw [Traced.trace_bind, hout] at hcalls
    dsimp only at hcalls
    rw [callsOf_append] at hcalls
    -- The refused call is behind all calls of `x`, or among them, and then `x` fails.
    obtain ⟨late, rfl, hlate⟩ | ⟨rest, hfront, hrest⟩ := List.append_eq_append_iff.mp hcalls
    · rw [writesOf_append, List.length_append, ← Nat.add_assoc] at hrefused
      obtain ⟨hback, e, he, hblame⟩ := hf a hout late call back cause hlate hrefused
      exact ⟨hback, e, (Traced.outcome_bind_of_ok hout).trans he, hblame⟩
    · cases rest with
      | nil =>
        rw [List.append_nil] at hfront
        have hnone : written + (writesOf (callsOf x.trace)).length +
            (writesOf []).length = written + (writesOf front).length := by
          rw [hfront]
          rfl
        obtain ⟨hback, e, he, hblame⟩ :=
          hf a hout [] call back cause hrest.symm (hnone ▸ hrefused)
        exact ⟨hback, e, (Traced.outcome_bind_of_ok hout).trans he, hblame⟩
      | cons first rest =>
        cases (List.cons.inj hrest).1
        obtain ⟨-, e, he, -⟩ := hx front call rest cause hfront hrefused
        rw [hout] at he
        cases he

theorem bind_of_asks {x : Traced Event ε α} {f : α → Traced Event ε β} {calls : List Call}
    (hx : Heeds firmware blame written x) (hasks : Asks x calls) (hnone : writesOf calls = [])
    (hf : ∀ a, x.outcome = .ok a → Heeds firmware blame written (f a)) :
    Heeds firmware blame written (x >>= f) := by
  apply bind hx
  intro a ha
  rw [hasks.all a ha, hnone]
  exact hf a ha

theorem quiet_bind {x : Traced Event ε α} {f : α → Traced Event ε β} (hasks : Asks x [])
    (hf : ∀ a, x.outcome = .ok a → Heeds firmware blame written (f a)) :
    Heeds firmware blame written (x >>= f) :=
  bind_of_asks (quiet hasks) hasks rfl hf

end Heeds

section

variable {α β : Type} {config : Config} {request : Request} {firmware : Firmware} {written : Nat}

theorem callsOf_ask (call : Call) (answer : Report α) :
    callsOf (Step.ask call answer).trace = [call] := by
  have hanswer := List.prefix_nil.mp (Asks.ofReport answer).inOrder
  exact congrArg (call :: ·) hanswer

theorem Heeds.ask {call : Call} {answer : Report α}
    (h : firmware.refusal? written call = failure? answer.outcome) :
    Heeds firmware id written (Step.ask call answer) := by
  apply Heeds.single (callsOf_ask call answer)
  intro cause hcause
  rw [h] at hcause
  cases hanswer : answer.outcome with
  | ok a =>
    rw [hanswer] at hcause
    cases hcause
  | error fault =>
    rw [hanswer] at hcause
    cases hcause
    exact ⟨_, outcome_ofReport_eq_error.mpr ⟨fault, hanswer, rfl⟩, rfl⟩

theorem load_heeds : Heeds firmware id written (load config request firmware) := by
  unfold load
  apply Heeds.quiet_bind (Asks.ofReport _)
  intro _ _
  apply Heeds.quiet_bind (Asks.ofReport _)
  intro _ _
  apply Heeds.bind_of_asks (Heeds.ask rfl) (Asks.ask _ _) rfl
  intro image _
  apply Heeds.quiet_bind (Asks.ofReport _)
  intro parts _
  apply Heeds.quiet_bind (Asks.ofReport _)
  intro _ _
  exact Heeds.quiet (Asks.pure _)

theorem passGate_heeds (image : Bytes) :
    Heeds firmware id written (passGate config request firmware image) := by
  by_cases hverified : config.has .verifiedBoot
  · apply Heeds.single (callsOf_passGate hverified)
    intro cause hcause
    rw [passGate_eq hverified]
    dsimp only [Firmware.refusal?] at hcause
    cases hdecision : TrustDecision.ofVerdict (firmware.verify (partition config request) image) with
    | proceed state fragment =>
      rw [hdecision] at hcause
      cases hcause
    | refuse state reason =>
      rw [hdecision] at hcause
      cases hcause
      exact ⟨_, rfl, rfl⟩
  · have hasks := @passGate_asks config request firmware image
    rw [gateCalls, if_neg hverified] at hasks
    exact Heeds.quiet hasks

theorem extract_heeds (loaded : Loaded) :
    Heeds firmware id written (extract config request firmware loaded) := by
  unfold extract
  apply Heeds.bind_of_asks (passGate_heeds _) (passGate_asks _) (writesOf_gateCalls _)
  intro trust _
  apply Heeds.bind_of_asks (Heeds.ask rfl) (Asks.ask .identity _) rfl
  intro board _
  apply Heeds.bind_of_asks (Heeds.ask rfl) (Asks.ask .ramBase _) rfl
  intro base _
  apply Heeds.quiet_bind (Asks.ofReport _)
  intro windows _
  apply Heeds.quiet_bind (Asks.ofReport _)
  intro kernel _
  exact Heeds.quiet (Asks.pure _)

theorem loadOverlays_heeds : Heeds firmware id written (loadOverlays config firmware) := by
  unfold loadOverlays
  split
  · split
    · rename_i answer hsource
      have hrefusal : firmware.refusal? written .overlays = failure? answer := by
        rw [Firmware.refusal?, hsource]
        rfl
      apply Heeds.bind_of_asks (Heeds.ask hrefusal) (Asks.ask .overlays _) rfl
      intro table _
      exact Heeds.quiet (Asks.pure _)
    · apply Heeds.quiet_bind (Asks.ofReport _)
      intro _ _
      exact Heeds.quiet (Asks.pure _)
  · exact Heeds.quiet (Asks.pure _)

theorem resolveTree_heeds (loaded : Loaded) (x : Extracted) :
    Heeds firmware id written (resolveTree config firmware loaded x) := by
  apply Heeds.bind_of_asks loadOverlays_heeds loadOverlays_asks writesOf_overlayCalls
  intro overlays _
  exact Heeds.quiet (Asks.ofReport _)

theorem writeAll_heeds (plan : MemoryPlan) (kernel ramdisk tree : Bytes) :
    Heeds firmware id 0 (writeAll firmware plan kernel ramdisk tree) := by
  unfold writeAll
  apply Heeds.bind (Heeds.ask rfl)
  intro _ _
  rw [callsOf_ask]
  apply Heeds.bind (Heeds.ask rfl)
  intro _ _
  rw [callsOf_ask]
  exact Heeds.ask rfl

theorem place_heeds (loaded : Loaded) (kernel : Kernel) (blob : Bytes) (plan : MemoryPlan)
    (line : CommandLine) :
    Heeds firmware id 0 (place config request firmware loaded kernel blob plan line) := by
  unfold place
  apply Heeds.bind_of_asks (Heeds.ask rfl) (Asks.ask .ramRegions _) rfl
  intro ram _
  apply Heeds.bind_of_asks (Heeds.ask rfl) (Asks.ask (.patch blob _) _) rfl
  intro tree _
  apply Heeds.quiet_bind (Asks.ofReport _)
  intro _ _
  apply Heeds.quiet_bind (Asks.ofReport _)
  intro ramdisk _
  exact writeAll_heeds plan kernel.bytes ramdisk tree

theorem callsOf_advance (current next : State) (work : Step α) :
    callsOf (advance current next work).trace = callsOf work.trace := by
  rw [← Traced.bind_pure (advance current next work)]
  cases h : work.outcome with
  | error cause => rw [advance_bind_of_error h]
  | ok a =>
    rw [advance_bind_of_ok h, callsOf_append, callsOf_append, callsOf_transition]
    exact (List.append_nil _).trans (List.append_nil _)

theorem outcome_advance_of_error {current next : State} {work : Step α} {cause : Cause}
    (h : work.outcome = .error cause) :
    (advance current next work).outcome = .error ⟨current, cause⟩ := by
  rw [← Traced.bind_pure (advance current next work), advance_bind_of_error h]

theorem Heeds.advance {current next : State} {work : Step α}
    (h : Heeds firmware id written work) :
    Heeds firmware Abort.cause written (advance current next work) := by
  intro front call back cause hcalls hrefused
  rw [callsOf_advance] at hcalls
  obtain ⟨hback, _, hout, rfl⟩ := h front call back cause hcalls hrefused
  exact ⟨hback, _, outcome_advance_of_error hout, rfl⟩

theorem Heeds.advance_bind {current next : State} {work : Step α} {f : α → Run β}
    {calls : List Call} (h : Heeds firmware id written work) (hasks : Asks work calls)
    (hnone : writesOf calls = []) (hf : ∀ a, Heeds firmware Abort.cause written (f a)) :
    Heeds firmware Abort.cause written (Attempt.advance current next work >>= f) := by
  apply Heeds.bind h.advance
  intro a _
  have hwritten : writesOf (callsOf work.trace) = [] :=
    List.prefix_nil.mp (hnone ▸ hasks.inOrder.filterMap Call.write?)
  rw [callsOf_advance, hwritten]
  exact hf a

theorem run_heeds : Heeds firmware Abort.cause 0 (run config request firmware) := by
  unfold run
  apply load_heeds.advance_bind load_asks rfl
  intro loaded
  apply (extract_heeds loaded).advance_bind (extract_asks loaded)
  · rw [writesOf_append, writesOf_gateCalls]
    rfl
  intro x
  apply (resolveTree_heeds loaded x).advance_bind (resolveTree_asks loaded x) writesOf_overlayCalls
  intro tree
  apply (Heeds.quiet (Asks.ofReport _)).advance_bind (Asks.ofReport _) rfl
  intro plan
  apply (Heeds.quiet (buildCommandLine_asks loaded x tree)).advance_bind
    (buildCommandLine_asks loaded x tree) rfl
  intro line
  apply Heeds.bind (place_heeds loaded x.kernel tree.blob plan line).advance
  intro _ _
  exact Heeds.quiet (Asks.pure _)

end

end Attempt

end BootAssembly
