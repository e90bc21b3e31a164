import BootAssembly.Proofs.Attempt.Refusals

namespace BootAssembly

open Attempt

namespace Attempt

inductive Service where
  | load
  | verify
  | identity
  | ramBase
  | overlays
  | ramRegions
  | patch
  | write
deriving DecidableEq, Repr

def Call.service : Call → Service
  | load _ => .load
  | verify _ _ => .verify
  | identity => .identity
  | ramBase => .ramBase
  | overlays => .overlays
  | ramRegions => .ramRegions
  | patch _ _ => .patch
  | write _ _ => .write

def State.asks (config : Config) (firmware : Firmware) : State → List Service
  | start => [.load]
  | validated => (if config.has .verifiedBoot then [.verify] else []) ++ [.identity, .ramBase]
  | extracted => if config.has .overlays ∧ firmware.overlays.isSome then [.overlays] else []
  | commandLineBuilt => [.ramRegions, .patch, .write, .write, .write]
  | _ => []

def callOrder (config : Config) (firmware : Firmware) : List Service :=
  [.load] ++ (if config.has .verifiedBoot then [.verify] else []) ++ [.identity, .ramBase] ++
    (if config.has .overlays ∧ firmware.overlays.isSome then [.overlays] else []) ++
    [.ramRegions, .patch, .write, .write, .write]

section

variable {config : Config} {request : Request} {firmware : Firmware}

theorem flatMap_asks : State.pipeline.flatMap (State.asks config firmware) =
    callOrder config firmware := by
  simp only [State.pipeline, List.flatMap_cons, List.flatMap_nil, State.asks, callOrder,
    List.append_assoc, List.append_nil, List.nil_append]

theorem count_callOrder (service : Service) :
    (callOrder config firmware).count service ≤ if service = .write then 3 else 1 := by
  simp only [callOrder, List.count_append]
  split <;> split <;> cases service <;> decide

theorem map_service_gateCalls (image : Bytes) :
    (gateCalls config request image).map Call.service =
      if config.has .verifiedBoot then [.verify] else [] := by
  unfold gateCalls
  split <;> rfl

theorem map_service_overlayCalls :
    (overlayCalls config firmware).map Call.service = State.asks config firmware .extracted := by
  unfold overlayCalls State.asks
  split <;> rfl

/-- A run that entered the states after `start` up to `last`: the work of `done` was finished, that
of `last` was begun. -/
structure Shape (config : Config) (firmware : Firmware) (x : Run Handoff) (done : List State)
    (last : State) : Prop where
  reached : done ++ [last] <+: State.pipeline
  states : .start :: statesOf x.trace = done ++ [last]
  calls : ∃ part, part <+: last.asks config firmware ∧
    (callsOf x.trace).map Call.service = done.flatMap (State.asks config firmware) ++ part
  complete : (∃ handoff, x.outcome = .ok handoff) ↔ done ++ [last] = State.pipeline
  blamed : ∀ why, x.outcome = .error why → why.after = last

theorem Shape.stop {events : List Event} {α : Type} {work : Step α} {calls : List Call}
    {done : List State} {last : State} (hreached : done ++ [last] <+: State.pipeline)
    (hstates : .start :: statesOf events = done ++ [last])
    (hcalls : (callsOf events).map Call.service = done.flatMap (State.asks config firmware))
    (hasks : Asks work calls) (hpart : calls.map Call.service <+: last.asks config firmware)
    (hlast : done ++ [last] ≠ State.pipeline) (cause : Cause) :
    Shape config firmware ⟨.error ⟨last, cause⟩, events ++ work.trace⟩ done last := by
  refine ⟨hreached, ?_, ⟨(callsOf work.trace).map Call.service, ?_, ?_⟩, ?_, ?_⟩
  · rw [hasks.statesOf_stop, hstates]
  · exact (hasks.inOrder.map Call.service).trans hpart
  · rw [callsOf_append, List.map_append, hcalls]
  · constructor
    · rintro ⟨handoff, hout⟩
      cases hout
    · intro hwhole
      exact absurd hwhole hlast
  · rintro why ⟨⟩
    rfl

namespace Reached

theorem Validated.services (p : Validated config request firmware) :
    (callsOf p.events).map Call.service = [.start].flatMap (State.asks config firmware) := by
  rw [p.callsOf_events]
  rfl

theorem Extracted.services (p : Extracted config request firmware) :
    (callsOf p.events).map Call.service =
      [.start, .validated].flatMap (State.asks config firmware) := by
  rw [p.callsOf_events, List.map_append, List.map_append, map_service_gateCalls]
  simp only [List.flatMap_cons, List.flatMap_nil, List.append_nil]
  rfl

theorem TreeResolved.services (p : TreeResolved config request firmware) :
    (callsOf p.events).map Call.service =
      [.start, .validated, .extracted].flatMap (State.asks config firmware) := by
  rw [p.callsOf_events, List.map_append, p.toExtracted.services, map_service_overlayCalls]
  simp only [List.flatMap_cons, List.flatMap_nil, List.append_nil, List.append_assoc]

theorem CommandLineBuilt.services (p : CommandLineBuilt config request firmware) :
    (callsOf p.events).map Call.service =
      [.start, .validated, .extracted, .treeResolved, .layoutPlanned].flatMap
        (State.asks config firmware) := by
  rw [p.callsOf_events, p.toTreeResolved.services]
  rfl

theorem CommandLineBuilt.place_services (p : CommandLineBuilt config request firmware) :
    ∃ calls, calls.map Call.service <+: State.asks config firmware .commandLineBuilt ∧
      Asks (place config request firmware p.loaded p.extracted.kernel p.tree.blob p.plan p.line)
        calls := by
  by_cases h : Nonempty (Placement p)
  · obtain ⟨r⟩ := h
    exact ⟨_, List.prefix_refl _, place_asks r p.extracted.kernel⟩
  · obtain ⟨wanted, hasks⟩ := place_asks_of_unready h p.extracted.kernel
    exact ⟨_, ⟨[.write, .write, .write], rfl⟩, hasks⟩

theorem TreePatched.services (p : TreePatched config request firmware) :
    (callsOf p.events).map Call.service =
      [.start, .validated, .extracted, .treeResolved, .layoutPlanned, .commandLineBuilt].flatMap
        (State.asks config firmware) := by
  obtain ⟨r⟩ := p.ready
  have hbefore := p.toCommandLineBuilt.services
  rw [p.toCommandLineBuilt.callsOf_events] at hbefore
  rw [p.callsOf_events r, List.map_append, hbefore]
  simp only [List.flatMap_cons, List.flatMap_nil, List.append_nil, List.append_assoc]
  rfl

end Reached

theorem Course.shape {x : Run Handoff} (h : Course config request firmware x) :
    ∃ done last, Shape config firmware x done last := by
  cases h with
  | load h =>
    have hnone : .start :: statesOf [] = [] ++ [.start] := rfl
    exact ⟨[], .start, Shape.stop (by decide) hnone rfl load_asks (List.prefix_refl _)
      (by decide) _⟩
  | extract p h =>
    refine ⟨[.start], .validated, Shape.stop (by decide) ?_ p.services (extract_asks p.loaded) ?_
      (by decide) _⟩
    · rw [p.statesOf_events]
      rfl
    · rw [List.map_append, map_service_gateCalls]
      exact List.prefix_refl _
  | resolve p h =>
    refine ⟨[.start, .validated], .extracted, Shape.stop (by decide) ?_ p.services
      (resolveTree_asks p.loaded p.extracted) ?_ (by decide) _⟩
    · rw [p.statesOf_events]
      rfl
    · exact map_service_overlayCalls ▸ List.prefix_refl _
  | plan p h =>
    refine ⟨[.start, .validated, .extracted], .treeResolved, Shape.stop (by decide) ?_ p.services
      (Asks.ofReport _) List.nil_prefix (by decide) _⟩
    rw [p.statesOf_events]
    rfl
  | line p h =>
    refine ⟨[.start, .validated, .extracted, .treeResolved], .layoutPlanned, Shape.stop (by decide)
      ?_ ?_ (buildCommandLine_asks p.loaded p.extracted p.tree) List.nil_prefix (by decide) _⟩
    · rw [p.statesOf_events]
      rfl
    · rw [p.callsOf_events, p.toTreeResolved.services]
      rfl
  | place p h =>
    obtain ⟨calls, hcalls, hasks⟩ := p.place_services
    refine ⟨[.start, .validated, .extracted, .treeResolved, .layoutPlanned], .commandLineBuilt,
      Shape.stop (by decide) ?_ p.services hasks hcalls (by decide) _⟩
    rw [p.statesOf_events]
    rfl
  | complete p =>
    refine ⟨[.start, .validated, .extracted, .treeResolved, .layoutPlanned, .commandLineBuilt],
      .treePatched, List.prefix_refl _, ?_, ⟨[], List.nil_prefix, ?_⟩, ?_, ?_⟩
    · rw [p.statesOf_events]
      rfl
    · rw [p.services, List.append_nil]
    · exact ⟨fun _ => rfl, fun _ => ⟨p.handoff, rfl⟩⟩
    · intro why hout
      cases hout

theorem Shape.callOrder_prefix {x : Run Handoff} {done : List State} {last : State}
    (h : Shape config firmware x done last) :
    (callsOf x.trace).map Call.service <+: callOrder config firmware := by
  obtain ⟨part, hpart, hcalls⟩ := h.calls
  obtain ⟨ahead, hahead⟩ := h.reached
  rw [hcalls, ← flatMap_asks, ← hahead, List.flatMap_append, List.flatMap_append,
    List.flatMap_singleton, List.append_assoc, List.prefix_append_right_inj]
  exact hpart.trans (List.prefix_append _ _)

theorem Shape.decision {x : Run Handoff} {done : List State} {last : State}
    (h : Shape config firmware x done last) :
    (∃ handoff, (finish x).decision = .proceed handoff) ∧ done ++ [last] = State.pipeline ∨
      (∃ cause, (finish x).decision = .abort ⟨last, cause⟩) ∧ done ++ [last] ≠ State.pipeline := by
  cases hout : x.outcome with
  | ok handoff =>
    exact .inl ⟨⟨handoff, finish_eq_proceed.mpr hout⟩, h.complete.mp ⟨handoff, hout⟩⟩
  | error why =>
    refine .inr ⟨⟨why.cause, ?_⟩, ?_⟩
    · rw [← h.blamed why hout]
      exact finish_eq_abort.mpr hout
    · intro hwhole
      obtain ⟨handoff, hok⟩ := h.complete.mpr hwhole
      rw [hout] at hok
      cases hok

theorem run_of_invalid {fault : Fault} (h : config.validate = .error fault) :
    run config request firmware = ⟨.error ⟨.start, .failed fault⟩, []⟩ := by
  have hload : load config request firmware = ⟨.error (.failed fault), []⟩ := by
    unfold load
    rw [h]
    rfl
  rw [run, advance_bind_of_error (by rw [hload]), hload]

end

end Attempt

namespace Session

def after (s : Session) : List (Request × Firmware) → Session
  | [] => s
  | (request, firmware) :: later => ((s.attempt request firmware).2).after later

theorem config_after (s : Session) (earlier : List (Request × Firmware)) :
    (s.after earlier).config = s.config := by
  induction earlier generalizing s with
  | nil => rfl
  | cons first earlier ih =>
    obtain ⟨request, firmware⟩ := first
    exact ih (s.attempt request firmware).2

theorem attempt_congr {s t : Session} (h : s.config = t.config) (request : Request)
    (firmware : Firmware) : s.attempt request firmware = t.attempt request firmware := by
  obtain ⟨config, history⟩ := s
  cases h
  rfl

end Session

namespace Attempt

theorem attempt_shape (s : Session) (request : Request) (firmware : Firmware) :
    let x := (s.attempt request firmware).1
    let t := (s.attempt request firmware).2
    (∃ done last, done ++ [last] <+: State.pipeline ∧
      x.history = done ++ [last, x.decision.state] ∧
      ((∃ handoff, x.decision = .proceed handoff) ∧ done ++ [last] = State.pipeline ∨
        (∃ cause, x.decision = .abort ⟨last, cause⟩) ∧ done ++ [last] ≠ State.pipeline) ∧
      ∃ part, part <+: last.asks s.config firmware ∧
        x.calls.map Call.service = done.flatMap (State.asks s.config firmware) ++ part) ∧
    x.calls.map Call.service <+: callOrder s.config firmware ∧
    (∀ service, (x.calls.map Call.service).count service ≤ if service = .write then 3 else 1) ∧
    (x.writes = [] ∨ ∃ (p : Reached.CommandLineBuilt s.config request firmware)
      (r : Reached.Placement p), x.writes <+: [(p.plan.kernelAddr, p.extracted.kernel.bytes),
        (p.plan.ramdiskAddr, r.ramdisk), (p.plan.deviceTreeAddr, r.patched)]) ∧
    (∀ front call back cause, x.calls = front ++ call :: back →
      firmware.refusal? (writesOf front).length call = some cause →
      back = [] ∧ ∃ last, x.decision = .abort ⟨last, cause⟩) ∧
    (∀ fault, s.config.validate = .error fault →
      x.calls = [] ∧ x.decision = .abort ⟨.start, .failed fault⟩) ∧
    t.config = s.config ∧ t.history = x.history ∧ t.state = x.decision.state ∧
    ∀ (history : List State) (earlier : List (Request × Firmware)),
      ((Session.mk s.config history).after earlier).attempt request firmware =
        s.attempt request firmware := by
  intro x t
  have hcourse : Course s.config request firmware (run s.config request firmware) := run_course
  -- `done` and `last` carry the whole shape; the rest is read off them or off the course
  obtain ⟨done, last, hshape⟩ := hcourse.shape
  have hcalls : x.calls = callsOf (run s.config request firmware).trace := finish_calls _
  have hhistory : x.history = done ++ [last, x.decision.state] := by
    have hfinish := finish_history (run s.config request firmware)
    rw [← List.cons_append, hshape.states, List.append_assoc] at hfinish
    exact hfinish
  refine ⟨⟨done, last, hshape.reached, hhistory, hshape.decision, ?_⟩, ?_, ?_, ?_, ?_, ?_, rfl,
    rfl, ?_, ?_⟩
  · rw [hcalls]
    exact hshape.calls
  · rw [hcalls]
    exact hshape.callOrder_prefix
  · intro service
    rw [hcalls]
    exact Nat.le_trans (hshape.callOrder_prefix.sublist.count_le service) (count_callOrder service)
  · rw [show x.writes = _ from finish_writes _]
    exact hcourse.writes
  · intro front call back cause hsplit hrefused
    rw [hcalls] at hsplit
    obtain ⟨hback, ⟨last, _⟩, hout, rfl⟩ := run_heeds front call back cause hsplit
      ((Nat.zero_add _).symm ▸ hrefused)
    exact ⟨hback, last, finish_eq_abort.mpr hout⟩
  · intro fault hinvalid
    have hrun : run s.config request firmware = _ := run_of_invalid hinvalid
    rw [hcalls, hrun]
    exact ⟨rfl, finish_eq_abort.mpr (by rw [hrun])⟩
  · show (x.history.getLast?).getD .start = x.decision.state
    rw [hhistory, List.getLast?_append]
    rfl
  · intro history earlier
    apply Session.attempt_congr
    exact Session.config_after _ earlier

end Attempt

end BootAssembly
