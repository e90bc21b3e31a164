import BootAssembly.Proofs.Attempt.Calls

namespace BootAssembly.Attempt

theorem callsOf_transition (current next : State) : callsOf (transition current next) = [] := rfl

theorem statesOf_transition (current next : State) :
    statesOf (transition current next) = [next] := rfl

section

variable {α β : Type} {current next : State} {work : Step α}

theorem advance_bind_of_error {cause : Cause} (h : work.outcome = .error cause) (f : α → Run β) :
    advance current next work >>= f = ⟨.error ⟨current, cause⟩, work.trace⟩ := by
  obtain ⟨outcome, trace⟩ := work
  cases h
  rfl

theorem advance_bind_of_ok {a : α} (h : work.outcome = .ok a) (f : α → Run β) :
    advance current next work >>= f =
      ⟨(f a).outcome, work.trace ++ transition current next ++ (f a).trace⟩ := by
  obtain ⟨outcome, trace⟩ := work
  cases h
  rfl

end

section

variable {ε α : Type} {x : Traced Event ε α} {calls : List Call}

theorem Asks.callsOf_advance (h : Asks x calls) {a : α} (ha : x.outcome = .ok a)
    (before : List Event) (current next : State) :
    callsOf (before ++ x.trace ++ transition current next) = callsOf before ++ calls := by
  rw [callsOf_append, callsOf_append, callsOf_transition, List.append_nil, h.all a ha]

theorem Asks.statesOf_advance (h : Asks x calls) (before : List Event) (current next : State) :
    statesOf (before ++ x.trace ++ transition current next) = statesOf before ++ [next] := by
  rw [statesOf_append, statesOf_append, statesOf_transition, h.still, List.append_nil]

theorem Asks.statesOf_stop (h : Asks x calls) (before : List Event) :
    statesOf (before ++ x.trace) = statesOf before := by
  rw [statesOf_append, h.still, List.append_nil]

end

namespace Reached

variable (config : Config) (request : Request) (firmware : Firmware)

structure Validated where
  loaded : Loaded
  load_ok : (load config request firmware).outcome = .ok loaded

structure Extracted extends Validated config request firmware where
  extracted : Attempt.Extracted
  extract_ok : (extract config request firmware loaded).outcome = .ok extracted

structure TreeResolved extends Extracted config request firmware where
  tree : Resolved
  resolve_ok : (resolveTree config firmware loaded extracted).outcome = .ok tree

structure LayoutPlanned extends TreeResolved config request firmware where
  plan : MemoryPlan
  plan_ok : (MemoryPlan.make loaded.layout extracted.kernel extracted.base
    config.addresses).outcome = .ok plan

structure CommandLineBuilt extends LayoutPlanned config request firmware where
  line : CommandLine
  line_ok : (buildCommandLine config request loaded extracted tree).outcome = .ok line

structure TreePatched extends CommandLineBuilt config request firmware where
  place_ok : (place config request firmware loaded extracted.kernel tree.blob plan line).outcome =
    .ok ()

variable {config request firmware}

def Validated.events (_ : Validated config request firmware) : List Event :=
  (load config request firmware).trace ++ transition .start .validated

def Extracted.events (p : Extracted config request firmware) : List Event :=
  p.toValidated.events ++ (extract config request firmware p.loaded).trace ++
    transition .validated .extracted

def TreeResolved.events (p : TreeResolved config request firmware) : List Event :=
  p.toExtracted.events ++ (resolveTree config firmware p.loaded p.extracted).trace ++
    transition .extracted .treeResolved

def LayoutPlanned.events (p : LayoutPlanned config request firmware) : List Event :=
  p.toTreeResolved.events ++
    (Step.ofReport (MemoryPlan.make p.loaded.layout p.extracted.kernel p.extracted.base
      config.addresses)).trace ++
    transition .treeResolved .layoutPlanned

def CommandLineBuilt.events (p : CommandLineBuilt config request firmware) : List Event :=
  p.toLayoutPlanned.events ++ (buildCommandLine config request p.loaded p.extracted p.tree).trace ++
    transition .layoutPlanned .commandLineBuilt

def TreePatched.events (p : TreePatched config request firmware) : List Event :=
  p.toCommandLineBuilt.events ++
    (place config request firmware p.loaded p.extracted.kernel p.tree.blob p.plan p.line).trace ++
    transition .commandLineBuilt .treePatched

def TreePatched.handoff (p : TreePatched config request firmware) : Handoff :=
  Handoff.ofPlan p.plan (handoffFlags request p.extracted.trust p.tree)

end Reached

namespace Reached

variable {config : Config} {request : Request} {firmware : Firmware}

theorem Validated.callsOf_events (p : Validated config request firmware) :
    callsOf p.events = [.load (partition config request)] :=
  load_asks.callsOf_advance p.load_ok [] .start .validated

theorem Validated.statesOf_events (p : Validated config request firmware) :
    statesOf p.events = [.validated] :=
  load_asks.statesOf_advance [] .start .validated

theorem Extracted.callsOf_events (p : Extracted config request firmware) :
    callsOf p.events = [.load (partition config request)] ++
      (gateCalls config request p.loaded.image ++ [.identity, .ramBase]) := by
  rw [events, (extract_asks p.loaded).callsOf_advance p.extract_ok, p.toValidated.callsOf_events]

theorem Extracted.statesOf_events (p : Extracted config request firmware) :
    statesOf p.events = [.validated, .extracted] := by
  rw [events, (extract_asks p.loaded).statesOf_advance, p.toValidated.statesOf_events]
  rfl

theorem TreeResolved.callsOf_events (p : TreeResolved config request firmware) :
    callsOf p.events = callsOf p.toExtracted.events ++ overlayCalls config firmware := by
  rw [events, (resolveTree_asks p.loaded p.extracted).callsOf_advance p.resolve_ok]

theorem TreeResolved.statesOf_events (p : TreeResolved config request firmware) :
    statesOf p.events = [.validated, .extracted, .treeResolved] := by
  rw [events, (resolveTree_asks p.loaded p.extracted).statesOf_advance, p.toExtracted.statesOf_events]
  rfl

theorem LayoutPlanned.callsOf_events (p : LayoutPlanned config request firmware) :
    callsOf p.events = callsOf p.toTreeResolved.events := by
  rw [events, (Asks.ofReport _).callsOf_advance (outcome_ofReport_eq_ok.mpr p.plan_ok),
    List.append_nil]

theorem LayoutPlanned.statesOf_events (p : LayoutPlanned config request firmware) :
    statesOf p.events = [.validated, .extracted, .treeResolved, .layoutPlanned] := by
  rw [events, (Asks.ofReport _).statesOf_advance, p.toTreeResolved.statesOf_events]
  rfl

theorem CommandLineBuilt.callsOf_events (p : CommandLineBuilt config request firmware) :
    callsOf p.events = callsOf p.toTreeResolved.events := by
  rw [events, (buildCommandLine_asks p.loaded p.extracted p.tree).callsOf_advance p.line_ok,
    List.append_nil, p.toLayoutPlanned.callsOf_events]

theorem CommandLineBuilt.statesOf_events (p : CommandLineBuilt config request firmware) :
    statesOf p.events =
      [.validated, .extracted, .treeResolved, .layoutPlanned, .commandLineBuilt] := by
  rw [events, (buildCommandLine_asks p.loaded p.extracted p.tree).statesOf_advance,
    p.toLayoutPlanned.statesOf_events]
  rfl

abbrev Placement (p : CommandLineBuilt config request firmware) : Type :=
  Ready config request firmware p.loaded p.tree.blob p.plan p.line

theorem TreePatched.ready (p : TreePatched config request firmware) :
    Nonempty (Placement p.toCommandLineBuilt) :=
  ready_of_place_ok p.place_ok

theorem TreePatched.callsOf_events (p : TreePatched config request firmware)
    (r : Placement p.toCommandLineBuilt) :
    callsOf p.events = callsOf p.toTreeResolved.events ++ r.calls p.extracted.kernel := by
  rw [events, (place_asks r p.extracted.kernel).callsOf_advance p.place_ok,
    p.toCommandLineBuilt.callsOf_events]

theorem TreePatched.statesOf_events (p : TreePatched config request firmware) :
    statesOf p.events = [.validated, .extracted, .treeResolved, .layoutPlanned, .commandLineBuilt,
      .treePatched] := by
  obtain ⟨r⟩ := p.ready
  rw [events, (place_asks r p.extracted.kernel).statesOf_advance, p.toCommandLineBuilt.statesOf_events]
  rfl

end Reached

inductive Course (config : Config) (request : Request) (firmware : Firmware) : Run Handoff → Prop
  | load {cause : Cause} (h : (load config request firmware).outcome = .error cause) :
      Course config request firmware
        ⟨.error ⟨.start, cause⟩, (load config request firmware).trace⟩
  | extract (p : Reached.Validated config request firmware) {cause : Cause}
      (h : (extract config request firmware p.loaded).outcome = .error cause) :
      Course config request firmware
        ⟨.error ⟨.validated, cause⟩,
          p.events ++ (extract config request firmware p.loaded).trace⟩
  | resolve (p : Reached.Extracted config request firmware) {cause : Cause}
      (h : (resolveTree config firmware p.loaded p.extracted).outcome = .error cause) :
      Course config request firmware
        ⟨.error ⟨.extracted, cause⟩,
          p.events ++ (resolveTree config firmware p.loaded p.extracted).trace⟩
  | plan (p : Reached.TreeResolved config request firmware) {fault : Fault}
      (h : (MemoryPlan.make p.loaded.layout p.extracted.kernel p.extracted.base
        config.addresses).outcome =
        .error fault) :
      Course config request firmware
        ⟨.error ⟨.treeResolved, .failed fault⟩, p.events ++ (Step.ofReport
          (MemoryPlan.make p.loaded.layout p.extracted.kernel p.extracted.base
            config.addresses)).trace⟩
  | line (p : Reached.LayoutPlanned config request firmware) {cause : Cause}
      (h : (buildCommandLine config request p.loaded p.extracted p.tree).outcome = .error cause) :
      Course config request firmware
        ⟨.error ⟨.layoutPlanned, cause⟩,
          p.events ++ (buildCommandLine config request p.loaded p.extracted p.tree).trace⟩
  | place (p : Reached.CommandLineBuilt config request firmware) {cause : Cause}
      (h : (place config request firmware p.loaded p.extracted.kernel p.tree.blob p.plan
        p.line).outcome =
        .error cause) :
      Course config request firmware
        ⟨.error ⟨.commandLineBuilt, cause⟩, p.events ++
          (place config request firmware p.loaded p.extracted.kernel p.tree.blob p.plan
            p.line).trace⟩
  | complete (p : Reached.TreePatched config request firmware) :
      Course config request firmware ⟨.ok p.handoff, p.events⟩

variable {config : Config} {request : Request} {firmware : Firmware}

theorem run_course : Course config request firmware (run config request firmware) := by
  unfold run
  cases hload : (load config request firmware).outcome with
  | error cause =>
    rw [advance_bind_of_error hload]
    exact .load hload
  | ok loaded =>
    rw [advance_bind_of_ok hload]
    cases hextract : (extract config request firmware loaded).outcome with
    | error cause =>
      rw [advance_bind_of_error hextract]
      exact .extract ⟨loaded, hload⟩ hextract
    | ok x =>
      rw [advance_bind_of_ok hextract]
      cases hresolve : (resolveTree config firmware loaded x).outcome with
      | error cause =>
        rw [advance_bind_of_error hresolve]
        simp only [← List.append_assoc]
        exact .resolve ⟨⟨loaded, hload⟩, x, hextract⟩ hresolve
      | ok tree =>
        rw [advance_bind_of_ok hresolve]
        cases hplan : (MemoryPlan.make loaded.layout x.kernel x.base config.addresses).outcome with
        | error fault =>
          rw [advance_bind_of_error (outcome_ofReport_eq_error.mpr ⟨fault, hplan, rfl⟩)]
          simp only [← List.append_assoc]
          exact .plan ⟨⟨⟨loaded, hload⟩, x, hextract⟩, tree, hresolve⟩ hplan
        | ok plan =>
          rw [advance_bind_of_ok (outcome_ofReport_eq_ok.mpr hplan)]
          cases hline : (buildCommandLine config request loaded x tree).outcome with
          | error cause =>
            rw [advance_bind_of_error hline]
            simp only [← List.append_assoc]
            exact .line ⟨⟨⟨⟨loaded, hload⟩, x, hextract⟩, tree, hresolve⟩, plan, hplan⟩ hline
          | ok line =>
            rw [advance_bind_of_ok hline]
            let p : Reached.CommandLineBuilt config request firmware :=
              ⟨⟨⟨⟨⟨loaded, hload⟩, x, hextract⟩, tree, hresolve⟩, plan, hplan⟩, line, hline⟩
            cases hplace :
              (place config request firmware loaded x.kernel tree.blob plan line).outcome with
            | error cause =>
              rw [advance_bind_of_error hplace]
              simp only [← List.append_assoc]
              exact .place p hplace
            | ok _ =>
              rw [advance_bind_of_ok hplace]
              simp only [← List.append_assoc, Traced.trace_pure, List.append_nil]
              exact .complete ⟨p, hplace⟩

theorem Reached.TreePatched.run_eq (p : Reached.TreePatched config request firmware) :
    run config request firmware = ⟨.ok p.handoff, p.events⟩ := by
  unfold run
  rw [advance_bind_of_ok p.load_ok, advance_bind_of_ok p.extract_ok,
    advance_bind_of_ok p.resolve_ok, advance_bind_of_ok (outcome_ofReport_eq_ok.mpr p.plan_ok),
    advance_bind_of_ok p.line_ok, advance_bind_of_ok p.place_ok]
  simp only [← List.append_assoc, Traced.trace_pure, List.append_nil]
  rfl

theorem finish_calls (x : Run Handoff) : (finish x).calls = callsOf x.trace := by
  unfold finish Finished.calls
  cases x.outcome with
  | ok handoff =>
    rw [List.filterMap_append]
    exact List.append_nil _
  | error why =>
    rw [List.filterMap_append]
    exact List.append_nil _

theorem finish_history (x : Run Handoff) :
    (finish x).history = .start :: (statesOf x.trace ++ [(finish x).decision.state]) := by
  unfold finish Finished.history
  cases x.outcome with
  | ok handoff =>
    rw [List.filterMap_append]
    rfl
  | error why =>
    rw [List.filterMap_append]
    rfl

theorem finish_eq_abort {x : Run Handoff} {why : Abort} :
    (finish x).decision = .abort why ↔ x.outcome = .error why := by
  unfold finish
  cases x.outcome with
  | ok handoff => simp only [reduceCtorEq]
  | error other => simp only [Decision.abort.injEq, Except.error.injEq]

theorem finish_eq_proceed {x : Run Handoff} {handoff : Handoff} :
    (finish x).decision = .proceed handoff ↔ x.outcome = .ok handoff := by
  unfold finish
  cases x.outcome with
  | ok other => simp only [Decision.proceed.injEq, Except.ok.injEq]
  | error why => simp only [reduceCtorEq]

theorem mem_history {x : Run Handoff} {state : State} (hstart : state ≠ .start)
    (hend : state.isTerminal = false) :
    state ∈ (finish x).history ↔ state ∈ statesOf x.trace := by
  have hlast : state ≠ (finish x).decision.state := by
    rintro rfl
    cases h : (finish x).decision <;> rw [h] at hend <;> cases hend
  rw [finish_history, List.mem_cons, List.mem_append, List.mem_singleton]
  simp only [hstart, hlast, false_or, or_false]

theorem Course.extracted_of_mem {x : Run Handoff} (h : Course config request firmware x)
    (hx : .extracted ∈ statesOf x.trace) : Nonempty (Reached.Extracted config request firmware) := by
  cases h with
  | load h =>
    rw [load_asks.still] at hx
    cases hx
  | extract p h =>
    rw [(extract_asks p.loaded).statesOf_stop, p.statesOf_events] at hx
    cases List.mem_singleton.mp hx
  | resolve p h => exact ⟨p⟩
  | plan p h => exact ⟨p.toExtracted⟩
  | line p h => exact ⟨p.toExtracted⟩
  | place p h => exact ⟨p.toExtracted⟩
  | complete p => exact ⟨p.toExtracted⟩

theorem Course.eq_of_ok {x : Run Handoff} (h : Course config request firmware x)
    {handoff : Handoff} (hx : x.outcome = .ok handoff) :
    ∃ p : Reached.TreePatched config request firmware, x = ⟨.ok p.handoff, p.events⟩ ∧
      p.handoff = handoff := by
  cases h with
  | complete p =>
    cases hx
    exact ⟨p, rfl, rfl⟩
  | _ => cases hx

end BootAssembly.Attempt
