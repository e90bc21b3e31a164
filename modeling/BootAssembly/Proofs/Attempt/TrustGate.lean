import BootAssembly.Proofs.Attempt.Writes
import BootAssembly.Proofs.CommandLine.Assembly

namespace BootAssembly.Attempt

variable {config : Config} {request : Request} {firmware : Firmware}

def GateOpen (firmware : Firmware) (name : String) (image : Bytes) : Prop :=
  ∃ v, firmware.verify name image = .ok v ∧ v.state ≠ .red ∧ v.continueAllowed = true

def Call.Late : Call → Prop
  | load _ => False
  | verify _ _ => False
  | _ => True

def Call.load? : Call → Option String
  | load name => some name
  | _ => none

def Call.verify? : Call → Option (String × Bytes)
  | verify name image => some (name, image)
  | _ => none

def Finished.loads (x : Finished) : List String := x.calls.filterMap Call.load?

def Finished.verifications (x : Finished) : List (String × Bytes) :=
  x.calls.filterMap Call.verify?

theorem ofVerdict_eq_proceed {verdict : Except Fault Verdict} {state : TrustState}
    {fragment : String} :
    TrustDecision.ofVerdict verdict = .proceed state fragment ↔
      ∃ v, verdict = .ok v ∧ v.state ≠ .red ∧ v.continueAllowed = true ∧ v.state = state ∧
        v.fragment = fragment := by
  unfold TrustDecision.ofVerdict
  constructor
  · intro h
    split at h
    · cases h
    · rename_i v
      split at h
      · cases h
      · rename_i hred
        split at h
        · rename_i hallowed
          cases h
          exact ⟨v, rfl, hred, hallowed, rfl, rfl⟩
        · cases h
  · rintro ⟨v, rfl, hred, hallowed, rfl, rfl⟩
    simp only [if_neg hred, if_pos hallowed]

def Impartial {α : Type} (x : Step α) : Prop :=
  ∀ state reason, x.outcome ≠ .error (.untrusted state reason)

theorem Impartial.bind {α β : Type} {x : Step α} {f : α → Step β} (hx : Impartial x)
    (hf : ∀ a, Impartial (f a)) : Impartial (x >>= f) := by
  intro state reason h
  rw [Traced.outcome_bind] at h
  cases hx' : x.outcome with
  | error cause =>
    rw [hx'] at h
    cases h
    exact hx state reason hx'
  | ok a =>
    rw [hx'] at h
    exact hf a state reason h

theorem Impartial.ofReport {α : Type} (x : Report α) : Impartial (Step.ofReport x) := by
  intro state reason h
  obtain ⟨fault, -, hcause⟩ := outcome_ofReport_eq_error.mp h
  cases hcause

theorem Impartial.ask {α : Type} (call : Call) (answer : Report α) :
    Impartial (Step.ask call answer) :=
  Impartial.ofReport answer

section

variable (hverified : config.has .verifiedBoot = true) {image : Bytes}

include hverified

theorem passGate_eq :
    passGate config request firmware image =
      ⟨match TrustDecision.ofVerdict (firmware.verify (partition config request) image) with
        | .proceed state fragment => .ok (some ⟨state, fragment⟩)
        | .refuse state reason => .error (.untrusted state reason),
        [.called (.verify (partition config request) image),
          .noted (TrustDecision.note (firmware.verify (partition config request) image)
            request.metadata.unlocked)]⟩ := by
  unfold passGate
  rw [if_pos hverified]
  cases h : TrustDecision.ofVerdict (firmware.verify (partition config request) image) with
  | proceed state fragment =>
    simp only [h]
    rfl
  | refuse state reason =>
    simp only [h]
    rfl

theorem passGate_eq_ok {trust : Option Trust}
    (h : (passGate config request firmware image).outcome = .ok trust) :
    ∃ v, firmware.verify (partition config request) image = .ok v ∧ v.state ≠ .red ∧
      v.continueAllowed = true ∧ trust = some ⟨v.state, v.fragment⟩ := by
  rw [passGate_eq hverified] at h
  dsimp only at h
  split at h
  · rename_i state fragment hdecision
    cases h
    obtain ⟨v, hv, hred, hallowed, rfl, rfl⟩ := ofVerdict_eq_proceed.mp hdecision
    exact ⟨v, hv, hred, hallowed, rfl⟩
  · cases h

theorem passGate_eq_error {cause : Cause}
    (h : (passGate config request firmware image).outcome = .error cause) :
    ∃ state reason, cause = .untrusted state reason := by
  rw [passGate_eq hverified] at h
  dsimp only at h
  split at h
  · cases h
  · rename_i state reason _
    cases h
    exact ⟨state, reason, rfl⟩

theorem passGate_of_open (h : GateOpen firmware (partition config request) image) :
    ∃ trust, (passGate config request firmware image).outcome = .ok trust := by
  obtain ⟨v, hv, hred, hallowed⟩ := h
  have hdecision := ofVerdict_eq_proceed.mpr ⟨v, hv, hred, hallowed, rfl, rfl⟩
  rw [passGate_eq hverified, hdecision]
  exact ⟨_, rfl⟩

theorem callsOf_passGate :
    callsOf (passGate config request firmware image).trace =
      [.verify (partition config request) image] := by
  rw [passGate_eq hverified]
  rfl

theorem extract_of_shut {loaded : Loaded}
    (h : ¬ GateOpen firmware (partition config request) loaded.image) :
    callsOf (extract config request firmware loaded).trace =
        [.verify (partition config request) loaded.image] ∧
      ∃ state reason, (extract config request firmware loaded).outcome =
        .error (.untrusted state reason) := by
  cases hgate : (passGate config request firmware loaded.image).outcome with
  | ok trust =>
    obtain ⟨v, hv, hred, hallowed, -⟩ := passGate_eq_ok hverified hgate
    exact absurd ⟨v, hv, hred, hallowed⟩ h
  | error cause =>
    obtain ⟨state, reason, rfl⟩ := passGate_eq_error hverified hgate
    unfold extract
    constructor
    · rw [Traced.trace_bind, hgate]
      dsimp only
      rw [List.append_nil, callsOf_passGate hverified]
    · rw [Traced.outcome_bind, hgate]
      exact ⟨state, reason, rfl⟩

theorem extract_impartial {loaded : Loaded}
    (h : GateOpen firmware (partition config request) loaded.image) :
    Impartial (extract config request firmware loaded) := by
  obtain ⟨trust, hgate⟩ := passGate_of_open hverified h
  intro state reason hextract
  unfold extract at hextract
  rw [Traced.outcome_bind, hgate] at hextract
  apply Impartial.bind (Impartial.ask .identity _) _ state reason hextract
  intro board
  apply Impartial.bind (Impartial.ask .ramBase _)
  intro base
  apply Impartial.bind (Impartial.ofReport _)
  intro windows
  apply Impartial.bind (Impartial.ofReport _)
  intro kernel state reason hpure
  cases hpure

theorem callsOf_extract (loaded : Loaded) :
    ∃ late, callsOf (extract config request firmware loaded).trace =
        .verify (partition config request) loaded.image :: late ∧ late <+: [.identity, .ramBase] := by
  have horder := (@extract_asks config request firmware loaded).inOrder
  rw [gateCalls, if_pos hverified, List.singleton_append] at horder
  have hfirst : callsOf (passGate config request firmware loaded.image).trace <+:
      callsOf (extract config request firmware loaded).trace := callsOf_bind_prefix _ _
  rw [callsOf_passGate hverified] at hfirst
  rcases List.prefix_cons_iff.mp horder with hnil | hlate
  · rw [hnil] at hfirst
    cases List.prefix_nil.mp hfirst
  · exact hlate

end

def LateAfter (p : Reached.Extracted config request firmware) (events : List Event) : Prop :=
  ∃ more, events = p.events ++ more ∧ ∀ call ∈ callsOf more, call.Late

namespace LateAfter

variable {p : Reached.Extracted config request firmware} {events : List Event}

theorem refl : LateAfter p p.events :=
  ⟨[], (List.append_nil _).symm, fun _ hcall => absurd hcall List.not_mem_nil⟩

theorem stop {ε α : Type} {x : Traced Event ε α} {calls : List Call} (h : LateAfter p events)
    (hx : Asks x calls) (hc : ∀ call ∈ calls, call.Late) : LateAfter p (events ++ x.trace) := by
  obtain ⟨more, rfl, hmore⟩ := h
  refine ⟨more ++ x.trace, List.append_assoc _ _ _, ?_⟩
  intro call hcall
  rw [callsOf_append] at hcall
  rcases List.mem_append.mp hcall with hcall | hcall
  · exact hmore call hcall
  · exact hc call (hx.inOrder.subset hcall)

theorem advance {ε α : Type} {x : Traced Event ε α} {calls : List Call} (h : LateAfter p events)
    (hx : Asks x calls) (hc : ∀ call ∈ calls, call.Late) (current next : State) :
    LateAfter p (events ++ x.trace ++ transition current next) := by
  obtain ⟨more, hmore, hlate⟩ := h.stop hx hc
  refine ⟨more ++ transition current next, by rw [hmore, List.append_assoc], ?_⟩
  intro call hcall
  rw [callsOf_append, callsOf_transition, List.append_nil] at hcall
  exact hlate call hcall

end LateAfter

theorem late_overlayCalls : ∀ call ∈ overlayCalls config firmware, call.Late := by
  unfold overlayCalls
  split
  · simp only [List.mem_singleton, forall_eq]
    trivial
  · simp only [List.not_mem_nil, false_implies, implies_true]

theorem late_board : ∀ call ∈ [Call.identity, .ramBase], call.Late := by
  simp only [List.forall_mem_cons, List.not_mem_nil, false_implies, implies_true, and_true]
  exact ⟨trivial, trivial⟩

theorem late_nil : ∀ call ∈ ([] : List Call), call.Late := by
  simp only [List.not_mem_nil, false_implies, implies_true]

namespace Reached

theorem TreeResolved.late (p : TreeResolved config request firmware) :
    LateAfter p.toExtracted p.events :=
  LateAfter.refl.advance (resolveTree_asks p.loaded p.extracted) late_overlayCalls _ _

theorem LayoutPlanned.late (p : LayoutPlanned config request firmware) :
    LateAfter p.toExtracted p.events :=
  p.toTreeResolved.late.advance (Asks.ofReport _) late_nil _ _

theorem CommandLineBuilt.late (p : CommandLineBuilt config request firmware) :
    LateAfter p.toExtracted p.events :=
  p.toLayoutPlanned.late.advance (buildCommandLine_asks p.loaded p.extracted p.tree) late_nil _ _

theorem CommandLineBuilt.late_place (p : CommandLineBuilt config request firmware) :
    ∃ calls, (∀ call ∈ calls, call.Late) ∧
      Asks (place config request firmware p.loaded p.extracted.kernel p.tree.blob p.plan p.line)
        calls := by
  by_cases h : Nonempty (Placement p)
  · obtain ⟨r⟩ := h
    refine ⟨_, ?_, place_asks r p.extracted.kernel⟩
    simp only [Ready.calls, Ready.writes, List.map_cons, List.map_nil, List.cons_append,
      List.nil_append, List.forall_mem_cons, List.not_mem_nil, false_implies, implies_true,
      and_true]
    exact ⟨trivial, trivial, trivial, trivial, trivial⟩
  · obtain ⟨wanted, hasks⟩ := place_asks_of_unready h p.extracted.kernel
    refine ⟨_, ?_, hasks⟩
    simp only [List.forall_mem_cons, List.not_mem_nil, false_implies, implies_true, and_true]
    exact ⟨trivial, trivial⟩

theorem TreePatched.late (p : TreePatched config request firmware) :
    LateAfter p.toExtracted p.events := by
  obtain ⟨calls, hcalls, hasks⟩ := p.toCommandLineBuilt.late_place
  exact p.toCommandLineBuilt.late.advance hasks hcalls _ _

end Reached

structure Gated (config : Config) (request : Request) (firmware : Firmware) (image : Bytes)
    (x : Run Handoff) : Prop where
  validated : .validated ∈ statesOf x.trace
  calls : ∃ late, callsOf x.trace =
    .load (partition config request) :: .verify (partition config request) image :: late ∧
    (∀ call ∈ late, call.Late) ∧
    (late ≠ [] → GateOpen firmware (partition config request) image)
  extracted : .extracted ∈ statesOf x.trace →
    GateOpen firmware (partition config request) image
  untrusted : (∃ state reason, x.outcome = .error ⟨.validated, .untrusted state reason⟩) ↔
    ¬ GateOpen firmware (partition config request) image

section

variable (hverified : config.has .verifiedBoot = true)

include hverified

theorem Reached.Extracted.gateOpen (p : Reached.Extracted config request firmware) :
    GateOpen firmware (partition config request) p.loaded.image := by
  obtain ⟨hgate, -⟩ := extract_eq_ok p.extract_ok
  obtain ⟨v, hv, hred, hallowed, -⟩ := passGate_eq_ok hverified hgate
  exact ⟨v, hv, hred, hallowed⟩

theorem LateAfter.gated {p : Reached.Extracted config request firmware} {events : List Event}
    (h : LateAfter p events) {outcome : Except Abort Handoff}
    (hout : ∀ cause, outcome ≠ .error ⟨.validated, cause⟩) :
    Gated config request firmware p.loaded.image ⟨outcome, events⟩ := by
  obtain ⟨more, rfl, hmore⟩ := h
  have hopen := p.gateOpen hverified
  refine ⟨?_, ⟨[.identity, .ramBase] ++ callsOf more, ?_, ?_, fun _ => hopen⟩, fun _ => hopen, ?_⟩
  · rw [statesOf_append, p.statesOf_events]
    exact List.mem_cons_self
  · rw [callsOf_append, p.callsOf_events, gateCalls, if_pos hverified]
    rfl
  · intro call hcall
    rcases List.mem_append.mp hcall with hcall | hcall
    · exact late_board call hcall
    · exact hmore call hcall
  · constructor
    · rintro ⟨state, reason, houtcome⟩
      exact absurd houtcome (hout _)
    · intro hshut
      exact absurd hopen hshut

theorem gated_of_extract_failed {p : Reached.Validated config request firmware} {cause : Cause}
    (h : (extract config request firmware p.loaded).outcome = .error cause) :
    Gated config request firmware p.loaded.image
      ⟨.error ⟨.validated, cause⟩,
        p.events ++ (extract config request firmware p.loaded).trace⟩ := by
  obtain ⟨late, hlate, horder⟩ := callsOf_extract hverified p.loaded
  have hstates : statesOf (p.events ++ (extract config request firmware p.loaded).trace) =
      [.validated] := by
    rw [(extract_asks p.loaded).statesOf_stop, p.statesOf_events]
  constructor
  · rw [hstates]
    exact List.mem_cons_self
  · refine ⟨late, ?_, ?_, ?_⟩
    · rw [callsOf_append, p.callsOf_events, hlate]
      rfl
    · intro call hcall
      exact late_board call (horder.subset hcall)
    · intro hne
      apply Classical.byContradiction
      intro hshut
      obtain ⟨hcalls, -⟩ := extract_of_shut hverified hshut
      rw [hcalls] at hlate
      cases hlate
      exact hne rfl
  · intro hextracted
    rw [hstates] at hextracted
    cases List.mem_singleton.mp hextracted
  · constructor
    · rintro ⟨state, reason, houtcome⟩ hopen
      cases houtcome
      exact extract_impartial hverified hopen state reason h
    · intro hshut
      obtain ⟨-, state, reason, houtcome⟩ := extract_of_shut hverified hshut
      rw [houtcome] at h
      cases h
      exact ⟨state, reason, rfl⟩

theorem Course.gated {x : Run Handoff} (h : Course config request firmware x) :
    (∃ why, x = ⟨.error why, (Attempt.load config request firmware).trace⟩) ∨
      ∃ p : Reached.Validated config request firmware,
        Gated config request firmware p.loaded.image x := by
  cases h with
  | load h => exact .inl ⟨_, rfl⟩
  | extract p h => exact .inr ⟨p, gated_of_extract_failed hverified h⟩
  | resolve p h =>
    exact .inr ⟨p.toValidated, (LateAfter.refl.stop (resolveTree_asks p.loaded p.extracted)
      late_overlayCalls).gated hverified nofun⟩
  | plan p h =>
    exact .inr ⟨p.toValidated, (p.late.stop (Asks.ofReport _) late_nil).gated hverified nofun⟩
  | line p h =>
    exact .inr ⟨p.toValidated, (p.late.stop (buildCommandLine_asks p.loaded p.extracted p.tree)
      late_nil).gated hverified nofun⟩
  | place p h =>
    obtain ⟨calls, hcalls, hasks⟩ := p.late_place
    exact .inr ⟨p.toValidated, (p.late.stop hasks hcalls).gated hverified nofun⟩
  | complete p => exact .inr ⟨p.toValidated, p.late.gated hverified nofun⟩

end

theorem has_verified {plan : MemoryPlan} {trust : Option Trust} {tree : Resolved}
    (h : trust.isSome = true) :
    (Handoff.ofPlan plan (handoffFlags request trust tree)).has Handoff.verified = true := by
  simp only [Handoff.has, Handoff.ofPlan, handoffFlags, h, if_true]
  cases request.recovery <;> cases request.metadata.unlocked <;> cases plan.is32bit <;>
    cases tree.overlayIndex.isSome <;> decide

theorem commandLine_state {p : Reached.CommandLineBuilt config request firmware}
    {trust : Trust} (h : p.extracted.trust = some trust) :
    ∃ rest, p.line.buffer = p.loaded.header.commandLine ++
      (CommandLine.verifiedState ++ utf8 trust.state.text) ++ rest := by
  obtain ⟨root, -, hbuild⟩ := Traced.outcome_bind_eq_ok.mp p.line_ok
  have hline := CommandLine.build_eq_ok (outcome_ofReport_eq_ok.mp hbuild)
  have hclause : (fields config request p.extracted.trust p.tree.overlayIndex root).verifiedBoot =
      some (verifiedBoot config request.metadata trust) := by
    rw [fields, h]
    rfl
  have hstate : (verifiedBoot config request.metadata trust).state = trust.state := by
    unfold verifiedBoot
    split <;> rfl
  obtain ⟨rest, hrest⟩ := CommandLine.verified_clause hline hclause
  rw [hstate] at hrest
  exact ⟨rest, hrest⟩

theorem load?_of_late {call : Call} (h : call.Late) : call.load? = none := by
  cases call with
  | load name => exact absurd h id
  | _ => rfl

theorem verify?_of_late {call : Call} (h : call.Late) : call.verify? = none := by
  cases call with
  | verify name image => exact absurd h id
  | _ => rfl

theorem Gated.loads {image : Bytes} {x : Run Handoff}
    (h : Gated config request firmware image x) :
    (finish x).loads = [partition config request] := by
  obtain ⟨late, hcalls, hlate, -⟩ := h.calls
  have hnone : late.filterMap Call.load? = [] :=
    List.filterMap_eq_nil_iff.mpr fun call hcall => load?_of_late (hlate call hcall)
  rw [Finished.loads, finish_calls, hcalls]
  simp only [List.filterMap_cons, Call.load?, hnone]

theorem Gated.verifications {image : Bytes} {x : Run Handoff}
    (h : Gated config request firmware image x) :
    (finish x).verifications = [(partition config request, image)] := by
  obtain ⟨late, hcalls, hlate, -⟩ := h.calls
  have hnone : late.filterMap Call.verify? = [] :=
    List.filterMap_eq_nil_iff.mpr fun call hcall => verify?_of_late (hlate call hcall)
  rw [Finished.verifications, finish_calls, hcalls]
  simp only [List.filterMap_cons, Call.verify?, hnone]

theorem Gated.gateOpen_of_late {image : Bytes} {x : Run Handoff}
    (h : Gated config request firmware image x) (hx : ∃ call ∈ (finish x).calls, call.Late) :
    GateOpen firmware (partition config request) image := by
  obtain ⟨call, hcall, hl⟩ := hx
  obtain ⟨late, hcalls, -, hopen⟩ := h.calls
  rw [finish_calls, hcalls] at hcall
  apply hopen
  rintro rfl
  simp only [List.mem_cons, List.not_mem_nil, or_false] at hcall
  rcases hcall with rfl | rfl <;> exact hl

theorem finish_unloaded (why : Abort) :
    let x := finish ⟨.error why, (load config request firmware).trace⟩
    .validated ∉ x.history ∧ x.verifications = [] ∧ .extracted ∉ x.history ∧
      (∀ call ∈ x.calls, ¬ call.Late) ∧ ∀ handoff, x.decision ≠ .proceed handoff := by
  have hcalls : ∀ call ∈ callsOf (load config request firmware).trace,
      call = .load (partition config request) := by
    intro call hcall
    exact List.mem_singleton.mp (load_asks.inOrder.subset hcall)
  refine ⟨?_, ?_, ?_, ?_, ?_⟩
  · rw [mem_history (by decide) rfl, load_asks.still]
    exact List.not_mem_nil
  · rw [Finished.verifications, finish_calls]
    apply List.filterMap_eq_nil_iff.mpr
    intro call hcall
    rw [hcalls call hcall]
    rfl
  · rw [mem_history (by decide) rfl, load_asks.still]
    exact List.not_mem_nil
  · intro call hcall
    rw [finish_calls] at hcall
    rw [hcalls call hcall]
    exact id
  · intro handoff h
    cases h

theorem Reached.Validated.image_eq (p q : Reached.Validated config request firmware) :
    p.loaded.image = q.loaded.image := by
  obtain ⟨-, hp, -⟩ := load_eq_ok p.load_ok
  obtain ⟨-, hq, -⟩ := load_eq_ok q.load_ok
  exact Except.ok.inj (hp.symm.trans hq)

theorem attempt_trust_gate (s : Session) (request : Request) (firmware : Firmware)
    (hverified : s.config.has .verifiedBoot = true) :
    let x := (s.attempt request firmware).1
    let name := partition s.config request
    (.validated ∉ x.history → x.verifications = [] ∧ .extracted ∉ x.history ∧
      (∀ call ∈ x.calls, ¬ call.Late) ∧ ∀ handoff, x.decision ≠ .proceed handoff) ∧
    (.validated ∈ x.history → ∃ image, firmware.load name = .ok image ∧
      x.loads = [name] ∧ x.verifications = [(name, image)] ∧
      ((∃ call ∈ x.calls, call.Late) ∨ .extracted ∈ x.history → GateOpen firmware name image) ∧
      ((∃ state reason, x.decision = .abort ⟨.validated, .untrusted state reason⟩) ↔
        ¬ GateOpen firmware name image) ∧
      (.extracted ∈ x.history → ∃ p : Reached.Extracted s.config request firmware,
        (Kernel.extract image p.loaded.layout p.extracted.windows).outcome = .ok p.extracted.kernel) ∧
      (x.writes ≠ [] → ∃ (p : Reached.CommandLineBuilt s.config request firmware)
        (r : Reached.Placement p), x.writes <+: r.writes p.extracted.kernel ∧
        (Kernel.extract image p.loaded.layout p.extracted.windows).outcome = .ok p.extracted.kernel ∧
        BootImage.Layout.payload p.loaded.layout.ramdisk image = .ok r.ramdisk) ∧
      ∀ handoff, x.decision = .proceed handoff → handoff.has Handoff.verified = true ∧
        ∃ (p : Reached.CommandLineBuilt s.config request firmware) (r : Reached.Placement p)
          (v : Verdict) (rest : Bytes),
          firmware.verify name image = .ok v ∧ v.state ≠ .red ∧
          .patch p.tree.blob (patchRequest s.config request p.line p.plan r.ram) ∈ x.calls ∧
          p.line.buffer = p.loaded.header.commandLine ++
            (CommandLine.verifiedState ++ utf8 v.state.text) ++ rest) := by
  intro x name
  have hcourse : Course s.config request firmware (run s.config request firmware) := run_course
  have hx : x = finish (run s.config request firmware) := rfl
  rw [hx]
  generalize run s.config request firmware = y at hcourse
  rcases hcourse.gated hverified with ⟨why, rfl⟩ | ⟨p, hgated⟩
  · obtain ⟨hvalidated, hrest⟩ :=
      @finish_unloaded s.config request firmware why
    exact ⟨fun _ => hrest, fun h => absurd h hvalidated⟩
  · have hvalidated : .validated ∈ (finish y).history :=
      (mem_history (by decide) rfl).mpr hgated.validated
    obtain ⟨-, hload, -⟩ := load_eq_ok p.load_ok
    refine ⟨fun h => absurd hvalidated h, fun _ => ⟨p.loaded.image, hload, hgated.loads,
      hgated.verifications, ?_, ?_, ?_, ?_, ?_⟩⟩
    · rintro (hlate | hextracted)
      · exact hgated.gateOpen_of_late hlate
      · exact hgated.extracted ((mem_history (by decide) rfl).mp hextracted)
    · simp only [finish_eq_abort]
      exact hgated.untrusted
    · intro hextracted
      obtain ⟨q⟩ := hcourse.extracted_of_mem ((mem_history (by decide) rfl).mp hextracted)
      obtain ⟨-, -, -, -, hkernel⟩ := extract_eq_ok q.extract_ok
      rw [q.toValidated.image_eq p] at hkernel
      exact ⟨q, hkernel⟩
    · intro hwrites
      rw [finish_writes] at hwrites ⊢
      rcases hcourse.writes with hnone | ⟨q, r, hprefix⟩
      · exact absurd hnone hwrites
      · obtain ⟨-, -, -, -, hkernel⟩ := extract_eq_ok q.extract_ok
        have hramdisk := r.ramdisk_ok
        rw [q.toValidated.image_eq p] at hkernel hramdisk
        exact ⟨q, r, hprefix, hkernel, hramdisk⟩
    · intro handoff hproceed
      obtain ⟨q, rfl, rfl⟩ := hcourse.eq_of_ok (finish_eq_proceed.mp hproceed)
      obtain ⟨r⟩ := q.ready
      obtain ⟨hgate, -⟩ := extract_eq_ok q.extract_ok
      obtain ⟨v, hv, hred, -, htrust⟩ := passGate_eq_ok hverified hgate
      obtain ⟨rest, hline⟩ := commandLine_state htrust
      rw [q.toValidated.image_eq p] at hv
      refine ⟨has_verified (by rw [htrust]; rfl), q.toCommandLineBuilt, r, v, rest, hv, hred, ?_,
        hline⟩
      rw [finish_calls, q.callsOf_events r]
      apply List.mem_append_right
      exact List.mem_cons_of_mem _ List.mem_cons_self

def smallImage : Bytes :=
  BootImage.magic ++ littleEndian 8 1 ++ littleEndian 20 1 ++ littleEndian 4 608 ++
    List.replicate 1784 0

def failingVerifier : Firmware where
  load _ := .ok smallImage
  verify _ _ := .error (.collaborator "verifier")
  identity := .error (.collaborator "identity")
  ramBase := .ok 0x80000000
  ramRegions := .ok []
  overlays := none
  patch _ _ := Traced.fail (.collaborator "patcher")
  write _ _ _ := .ok ()

theorem attempt_trust_gate_unlocked : ∃ state reason,
    ((Session.mk {} []).attempt { metadata := { unlocked := true } } failingVerifier).1.decision =
      .abort ⟨.validated, .untrusted state reason⟩ := by
  have hgate := (attempt_trust_gate ⟨{}, []⟩ { metadata := { unlocked := true } } failingVerifier
    (by decide)).2 (by decide +kernel)
  obtain ⟨image, -, -, -, -, huntrusted, -⟩ := hgate
  apply huntrusted.mpr
  rintro ⟨v, hv, -⟩
  cases hv

end BootAssembly.Attempt
