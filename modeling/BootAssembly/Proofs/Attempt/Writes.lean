import BootAssembly.Proofs.Attempt.Course
import BootAssembly.Proofs.Memory.Placement
import BootAssembly.Session

namespace BootAssembly.Attempt

def Call.write? : Call → Option (UInt64 × Bytes)
  | write address bytes => some (address, bytes)
  | _ => none

def writesOf (calls : List Call) : List (UInt64 × Bytes) := calls.filterMap Call.write?

def Finished.writes (x : Finished) : List (UInt64 × Bytes) := writesOf x.calls

def Apart (a b : UInt64 × Bytes) : Prop :=
  a.1.toNat + a.2.length ≤ b.1.toNat ∨ b.1.toNat + b.2.length ≤ a.1.toNat

variable {config : Config} {request : Request} {firmware : Firmware}

theorem writesOf_append (calls more : List Call) :
    writesOf (calls ++ more) = writesOf calls ++ writesOf more :=
  List.filterMap_append

theorem Asks.writesOf_stop {ε α : Type} {x : Traced Event ε α} {calls : List Call}
    (h : Asks x calls) (hn : writesOf calls = []) {before : List Event}
    (hb : writesOf (callsOf before) = []) : writesOf (callsOf (before ++ x.trace)) = [] := by
  have hprefix := h.inOrder.filterMap Call.write?
  have hx : writesOf (callsOf x.trace) = [] := List.prefix_nil.mp (hn ▸ hprefix)
  rw [callsOf_append, writesOf_append, hb, hx, List.append_nil]

theorem writesOf_gateCalls (image : Bytes) : writesOf (gateCalls config request image) = [] := by
  unfold gateCalls
  split <;> rfl

theorem writesOf_overlayCalls : writesOf (overlayCalls config firmware) = [] := by
  unfold overlayCalls
  split <;> rfl

theorem Ready.writesOf_calls {loaded : Loaded} {blob : Bytes} {plan : MemoryPlan}
    {line : CommandLine} (r : Ready config request firmware loaded blob plan line)
    (kernel : Kernel) : writesOf (r.calls kernel) = r.writes kernel := rfl

namespace Reached

theorem Validated.writesOf_events (p : Validated config request firmware) :
    writesOf (callsOf p.events) = [] := by
  rw [p.callsOf_events]
  rfl

theorem Extracted.writesOf_events (p : Extracted config request firmware) :
    writesOf (callsOf p.events) = [] := by
  rw [p.callsOf_events, writesOf_append, writesOf_append, writesOf_gateCalls]
  rfl

theorem TreeResolved.writesOf_events (p : TreeResolved config request firmware) :
    writesOf (callsOf p.events) = [] := by
  rw [p.callsOf_events, writesOf_append, p.toExtracted.writesOf_events, writesOf_overlayCalls]
  rfl

theorem LayoutPlanned.writesOf_events (p : LayoutPlanned config request firmware) :
    writesOf (callsOf p.events) = [] := by
  rw [p.callsOf_events, p.toTreeResolved.writesOf_events]

theorem CommandLineBuilt.writesOf_events (p : CommandLineBuilt config request firmware) :
    writesOf (callsOf p.events) = [] := by
  rw [p.callsOf_events, p.toTreeResolved.writesOf_events]

theorem TreePatched.writesOf_events (p : TreePatched config request firmware)
    (r : Placement p.toCommandLineBuilt) :
    writesOf (callsOf p.events) = r.writes p.extracted.kernel := by
  rw [p.callsOf_events r, writesOf_append, p.toTreeResolved.writesOf_events, r.writesOf_calls]
  rfl

variable {p : CommandLineBuilt config request firmware}

theorem kernel_measured : p.extracted.kernel.Measured (.above p.extracted.base config.addresses) := by
  obtain ⟨-, -, -, hwindows, hkernel⟩ := extract_eq_ok p.extract_ok
  obtain ⟨hw, -⟩ := Windows.derive_eq_ok.mp hwindows
  rw [← hw]
  exact Kernel.extract_measured hkernel

theorem Placement.holds (r : Placement p) : p.plan.Holds p.extracted.kernel.bytes r.patched r.ramdisk :=
  MemoryPlan.make_holds kernel_measured p.plan_ok r.fits
    (BootImage.Layout.payload_length r.ramdisk_ok)

theorem Placement.pairwise_apart (r : Placement p) : (r.writes p.extracted.kernel).Pairwise Apart := by
  obtain ⟨hkernel, htree, hramdisk⟩ := Placement.holds r
  have hlength := Nat.le_max_left p.extracted.kernel.bytes.length p.plan.kernelSize.toNat
  simp only [Ready.writes, List.pairwise_cons, List.forall_mem_cons, List.not_mem_nil,
    false_implies, implies_true, and_true, Apart, List.Pairwise.nil]
  omega

theorem ramdiskSize_eq (r : Placement p) : p.plan.ramdiskSize.toNat = r.ramdisk.length := by
  obtain ⟨-, -, size, -, hplan⟩ := MemoryPlan.make_eq_ok p.plan_ok
  rw [BootImage.Layout.payload_length r.ramdisk_ok, hplan]
  exact UInt32.toNat_toUInt64 _

end Reached

theorem finish_writes (x : Run Handoff) : (finish x).writes = writesOf (callsOf x.trace) := by
  rw [Finished.writes, finish_calls]

theorem Course.writes {x : Run Handoff} (h : Course config request firmware x) :
    writesOf (callsOf x.trace) = [] ∨
      ∃ (p : Reached.CommandLineBuilt config request firmware) (r : Reached.Placement p),
        writesOf (callsOf x.trace) <+: r.writes p.extracted.kernel := by
  cases h with
  | load h => exact .inl (load_asks.writesOf_stop rfl (show writesOf (callsOf []) = [] from rfl))
  | extract p h =>
    apply Or.inl
    apply (extract_asks p.loaded).writesOf_stop _ p.writesOf_events
    rw [writesOf_append, writesOf_gateCalls]
    rfl
  | resolve p h =>
    exact .inl ((resolveTree_asks p.loaded p.extracted).writesOf_stop writesOf_overlayCalls
      p.writesOf_events)
  | plan p h => exact .inl ((Asks.ofReport _).writesOf_stop rfl p.writesOf_events)
  | line p h =>
    exact .inl ((buildCommandLine_asks p.loaded p.extracted p.tree).writesOf_stop rfl p.writesOf_events)
  | place p h =>
    by_cases hready : Nonempty (Reached.Placement p)
    · obtain ⟨r⟩ := hready
      refine .inr ⟨p, r, ?_⟩
      rw [callsOf_append, writesOf_append, p.writesOf_events, List.nil_append,
        ← r.writesOf_calls p.extracted.kernel]
      exact (place_asks r p.extracted.kernel).inOrder.filterMap Call.write?
    · obtain ⟨wanted, hasks⟩ := place_asks_of_unready hready p.extracted.kernel
      exact .inl (hasks.writesOf_stop rfl p.writesOf_events)
  | complete p =>
    obtain ⟨r⟩ := p.ready
    exact .inr ⟨p.toCommandLineBuilt, r, p.writesOf_events r ▸ List.prefix_refl _⟩

theorem attempt_writes (s : Session) (request : Request) (firmware : Firmware) :
    let x := (s.attempt request firmware).1
    (∀ handoff, x.decision = .proceed handoff →
      ∃ (p : Reached.CommandLineBuilt s.config request firmware) (r : Reached.Placement p),
        firmware.load (partition s.config request) = .ok p.loaded.image ∧
        (Kernel.extract p.loaded.image p.loaded.layout p.extracted.windows).outcome =
          .ok p.extracted.kernel ∧
        BootImage.Layout.payload p.loaded.layout.ramdisk p.loaded.image = .ok r.ramdisk ∧
        (firmware.patch p.tree.blob
          (patchRequest s.config request p.line p.plan r.ram)).outcome = .ok r.patched ∧
        x.writes = [(p.plan.kernelAddr, p.extracted.kernel.bytes), (p.plan.ramdiskAddr, r.ramdisk),
          (p.plan.deviceTreeAddr, r.patched)] ∧
        p.plan.kernelAddr.toNat + max p.extracted.kernel.bytes.length p.plan.kernelSize.toNat ≤
          p.plan.deviceTreeAddr.toNat ∧
        p.plan.deviceTreeAddr.toNat + r.patched.length ≤ p.plan.ramdiskAddr.toNat ∧
        p.plan.ramdiskAddr.toNat + r.ramdisk.length ≤ p.plan.ramdiskEnd.toNat ∧
        x.writes.Pairwise Apart ∧
        handoff.kernelEntry = p.plan.kernelAddr ∧ handoff.deviceTree = p.plan.deviceTreeAddr ∧
        handoff.ramdiskBase = p.plan.ramdiskAddr ∧
        handoff.ramdiskSize.toNat = r.ramdisk.length) ∧
    (∀ why, x.decision = .abort why → x.writes = [] ∨
      ∃ (p : Reached.CommandLineBuilt s.config request firmware) (r : Reached.Placement p),
        x.writes <+: r.writes p.extracted.kernel) ∧
    ∀ p : Reached.TreePatched s.config request firmware, x.decision = .proceed p.handoff := by
  intro x
  have hcourse : Course s.config request firmware (run s.config request firmware) := run_course
  have hwrites : x.writes = writesOf (callsOf (run s.config request firmware).trace) :=
    finish_writes _
  have hdecision : x.decision = (finish (run s.config request firmware)).decision := rfl
  rw [hwrites, hdecision]
  refine ⟨?_, fun why _ => hcourse.writes, ?_⟩
  · intro handoff h
    obtain ⟨p, hrun, rfl⟩ := hcourse.eq_of_ok (finish_eq_proceed.mp h)
    obtain ⟨r⟩ := p.ready
    obtain ⟨-, hload, -, -⟩ := load_eq_ok p.load_ok
    obtain ⟨-, -, -, -, hkernel⟩ := extract_eq_ok p.extract_ok
    obtain ⟨hbelow, htree, hramdisk⟩ := Reached.Placement.holds r
    rw [hrun]
    refine ⟨p.toCommandLineBuilt, r, hload, hkernel, r.ramdisk_ok, r.patched_ok,
      p.writesOf_events r, hbelow, htree, hramdisk, ?_, rfl, rfl, rfl, Reached.ramdiskSize_eq r⟩
    rw [p.writesOf_events r]
    exact Reached.Placement.pairwise_apart r
  · intro p
    rw [p.run_eq]
    rfl

end BootAssembly.Attempt
