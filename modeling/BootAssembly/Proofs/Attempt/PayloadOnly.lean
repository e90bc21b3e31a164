import BootAssembly.Proofs.Attempt.TwoRuns
import BootAssembly.Proofs.Attempt.WellFormed

namespace BootAssembly

namespace BootImage

/-- Two images that say the same where a boot reads them. Their padding, second stages, names,
identifiers, load addresses and trailing bytes are their own. -/
structure Agree (image other : Bytes) : Prop where
  magic : image.take 8 = other.take 8
  kernelSize : (Header.ofBytes image).kernelSize = (Header.ofBytes other).kernelSize
  ramdiskSize : (Header.ofBytes image).ramdiskSize = (Header.ofBytes other).ramdiskSize
  secondSize : (Header.ofBytes image).secondSize = (Header.ofBytes other).secondSize
  deviceTreeSize : (Header.ofBytes image).deviceTreeSize = (Header.ofBytes other).deviceTreeSize
  pageSize : (Header.ofBytes image).pageSize = (Header.ofBytes other).pageSize
  commandLine : (Header.ofBytes image).commandLine = (Header.ofBytes other).commandLine
  whole : ∀ layout, Layout.ofHeader (.ofBytes image) = .ok layout →
    layout.imageSize.toNat ≤ image.length ∧ layout.imageSize.toNat ≤ other.length
  kernel : ∀ layout, Layout.ofHeader (.ofBytes image) = .ok layout →
    Layout.payload layout.kernel image = Layout.payload layout.kernel other
  ramdisk : ∀ layout, Layout.ofHeader (.ofBytes image) = .ok layout →
    Layout.payload layout.ramdisk image = Layout.payload layout.ramdisk other
  deviceTree : ∀ layout, Layout.ofHeader (.ofBytes image) = .ok layout →
    Layout.payload layout.deviceTree image = Layout.payload layout.deviceTree other

namespace Agree

variable {image other : Bytes} (h : Agree image other)

include h

theorem ofHeader_eq : Layout.ofHeader (.ofBytes image) = Layout.ofHeader (.ofBytes other) := by
  simp only [Layout.ofHeader, h.kernelSize, h.ramdiskSize, h.secondSize, h.deviceTreeSize,
    h.pageSize]

theorem check_eq (limits : Limits) :
    limits.check (.ofBytes image) = limits.check (.ofBytes other) := by
  simp only [Limits.check, h.kernelSize, h.ramdiskSize, h.pageSize]

theorem inspect_related (hheader : headerSize ≤ image.length ↔ headerSize ≤ other.length)
    (limits : Limits) :
    Related id (fun a b => a.1 = Header.ofBytes image ∧ b.1 = Header.ofBytes other ∧ a.2 = b.2 ∧
      Layout.ofHeader (.ofBytes image) = .ok a.2) (inspect limits image) (inspect limits other) := by
  have hlength : (image.take headerSize).length < headerSize ↔
      (other.take headerSize).length < headerSize := by
    simp only [List.length_take]
    omega
  unfold inspect
  simp only [hlength, h.magic, h.check_eq, h.ofHeader_eq]
  split
  · apply Related.same_bind
    intro _ hfail
    cases hfail
  split
  · apply Related.same_bind
    intro _ _
    apply Related.same_bind
    intro _ hfail
    cases hfail
  apply Related.same_bind
  intro _ _
  apply Related.same_bind
  intro layout hlayout
  apply Related.same_bind
  intro _ _
  exact Related.pure ⟨rfl, rfl, rfl, hlayout⟩

end Agree

theorem Parts.agree {p q : Parts} (hp : p.size < UInt32.size) (hq : q.size < UInt32.size)
    (hpage : p.pageSize = q.pageSize) (hkernel : p.kernel.bytes = q.kernel.bytes)
    (hramdisk : p.ramdisk.bytes = q.ramdisk.bytes)
    (hsecond : p.second.bytes.length = q.second.bytes.length)
    (htree : p.deviceTree.bytes = q.deviceTree.bytes)
    (hline : p.header.commandLine = q.header.commandLine) (rest rest' : Bytes) :
    Agree (p.image ++ rest) (q.image ++ rest') := by
  have hlayout (layout : Layout) (h : Layout.ofHeader (.ofBytes (p.image ++ rest)) = .ok layout) :
      layout = p.layout := by
    rw [ofBytes_image, ofHeader_header hp] at h
    exact (Except.ok.inj h).symm
  have hsame : p.layout = q.layout := by
    have hsizes : Layout.ofHeader p.header = Layout.ofHeader q.header := by
      simp only [Layout.ofHeader, header, hpage, hkernel, hramdisk, hsecond, htree]
    rw [ofHeader_header hp, ofHeader_header hq] at hsizes
    exact Except.ok.inj hsizes
  constructor
  · rw [take_magic, take_magic]
  · rw [ofBytes_image, ofBytes_image, header, header, hkernel]
  · rw [ofBytes_image, ofBytes_image, header, header, hramdisk]
  · rw [ofBytes_image, ofBytes_image, header, header, hsecond]
  · rw [ofBytes_image, ofBytes_image, header, header, htree]
  · rw [ofBytes_image, ofBytes_image]
    exact hpage
  · rw [ofBytes_image, ofBytes_image, hline]
  · intro layout h
    obtain rfl := hlayout layout h
    constructor
    · rw [toNat_size hp, List.length_append]
      exact Nat.le_add_right _ _
    · rw [hsame, toNat_size hq, List.length_append]
      exact Nat.le_add_right _ _
  · intro layout h
    obtain rfl := hlayout layout h
    rw [payload_kernel hp, hsame, payload_kernel hq, hkernel]
  · intro layout h
    obtain rfl := hlayout layout h
    rw [payload_ramdisk hp, hsame, payload_ramdisk hq, hramdisk]
  · intro layout h
    obtain rfl := hlayout layout h
    rw [payload_deviceTree hp, hsame, payload_deviceTree hq, htree]

end BootImage

namespace Kernel

variable {image other : Bytes} {layout : BootImage.Layout} {w : Windows}

theorem extract_congr
    (h : BootImage.Layout.payload layout.kernel image =
      BootImage.Layout.payload layout.kernel other) :
    extract image layout w = extract other layout w := by
  rw [extract, extract, h]

theorem treeRegion_congr {k : Kernel} (hkernel : (extract image layout w).outcome = .ok k)
    (h : BootImage.Layout.payload layout.kernel image =
      BootImage.Layout.payload layout.kernel other) :
    slice? k.treeRegion image = slice? k.treeRegion other := by
  have hother := extract_congr (w := w) h ▸ hkernel
  rw [(extract_appendedTree hkernel).1, (extract_appendedTree hother).1]
  obtain ⟨raw, payload, hraw, hunpacked, hrecognized⟩ := extract_eq_ok hkernel
  -- appended trees are looked for inside the payload, on which the images agree
  obtain ⟨hstart, -, hstop, -⟩ :=
    hunpacked.treeRegion_within (BootImage.Layout.add_length_of_payload hraw)
  rw [← hrecognized.appendedTree.1] at hstart hstop
  obtain ⟨-, -, hslice⟩ := slice?_eq_some.mp (BootImage.Layout.payload_eq_ok hraw)
  obtain ⟨-, -, hsame⟩ := slice?_eq_some.mp (BootImage.Layout.payload_eq_ok (h ▸ hraw))
  rw [slice_eq_drop_slice hstart hstop image, slice_eq_drop_slice hstart hstop other, ← hslice,
    ← hsame]

end Kernel

namespace Attempt

structure SameAnswers (name : String) (image other : Bytes) (f g : Firmware) : Prop where
  load : f.load name = .ok image
  loadOther : g.load name = .ok other
  verify : f.verify name image = g.verify name other
  identity : f.identity = g.identity
  ramBase : f.ramBase = g.ramBase
  ramRegions : f.ramRegions = g.ramRegions
  overlays : f.overlays = g.overlays
  patch : f.patch = g.patch
  write : f.write = g.write

structure Alike (a b : Loaded) : Prop where
  layout : a.layout = b.layout
  commandLine : a.header.commandLine = b.header.commandLine
  kernel : BootImage.Layout.payload b.layout.kernel a.image =
    BootImage.Layout.payload b.layout.kernel b.image
  ramdisk : BootImage.Layout.payload b.layout.ramdisk a.image =
    BootImage.Layout.payload b.layout.ramdisk b.image
  deviceTree : BootImage.Layout.payload b.layout.deviceTree a.image =
    BootImage.Layout.payload b.layout.deviceTree b.image

section

variable {config : Config} {request : Request} {f g : Firmware} {image other : Bytes}

theorem load_related (h : BootImage.Agree image other)
    (hheader : BootImage.headerSize ≤ image.length ↔ BootImage.headerSize ≤ other.length)
    (hanswers : SameAnswers (partition config request) image other f g) :
    Related Event.blind (fun a b => a.image = image ∧ b.image = other ∧ Alike a b)
      (load config request f) (load config request g) := by
  unfold load
  apply Related.same_bind
  intro _ _
  apply Related.same_bind
  intro _ _
  rw [hanswers.load, hanswers.loadOther]
  apply Related.bind (S := fun a b => a = image ∧ b = other)
  · exact related_ask _ ⟨rfl, .inr ⟨image, other, rfl, rfl, rfl, rfl⟩⟩
  rintro _ _ ⟨rfl, rfl⟩
  apply Related.bind (related_ofReport (h.inspect_related hheader _))
  rintro ⟨header, layout⟩ ⟨header', layout'⟩ ⟨hheader, hheader', hsame, hlayout⟩
  dsimp only at hheader hheader' hsame hlayout
  subst hheader hheader' hsame
  obtain ⟨hfits, hfits'⟩ := h.whole layout hlayout
  have hchecked {length : Nat} (hlength : layout.imageSize.toNat ≤ length) :
      layout.checkFits length = pure () := by
    rw [BootImage.Layout.checkFits, if_pos hlength]
  dsimp only
  rw [hchecked hfits, hchecked hfits']
  apply Related.same_bind
  intro _ _
  exact Related.pure ⟨rfl, rfl, rfl, h.commandLine, h.kernel layout hlayout,
    h.ramdisk layout hlayout, h.deviceTree layout hlayout⟩

variable {name : String} {a b : Loaded}

theorem passGate_related
    (hanswers : SameAnswers (partition config request) image other f g) :
    Related Event.blind Eq (passGate config request f image) (passGate config request g other) := by
  unfold passGate
  split
  · dsimp only
    rw [hanswers.verify]
    apply Related.bind (S := Eq)
    · exact Related.record rfl
    rintro _ _ -
    exact Related.refl _
  · exact Related.refl _

theorem extract_related (hanswers : SameAnswers (partition config request) a.image b.image f g)
    (h : Alike a b) :
    Related Event.blind (fun x y => x = y ∧
      slice? x.kernel.treeRegion a.image = slice? x.kernel.treeRegion b.image)
      (extract config request f a) (extract config request g b) := by
  unfold extract
  rw [hanswers.identity, hanswers.ramBase, h.layout]
  apply Related.bind (passGate_related hanswers)
  rintro trust _ rfl
  apply Related.same_bind
  intro board _
  apply Related.same_bind
  intro base _
  apply Related.same_bind
  intro windows _
  rw [Kernel.extract_congr h.kernel]
  apply Related.same_bind
  intro kernel hkernel
  have hextracted := outcome_ofReport_eq_ok.mp hkernel
  exact Related.pure ⟨rfl, (Kernel.treeRegion_congr hextracted h.kernel.symm).symm⟩

theorem resolveTree_congr {x : Extracted}
    (hanswers : SameAnswers name image other f g) (h : Alike a b)
    (hregion : slice? x.kernel.treeRegion a.image = slice? x.kernel.treeRegion b.image) :
    resolveTree config f a x = resolveTree config g b x := by
  have harea : Resolve.searchArea a.image x.kernel b.layout =
      Resolve.searchArea b.image x.kernel b.layout := by
    rw [Resolve.searchArea, Resolve.searchArea, hregion, h.deviceTree]
  simp only [resolveTree, loadOverlays, Resolve.resolve, hanswers.overlays, h.layout, harea]

theorem place_congr (hanswers : SameAnswers name image other f g) (h : Alike a b)
    (kernel : Kernel) (blob : Bytes) (plan : MemoryPlan) (line : CommandLine) :
    place config request f a kernel blob plan line =
      place config request g b kernel blob plan line := by
  simp only [place, writeAll, hanswers.ramRegions, hanswers.patch, hanswers.write, h.layout,
    h.ramdisk]

theorem run_related (h : BootImage.Agree image other)
    (hheader : BootImage.headerSize ≤ image.length ↔ BootImage.headerSize ≤ other.length)
    (hanswers : SameAnswers (partition config request) image other f g) :
    Related Event.blind Eq (run config request f) (run config request g) := by
  unfold run
  apply Related.bind (related_advance _ _ (load_related h hheader hanswers))
  rintro a b ⟨rfl, rfl, halike⟩
  apply Related.bind (related_advance _ _ (extract_related hanswers halike))
  rintro x _ ⟨rfl, hregion⟩
  rw [resolveTree_congr hanswers halike hregion, halike.layout]
  apply Related.same_bind
  intro tree _
  apply Related.same_bind
  intro plan _
  have hline : buildCommandLine config request a x tree =
      buildCommandLine config request b x tree := by
    rw [buildCommandLine, buildCommandLine, halike.commandLine]
  rw [hline]
  apply Related.same_bind
  intro line _
  rw [place_congr hanswers halike]
  exact Related.refl _

end

def Call.patch? : Call → Option (Bytes × Patch.Request)
  | patch blob request => some (blob, request)
  | _ => none

def Finished.patches (x : Finished) : List (Bytes × Patch.Request) := x.calls.filterMap Call.patch?

/-- What is nobody's payload shows in no decision, state, patch or write. -/
theorem attempt_payload_only (s : Session) (request : Request) (f g : Firmware)
    (image other : Bytes) (h : BootImage.Agree image other)
    (hheader : BootImage.headerSize ≤ image.length ↔ BootImage.headerSize ≤ other.length)
    (hanswers : SameAnswers (partition s.config request) image other f g) :
    let x := (s.attempt request f).1
    let y := (s.attempt request g).1
    x.decision = y.decision ∧ x.history = y.history ∧ x.patches = y.patches ∧
      x.writes = y.writes ∧ x.notes = y.notes ∧
      x.events.map Event.blind = y.events.map Event.blind := by
  intro x y
  obtain ⟨hdecision, hevents⟩ := finish_related (run_related h hheader hanswers)
  have hread {κ : Type} (read : Call → Option κ)
      (hverify : ∀ name image, read (.verify name image) = none) :
      x.calls.filterMap read = y.calls.filterMap read := by
    rw [Finished.calls, Finished.calls, List.filterMap_filterMap, List.filterMap_filterMap]
    exact filterMap_eq_of_blind (bind_call?_blind hverify) hevents
  refine ⟨hdecision, ?_, hread Call.patch? fun _ _ => rfl, hread Call.write? fun _ _ => rfl,
    filterMap_eq_of_blind note?_blind hevents, hevents⟩
  exact congrArg (.start :: ·) (filterMap_eq_of_blind state?_blind hevents)

def disguisedBoot : Boot where
  parts := { smallBoot.parts with
    kernelAddr := 1
    ramdiskAddr := 2
    secondAddr := 3
    tagsAddr := 4
    unused := 5
    name := List.replicate BootImage.nameSize 0x62
    arguments := utf8 "console=ttyS0" ++ 0 :: List.replicate 498 0xEE
    id := List.replicate 32 0xCD
    kernel := ⟨bareKernel, List.replicate 548 0xFF, by decide +kernel, by decide +kernel⟩
    second := .zeroFilled (by decide) [8, 8]
    name_length := by decide +kernel
    arguments_length := by decide +kernel
    id_length := by decide +kernel }
  trailing := []
  tree := smallBoot.tree
  blob := smallBoot.blob
  filler := smallBoot.filler
  verdict := smallBoot.verdict
  board := smallBoot.board
  base := smallBoot.base
  ram := smallBoot.ram
  path := smallBoot.path

theorem attempt_payload_only_disguised :
    let x := ((Session.mk {} []).attempt {} smallBoot.firmware).1
    let y := ((Session.mk {} []).attempt {} disguisedBoot.firmware).1
    smallBoot.image ≠ disguisedBoot.image ∧ x.decision.state = .proceed ∧
      x.decision = y.decision ∧ x.history = y.history ∧ x.patches = y.patches ∧
      x.writes = y.writes := by
  have hsmall : smallBoot.parts.size < UInt32.size := by decide +kernel
  have hdisguised : disguisedBoot.parts.size < UInt32.size := by decide +kernel
  have hline : smallBoot.parts.header.commandLine = disguisedBoot.parts.header.commandLine := by
    decide +kernel
  have hagree : BootImage.Agree smallBoot.image disguisedBoot.image :=
    BootImage.Parts.agree hsmall hdisguised rfl rfl rfl rfl rfl hline _ _
  obtain ⟨hdecision, hhistory, hpatches, hwrites, -⟩ := attempt_payload_only ⟨{}, []⟩ {}
    smallBoot.firmware disguisedBoot.firmware smallBoot.image disguisedBoot.image hagree
    (iff_of_true (smallBoot.parts.headerSize_le_length _)
      (disguisedBoot.parts.headerSize_le_length _)) ⟨rfl, rfl, rfl, rfl, rfl, rfl, rfl, rfl, rfl⟩
  exact ⟨by decide +kernel, by decide +kernel, hdecision, hhistory, hpatches, hwrites⟩

def crampedImage : Bytes :=
  BootImage.magic ++ ofWords [60, 0, 1, 0, 0, 0, 0, 64, 104, 0] ++ List.replicate 16 0 ++
    (bareKernel ++ List.replicate 4 0) ++ 1 :: List.replicate 63 0 ++
    DeviceTree.blobOf ⟨0, [], ⟨"", [], [⟨"memory", [], []⟩, ⟨"chosen", [], []⟩]⟩⟩ ++
    List.replicate 24 0

def crampedLayout : BootImage.Layout :=
  ⟨64, ⟨64, 60, 64⟩, ⟨128, 1, 64⟩, ⟨192, 0, 0⟩, ⟨192, 104, 128⟩, 320⟩

theorem crampedImage_agree :
    BootImage.Agree crampedImage (crampedImage ++ List.replicate 288 0) := by
  have hlayout : BootImage.Layout.ofHeader (.ofBytes crampedImage) = .ok crampedLayout := by
    decide +kernel
  have hregions {p : BootImage.Layout → Prop} (h : p crampedLayout) :
      ∀ layout, BootImage.Layout.ofHeader (.ofBytes crampedImage) = .ok layout → p layout := by
    intro layout hread
    rw [hlayout] at hread
    cases hread
    exact h
  constructor
  case whole => exact hregions (by decide +kernel)
  case kernel => exact hregions (by decide +kernel)
  case ramdisk => exact hregions (by decide +kernel)
  case deviceTree => exact hregions (by decide +kernel)
  all_goals decide +kernel

theorem crampedImage_completed :
    let firmware (image : Bytes) := { smallBoot.firmware with load := fun _ => .ok image }
    let other := crampedImage ++ List.replicate 288 0
    let x := ((Session.mk {} []).attempt {} (firmware crampedImage)).1
    let y := ((Session.mk {} []).attempt {} (firmware other)).1
    BootImage.Agree crampedImage other ∧
      SameAnswers (partition {} {}) crampedImage other (firmware crampedImage) (firmware other) ∧
      x.decision.state = .abort ∧ y.decision.state = .proceed := by
  intro firmware other x y
  exact ⟨crampedImage_agree, ⟨rfl, rfl, rfl, rfl, rfl, rfl, rfl, rfl, rfl⟩, by decide +kernel,
    by decide +kernel⟩

end Attempt

end BootAssembly
