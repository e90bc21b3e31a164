import BootAssembly.Proofs.Attempt.TrustGate
import BootAssembly.Proofs.BootImage.RoundTrip
import BootAssembly.Proofs.CommandLine.Capacity
import BootAssembly.Proofs.Memory.Room
import BootAssembly.Proofs.Patch.Requested
import BootAssembly.Proofs.Patch.Success
import BootAssembly.Proofs.Resolve.Single

namespace BootAssembly.Attempt

/-- What goes into a boot: an image with a device tree in its slot, and what the firmware around
knows. -/
structure Boot where
  parts : BootImage.Parts
  trailing : Bytes
  tree : DeviceTree
  blob : Bytes
  filler : Bytes
  verdict : Verdict
  board : Board
  base : UInt64
  ram : List RamRegion
  path : Option String

namespace Boot

variable (b : Boot) (config : Config) (request : Request) (firmware : Firmware)

def image : Bytes := b.parts.image ++ b.trailing

def loaded : Loaded := ⟨b.image, b.parts.header, b.parts.layout⟩

def windows : Windows := .above b.base config.addresses

def trust : Option Trust :=
  if config.has .verifiedBoot then some ⟨b.verdict.state, b.verdict.fragment⟩ else none

def kernel : Kernel where
  bytes := b.parts.kernel.bytes
  is32bit := false
  appendedTree := none
  treeRegion := b.parts.layout.kernel.span
  imageSize := .ofNat (Kernel.span64 b.parts.kernel.bytes)

def extracted : Extracted := ⟨b.trust config, b.board, b.base, b.windows config, b.kernel⟩

def plan : MemoryPlan where
  kernelAddr := (b.windows config).kernel
  kernelSize := .ofNat (Kernel.span64 b.parts.kernel.bytes)
  ramdiskAddr := (b.windows config).ramdisk
  ramdiskSize := .ofNat b.parts.ramdisk.bytes.length
  ramdiskEnd := (b.windows config).ramdiskEnd
  deviceTreeAddr := (b.windows config).deviceTree
  is32bit := false

def root : Option CommandLine.RootClause :=
  if config.has .systemAsRoot || slotted config request.metadata then
    request.metadata.systemPath.map (⟨!request.recovery, ·⟩)
  else none

def fields : CommandLine.Fields :=
  Attempt.fields config request (b.trust config) none (root config request)

def line : CommandLine :=
  .written b.parts.header.commandLine (b.fields config request) b.path

def patches : Patch.Request :=
  patchRequest config request (b.line config request) (b.plan config) b.ram

def patched : DeviceTree := (Patch.edit (b.patches config request) b.tree).2

structure WellFormed : Prop where
  page : b.parts.pageSize ≤ config.maxPageSize
  expected : ∀ page ∈ config.expectedPageSize, b.parts.pageSize = page
  size : b.parts.size < UInt32.size
  kernel : Kernel.Bare b.parts.kernel.bytes
  ramdisk : b.parts.ramdisk.bytes ≠ []
  portable : b.tree.Portable
  encoded : b.tree.toBytes = .ok b.blob
  slot : b.parts.deviceTree.bytes = b.blob ++ b.filler
  alone : Resolve.NoBlob b.filler
  memory : (b.tree.node? Patch.memoryPath).isSome
  chosen : (b.tree.node? Patch.chosenPath).isSome

structure Fits : Prop where
  ordered : (b.windows config).Ordered
  kernel : (b.windows config).kernel.toNat + Kernel.span64 b.parts.kernel.bytes <
    (b.windows config).deviceTree.toNat
  ramdisk : (b.windows config).ramdisk.toNat + b.parts.ramdisk.bytes.length ≤
    (b.windows config).ramdiskEnd.toNat
  blob : (b.windows config).deviceTree.toNat + b.blob.length ≤ (b.windows config).ramdisk.toNat
  patched : ∃ out, (b.patched config request).toBytes = .ok out ∧
    (b.windows config).deviceTree.toNat + out.length ≤ (b.windows config).ramdisk.toNat

structure Served : Prop where
  load : firmware.load (partition config request) = .ok b.image
  verify : config.has .verifiedBoot = true →
    firmware.verify (partition config request) b.image = .ok b.verdict ∧
      b.verdict.state ≠ .red ∧ b.verdict.continueAllowed = true
  identity : firmware.identity = .ok b.board
  ramBase : firmware.ramBase = .ok b.base
  ramRegions : firmware.ramRegions = .ok b.ram
  ram : b.ram ≠ []
  patch : firmware.patch = Patch.patch
  write : ∀ i address bytes, firmware.write i address bytes = .ok ()

structure Granted (patched : DeviceTree) : Prop where
  seeded : config.has .kaslrSeed = true → ∀ seed, request.metadata.kaslrSeed = some seed →
    patched.valueAt? Patch.chosenPath "kaslr-seed" = some (be64 seed)
  remounted : config.has .fstabUpdate = true →
    ∀ device, request.metadata.bootDevice = some device → Patch.Remounted device b.tree patched
  fused : config.has .partialGoods = true →
    Patch.Fused request.metadata.disabledSubsystems b.tree patched

variable {b config request firmware}

theorem load_ok (himage : b.WellFormed config) (hserved : b.Served config request firmware)
    (hvalid : config.validate = .ok ()) :
    (load config request firmware).outcome = .ok b.loaded := by
  have hinspect : (BootImage.inspect ⟨config.maxPageSize, config.expectedPageSize⟩ b.image).outcome =
      .ok (b.parts.header, b.parts.layout) :=
    BootImage.Parts.inspect_ok himage.page himage.expected himage.kernel.ne_nil himage.ramdisk
      himage.size b.trailing
  have hfits : (b.parts.layout.checkFits b.image.length).outcome = .ok () := by
    apply BootImage.Layout.checkFits_of_le
    rw [BootImage.Parts.toNat_size himage.size, image, List.length_append]
    exact Nat.le_add_right _ _
  refine Traced.outcome_bind_eq_ok.mpr ⟨(), outcome_ofReport_eq_ok.mpr hvalid, ?_⟩
  refine Traced.outcome_bind_eq_ok.mpr ⟨(), rfl, ?_⟩
  refine Traced.outcome_bind_eq_ok.mpr ⟨b.image, outcome_ask_eq_ok.mpr hserved.load, ?_⟩
  refine Traced.outcome_bind_eq_ok.mpr ⟨_, outcome_ofReport_eq_ok.mpr hinspect, ?_⟩
  exact Traced.outcome_bind_eq_ok.mpr ⟨(), outcome_ofReport_eq_ok.mpr hfits, rfl⟩

theorem passGate_ok (hserved : b.Served config request firmware) :
    (passGate config request firmware b.image).outcome = .ok (b.trust config) := by
  by_cases hverified : config.has .verifiedBoot = true
  · obtain ⟨hv, hred, hallowed⟩ := hserved.verify hverified
    rw [passGate_eq hverified, ofVerdict_eq_proceed.mpr ⟨_, hv, hred, hallowed, rfl, rfl⟩, trust,
      if_pos hverified]
  · rw [passGate, if_neg hverified, trust, if_neg hverified]
    rfl

theorem extract_ok (himage : b.WellFormed config) (hfits : b.Fits config request)
    (hserved : b.Served config request firmware) :
    (extract config request firmware b.loaded).outcome = .ok (b.extracted config) := by
  have hwindows : (Windows.derive b.base config.addresses).outcome = .ok (b.windows config) :=
    Windows.derive_eq_ok.mpr ⟨rfl, hfits.ordered⟩
  have hkernel := Kernel.extract_bare himage.kernel
    (BootImage.Parts.payload_kernel himage.size b.trailing) hfits.kernel
  refine Traced.outcome_bind_eq_ok.mpr ⟨_, passGate_ok hserved, ?_⟩
  refine Traced.outcome_bind_eq_ok.mpr ⟨_, outcome_ask_eq_ok.mpr hserved.identity, ?_⟩
  refine Traced.outcome_bind_eq_ok.mpr ⟨_, outcome_ask_eq_ok.mpr hserved.ramBase, ?_⟩
  refine Traced.outcome_bind_eq_ok.mpr ⟨_, outcome_ofReport_eq_ok.mpr hwindows, ?_⟩
  exact Traced.outcome_bind_eq_ok.mpr ⟨_, outcome_ofReport_eq_ok.mpr hkernel, rfl⟩

theorem resolveTree_ok (himage : b.WellFormed config) (hfits : b.Fits config request)
    (hoverlays : config.has .overlays = false) :
    (resolveTree config firmware b.loaded (b.extracted config)).outcome =
      .ok ⟨b.blob, .single, none⟩ := by
  obtain ⟨hlimit, hblob⟩ := DeviceTree.toBytes_eq_ok_iff.mp himage.encoded
  have hpayload := BootImage.Parts.payload_deviceTree himage.size b.trailing
  have hlength := BootImage.Layout.payload_length hpayload
  have hroom := hfits.blob
  have hwindow := Resolve.treeRoom_toNat hfits.ordered
  rw [himage.slot, hblob] at hpayload hlength
  have hnone : loadOverlays config firmware = pure none := by
    rw [loadOverlays, hoverlays]
    rfl
  have hresolved : (Resolve.resolve b.board (b.windows config) b.image b.kernel b.parts.layout
      none).outcome = .ok ⟨DeviceTree.blobOf b.tree, .single, none⟩ :=
    Resolve.resolve_slot hlimit himage.alone rfl hpayload hlength (by rw [← hblob]; omega)
  rw [resolveTree, hnone, hblob]
  exact Traced.outcome_bind_eq_ok.mpr ⟨none, rfl, outcome_ofReport_eq_ok.mpr hresolved⟩

theorem plan_ok (himage : b.WellFormed config) (hfits : b.Fits config request) :
    (MemoryPlan.make b.loaded.layout b.kernel b.base config.addresses).outcome =
      .ok (b.plan config) := by
  have hlength := BootImage.Layout.payload_length
    (BootImage.Parts.payload_ramdisk himage.size b.trailing)
  have hsize : b.parts.layout.ramdisk.size.toUInt64 = .ofNat b.parts.ramdisk.bytes.length := by
    rw [hlength, ← UInt32.toNat_toUInt64, UInt64.ofNat_toNat]
  have hroom := hfits.ramdisk
  rw [hlength] at hroom
  rw [plan, ← hsize]
  exact MemoryPlan.make_of_room hfits.ordered rfl hroom

theorem patches_suit (himage : b.WellFormed config) (hfits : b.Fits config request)
    (hserved : b.Served config request firmware) (hsplash : config.has .splashUpdate = false) :
    (b.patches config request).Suits b.tree where
  wide := rfl
  plain := hsplash
  ram := hserved.ram
  memory := himage.memory
  chosen := himage.chosen
  ramdisk := by
    have hroom := hfits.ramdisk
    have hend := (b.windows config).ramdiskEnd.toNat_lt
    have hword : (UInt64.ofNat b.parts.ramdisk.bytes.length).toNat =
        b.parts.ramdisk.bytes.length := UInt64.toNat_ofNat_of_lt' (by change _ < 2 ^ 64; omega)
    show (b.windows config).ramdisk.toNat + (UInt64.ofNat _).toNat < 2 ^ 64
    rw [hword]
    omega

theorem patched_run (h : (b.patches config request).Suits b.tree) :
    (Patch.edit (b.patches config request)).run b.tree = .ok ((), b.patched config request) :=
  (Patch.edit_succeeds h).run_eq

theorem patched_granted (h : (b.patches config request).Suits b.tree) :
    b.Granted config request (b.patched config request) := by
  obtain ⟨-, -, -, htold⟩ := Patch.edit_run (patched_run h)
  obtain ⟨hremounted, hfused⟩ := Patch.edit_grants (patched_run h)
  exact ⟨htold.seed, hremounted, hfused⟩

theorem rootClause_ok : (rootClause config request).outcome = .ok (root config request) := by
  unfold rootClause root
  split
  · cases request.metadata.systemPath <;> rfl
  · rfl

theorem line_ok (hfits : b.Fits config request) (hsuits : (b.patches config request).Suits b.tree)
    (hpath : CommandLine.renderedPath (b.fields config request) = .ok b.path) :
    (buildCommandLine config request b.loaded (b.extracted config) ⟨b.blob, .single, none⟩).outcome =
      .ok (b.line config request) := by
  obtain ⟨-, -, -, htold⟩ := Patch.edit_run (patched_run hsuits)
  obtain ⟨out, hout, -⟩ := hfits.patched
  obtain ⟨hlimit, -⟩ := DeviceTree.toBytes_eq_ok_iff.mp hout
  -- the line stands in the patched blob, whose size is a word
  have hstands := DeviceTree.value_length_le_encodedSize htold.bootargs
  have hlength : (b.line config request).buffer.length = b.parts.header.commandLine.length +
      (CommandLine.pieces (b.fields config request) b.path).flatten.length + 1 := by
    rw [line, CommandLine.written, List.length_append, List.length_append, List.length_singleton]
  have hshort : (b.line config request).buffer.length ≤ bufferLimit :=
    Nat.le_trans (Nat.le_of_lt (Nat.lt_of_le_of_lt hstands hlimit)) (by decide)
  rw [hlength] at hshort
  have hbuilt := CommandLine.build_of_le hpath hshort
  exact Traced.outcome_bind_eq_ok.mpr ⟨_, outcome_ofReport_eq_ok.mpr rootClause_ok,
    outcome_ofReport_eq_ok.mpr hbuilt⟩

theorem exists_ready (himage : b.WellFormed config) (hfits : b.Fits config request)
    (hserved : b.Served config request firmware)
    (hsuits : (b.patches config request).Suits b.tree) :
    ∃ r : Ready config request firmware b.loaded b.blob (b.plan config) (b.line config request),
      r.ramdisk = b.parts.ramdisk.bytes ∧ (b.patched config request).toBytes = .ok r.patched := by
  obtain ⟨out, hout, hroom⟩ := hfits.patched
  have hblob := DeviceTree.parse_of_portable himage.portable himage.encoded
  have hpatch : (firmware.patch b.blob (b.patches config request)).outcome = .ok out := by
    rw [hserved.patch]
    exact Patch.patch_of_suits hblob hsuits hout
  have hwindow := Resolve.treeRoom_toNat hfits.ordered
  have htree : (b.plan config).checkTreeFits out.length = .ok () := by
    rw [MemoryPlan.checkTreeFits, if_pos]
    change _ ≤ (b.windows config).treeRoom.toNat
    omega
  have hramdisk := BootImage.Parts.payload_ramdisk himage.size b.trailing
  exact ⟨⟨b.ram, out, b.parts.ramdisk.bytes, hserved.ramRegions, hpatch, htree, hramdisk⟩, rfl, hout⟩

end Boot

/-- Nothing stands in the way of a well-formed image for which there is room. -/
theorem wellFormed_boots (s : Session) (request : Request) (firmware : Firmware) (b : Boot)
    (hvalid : s.config.validate = .ok ()) (hoverlays : s.config.has .overlays = false)
    (hsplash : s.config.has .splashUpdate = false) (himage : b.WellFormed s.config)
    (hfits : b.Fits s.config request) (hserved : b.Served s.config request firmware)
    (hpath : CommandLine.renderedPath (b.fields s.config request) = .ok b.path) :
    let x := (s.attempt request firmware).1
    let windows := b.windows s.config
    let patches := b.patches s.config request
    let patched := b.patched s.config request
    x.decision = .proceed (.ofPlan (b.plan s.config)
      (handoffFlags request (b.trust s.config) ⟨b.blob, .single, none⟩)) ∧
    ∃ out, x.writes = [(windows.kernel, b.parts.kernel.bytes),
        (windows.ramdisk, b.parts.ramdisk.bytes), (windows.deviceTree, out)] ∧
      DeviceTree.parse out = .ok patched ∧
      b.tree.SameBut (patches.Writes b.tree.root) patched ∧
      patched.valueAt? Patch.memoryPath "reg" = some (Patch.regOf true b.ram) ∧
      patches.Told patched ∧ b.Granted s.config request patched := by
  intro x windows patches patched
  have hsuits := Boot.patches_suit himage hfits hserved hsplash
  obtain ⟨r, hramdisk, hout⟩ := Boot.exists_ready himage hfits hserved hsuits
  obtain ⟨hsame, -, hmemory, htold⟩ := Patch.edit_run (Boot.patched_run hsuits)
  have hportable : patched.Portable :=
    hsame.portable himage.portable fun _ _ => Patch.nulFree_of_writes
  -- what every stage gives is known beforehand, so the course of the run can be written down
  let p : Reached.TreePatched s.config request firmware := {
    loaded := b.loaded
    load_ok := Boot.load_ok himage hserved hvalid
    extracted := b.extracted s.config
    extract_ok := Boot.extract_ok himage hfits hserved
    tree := ⟨b.blob, .single, none⟩
    resolve_ok := Boot.resolveTree_ok himage hfits hoverlays
    plan := b.plan s.config
    plan_ok := Boot.plan_ok himage hfits
    line := b.line s.config request
    line_ok := Boot.line_ok hfits hsuits hpath
    place_ok := place_of_ready r hserved.write _ }
  have hwrites : x.writes = r.writes b.kernel := by
    rw [show x.writes = _ from finish_writes _, p.run_eq]
    exact p.writesOf_events r
  refine ⟨finish_eq_proceed.mpr ?_, r.patched, ?_, ?_, hsame, hmemory, htold,
    Boot.patched_granted hsuits⟩
  · rw [p.run_eq]
    rfl
  · rw [hwrites, Ready.writes, hramdisk]
    rfl
  · exact DeviceTree.parse_of_portable hportable hout

def Boot.firmware (b : Boot) : Firmware where
  load _ := .ok b.image
  verify _ _ := .ok b.verdict
  identity := .ok b.board
  ramBase := .ok b.base
  ramRegions := .ok b.ram
  overlays := none
  patch := Patch.patch
  write _ _ _ := .ok ()

def bareKernel : Bytes :=
  List.replicate 16 0 ++ littleEndian 8 0x10000 ++ List.replicate 32 0 ++ le32 Kernel.magic64

def mountedTree : DeviceTree where
  bootCpu := 0
  reservations := []
  root := ⟨"", [], [⟨"memory@0", [⟨"reg", be32 7⟩], []⟩, ⟨"chosen", [], []⟩,
    ⟨"soc", [], [⟨"qcom,vidc@0", [], []⟩]⟩,
    ⟨"firmware", [], [⟨"android", [], [⟨"fstab", [],
      [⟨"vendor", [⟨"dev", nulTerminated "/soc/emmc/boot"⟩], []⟩, ⟨"odm", [], []⟩]⟩]⟩]⟩]⟩

def equipped : Config where
  capabilities := .ofList [.verifiedBoot, .kaslrSeed, .fstabUpdate, .partialGoods]

def fromFlash : Request where
  metadata := { bootDevice := some "ufs", kaslrSeed := some 9, disabledSubsystems := 4 }

def smallBoot : Boot where
  parts := {
    pageSize := 608
    kernelAddr := 0
    ramdiskAddr := 0
    secondAddr := 0
    tagsAddr := 0
    unused := 0
    name := List.replicate BootImage.nameSize 0
    arguments := utf8 "console=ttyS0" ++ List.replicate 499 0
    id := List.replicate 32 0
    headerPadding := []
    kernel := .zeroFilled (by decide) bareKernel
    ramdisk := .zeroFilled (by decide) [1, 2, 3]
    second := .zeroFilled (by decide) [9, 9]
    deviceTree := .zeroFilled (by decide) (DeviceTree.blobOf mountedTree ++ [0xFF])
    name_length := by decide +kernel
    arguments_length := by decide +kernel
    id_length := by decide +kernel
    header_page := by decide +kernel }
  trailing := [7]
  tree := mountedTree
  blob := DeviceTree.blobOf mountedTree
  filler := [0xFF]
  verdict := ⟨.green, "", true⟩
  board := ⟨0, 0, 0, 0, 0, .zero, .zero⟩
  base := 0x80000000
  ram := [⟨0x80000000, 0x40000000⟩]
  path := none

theorem smallBoot_wellFormed : smallBoot.WellFormed equipped where
  page := by decide
  expected := by
    intro page h
    cases h
  size := by decide +kernel
  kernel := ⟨by decide +kernel, by unfold Kernel.Contained; decide +kernel⟩
  ramdisk := by decide
  portable := ⟨by decide +kernel, by decide +kernel, by decide +kernel⟩
  encoded := DeviceTree.toBytes_eq_ok_iff.mpr ⟨by decide +kernel, rfl⟩
  slot := rfl
  alone := by
    intro header hprobe
    have hnone : DeviceTree.Header.probe? [0xFF] = none := by decide +kernel
    rw [smallBoot, hnone] at hprobe
    cases hprobe
  memory := by decide +kernel
  chosen := by decide +kernel

theorem smallBoot_fits : smallBoot.Fits equipped fromFlash where
  ordered := by decide
  kernel := by decide +kernel
  ramdisk := by decide +kernel
  blob := by decide +kernel
  patched := by
    refine ⟨_, DeviceTree.toBytes_eq_ok_iff.mpr ⟨?_, rfl⟩, ?_⟩
    · decide +kernel
    · decide +kernel

theorem smallBoot_served : smallBoot.Served equipped fromFlash smallBoot.firmware where
  load := rfl
  verify _ := ⟨rfl, by decide, rfl⟩
  identity := rfl
  ramBase := rfl
  ramRegions := rfl
  ram := by decide
  patch := rfl
  write _ _ _ := rfl

theorem wellFormed_boots_small :
    let x := ((Session.mk equipped []).attempt fromFlash smallBoot.firmware).1
    let patched := smallBoot.patched equipped fromFlash
    (∃ handoff, x.decision = .proceed handoff) ∧
      (∃ out, x.writes = [(0x80080000, bareKernel), (0x82200000, [1, 2, 3]), (0x82000000, out)] ∧
        DeviceTree.parse out = .ok patched) ∧
      smallBoot.Granted equipped fromFlash patched ∧
      (patched.root.at? [3, 0, 0, 0]).bind (·.value? "dev") =
        some (nulTerminated "/soc/ufs/boot ") ∧
      (patched.root.at? [2, 0]).bind (·.value? "status") = some (nulTerminated "disabled") := by
  obtain ⟨hproceed, out, hwrites, hparse, -, -, -, hgranted⟩ := wellFormed_boots ⟨equipped, []⟩
    fromFlash smallBoot.firmware smallBoot (by decide) (by decide) (by decide) smallBoot_wellFormed
    smallBoot_fits smallBoot_served rfl
  exact ⟨⟨_, hproceed⟩, ⟨out, hwrites, hparse⟩, hgranted, by decide +kernel, by decide +kernel⟩

end BootAssembly.Attempt
