import BootAssembly.Patch
import BootAssembly.Proofs.DeviceTree.Footprint

namespace BootAssembly.Patch

open DeviceTree

namespace TreeEdit

variable {α β : Type} {t : DeviceTree}

def run (x : TreeEdit α) (t : DeviceTree) : Except Fault (α × DeviceTree) :=
  (x t).1.outcome.map (·, (x t).2)

theorem run_bind (x : TreeEdit α) (f : α → TreeEdit β) (t : DeviceTree) :
    (x >>= f).run t = x.run t >>= fun r => (f r.1).run r.2 := by
  show run (TreeEdit.bind x f) t = _
  simp only [run, TreeEdit.bind]
  obtain ⟨⟨outcome, trace⟩, t'⟩ := x t
  cases outcome <;> rfl

theorem run_bind_eq_ok {x : TreeEdit α} {f : α → TreeEdit β} {r : β × DeviceTree} :
    (x >>= f).run t = .ok r ↔ ∃ a t₁, x.run t = .ok (a, t₁) ∧ (f a).run t₁ = .ok r := by
  rw [run_bind, bind_eq_ok, Prod.exists]

theorem run_pure_eq_ok {a b : α} {t' : DeviceTree} :
    (pure a : TreeEdit α).run t = .ok (b, t') ↔ a = b ∧ t = t' := by
  show Except.ok (a, t) = .ok (b, t') ↔ _
  simp

theorem run_ofReport_eq_ok {x : Report α} {a : α} {t' : DeviceTree} :
    (ofReport x).run t = .ok (a, t') ↔ x.outcome = .ok a ∧ t = t' := by
  obtain ⟨outcome, trace⟩ := x
  cases outcome <;> simp [run, ofReport, Except.map]

theorem run_node?_eq_ok {path : String} {n : Option Node} {t' : DeviceTree} :
    (node? path).run t = .ok (n, t') ↔ t.node? path = n ∧ t = t' := run_pure_eq_ok

theorem run_modifyNode_eq_ok {path : String} {f : Node → Node} {t' : DeviceTree} :
    (modifyNode path f).run t = .ok ((), t') ↔ t.modifyNode path f = t' := by
  show Except.ok ((), t.modifyNode path f) = .ok ((), t') ↔ _
  simp

theorem run_guard_eq_ok {p : Prop} [Decidable p] {fault : Fault} {f : PUnit → TreeEdit β}
    {r : β × DeviceTree} :
    (if p then (fail fault : TreeEdit PUnit) >>= f else f ⟨⟩).run t = .ok r ↔
      ¬ p ∧ (f ⟨⟩).run t = .ok r := by
  by_cases h : p
  · rw [if_pos h, run_bind_eq_ok]
    constructor
    · rintro ⟨_, _, hfail, -⟩
      cases (run_ofReport_eq_ok.mp hfail).1
    · exact fun hr => absurd h hr.1
  · rw [if_neg h]
    exact ⟨fun hr => ⟨h, hr⟩, And.right⟩

end TreeEdit

open TreeEdit

variable {t t' : DeviceTree}

def regOf (wide : Bool) (ram : List RamRegion) : Bytes :=
  ram.flatMap fun region =>
    if wide then be64 region.base ++ be64 region.size
    else be32 region.base.toUInt32 ++ be32 region.size.toUInt32

def Fits (wide : Bool) (region : RamRegion) : Prop :=
  wide = false → region.base.toNat < UInt32.size ∧ region.size.toNat < UInt32.size

theorem encode_eq_ok {w : RegWriter} {v : UInt64} {bytes : Bytes} :
    w.encode v = .ok bytes ↔ (w.wide = false → v.toNat < UInt32.size) ∧
      bytes = if w.wide then be64 v else be32 v.toUInt32 := by
  unfold RegWriter.encode
  cases w.wide with
  | true => simp [eq_comm]
  | false => simpa using ite_eq_ok

theorem regOf_cons (wide : Bool) (region : RamRegion) (ram : List RamRegion) :
    regOf wide (region :: ram) = regOf wide [region] ++ regOf wide ram := by
  simp [regOf]

def RegWriter.write (w : RegWriter) (region : RamRegion) (ps : Properties) : Properties :=
  if w.written = 0 then ps.set "reg" (regOf w.wide [region])
  else ps.extend "reg" (regOf w.wide [region])

theorem RegWriter.sameBut_write (w : RegWriter) (region : RamRegion) (ps : Properties) :
    ps.SameBut (· = "reg") (w.write region ps) := by
  unfold write
  split
  · exact Properties.sameBut_set _ _ ps
  · exact Properties.sameBut_extend _ _ ps

theorem push_eq_ok {w w' : RegWriter} {region : RamRegion} {n n' : Node} :
    w.push region n = .ok (w', n') ↔ Fits w.wide region ∧ w' = { w with written := w.written + 1 } ∧
      n' = { n with properties := w.write region n.properties } := by
  simp only [RegWriter.push, bind_eq_ok, encode_eq_ok]
  constructor
  · rintro ⟨_, ⟨hbase, rfl⟩, _, ⟨hsize, rfl⟩, h⟩
    cases h
    refine ⟨fun hnarrow => ⟨hbase hnarrow, hsize hnarrow⟩, rfl, ?_⟩
    cases hwide : w.wide <;> simp [RegWriter.write, regOf, hwide]
  · rintro ⟨hfits, rfl, rfl⟩
    refine ⟨_, ⟨fun hnarrow => (hfits hnarrow).1, rfl⟩, _,
      ⟨fun hnarrow => (hfits hnarrow).2, rfl⟩, ?_⟩
    cases hwide : w.wide <;> simp [RegWriter.write, regOf, hwide, pure, Except.pure]

abbrev AtMemory (t : DeviceTree) : Position → String → Prop :=
  Node.AtPath (segments memoryPath) "reg" t.root

theorem pushRegion_run {w w' : RegWriter} {region : RamRegion}
    (h : (pushRegion w region).run t = .ok (w', t')) :
    Fits w.wide region ∧ w' = { w with written := w.written + 1 } ∧ t.SameBut (AtMemory t) t' ∧
      ∃ n, t.node? memoryPath = some n ∧
        t'.valueAt? memoryPath "reg" = (w.write region n.properties).get? "reg" := by
  obtain ⟨found, _, hfound, h⟩ := run_bind_eq_ok.mp h
  obtain ⟨rfl, rfl⟩ := run_node?_eq_ok.mp hfound
  cases hn : t.node? memoryPath with
  | none =>
    rw [hn] at h
    cases (run_ofReport_eq_ok.mp h).1
  | some n =>
    rw [hn] at h
    obtain ⟨⟨w₁, n₁⟩, _, hlift, h⟩ := run_bind_eq_ok.mp h
    obtain ⟨hpush, rfl⟩ := run_ofReport_eq_ok.mp hlift
    obtain ⟨hfits, rfl, rfl⟩ := push_eq_ok.mp hpush
    obtain ⟨_, _, hmodify, h⟩ := run_bind_eq_ok.mp h
    obtain rfl := run_modifyNode_eq_ok.mp hmodify
    obtain ⟨rfl, rfl⟩ := run_pure_eq_ok.mp h
    -- the push worked on a copy of the node, which goes back to where it came from
    let update (m : Node) : Node := { m with properties := w.write region m.properties }
    have hsame : t.SameBut (AtMemory t) (t.modifyNode memoryPath update) :=
      modifyNode_sameBut (fun _ => rfl) (w.sameBut_write region) memoryPath t
    have hconst : (t.modifyNode memoryPath fun _ => update n) = t.modifyNode memoryPath update :=
      modifyNode_eq hn rfl
    rw [hconst]
    exact ⟨hfits, rfl, hsame, n, rfl, valueAt?_modifyNode hn hsame "reg"⟩

theorem foldlM_pushRegion_run {ram : List RamRegion} {w w' : RegWriter} {value : Bytes}
    (hwritten : 0 < w.written) (hvalue : t.valueAt? memoryPath "reg" = some value)
    (h : (ram.foldlM pushRegion w).run t = .ok (w', t')) :
    (∀ region ∈ ram, Fits w.wide region) ∧ t.SameBut (AtMemory t) t' ∧
      t'.valueAt? memoryPath "reg" = some (value ++ regOf w.wide ram) := by
  -- once something is written, each push extends the value that it finds
  induction ram generalizing w t value with
  | nil =>
    obtain ⟨rfl, rfl⟩ := run_pure_eq_ok.mp h
    exact ⟨nofun, .refl _ _, by rw [hvalue, regOf, List.flatMap_nil, List.append_nil]⟩
  | cons region ram ih =>
    rw [List.foldlM_cons] at h
    obtain ⟨w₁, t₁, hpush, h⟩ := run_bind_eq_ok.mp h
    obtain ⟨hfits, rfl, hsame, n, hn, hpushed⟩ := pushRegion_run hpush
    have hold : n.properties.get? "reg" = some value := by
      rw [valueAt?, hn] at hvalue
      exact hvalue
    rw [RegWriter.write, if_neg (by omega), Properties.get?_extend hold] at hpushed
    obtain ⟨hrest, hsame', hresult⟩ := ih (Nat.succ_pos _) hpushed h
    refine ⟨List.forall_mem_cons.mpr ⟨hfits, hrest⟩,
      hsame.trans (hsame'.mono fun _ _ hat => hat.of_shape_eq hsame.root.shape), ?_⟩
    rw [hresult, regOf_cons w.wide region ram, List.append_assoc]

theorem updateMemory_run {ram : List RamRegion} {wide : Bool}
    (h : (updateMemory ram wide).run t = .ok ((), t')) :
    (∀ region ∈ ram, Fits wide region) ∧ t.SameBut (AtMemory t) t' ∧
      t'.valueAt? memoryPath "reg" = some (regOf wide ram) := by
  obtain ⟨hram, h⟩ := run_guard_eq_ok.mp h
  cases ram with
  | nil => simp at hram
  | cons region ram =>
    obtain ⟨w, t₁, hfold, h⟩ := run_bind_eq_ok.mp h
    obtain ⟨-, rfl⟩ := run_ofReport_eq_ok.mp h
    rw [List.foldlM_cons] at hfold
    obtain ⟨w₁, t₁, hpush, hfold⟩ := run_bind_eq_ok.mp hfold
    obtain ⟨hfits, rfl, hsame, n, -, hpushed⟩ := pushRegion_run hpush
    rw [RegWriter.write, if_pos rfl, Properties.get?_set, if_pos rfl] at hpushed
    obtain ⟨hrest, hsame', hresult⟩ := foldlM_pushRegion_run (Nat.succ_pos _) hpushed hfold
    refine ⟨List.forall_mem_cons.mpr ⟨hfits, hrest⟩,
      hsame.trans (hsame'.mono fun _ _ hat => hat.of_shape_eq hsame.root.shape), ?_⟩
    rw [hresult, ← regOf_cons]

theorem updateSplash_run {splash : Splash} (h : (updateSplash splash).run t = .ok ((), t')) :
    t.SameBut (Node.AtPath (segments splashPath) "reg" t.root) t' := by
  obtain ⟨found, _, hfound, h⟩ := run_bind_eq_ok.mp h
  obtain ⟨rfl, rfl⟩ := run_node?_eq_ok.mp hfound
  split at h
  · obtain ⟨-, rfl⟩ := run_ofReport_eq_ok.mp h
    exact .refl _ _
  · split at h
    · obtain ⟨-, rfl⟩ := run_ofReport_eq_ok.mp h
      exact .refl _ _
    · obtain ⟨-, h⟩ := run_guard_eq_ok.mp h
      obtain ⟨address, _, haddress, h⟩ := run_bind_eq_ok.mp h
      obtain ⟨-, rfl⟩ := run_ofReport_eq_ok.mp haddress
      obtain ⟨size, _, hsize, h⟩ := run_bind_eq_ok.mp h
      obtain ⟨-, rfl⟩ := run_ofReport_eq_ok.mp hsize
      obtain ⟨_, _, hmodify, h⟩ := run_bind_eq_ok.mp h
      obtain rfl := run_modifyNode_eq_ok.mp hmodify
      obtain ⟨-, rfl⟩ := run_ofReport_eq_ok.mp h
      exact modifyNode_sameBut (fun _ => rfl) (Properties.sameBut_modify "reg" _) splashPath t

theorem setChosen_run {name : String} {value : Bytes} {pos : Position}
    (hpos : t.root.locate? (segments chosenPath) = some pos)
    (h : (setChosen name value).run t = .ok ((), t')) :
    t.SameBut (Node.AtPath (segments chosenPath) name t.root) t' ∧
      t'.valueAt? chosenPath name = some value := by
  obtain rfl := run_modifyNode_eq_ok.mp h
  have hsame : t.SameBut (Node.AtPath (segments chosenPath) name t.root)
      (t.modifyNode chosenPath (Node.setValue name value)) :=
    modifyNode_sameBut (fun _ => rfl) (Properties.sameBut_set name value) chosenPath t
  obtain ⟨n, hn⟩ := exists_node? hpos
  refine ⟨hsame, ?_⟩
  rw [valueAt?_modifyNode hn hsame, Node.value?, Node.setValue, Properties.get?_set, if_pos rfl]

inductive Request.Chooses (r : Request) : String → Prop where
  | bootargs : Chooses r "bootargs"
  | seed {v : UInt64} (on : r.capabilities.has .kaslrSeed = true) (given : r.kaslrSeed = some v) :
    Chooses r "kaslr-seed"
  | ramdiskStart (present : r.plan.ramdiskSize ≠ 0) : Chooses r "linux,initrd-start"
  | ramdiskEnd (present : r.plan.ramdiskSize ≠ 0) : Chooses r "linux,initrd-end"

structure Request.Told (r : Request) (t : DeviceTree) : Prop where
  bootargs : t.valueAt? chosenPath "bootargs" = some r.commandLine.buffer
  seed : r.capabilities.has .kaslrSeed = true → ∀ v, r.kaslrSeed = some v →
    t.valueAt? chosenPath "kaslr-seed" = some (be64 v)
  ramdisk : r.plan.ramdiskSize ≠ 0 →
    r.plan.ramdiskAddr.toNat + r.plan.ramdiskSize.toNat < UInt64.size ∧
    t.valueAt? chosenPath "linux,initrd-start" = some (be64 r.plan.ramdiskAddr) ∧
    t.valueAt? chosenPath "linux,initrd-end" =
      some (be64 (r.plan.ramdiskAddr + r.plan.ramdiskSize))

def chooseRamdisk (r : Request) : TreeEdit Unit := do
  if r.plan.ramdiskSize ≠ 0 then
    let stop ← addAddress r.plan.ramdiskAddr r.plan.ramdiskSize "initrd end"
    setChosen "linux,initrd-start" (be64 r.plan.ramdiskAddr)
    setChosen "linux,initrd-end" (be64 stop)

theorem chooseRamdisk_run {r : Request} {pos : Position}
    (hpos : t.root.locate? (segments chosenPath) = some pos)
    (h : (chooseRamdisk r).run t = .ok ((), t')) :
    t.SameBut (fun place name => t.root.locate? (segments chosenPath) = some place ∧
        r.plan.ramdiskSize ≠ 0 ∧ (name = "linux,initrd-start" ∨ name = "linux,initrd-end")) t' ∧
      (r.plan.ramdiskSize ≠ 0 →
        r.plan.ramdiskAddr.toNat + r.plan.ramdiskSize.toNat < UInt64.size ∧
        t'.valueAt? chosenPath "linux,initrd-start" = some (be64 r.plan.ramdiskAddr) ∧
        t'.valueAt? chosenPath "linux,initrd-end" =
          some (be64 (r.plan.ramdiskAddr + r.plan.ramdiskSize))) := by
  unfold chooseRamdisk at h
  split at h
  · rename_i hpresent
    obtain ⟨stop, _, hlift, h⟩ := run_bind_eq_ok.mp h
    obtain ⟨hstop, rfl⟩ := run_ofReport_eq_ok.mp hlift
    obtain ⟨hfits, rfl⟩ := addAddress_eq_ok.mp hstop
    obtain ⟨_, t₁, hset, h⟩ := run_bind_eq_ok.mp h
    obtain ⟨hsame, hvalue⟩ := setChosen_run hpos hset
    have hpos₁ : t₁.root.locate? (segments chosenPath) = some pos := by
      rw [hsame.root.locate?_eq, hpos]
    obtain ⟨hsame', hvalue'⟩ := setChosen_run hpos₁ h
    refine ⟨?_, fun _ => ⟨hfits, ?_, hvalue'⟩⟩
    · apply (hsame.mono _).trans (hsame'.mono _)
      · rintro place name ⟨hplace, rfl⟩
        exact ⟨hplace, hpresent, .inl rfl⟩
      · rintro place name hat
        obtain ⟨hplace, rfl⟩ := hat.of_shape_eq hsame.root.shape
        exact ⟨hplace, hpresent, .inr rfl⟩
    · rw [hsame'.valueAt?_eq, hvalue]
      rintro place - ⟨-, hname⟩
      exact absurd hname (by decide)
  · rename_i hempty
    obtain ⟨-, rfl⟩ := run_pure_eq_ok.mp h
    exact ⟨.refl _ _, fun hpresent => absurd hpresent hempty⟩

def optionally {α : Type} (on : Bool) (given : Option α) (edit : α → TreeEdit Unit)
    (missing : Report Unit) : TreeEdit Unit :=
  if on then
    match given with
    | some a => edit a
    | none => missing
  else pure ()

theorem optionally_bind {α : Type} (on : Bool) (given : Option α) (edit : α → TreeEdit Unit)
    (missing : Report Unit) (rest : TreeEdit Unit) :
    (optionally on given edit missing >>= fun _ => rest) =
      if on then
        match given with
        | some a => edit a >>= fun _ => rest
        | none => (missing : TreeEdit Unit) >>= fun _ => rest
      else rest := by
  unfold optionally
  split
  · split <;> rfl
  · rfl

theorem optionally_run {α : Type} {on : Bool} {given : Option α} {edit : α → TreeEdit Unit}
    {missing : Report Unit} (h : (optionally on given edit missing).run t = .ok ((), t')) :
    (on = true ∧ ∃ a, given = some a ∧ (edit a).run t = .ok ((), t')) ∨
      ¬ (on = true ∧ given.isSome) ∧ t = t' := by
  unfold optionally at h
  split at h
  · split at h
    · exact .inl ⟨‹_›, _, rfl, h⟩
    · exact .inr ⟨by simp, (run_ofReport_eq_ok.mp h).2⟩
  · exact .inr ⟨by simp_all, (run_pure_eq_ok.mp h).2⟩

def chooseSeed (r : Request) : TreeEdit Unit :=
  optionally (r.capabilities.has .kaslrSeed) r.kaslrSeed
    (fun seed => setChosen "kaslr-seed" (be64 seed))
    (Report.warn "dtpatch" "no kaslr seed available")

theorem chooseSeed_run {r : Request} {pos : Position}
    (hpos : t.root.locate? (segments chosenPath) = some pos)
    (h : (chooseSeed r).run t = .ok ((), t')) :
    t.SameBut (fun place name => t.root.locate? (segments chosenPath) = some place ∧
        r.capabilities.has .kaslrSeed = true ∧ r.kaslrSeed.isSome ∧ name = "kaslr-seed") t' ∧
      (r.capabilities.has .kaslrSeed = true → ∀ v, r.kaslrSeed = some v →
        t'.valueAt? chosenPath "kaslr-seed" = some (be64 v)) := by
  rcases optionally_run h with ⟨hon, seed, hseed, hset⟩ | ⟨hoff, rfl⟩
  · obtain ⟨hsame, hvalue⟩ := setChosen_run hpos hset
    refine ⟨hsame.mono ?_, fun _ v hv => ?_⟩
    · rintro place name ⟨hplace, rfl⟩
      exact ⟨hplace, hon, by rw [hseed, Option.isSome_some], rfl⟩
    · rw [hseed] at hv
      cases hv
      exact hvalue
  · exact ⟨.refl _ _, fun hon v hv => absurd ⟨hon, by rw [hv, Option.isSome_some]⟩ hoff⟩

theorem updateChosen_eq (r : Request) : updateChosen r = (do
    if (← TreeEdit.node? chosenPath).isNone then
      TreeEdit.fail (.invalidFormat "device tree has no /chosen node")
    setChosen "bootargs" r.commandLine.buffer
    chooseSeed r
    chooseRamdisk r) := by
  obtain ⟨commandLine, plan, ram, kaslrSeed, splash, bootDevice, mask, capabilities⟩ := r
  simp only [updateChosen, chooseSeed, optionally_bind]
  cases kaslrSeed <;> rfl

theorem updateChosen_run {r : Request} (h : (updateChosen r).run t = .ok ((), t')) :
    t.SameBut (fun place name => t.root.locate? (segments chosenPath) = some place ∧
      r.Chooses name) t' ∧ r.Told t' := by
  rw [updateChosen_eq] at h
  obtain ⟨found, _, hfound, h⟩ := run_bind_eq_ok.mp h
  obtain ⟨rfl, rfl⟩ := run_node?_eq_ok.mp hfound
  obtain ⟨hsome, h⟩ := run_guard_eq_ok.mp h
  rw [Option.isNone_iff_eq_none, ← ne_eq, Option.ne_none_iff_exists'] at hsome
  obtain ⟨n, hn⟩ := hsome
  obtain ⟨pos, hpos, -⟩ := exists_position hn
  obtain ⟨_, t₁, hset, h⟩ := run_bind_eq_ok.mp h
  obtain ⟨hsame₁, hbootargs⟩ := setChosen_run hpos hset
  have hpos₁ : t₁.root.locate? (segments chosenPath) = some pos := by
    rw [hsame₁.root.locate?_eq, hpos]
  obtain ⟨_, t₂, hchoose, h⟩ := run_bind_eq_ok.mp h
  obtain ⟨hsame₂, hseed⟩ := chooseSeed_run hpos₁ hchoose
  have hpos₂ : t₂.root.locate? (segments chosenPath) = some pos := by
    rw [hsame₂.root.locate?_eq, hpos₁]
  obtain ⟨hsame₃, hramdisk⟩ := chooseRamdisk_run hpos₂ h
  refine ⟨?_, ?_, fun hon v hv => ?_, hramdisk⟩
  · apply ((hsame₁.mono _).trans (hsame₂.mono _)).trans (hsame₃.mono _)
    · rintro place name ⟨hplace, rfl⟩
      exact ⟨hplace, .bootargs⟩
    · rintro place name ⟨hplace, hon, hgiven, rfl⟩
      obtain ⟨v, hv⟩ := Option.isSome_iff_exists.mp hgiven
      exact ⟨hsame₁.root.locate?_eq _ ▸ hplace, .seed hon hv⟩
    · rintro place name ⟨hplace, hpresent, rfl | rfl⟩
      · exact ⟨hsame₁.root.locate?_eq _ ▸ hsame₂.root.locate?_eq _ ▸ hplace, .ramdiskStart hpresent⟩
      · exact ⟨hsame₁.root.locate?_eq _ ▸ hsame₂.root.locate?_eq _ ▸ hplace, .ramdiskEnd hpresent⟩
  · rw [hsame₃.valueAt?_eq, hsame₂.valueAt?_eq, hbootargs]
    · rintro place - ⟨-, -, -, hname⟩
      exact absurd hname (by decide)
    · rintro place - ⟨-, -, hname⟩
      exact absurd hname (by decide)
  · rw [hsame₃.valueAt?_eq, hseed hon v hv]
    rintro place - ⟨-, -, hname⟩
    exact absurd hname (by decide)

theorem renameEntry_sameBut (device : String) (entry : Node) :
    entry.SameBut (fun pos name => pos = [] ∧ name = "dev") (renameEntry device entry).1 := by
  unfold renameEntry
  split
  · exact .refl _ _
  · split
    · apply Node.sameBut_properties
      exact (Properties.sameBut_modify "dev" _ _).mono fun _ hname => ⟨rfl, hname⟩
    · exact .refl _ _

def AtEntry (t : DeviceTree) (pos : Position) (name : String) : Prop :=
  name = "dev" ∧ ∃ table i, t.root.locate? (segments fstabPath) = some table ∧ pos = table ++ [i]

theorem updateFstab_run {device : String} (h : (updateFstab device).run t = .ok ((), t')) :
    t.SameBut (AtEntry t) t' := by
  obtain ⟨found, _, hfound, h⟩ := run_bind_eq_ok.mp h
  obtain ⟨hn, rfl⟩ := run_node?_eq_ok.mp hfound
  split at h
  · obtain ⟨-, rfl⟩ := run_ofReport_eq_ok.mp h
    exact .refl _ _
  · rename_i table
    obtain ⟨_, _, hmodify, h⟩ := run_bind_eq_ok.mp h
    obtain rfl := run_modifyNode_eq_ok.mp hmodify
    obtain ⟨_, _, hnotes, h⟩ := run_bind_eq_ok.mp h
    obtain ⟨-, rfl⟩ := run_ofReport_eq_ok.mp hnotes
    obtain ⟨-, rfl⟩ := run_ofReport_eq_ok.mp h
    obtain ⟨pos, hpos, hat⟩ := exists_position hn
    refine ⟨rfl, rfl, ?_⟩
    rw [DeviceTree.modifyNode, Node.modifyAt_eq_modifyPosition hpos]
    apply Node.sameBut_modifyPosition hat
    apply Node.sameBut_children (by simp)
    intro i c c' hc hc'
    rw [List.getElem?_map, List.getElem?_map, hc] at hc'
    cases hc'
    apply (renameEntry_sameBut device c).mono
    rintro below name ⟨rfl, rfl⟩
    exact ⟨rfl, pos, i, hpos, rfl⟩

end BootAssembly.Patch
