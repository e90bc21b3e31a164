import BootAssembly.Checked
import BootAssembly.CommandLine.Fields

namespace BootAssembly

structure CommandLine where
  buffer : Bytes
  capacity : Nat
deriving DecidableEq, Repr

namespace CommandLine

def bytes (c : CommandLine) : Bytes := c.buffer.take (c.buffer.length - 1)

def text (c : CommandLine) : String := (ofUtf8? c.bytes).getD ""

def verifiedState : Bytes := utf8 " androidboot.verifiedbootstate="

def verityMode : Bytes := utf8 " androidboot.veritymode="

def bootDevice : Bytes := utf8 " androidboot.bootdevice="

def serialNo : Bytes := utf8 " androidboot.serialno="

def bootMode : Bytes := utf8 " androidboot.mode="

def quiet : Bytes := utf8 " quiet"

def charger : Bytes := utf8 " androidboot.mode=charger"

def alarmBoot : Bytes := utf8 " androidboot.alarmboot=true"

def baseband : Bytes := utf8 " androidboot.baseband="

def theftProtection : Bytes := utf8 " mdtp"

def slotSuffix : Bytes := utf8 " androidboot.slot_suffix="

def skipInitramfs : Bytes := utf8 " skip_initramfs"

def rootInit : Bytes := utf8 " rootwait ro init=/init"

def overlayIndex : Bytes := utf8 " androidboot.dtbo_idx="

def lowerAscii (bytes : Bytes) : Bytes :=
  bytes.map fun b => if 65 ≤ b ∧ b ≤ 90 then b + 32 else b

def decimalLength (n : Nat) : Nat := if n < 10 then 1 else decimalLength (n / 10) + 1
termination_by n

def fieldLengths (f : Fields) (path : Option String) : List Nat :=
  let valued (literal : Bytes) (value : Option String) : List Nat :=
    value.toList.map fun v => literal.length + (utf8 v).length
  let verified := match f.verifiedBoot with
    | none => []
    | some v => [verifiedState.length + (utf8 v.state.text).length] ++
        valued verityMode (v.verity.map VerityMode.text) ++ [(utf8 v.fragment).length]
  let mode := match f.factoryMode with
    | some m => bootMode.length + (utf8 m).length + quiet.length
    | none => if f.chargerPause then charger.length
        else if f.alarmBoot then alarmBoot.length else 0
  let root := match f.root with
    | none => []
    | some r => (if r.skipInitramfs then [skipInitramfs.length] else []) ++
        [rootInit.length, (path.map fun p => (utf8 p).length).getD 0]
  verified ++ valued bootDevice f.bootDevice ++ valued serialNo f.serialNo ++ [mode] ++
    valued baseband f.baseband ++ f.displayPanel.toList.map (fun p => (utf8 p).length) ++
    (if f.theftProtection then [theftProtection.length] else []) ++
    valued slotSuffix f.slotSuffix ++ root ++
    f.overlayIndex.toList.map fun i => overlayIndex.length + decimalLength i

def requiredLength (base : Bytes) (f : Fields) (path : Option String) : Except Fault Nat :=
  ([base.length] ++ fieldLengths f path ++ [1]).foldlM (addSize · · "cmdline length") 0

def pieces (f : Fields) (path : Option String) : List Bytes :=
  let valued (literal : Bytes) (value : Option String) : List Bytes :=
    match value with
    | none => []
    | some v => [literal, utf8 v]
  let verified := match f.verifiedBoot with
    | none => []
    | some v => [verifiedState, utf8 v.state.text] ++
        valued verityMode (v.verity.map VerityMode.text) ++ [utf8 v.fragment]
  let mode := match f.factoryMode with
    | some m => [bootMode, utf8 m, quiet]
    | none => if f.chargerPause then [charger] else if f.alarmBoot then [alarmBoot] else []
  let radio := match f.baseband with
    | none => []
    | some b => [baseband, lowerAscii (utf8 b)]
  let root := match f.root with
    | none => []
    | some r => (if r.skipInitramfs then [skipInitramfs] else []) ++
        [rootInit] ++ path.toList.map utf8
  verified ++ valued bootDevice f.bootDevice ++ valued serialNo f.serialNo ++ mode ++ radio ++
    f.displayPanel.toList.map utf8 ++ (if f.theftProtection then [theftProtection] else []) ++
    valued slotSuffix f.slotSuffix ++ root ++
    valued overlayIndex (f.overlayIndex.map decimal)

def push (capacity : Nat) (written piece : Bytes) : Except Fault Bytes :=
  if written.length + piece.length + 1 ≤ capacity then .ok (written ++ piece)
  else .error (.buildInconsistency "cmdline field exceeds precomputed length")

def renderedPath (f : Fields) : Except Fault (Option String) :=
  match f.root with
  | none => .ok none
  | some r => some <$> r.systemPath.render

def assemble (base : Bytes) (f : Fields) : Except Fault CommandLine := do
  let path ← renderedPath f
  let capacity ← requiredLength base f path
  reserve capacity "cmdline"
  let written ← (base :: pieces f path).foldlM (push capacity) []
  return ⟨written ++ [0], capacity⟩

def build (base : Bytes) (f : Fields) : Report CommandLine := do
  let line ← assemble base f
  Report.info "cmdline" ("cmdline: " ++ line.text)
  return line

end CommandLine

end BootAssembly
