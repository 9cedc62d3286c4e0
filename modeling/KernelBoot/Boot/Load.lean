import KernelBoot.BootImage.Layout
import KernelBoot.Boot.Plan
import KernelBoot.Boot.Ramdisk
import KernelBoot.Boot.TagList

/-!
Loading a boot image and starting it. Everything that can be wrong with the image itself is found
before the first memory is claimed. Then the tag area and the segments are claimed and filled one
after the other, the ramdisk is patched if multiboot is asked for, and the tag list is written
last.
-/
namespace KernelBoot

structure LoadRequest where
  arguments : List String
  multiboot : Bool
  rootDevice : Option String
  searchPrefix : String
  loaderPath : String
deriving DecidableEq

/-- An image in memory. Its header has the final addresses and the final ramdisk size. -/
structure PreparedBoot where
  header : BootHeader
  kernel : AddressRange
  ramdisk : AddressRange
  second : AddressRange
  tagsAddress : Nat
  tagsLength : Nat
  commandLine : CommandLine
  arm64 : Bool
deriving DecidableEq

namespace PreparedBoot

def tags (p : PreparedBoot) : AddressRange := .sized p.tagsAddress p.tagsLength

def entry (p : PreparedBoot) : Nat := if p.second.isEmpty then p.kernel.start else p.second.start

def handoff (p : PreparedBoot) (machineType : UInt32) : Handoff :=
  ⟨p.entry, machineType, p.tagsAddress, p.kernel, p.ramdisk, p.second, p.tagsLength⟩

end PreparedBoot

def machineType (firmware : Firmware σ) : Effect σ UInt32 := do
  match ← firmware.readVariable Variable.machineType with
  | none => Effect.ask firmware.defaultMachineType
  | some value =>
    if value.length = 4 then return Bytes.word32 value 0
    else
      Effect.log (LogTarget.loader.line .warn
        s!"Ignoring {Variable.machineType}: expected 4 bytes, got {value.length}")
      Effect.ask firmware.defaultMachineType

/-- With pages smaller than the long header, the place of the extra command line already belongs
    to the kernel. -/
def dropForeignExtra (h : BootHeader) : BootHeader :=
  if h.pageSize.bytes < BootHeader.sizeWithExtra then { h with extraCommandLine := none } else h

def readHeader (source : Source σ) : Attempt σ LoadError BootHeader := do
  let size ← Attempt.ask source.size
  let (result, head) ← source.readAt 0 (min size BootHeader.sizeWithExtra)
  Attempt.ofExcept (result.mapError (LoadError.ofRead "boot image header"))
  let header ← Attempt.ofExcept ((BootHeader.parse head).mapError LoadError.ofImage)
  return dropForeignExtra header

/-- Whether the kernel is for 64-bit ARM; one too short to tell is not. -/
def detectArm64 (source : Source σ) (layout : ImageLayout) : Attempt σ LoadError Bool := do
  if layout.kernel.size < kernelHeadLength then return false
  let (result, head) ← source.readAt layout.kernel.offset kernelHeadLength
  Attempt.ofExcept (result.mapError (LoadError.ofRead "kernel"))
  return isArm64Kernel head

structure ImageFacts where
  header : BootHeader
  layout : ImageLayout
  arm64 : Bool

def ImageFacts.summary (i : ImageFacts) : LogLine :=
  let kind := if i.arm64 then "arm64" else "arm"
  LogTarget.loader.line .info
    s!"Boot image: {kind} kernel of {i.header.kernel.size} bytes, ramdisk of {i.header.ramdisk.size} bytes, second stage of {i.header.second.size} bytes, page size {i.layout.pageSize.bytes}"

def examine (source : Source σ) : Attempt σ LoadError ImageFacts := do
  let header ← readHeader source
  if header.deviceTreeSize ≠ 0 then throw (.unsupported "device tree")
  let layout ← Attempt.ofExcept ((ImageLayout.of header).mapError LoadError.ofImage)
  let size ← Attempt.ask source.size
  if layout.requiredLength > size then
    throw (.prematureEnd "boot image" (.prematureEnd 0 layout.requiredLength size))
  let arm64 ← detectArm64 source layout
  return ⟨header, layout, arm64⟩

def loadSegment (source : Source σ) (firmware : Firmware σ) (what : String)
    (range : AddressRange) (offset size : Nat) : Attempt σ LoadError Unit := do
  if range.isEmpty then return
  if size ≥ addressSpace then throw (.bug "segment size")
  let memory ← (firmware.memory range).mapError LoadError.firmware
  if size > memory.length then throw (.bug "segment exceeds its extent")
  let (result, data) ← source.readAt offset size
  match result with
  | .error e =>
    firmware.store range (data ++ memory.drop data.length)
    throw (LoadError.ofRead what e)
  | .ok () =>
    firmware.store range (data ++ Bytes.zeros (memory.length - size))
    Attempt.log (LogTarget.loader.line .debug s!"Loaded {size} bytes of {what} to {range.text}")

def placeSegment (source : Source σ) (firmware : Firmware σ) (plan : MemoryPlan) (what : String)
    (address : Nat) (placement : Placement) : Attempt σ LoadError (AddressRange × MemoryPlan) := do
  let (claimed, plan) ← plan.claim firmware what address placement.extent
  let range ← Attempt.ofExcept (claimed.mapError LoadError.ofPlan)
  loadSegment source firmware what range placement.offset placement.size
  return (range, plan)

def originalRamdisk (firmware : Firmware σ) (raw : Bytes) (config : LoaderConfig) :
    Attempt σ LoadError Bytes :=
  if Gzip.isGzip raw then (inflateRamdisk firmware raw config).mapError LoadError.ofPatch
  else return raw

def patchRamdisk (firmware : Firmware σ) (storage : Storage σ) (plan : MemoryPlan)
    (loaded : AddressRange) (size : Nat) (request : LoadRequest) (config : LoaderConfig) :
    Attempt σ LoadError AddressRange := do
  if size ≥ addressSpace then throw (.bug "ramdisk size")
  let memory ← (firmware.memory loaded).mapError LoadError.firmware
  if size > memory.length then throw (.bug "ramdisk exceeds its extent")
  let original ← originalRamdisk firmware (memory.take size) config
  let injection ← Injection.gather storage request.searchPrefix request.rootDevice config
  let (result, lines) := patch original injection config
  Attempt.logAll lines
  let patched ← Attempt.ofExcept (result.mapError LoadError.ofPatch)
  let (placed, _) ← plan.placeRamdisk firmware loaded patched.length config.tagAreaSize
  let range ← Attempt.ofExcept (placed.mapError LoadError.ofPlan)
  let target ← (firmware.memory range).mapError LoadError.firmware
  let (written, target) := patched.write target
  firmware.store range target
  let length ← Attempt.ofExcept (written.mapError LoadError.ofPatch)
  if length ≠ patched.length then throw (.bug "patched ramdisk size changed while writing")
  return range

def commandLineParts (h : BootHeader) (fragment : Option Bytes) (request : LoadRequest)
    (config : LoaderConfig) : CommandLineParts where
  header := h.commandLineText
  headerExtra := h.extraText
  fragment := Bytes.upToNul (fragment.getD [])
  arguments := request.arguments
  init := if request.multiboot then some config.initName else none
  key := config.loaderPathKey
  loaderPath := request.loaderPath

def buildCommandLine (firmware : Firmware σ) (h : BootHeader) (request : LoadRequest)
    (config : LoaderConfig) : Effect σ CommandLine := do
  let fragment ← firmware.readVariable Variable.additionalCommandLine
  return (commandLineParts h fragment request config).build

def writeTagList (firmware : Firmware σ) (area ramdisk : AddressRange) (line : CommandLine) :
    Attempt σ LoadError Nat := do
  let regions := MemoryRegions.coalesce (← firmware.memoryMap.mapError LoadError.firmware)
  Attempt.logAll (MemoryRecord.warnings regions)
  let records := MemoryRecord.ofRegions regions
  let needed := tagListLength records line
  if needed > area.len then throw (.bufferTooSmall needed area.len)
  let memory ← (firmware.memory area).mapError LoadError.firmware
  let (result, memory) := writeTags memory ramdisk records line
  firmware.store area memory
  let length ← Attempt.ofExcept result
  Attempt.log (tagListLine length ramdisk records)
  return length

def finalHeader (h : BootHeader) (kernel ramdisk second : AddressRange) (tags : Nat) :
    Except LoadError BootHeader :=
  match word? ramdisk.len with
  | none => .error (.bug "ramdisk size")
  | some size => .ok
    { h with
      kernel := { h.kernel with address := kernel.start }
      ramdisk := ⟨size, ramdisk.start⟩
      second := { h.second with address := second.start }
      tagsAddress := tags }

def PreparedBoot.summary (p : PreparedBoot) : LogLine :=
  LogTarget.loader.line .info
    s!"Prepared kernel at {Address.text p.kernel.start}, ramdisk at {Address.text p.ramdisk.start} ({p.ramdisk.len} bytes), tags at {Address.text p.tagsAddress} ({p.tagsLength} bytes)"

structure PlacedImage where
  facts : ImageFacts
  plan : MemoryPlan
  tags : AddressRange
  kernel : AddressRange
  ramdisk : AddressRange
  second : AddressRange

def placeImage (source : Source σ) (firmware : Firmware σ) (config : LoaderConfig) :
    Attempt σ LoadError PlacedImage := do
  let image ← examine source
  Attempt.log image.summary
  let layout := image.layout
  let plan ← MemoryPlan.resolve firmware image.header image.arm64
  let (claimed, plan) ← plan.claim firmware "tags" plan.tags config.tagAreaSize
  let area ← Attempt.ofExcept (claimed.mapError LoadError.ofPlan)
  let (kernel, plan) ← placeSegment source firmware plan "kernel" plan.kernel layout.kernel
  let (ramdisk, plan) ← placeSegment source firmware plan "ramdisk" plan.ramdisk layout.ramdisk
  let (second, plan) ← placeSegment source firmware plan "second stage" plan.second layout.second
  return ⟨image, plan, area, kernel, ramdisk, second⟩

def finalRamdisk (firmware : Firmware σ) (storage : Storage σ) (placed : PlacedImage)
    (request : LoadRequest) (config : LoaderConfig) : Attempt σ LoadError AddressRange :=
  let size := placed.facts.layout.ramdisk.size
  if request.multiboot then
    patchRamdisk firmware storage placed.plan placed.ramdisk size request config
  else return .sized placed.ramdisk.start size

def load (source : Source σ) (firmware : Firmware σ) (storage : Storage σ)
    (request : LoadRequest) (config : LoaderConfig) : Attempt σ LoadError PreparedBoot := do
  let placed ← placeImage source firmware config
  let image := placed.facts
  let layout := image.layout
  let ramdisk ← finalRamdisk firmware storage placed request config
  let commandLine ← buildCommandLine firmware image.header request config
  let tagsLength ← writeTagList firmware placed.tags ramdisk commandLine
  let kernel := AddressRange.sized placed.kernel.start layout.kernel.size
  let second := AddressRange.sized placed.second.start layout.second.size
  let header ← Attempt.ofExcept (finalHeader image.header kernel ramdisk second placed.tags.start)
  let prepared : PreparedBoot :=
    ⟨header, kernel, ramdisk, second, placed.tags.start, tagsLength, commandLine, image.arm64⟩
  Attempt.log prepared.summary
  return prepared

def Handoff.lines (h : Handoff) : List LogLine :=
  let line := LogTarget.handoff.line .info
  [line s!"entry = {Address.text h.entry}, r1 (machine) = {Text.hex h.machineType.toNat}, r2 (tags) = {Address.text h.tags} ({h.tagsLength} bytes)",
   line s!"  kernel  = {h.kernel.text}",
   line s!"  ramdisk = {h.ramdisk.text}"] ++
    if h.second.isEmpty then [] else [line s!"  second  = {h.second.text}"]

/-- Hands control to the kernel. It returns only to say why that failed. -/
def boot (firmware : Firmware σ) (prepared : PreparedBoot) : Effect σ LoadError := do
  let handoff := prepared.handoff (← machineType firmware)
  Effect.logAll handoff.lines
  match ← (firmware.prepareHandoff).run with
  | .error e => return .firmware e
  | .ok () =>
    firmware.disableCaches
    match ← (firmware.enterKernel handoff).run with
    | .error e => return .firmware e
    | .ok () => return .kernelReturned

end KernelBoot
