import KernelBoot.Board.Ram
import KernelBoot.Uefi.Files
import KernelBoot.Uefi.Medium
import KernelBoot.Uefi.Platform
import KernelBoot.Uefi.Volume

/-!
A machine with UEFI firmware that follows a script. Its memory and its volume are real enough for a
kernel to be loaded; which of its services fail, and when, is said beforehand.
-/
namespace KernelBoot

structure MachineScript where
  loadOptions : Option Bytes
  ownPath : Option String
  volume : BootVolume
  disks : List Disk
  memoryMap : MemoryMap
  allocation : CallScript
  mapRetrieval : CallScript
  variableTable : List (String × Bytes)
  /-- Variables that cannot be read, whether they are there or not. -/
  brokenVariables : List (String × UefiStatus)

structure Machine where
  script : MachineScript
  map : MemoryMap
  memory : Ram
  allocations : List (Nat × Nat)
  allocationCalls : Nat
  mapCalls : Nat
  handles : List FileHandle
  hasExited : Bool

namespace Machine

def new (script : MachineScript) : Machine :=
  ⟨script, script.memoryMap, .filled 0xAA, [], 0, 0, [], false⟩

def allocateOnce (start pages : Nat) (m : Machine) : Except UefiStatus Unit × Machine :=
  let m' := { m with allocationCalls := m.allocationCalls + 1 }
  match m.script.allocation.outcome m.allocationCalls, m.map.take? start pages with
  | .error status, _ => (.error status, m')
  | .ok (), none => (.error .notFound, m')
  | .ok (), some map => (.ok (), { m' with map, allocations := m.allocations ++ [(start, pages)] })

/-- Address zero is no place for an allocation: pages there are asked for again, which fails, and
    given back. -/
def allocate (start pages : Nat) (m : Machine) : Except UefiStatus Unit × Machine :=
  match m.allocateOnce start pages with
  | (.ok (), after) =>
    if start = 0 then
      match after.allocateOnce start pages with
      | (.error status, again) =>
        (.error status, { again with map := m.map, allocations := m.allocations })
      | (.ok (), again) => (.error .outOfResources, again)
    else (.ok (), after)
  | refused => refused

def retrieveMap : Attempt Machine UefiStatus MemoryMap :=
  .ofEffect <| Effect.step fun m =>
    ((m.script.mapRetrieval.outcome m.mapCalls).map fun _ => m.map,
      { m with mapCalls := m.mapCalls + 1 })

def namedVariable (name : String) (m : Machine) : Except UefiStatus Bytes :=
  match m.script.brokenVariables.lookup name, m.script.variableTable.lookup name with
  | some status, _ => .error status
  | none, none => .error .notFound
  | none, some value => .ok value

def services : BootServices Machine where
  allocatePages start pages := .ofEffect (Effect.step (allocate start pages))
  memoryMap := retrieveMap
  readVariable name := .ofEffect (Effect.ask (namedVariable name))
  readMemory m range := m.memory.read range.start range.len
  writeMemory start bytes m := { m with memory := m.memory.store start bytes }
  exit m := { m with hasExited := true }

def handle (h : Nat) (m : Machine) : FileHandle := m.handles.getD h (.new .emptyRoot)

def withHandle (h : Nat) (handle : FileHandle) (m : Machine) : Machine :=
  { m with handles := m.handles.set h handle }

def newHandle (node : VolumeNode) : Attempt Machine UefiStatus Nat :=
  .ofEffect <| Effect.step fun m =>
    (.ok m.handles.length, { m with handles := m.handles ++ [.new node] })

def through (h : Nat) (a : Attempt FileHandle UefiStatus α) : Attempt Machine UefiStatus α :=
  a.on (handle h) (withHandle h)

def call (h : Nat) (f : FileHandle → Except UefiStatus α × FileHandle) :
    Attempt Machine UefiStatus α :=
  through h (.ofEffect (Effect.step f))

def files : FileServices Machine Nat where
  locateVolume := do
    let volume := (← Attempt.ask Machine.script).volume
    .ofExcept (UefiStatus.outcome volume.locateFailure)
  openRoot := do
    let volume := (← Attempt.ask Machine.script).volume
    .ofExcept (UefiStatus.outcome volume.openFailure)
    newHandle volume.root
  openFrom h path := do
    let root := (← Attempt.ask Machine.script).volume.root
    let here := (← Attempt.ask (handle h)).node
    newHandle (← .ofExcept (root.openFrom here path))
  position h := call h FileHandle.tell
  seek h position := call h (FileHandle.seek position)
  read h room := through h (FileHandle.read room)
  readEntry h := call h FileHandle.readEntry

/-- Steps for a walk through all directories, for as many times as there are nodes. Only a name that
    leads to a directory above can take more. -/
def walkSteps (m : Machine) : Nat :=
  let nodes := m.script.volume.root.size
  (nodes + 1) * (3 * nodes)

def storage : Storage (UefiPlatform Machine) where
  list dir := UefiPlatform.call do
    (files.listFiles (← Attempt.ask walkSteps) dir).mapError ListingError.toStorage
  readFile path := UefiPlatform.call (files.readFile path)
  readDevice device := UefiPlatform.call do
    (← openMedium (← Attempt.ask Machine.script).disks device).readAll

end Machine
end KernelBoot
