import KernelBoot.Boot.Gzip
import KernelBoot.Boot.Source
import KernelBoot.Inflate.Stream
import KernelBoot.Uefi.Services

/-!
The loader's platform on a UEFI system. Memory is given out at requested addresses only; a claim
above some address looks for a place in the memory map first. What the loader has claimed, it may
read and write.
-/
namespace KernelBoot

structure UefiPlatform (σ : Type) where
  system : σ
  claimed : List AddressRange

namespace UefiPlatform

def call (a : Attempt σ ε α) : Attempt (UefiPlatform σ) ε α :=
  a.on system fun system platform => { platform with system }

def claimError (address : Nat) : UefiStatus → FirmwareError
  | .notFound => .addressUnavailable address
  | _ => .outOfResources

def claim (services : BootServices σ) (range : AddressRange) :
    Attempt (UefiPlatform σ) FirmwareError AddressRange := do
  let pages := PageSize.platform.pagesFor range.len
  (call (services.allocatePages range.start pages)).mapError (claimError range.start)
  Attempt.log (LogTarget.firmware.line .debug
    s!"Allocated {pages} pages at {Address.text range.start}")
  ExceptT.lift (Effect.change fun p => { p with claimed := p.claimed ++ [range] })
  return range

def retrieveMap (services : BootServices σ) : Attempt (UefiPlatform σ) FirmwareError MemoryMap :=
  (call services.memoryMap).mapError fun _ => .platform "memory map"

def claimAbove (services : BootServices σ) (minimum size : Nat) :
    Attempt (UefiPlatform σ) FirmwareError AddressRange := do
  let size := PageSize.platform.pagesFor size * PageSize.platform.bytes
  match (← retrieveMap services).lowestFit? minimum size with
  | none => throw .outOfResources
  | some range => claim services range

def read (services : BootServices σ) (p : UefiPlatform σ) (range : AddressRange) :
    Except FirmwareError Bytes :=
  if range.isEmpty then .ok []
  else if p.claimed.any fun c => range.within c then .ok (services.readMemory p.system range)
  else .error (.notAllocated range)

def readVariable (services : BootServices σ) (name : String) :
    Effect (UefiPlatform σ) (Option Bytes) := do
  match ← (call (services.readVariable name)).run with
  | .ok value => return some value
  | .error .notFound => return none
  | .error status =>
    Effect.log (LogTarget.firmware.line .warn s!"Unable to read variable {name}: {status.name}")
    return none

def deviceTreeMachineType : UInt32 := 0xFFFFFFFF

def decompress (stream : Bytes) (room : Nat) : Attempt σ FirmwareError (Nat × Bytes) :=
  match Gzip.deflatePayload stream with
  | none => throw .decompression
  | some payload =>
    match Inflate.inflate payload room with
    | (.ok (), bytes) => return (bytes.length, bytes)
    | (.error stop, bytes) => do
      Attempt.log (LogTarget.firmware.line .debug
        s!"Inflate stopped with {stop.name} after {bytes.length} bytes")
      throw .decompression

/-- Leaves boot services; the console goes with them. -/
def exitBootServices (services : BootServices σ) : Effect (UefiPlatform σ) Unit :=
  modify fun s =>
    ⟨{ s.world with system := services.exit s.world.system }, s.logger.closeConsole⟩

/-- The jump into a kernel with a tag list is known to 32-bit ARM only, and this is none. -/
def firmware (services : BootServices σ) : Firmware (UefiPlatform σ) where
  allocateAt := claim services
  allocateAbove := claimAbove services
  memory range := .ofEffect (Effect.ask fun p => p.read services range)
  store range bytes := Effect.change fun p =>
    { p with system := services.writeMemory range.start bytes p.system }
  memoryMap := return (← retrieveMap services).usable
  readVariable := readVariable services
  defaultMachineType _ := deviceTreeMachineType
  decompress := decompress
  prepareHandoff := ExceptT.lift (exitBootServices services)
  disableCaches := return
  enterKernel _ := throw (.unsupported "ATAG kernel entry on this architecture")

end UefiPlatform

def FileReader.onPlatform (file : FileReader σ) : FileReader (UefiPlatform σ) where
  length p := file.length p.system
  readAt offset room := UefiPlatform.call (file.readAt offset room)

end KernelBoot
