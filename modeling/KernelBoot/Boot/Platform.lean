import KernelBoot.Address
import KernelBoot.Boot.Session
import KernelBoot.Bytes

/-!
What the loader needs from a platform: memory, variables, decompression and the jump from the
firmware; files and devices from the storage. Both act on a world of type `σ`.
-/
namespace KernelBoot

inductive FirmwareError where
  | outOfResources
  | addressUnavailable (address : Nat)
  | notAllocated (range : AddressRange)
  | decompression
  | unsupported (what : String)
  | platform (what : String)
deriving DecidableEq

def FirmwareError.message : FirmwareError → String
  | .outOfResources => "Not enough memory to satisfy the request"
  | .addressUnavailable address =>
    s!"The requested address {Address.text address} is not available"
  | .notAllocated range => s!"The range {range.text} was not allocated by the loader"
  | .decompression => "The compressed stream is corrupt"
  | .unsupported what => s!"Not supported by this platform: {what}"
  | .platform what => s!"Platform failure: {what}"

inductive StorageError where
  | notFound
  | notAFile
  | failed (what : String)
deriving DecidableEq

def StorageError.message : StorageError → String
  | .notFound => "No such file or device"
  | .notAFile => "Not a regular file"
  | .failed what => s!"I/O error: {what}"

structure Handoff where
  entry : Nat
  machineType : UInt32
  tags : Nat
  kernel : AddressRange
  ramdisk : AddressRange
  second : AddressRange
  tagsLength : Nat
deriving DecidableEq

structure Firmware (σ : Type) where
  /-- Claims the range at exactly its address. -/
  allocateAt : AddressRange → Attempt σ FirmwareError AddressRange
  /-- Claims `size` bytes that start at `minimum` or above. -/
  allocateAbove : (minimum size : Nat) → Attempt σ FirmwareError AddressRange
  memory : AddressRange → Attempt σ FirmwareError Bytes
  store : AddressRange → Bytes → Effect σ Unit
  /-- Usable memory, in any order. -/
  memoryMap : Attempt σ FirmwareError (List AddressRange)
  readVariable : String → Effect σ (Option Bytes)
  defaultMachineType : σ → UInt32
  /-- Inflates a gzip stream where there is `room` for so many bytes: the count that is reported,
      and the bytes that were written. -/
  decompress : (stream : Bytes) → (room : Nat) → Attempt σ FirmwareError (Nat × Bytes)
  /-- Gives up what must not outlive the jump. -/
  prepareHandoff : Attempt σ FirmwareError Unit
  disableCaches : Effect σ Unit
  /-- Jumps; to return at all means that the kernel came back. -/
  enterKernel : Handoff → Attempt σ FirmwareError Unit

structure Storage (σ : Type) where
  /-- The regular files below a directory, relative to it. -/
  list : String → Attempt σ StorageError (List String)
  readFile : String → Attempt σ StorageError Bytes
  readDevice : String → Attempt σ StorageError Bytes

end KernelBoot
