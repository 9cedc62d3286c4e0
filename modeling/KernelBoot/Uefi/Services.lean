import KernelBoot.Boot.Session
import KernelBoot.Uefi.MemoryMap
import KernelBoot.Uefi.Status

/-!
What the firmware of a UEFI system does for an application. A call may change the system, and gives
a status where it fails. How memory is managed and files are kept is the firmware's own business.
-/
namespace KernelBoot

structure BootServices (σ : Type) where
  /-- Allocates so many pages at exactly this address. -/
  allocatePages : (start pages : Nat) → Attempt σ UefiStatus Unit
  memoryMap : Attempt σ UefiStatus MemoryMap
  readVariable : (name : String) → Attempt σ UefiStatus Bytes
  /-- Memory by its address, whoever it was given to. -/
  readMemory : σ → AddressRange → Bytes
  writeMemory : (start : Nat) → Bytes → σ → σ
  exit : σ → σ

structure DirectoryEntry where
  name : String
  isDirectory : Bool

/-- Files on the volume that the application was loaded from. An open file is known by a handle, and
    what has been done through a handle decides what the next call through it does. -/
structure FileServices (σ η : Type) where
  locateVolume : Attempt σ UefiStatus Unit
  openRoot : Attempt σ UefiStatus η
  /-- Opens what a path leads to from a directory. Backslashes separate its parts. -/
  openFrom : (directory : η) → (path : String) → Attempt σ UefiStatus η
  position : η → Attempt σ UefiStatus Nat
  seek : η → (position : Nat) → Attempt σ UefiStatus Unit
  read : η → (room : Nat) → Attempt σ UefiStatus Bytes
  /-- The next entry of a directory, until there is none. -/
  readEntry : η → Attempt σ UefiStatus (Option DirectoryEntry)

def FileServices.endOfFile : Nat := addressSpace - 1

end KernelBoot
