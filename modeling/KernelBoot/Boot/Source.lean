import KernelBoot.Boot.Platform

/-!
Where a boot image is read from: memory, a block device, or a file. A read is refused before
anything is touched when it does not lie inside the source.
-/
namespace KernelBoot

inductive SourceError where
  | prematureEnd (offset len size : Nat)
  | storage (error : StorageError)
deriving DecidableEq

def SourceError.message : SourceError → String
  | .prematureEnd offset len size => s!"Read of {len} bytes at {offset} exceeds source size {size}"
  | .storage error => error.message

/-- A read gives the bytes that were delivered: `len` of them, or fewer when it fails half way. -/
structure Source (σ : Type) where
  size : σ → Nat
  readAt : (offset len : Nat) → Effect σ (Except SourceError Unit × Bytes)

namespace Source

def outside? (offset len size : Nat) : Option SourceError :=
  if offset + len < addressSpace ∧ offset + len ≤ size then none
  else some (.prematureEnd offset len size)

def ofMemory (bytes : Bytes) : Source σ where
  size _ := bytes.length
  readAt offset len :=
    match outside? offset len bytes.length with
    | some e => return (.error e, [])
    | none => return (.ok (), bytes.slice offset len)

end Source

def sectorSize : Nat := 512

/-- Sectors are read whole, `len` bytes of them from `first` on. -/
structure BlockDevice (σ : Type) where
  sectorCount : σ → Nat
  readSectors : (first len : Nat) → Attempt σ StorageError Bytes

namespace Source

def ofDisk (device : BlockDevice σ) : Source σ where
  size world := saturatingMul (device.sectorCount world) sectorSize
  readAt offset len := do
    let size ← Effect.ask fun world => saturatingMul (device.sectorCount world) sectorSize
    match outside? offset len size with
    | some e => return (.error e, [])
    | none =>
      if len = 0 then return (.ok (), [])
      else
        let first := offset / sectorSize
        let skip := offset % sectorSize
        let span := (skip + len + sectorSize - 1) / sectorSize * sectorSize
        match ← (device.readSectors first span).run with
        | .error e => return (.error (.storage e), [])
        | .ok sectors => return (.ok (), sectors.slice skip len)

end Source

/-- A read delivers at most `room` bytes, and none only at the end. -/
structure FileReader (σ : Type) where
  length : σ → Nat
  readAt : (offset room : Nat) → Attempt σ StorageError Bytes

namespace FileReader

/-- Reads until `room` bytes are there. The bytes delivered before a failure are kept. -/
def fill (file : FileReader σ) (offset room : Nat) (done : Bytes) :
    Effect σ (Except SourceError Unit × Bytes) := do
  if room = 0 then return (.ok (), done)
  else
    match ← (file.readAt offset room).run with
    | .error e => return (.error (.storage e), done)
    | .ok [] =>
      let size ← Effect.ask file.length
      return (.error (.prematureEnd offset room size), done)
    | .ok (b :: rest) =>
      let chunk := b :: rest
      file.fill (offset + chunk.length) (room - chunk.length) (done ++ chunk)
termination_by room
decreasing_by
  simp only [List.length_cons]
  omega

end FileReader

namespace Source

def ofFile (file : FileReader σ) : Source σ where
  size := file.length
  readAt offset len := do
    let size ← Effect.ask file.length
    match outside? offset len size with
    | some e => return (.error e, [])
    | none => file.fill offset len []

end Source

inductive ImageLocation where
  | disk (device : String)
  | file (path : String)
deriving DecidableEq

namespace ImageLocation

/-- A name in parentheses is a device, anything else a file; neither may be empty. -/
def parse (argument : String) : Option ImageLocation :=
  match argument.toList with
  | [] => none
  | '(' :: rest =>
    if rest.getLast? = some ')' then
      if rest.dropLast.isEmpty then none else some (.disk (String.ofList rest.dropLast))
    else some (.file argument)
  | _ => some (.file argument)

end ImageLocation
end KernelBoot
