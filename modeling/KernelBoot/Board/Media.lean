import KernelBoot.Boot.Source

/-!
Files and devices that follow a script, for boards that have no drivers of their own.
-/
namespace KernelBoot

/-- Names in `broken` fail with their error, whatever they would name otherwise. -/
structure ScriptedStorage where
  files : List (String × Bytes)
  devices : List (String × Bytes)
  broken : List (String × StorageError)

namespace ScriptedStorage

def guarded (s : ScriptedStorage) (name : String) (r : Except StorageError α) :
    Except StorageError α :=
  match s.broken.lookup name with
  | some e => .error e
  | none => r

def afterLead (lead text : List Char) : Option (List Char) :=
  if text.take lead.length == lead then some (text.drop lead.length) else none

def list (s : ScriptedStorage) (dir : String) : Except StorageError (List String) :=
  let lead := (dir.toList.reverse.dropWhile (· == '/')).reverse ++ ['/']
  match s.files.filterMap fun f => afterLead lead f.1.toList with
  | [] => .error .notFound
  | names => .ok (names.map String.ofList)

def found (files : List (String × Bytes)) (name : String) : Except StorageError Bytes :=
  match files.lookup name with
  | some data => .ok data
  | none => .error .notFound

def storage (s : ScriptedStorage) : Storage σ where
  list dir := .ofExcept (s.guarded dir (s.list dir))
  readFile path := .ofExcept (s.guarded path (found s.files path))
  readDevice device := .ofExcept (s.guarded device (found s.devices device))

end ScriptedStorage

/-- A device whose contents are completed with zeros to whole sectors. -/
structure ScriptedDisk where
  bytes : Bytes
  sectors : Option Nat
  /-- Reads that go beyond this sector fail. -/
  failFrom : Nat

namespace ScriptedDisk

def padded (d : ScriptedDisk) : Bytes :=
  d.bytes ++ Bytes.zeros ((sectorSize - d.bytes.length % sectorSize) % sectorSize)

def device (d : ScriptedDisk) : BlockDevice σ :=
  let contents := d.padded
  { sectorCount := fun _ => d.sectors.getD (contents.length / sectorSize)
    readSectors := fun first len => .ofExcept <|
      if first + len / sectorSize > d.failFrom then .error (.failed "bad sector")
      else if first * sectorSize + len > contents.length then .error (.failed "end of device")
      else .ok (contents.slice (first * sectorSize) len) }

end ScriptedDisk

structure ScriptedFile where
  bytes : Bytes
  claimed : Option Nat
  /-- Reads from this offset on fail. -/
  failFrom : Nat
  chunk : Option Nat

namespace ScriptedFile

def length (f : ScriptedFile) : Nat := f.claimed.getD f.bytes.length

def reader (f : ScriptedFile) : FileReader σ where
  length _ := f.length
  readAt offset room := .ofExcept <|
    if offset ≥ f.failFrom then .error (.failed "read error")
    else .ok (f.bytes.slice offset (min room (f.chunk.getD room)))

end ScriptedFile
end KernelBoot
