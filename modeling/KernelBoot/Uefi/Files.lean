import KernelBoot.Boot.Source
import KernelBoot.Uefi.Services
import KernelBoot.Uefi.WideText

/-!
Files on the volume that the application was loaded from. What the firmware does not find is
missing without a word; any other failure is logged with its status.
-/
namespace KernelBoot

/-- Logs what failed, unless something was not found. -/
def reported (what : String) (a : Attempt σ UefiStatus α) : Attempt σ StorageError α :=
  ExceptT.mk do
    match ← a.run with
    | .ok value => return .ok value
    | .error .notFound => return .error .notFound
    | .error status =>
      Effect.log (LogTarget.fileSystem.line .warn s!"Failed to {what}: {status.name}")
      return .error (.failed what)

def backslashed (path : String) : String :=
  String.ofList (path.toList.map fun c => if c = '/' then '\\' else c)

def isParentName (name : String) : Bool := name == "." || name == ".."

def joinEntry (lead name : String) : String := if lead.isEmpty then name else s!"{lead}/{name}"

inductive HandleKind where
  | file
  | directory
  | unknown
deriving DecidableEq

/-- A file has a position. A directory has none, and gives just this status. -/
def HandleKind.ofPosition : Except UefiStatus Nat → HandleKind
  | .ok _ => .file
  | .error .unsupported => .directory
  | .error _ => .unknown

inductive ListingError where
  | storage (e : StorageError)
  /-- There were more steps to take than allowed. -/
  | endless

/-- What is listed without an end counts as a directory that cannot be read. -/
def ListingError.toStorage : ListingError → StorageError
  | .storage e => e
  | .endless => .failed "read directory"

namespace FileServices

def openFile (files : FileServices σ η) (path : String) : Attempt σ StorageError η := do
  reported "get file system" files.locateVolume
  let root ← reported "open root directory" files.openRoot
  let path := backslashed path
  if !WideText.isRepresentable path then throw (.failed "path not representable")
  reported "open file" (files.openFrom root path)

def kind (files : FileServices σ η) (h : η) : Attempt σ ε HandleKind :=
  ExceptT.lift do return .ofPosition (← (files.position h).run)

def measure (files : FileServices σ η) (h : η) : Attempt σ StorageError Nat := do
  if (← files.kind h) ≠ .file then throw .notAFile
  reported "seek to file end" (files.seek h endOfFile)
  reported "get file size" (files.position h)

def readAt (files : FileServices σ η) (h : η) (offset room : Nat) :
    Attempt σ StorageError Bytes := do
  reported "seek" (files.seek h offset)
  (files.read h room).mapError fun _ => .failed "read file contents"

def readOn (files : FileServices σ η) (h : η) (room : Nat) (done : Bytes) :
    Attempt σ StorageError Bytes := do
  if room = 0 then return done
  else
    match ← files.readAt h done.length room with
    | [] =>
      Attempt.log (LogTarget.fileSystem.line .warn
        s!"Mismatch in file size: read {done.length} bytes, expected {done.length + room} bytes")
      throw (.failed "short read")
    | b :: rest => files.readOn h (room - (rest.length + 1)) (done ++ b :: rest)
termination_by room

def readFile (files : FileServices σ η) (path : String) : Attempt σ StorageError Bytes := do
  let h ← files.openFile path
  files.readOn h (← files.measure h) []

def openReader (files : FileServices σ η) (path : String) :
    Attempt σ StorageError (FileReader σ) := do
  let h ← files.openFile path
  let length ← files.measure h
  return ⟨fun _ => length, files.readAt h⟩

/-- The files that an entry of an open directory stands for. A directory is opened and listed; if it
    does not look like one when it is open, it is passed over. -/
def filesOf (files : FileServices σ η) (listing : η → String → Attempt σ ListingError (List String))
    (h : η) (lead : String) (entry : DirectoryEntry) : Attempt σ ListingError (List String) := do
  let name := WideText.shown entry.name
  let path := joinEntry lead name
  if isParentName name then return []
  else if !entry.isDirectory then return [path]
  else
    let below ← (reported "open directory" (files.openFrom h entry.name)).mapError .storage
    if (← files.kind below) = .directory then listing below path else return []

/-- The regular files below an open directory, each behind `lead`, in the order in which the entries
    are read. Reading an entry takes a step; the directory it stands for and the entries behind it
    may each take all steps that are left. -/
def walk (files : FileServices σ η) : (steps : Nat) → (h : η) → (lead : String) →
    Attempt σ ListingError (List String)
  | 0, _, _ => throw .endless
  | steps + 1, h, lead => do
    match ← (reported "read directory" (files.readEntry h)).mapError .storage with
    | none => return []
    | some entry =>
      let found ← files.filesOf (files.walk steps) h lead entry
      return found ++ (← files.walk steps h lead)

/-- What is no directory is as good as missing. -/
def listFiles (files : FileServices σ η) (steps : Nat) (dir : String) :
    Attempt σ ListingError (List String) := do
  let h ← (files.openFile dir).mapError .storage
  if (← files.kind h) ≠ .directory then throw (.storage .notFound)
  let found ← files.walk steps h ""
  Attempt.log (LogTarget.fileSystem.line .debug s!"{found.length} files below {dir}")
  return found

end FileServices
end KernelBoot
