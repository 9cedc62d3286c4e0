import KernelBoot.Archive.Header

/-!
Members of an archive. The sizes in a member's header are always computed from its name and
data; the rest of the header is either kept from the archive it was read from or made up from a
mode.
-/
namespace KernelBoot

inductive Origin where
  | preserved (header : RecordHeader)
  | synthesized (mode : Mode)
deriving DecidableEq

/-- A skipped member stays in its table but is not written. -/
structure Entry where
  name : Bytes
  data : Bytes
  origin : Origin
  skipped : Bool
deriving DecidableEq

namespace Entry

def new (name : Bytes) (mode : Mode) (data : Bytes) : Entry := ⟨name, data, .synthesized mode, false⟩

def file (name data : Bytes) : Entry := new name .file data

def executable (name data : Bytes) : Entry := new name .executable data

def directory (name : Bytes) : Entry := new name .directory []

def decoded (header : RecordHeader) (name data : Bytes) : Entry :=
  ⟨name, data, .preserved header, false⟩

def mode (e : Entry) : Mode :=
  match e.origin with
  | .preserved header => header.mode
  | .synthesized mode => mode

def rename (e : Entry) (name : Bytes) : Entry := { e with name }

def nameSize (e : Entry) : Nat := e.name.length + 1

def encodedLength (e : Entry) : Nat := entrySize e.nameSize e.data.length

def header (e : Entry) : Except ArchiveError RecordHeader :=
  if e.name.isEmpty then .error .emptyName
  else
    match e.origin with
    | .preserved header => header.withSizes e.name e.data
    | .synthesized mode => (RecordHeader.ofMode mode).withSizes e.name e.data

end Entry
end KernelBoot
