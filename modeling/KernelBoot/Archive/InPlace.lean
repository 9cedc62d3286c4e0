import KernelBoot.Archive.Table

/-!
Growing an archive where it lies: the records are walked to the trailer without a table, and new
records are written over it, followed by a fresh trailer.
-/
namespace KernelBoot

def isArchive (buf : Bytes) : Bool := buf.take 6 == RecordHeader.magic

namespace Records

def headerAhead (r : Reader) : Except ArchiveError RecordHeader := do
  RecordHeader.parse (← r.peek RecordHeader.size) r.position

/-- Whether a member follows rather than the trailer. One NUL behind the name is dropped. -/
def memberAhead (r : Reader) : Except ArchiveError Bool := do
  let header ← headerAhead r
  let (field, _) ← (r.forward RecordHeader.size).take header.nameSize.toNat
  let name := if field.getLast? = some 0 then field.dropLast else field
  return name != RecordHeader.trailerName

def headerAt (buf : Bytes) (offset : Nat) : Except ArchiveError RecordHeader :=
  headerAhead (.seek buf offset)

def hasNext (buf : Bytes) (offset : Nat) : Except ArchiveError Bool := memberAhead (.seek buf offset)

def nextOffset (buf : Bytes) (offset : Nat) : Except ArchiveError Nat :=
  (headerAt buf offset).map fun header => offset + header.recordSize

/-- Walks from record to record; a size that leads past the end ends the walk. -/
def trailerFrom (r : Reader) : Except ArchiveError Nat :=
  if _h : r.remaining = 0 then .error .missingTrailer
  else
    match memberAhead r with
    | .error e => .error e
    | .ok false => .ok r.position
    | .ok true =>
      match headerAhead r with
      | .error e => .error e
      | .ok header => trailerFrom (r.forward header.recordSize)
termination_by r.remaining
decreasing_by
  have positive := header.recordSize_pos
  simp only [Reader.forward, Reader.remaining, List.length_drop] at _h ⊢
  omega

def trailerOffset (buf : Bytes) : Except ArchiveError Nat := trailerFrom (.start buf)

end Records

/-- `position` is the end of the records written so far. -/
structure Appender where
  buf : Bytes
  position : Nat

namespace Appender

/-- Starts on the trailer of the archive in the first `len` bytes; the rest is room to grow. -/
def atTrailer (buf : Bytes) (len : Nat) : Except ArchiveError Appender :=
  if len > buf.length then .error (.prematureEnd 0 len)
  else (Records.trailerOffset (buf.take len)).map fun offset => ⟨buf, offset⟩

def write (w : Appender) (header : RecordHeader) (name data : Bytes) :
    Except ArchiveError Appender := do
  let header ← header.withSizes name data
  let cursor ← ((Writer.seek w.buf w.position).record header name data).mapError WindowError.archive
  return ⟨cursor.buf, cursor.position⟩

def append (w : Appender) (name : Bytes) (mode : Mode) (data : Bytes) :
    Except ArchiveError Appender :=
  if name.isEmpty then .error .emptyName else w.write (.ofMode mode) name data

def finish (w : Appender) : Except ArchiveError Appender :=
  w.write .trailer RecordHeader.trailerName []

end Appender
end KernelBoot
