import KernelBoot.Archive.Cursor
import KernelBoot.Archive.Entry

/-!
A whole archive as a table of members. Reading ends at the trailer or where the bytes end;
writing leaves out skipped members and always adds a trailer. A record that does not fit is not
written at all, so a failed write leaves complete records followed by the old bytes.
-/
namespace KernelBoot

structure Archive where
  entries : List Entry
  capacity : Nat
deriving DecidableEq

namespace Archive

def defaultCapacity : Nat := 4096

def empty (capacity : Nat) : Archive := ⟨[], capacity⟩

def length (a : Archive) : Nat := a.entries.length

def push (a : Archive) (e : Entry) : Except ArchiveError Archive :=
  if a.entries.length ≥ a.capacity then .error (.tooManyEntries a.capacity)
  else .ok { a with entries := a.entries ++ [e] }

def readMember (r : Reader) : Except ArchiveError (Option Entry × Reader) := do
  let offset := r.position
  let (raw, r) ← r.take RecordHeader.size
  let header ← RecordHeader.parse raw offset
  let nameSize := header.nameSize.toNat
  if nameSize < 2 then throw (.malformed offset "name size below 2")
  let (field, r) ← r.take nameSize
  let name := field.take (nameSize - 1)
  let r ← r.skip (align4 (RecordHeader.size + nameSize) - RecordHeader.size - nameSize)
  if name == RecordHeader.trailerName then return (none, r)
  let fileSize := header.fileSize.toNat
  let (data, r) ← r.take fileSize
  let r ← r.skip (align4 fileSize - fileSize)
  return (some (.decoded header name data), r)

theorem readMember_remaining {r r' : Reader} {e : Option Entry}
    (h : readMember r = .ok (e, r')) : r'.remaining < r.remaining := by
  unfold readMember at h
  simp only [bind, Except.bind, pure, Except.pure, throw, throwThe, MonadExceptOf.throw] at h
  split at h
  · cases h
  rename_i head taken
  have step := Reader.take_remaining taken
  have positive : 0 < RecordHeader.size := by decide
  split at h
  · cases h
  split at h
  · cases h
  split at h
  · cases h
  rename_i field named
  have step2 := Reader.take_remaining named
  split at h
  · cases h
  rename_i behind skipped
  have step3 := Reader.skip_remaining skipped
  split at h
  · simp only [Except.ok.injEq, Prod.mk.injEq] at h
    obtain ⟨_, rfl⟩ := h
    omega
  split at h
  · cases h
  rename_i data loaded
  have step4 := Reader.take_remaining loaded
  split at h
  · cases h
  rename_i last padded
  have step5 := Reader.skip_remaining padded
  simp only [Except.ok.injEq, Prod.mk.injEq] at h
  obtain ⟨_, rfl⟩ := h
  omega

/-- Members from the reader on; `room` is how many more the table holds. -/
def readMembers (r : Reader) (room capacity : Nat) : Except ArchiveError (List Entry) :=
  if r.isAtEnd then .ok []
  else
    match _step : readMember r with
    | .error e => .error e
    | .ok (none, _) => .ok []
    | .ok (some e, r') =>
      match room with
      | 0 => .error (.tooManyEntries capacity)
      | room + 1 => (readMembers r' room capacity).map (e :: ·)
termination_by r.remaining
decreasing_by exact readMember_remaining _step

def decode (buf : Bytes) (capacity : Nat) : Except ArchiveError Archive :=
  (readMembers (.start buf) capacity capacity).map fun entries => ⟨entries, capacity⟩

def isLiveNamed (name : Bytes) (e : Entry) : Bool := !e.skipped && e.name == name

def find? (a : Archive) (name : Bytes) : Option Entry := a.entries.find? (isLiveNamed name)

def count (a : Archive) (name : Bytes) : Nat := a.entries.countP (isLiveNamed name)

def skip (a : Archive) (name : Bytes) : Archive :=
  { a with
    entries := a.entries.map fun e => if isLiveNamed name e then { e with skipped := true } else e }

def modify (a : Archive) (index : Nat) (f : Entry → Entry) : Archive :=
  { a with entries := a.entries.modify index f }

def live (a : Archive) : List Entry := a.entries.filter fun e => !e.skipped

def encodedLength (a : Archive) : Nat :=
  sumOf Entry.encodedLength a.live + entrySize (RecordHeader.trailerName.length + 1) 0

def trailerHeader : RecordHeader :=
  { RecordHeader.trailer with nameSize := UInt32.ofNat (RecordHeader.trailerName.length + 1) }

def writeRecords (w : Writer) : List Entry → Except ArchiveError Unit × Writer
  | [] =>
    match w.record trailerHeader RecordHeader.trailerName [] with
    | .error error => (.error error.archive, w)
    | .ok w => (.ok (), w)
  | e :: rest =>
    match e.header with
    | .error error => (.error error, w)
    | .ok header =>
      match w.record header e.name e.data with
      | .error error => (.error error.archive, w)
      | .ok w => writeRecords w rest

def encode (a : Archive) (dest : Bytes) : Except ArchiveError Nat × Bytes :=
  let (result, w) := writeRecords ⟨dest, 0⟩ a.live
  (result.map fun _ => w.position, w.buf)

end Archive
end KernelBoot
