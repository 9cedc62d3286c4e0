import KernelBoot.Archive.HexField
import KernelBoot.Archive.Mode

/-!
The 110-byte header in front of every archive member: a magic of six digits, then thirteen hex
fields of eight digits. Name and data follow, each padded to a multiple of four bytes.
-/
namespace KernelBoot

def align4 (n : Nat) : Nat := (n + 3) / 4 * 4

def pad4 (n : Nat) : Nat := (4 - n % 4) % 4

/-- Bytes of one record on disk; `nameSize` counts the NUL behind the name. -/
def entrySize (nameSize fileSize : Nat) : Nat := align4 (110 + nameSize) + align4 fileSize

def predictedSize (nameLength dataLength : Nat) : Nat := entrySize (nameLength + 1) dataLength

structure RecordHeader where
  ino : UInt32
  mode : Mode
  uid : UInt32
  gid : UInt32
  nlink : UInt32
  mtime : UInt32
  fileSize : UInt32
  devMajor : UInt32
  devMinor : UInt32
  rdevMajor : UInt32
  rdevMinor : UInt32
  nameSize : UInt32
  check : UInt32
deriving DecidableEq

namespace RecordHeader

def size : Nat := 110

def magic : Bytes := [0x30, 0x37, 0x30, 0x37, 0x30, 0x31]

def trailerName : Bytes := Bytes.ofString "TRAILER!!!"

def ofMode (mode : Mode) : RecordHeader := ⟨0, mode, 0, 0, 0, 0, 0, 0, 0, 0, 0, 0, 0⟩

def trailer : RecordHeader := { ofMode .trailer with ino := 0x494FF, nlink := 1 }

def fields (h : RecordHeader) : List UInt32 :=
  [h.ino, h.mode.bits, h.uid, h.gid, h.nlink, h.mtime, h.fileSize, h.devMajor, h.devMinor,
    h.rdevMajor, h.rdevMinor, h.nameSize, h.check]

def ofFields (field : Nat → UInt32) : RecordHeader :=
  ⟨field 0, ⟨field 1⟩, field 2, field 3, field 4, field 5, field 6, field 7, field 8, field 9,
    field 10, field 11, field 12⟩

/-- The offset is only named in errors. -/
def parse (bytes : Bytes) (offset : Nat) : Except ArchiveError RecordHeader :=
  let raw := bytes.take size
  if raw.length < size then .error (.prematureEnd offset size)
  else if raw.take 6 != magic then .error (.malformed offset "bad magic")
  else .ok (ofFields fun i => HexField.parse (Bytes.slice raw (6 + 8 * i) 8))

def encode (h : RecordHeader) : Bytes :=
  magic ++ h.fields.flatMap fun field => HexField.digits 8 field.toNat

def write (h : RecordHeader) (out : Bytes) : Except ArchiveError Bytes :=
  if out.length < size then .error (.bufferTooSmall size out.length)
  else .ok (Bytes.overwrite out 0 h.encode)

def recordSize (h : RecordHeader) : Nat := entrySize h.nameSize.toNat h.fileSize.toNat

def dataOffset (h : RecordHeader) : Nat := align4 (size + h.nameSize.toNat)

def sizeField (n : Nat) : Except ArchiveError UInt32 :=
  if n < wordLimit then .ok (UInt32.ofNat n) else .error (.fieldOverflow n 8)

def withSizes (h : RecordHeader) (name data : Bytes) : Except ArchiveError RecordHeader := do
  let nameSize ← sizeField (name.length + 1)
  let fileSize ← sizeField data.length
  return { h with nameSize, fileSize }

theorem recordSize_pos (h : RecordHeader) : 0 < h.recordSize := by
  simp only [recordSize, entrySize, align4]
  omega

end RecordHeader

def recordBytes (header : RecordHeader) (name data : Bytes) : Bytes :=
  header.encode ++ name ++ Bytes.zeros (1 + pad4 (RecordHeader.size + name.length + 1)) ++
    data ++ Bytes.zeros (pad4 data.length)

end KernelBoot
