import KernelBoot.Address
import KernelBoot.Bytes

/-!
The header of a boot image: 608 bytes that name the segments, their load addresses and the page
size, and 1024 more in images with an extra command line. All words are little-endian.
-/
namespace KernelBoot

inductive BootImageError where
  | tooShort (length : Nat)
  | invalidMagic
  | invalidPageSize (size : Nat)
  | layoutOverflow
  | addressOverflow (address : Nat)
  | commandLineTooLong (length limit : Nat)
  | bufferTooSmall (needed available : Nat)
deriving DecidableEq

def BootImageError.message : BootImageError → String
  | .tooShort length => s!"Boot image header needs 608 bytes, got {length}"
  | .invalidMagic => "Invalid magic"
  | .invalidPageSize size => s!"Page size {size} is not a power of two"
  | .layoutOverflow => "Segment offsets exceed the addressable range"
  | .addressOverflow address =>
    s!"Address {Text.hex address} does not fit into a 32-bit header field"
  | .commandLineTooLong length limit =>
    s!"Command line of {length} bytes exceeds the {limit} bytes the header can hold"
  | .bufferTooSmall needed available =>
    s!"Destination too small: {needed} bytes needed, {available} available"

structure Segment where
  size : UInt32
  address : Nat
deriving DecidableEq

def Segment.isEmpty (s : Segment) : Bool := s.size == 0

structure BootHeader where
  kernel : Segment
  ramdisk : Segment
  second : Segment
  tagsAddress : Nat
  pageSize : PageSize
  deviceTreeSize : UInt32
  name : Fixed UInt8 16
  commandLine : Fixed UInt8 512
  id : Fixed UInt32 8
  /-- Present only in images with the long header. -/
  extraCommandLine : Option (Fixed UInt8 1024)
deriving DecidableEq

namespace BootHeader
open Bytes

def magic : Bytes := Bytes.ofString "ANDROID!"

def size : Nat := 608

def sizeWithExtra : Nat := 1632

/-- Room for a command line, in the first field and in both; each keeps a NUL. -/
def headRoom : Nat := 511

def commandLineRoom : Nat := 1534

def new (pageSize : PageSize) : BootHeader :=
  ⟨⟨0, 0⟩, ⟨0, 0⟩, ⟨0, 0⟩, 0, pageSize, 0, .replicate 16 0, .replicate 512 0, .replicate 8 0, none⟩

def segmentAt (bytes : Bytes) (offset : Nat) : Segment :=
  ⟨word32 bytes offset, (word32 bytes (offset + 4)).toNat⟩

/-- A foreign magic is reported even where the rest of the header is missing. -/
def parse (bytes : Bytes) : Except BootImageError BootHeader :=
  if (bytes.take 8).length < 8 then .error (.tooShort bytes.length)
  else if bytes.take 8 != magic then .error .invalidMagic
  else if (bytes.take size).length < size then .error (.tooShort bytes.length)
  else
    match PageSize.ofBytes? (word32 bytes 36).toNat with
    | none => .error (.invalidPageSize (word32 bytes 36).toNat)
    | some pageSize => .ok
      { kernel := segmentAt bytes 8
        ramdisk := segmentAt bytes 16
        second := segmentAt bytes 24
        tagsAddress := (word32 bytes 32).toNat
        pageSize
        deviceTreeSize := word32 bytes 40
        name := .ofList 16 0 (slice bytes 48 16)
        commandLine := .ofList 512 0 (slice bytes 64 512)
        id := .ofList 8 0 ((List.range 8).map fun i => word32 bytes (576 + 4 * i))
        extraCommandLine :=
          if (slice bytes size 1024).length = 1024 then some (.ofList 1024 0 (slice bytes size 1024))
          else none }

def encodedLength (h : BootHeader) : Nat :=
  if h.extraCommandLine.isSome then sizeWithExtra else size

def addressField (address : Nat) : Except BootImageError Bytes :=
  if address < wordLimit then .ok (le 4 address) else .error (.addressOverflow address)

def pieces (h : BootHeader) : List (Except BootImageError Bytes) :=
  [.ok magic,
   .ok (le32 h.kernel.size), addressField h.kernel.address,
   .ok (le32 h.ramdisk.size), addressField h.ramdisk.address,
   .ok (le32 h.second.size), addressField h.second.address,
   addressField h.tagsAddress,
   .ok (le 4 h.pageSize.bytes),
   .ok (le32 h.deviceTreeSize),
   .ok (zeros 4),
   .ok h.name.toList,
   .ok h.commandLine.toList,
   .ok (h.id.toList.flatMap le32),
   .ok ((h.extraCommandLine.map (·.toList)).getD [])]

def writePieces : List (Except ε Bytes) → Except ε Unit × Bytes
  | [] => (.ok (), [])
  | .error e :: _ => (.error e, [])
  | .ok bytes :: rest =>
    let (result, written) := writePieces rest
    (result, bytes ++ written)

/-- Writes the header to the start of `out`. The page size is checked before anything is
    written, an address when its turn comes. -/
def write (h : BootHeader) (out : Bytes) : Except BootImageError Nat × Bytes :=
  if out.length < h.encodedLength then
    (.error (.bufferTooSmall h.encodedLength out.length), out)
  else
    match addressField h.pageSize.bytes with
    | .error e => (.error e, out)
    | .ok _ =>
      let (result, written) := writePieces h.pieces
      (result.map fun _ => h.encodedLength, written ++ out.drop written.length)

def encode (h : BootHeader) : Except BootImageError Bytes :=
  let (result, written) := h.write (zeros h.encodedLength)
  result.map fun _ => written

def nameText (h : BootHeader) : Bytes := upToNul h.name.toList

def commandLineText (h : BootHeader) : Bytes := upToNul h.commandLine.toList

def extraText (h : BootHeader) : Bytes :=
  match h.extraCommandLine with
  | none => []
  | some extra => upToNul extra.toList

/-- Splits the line over both fields. An extra field that is not needed is cleared but stays. -/
def setCommandLine (h : BootHeader) (line : Bytes) : Except BootImageError BootHeader :=
  if line.length > commandLineRoom then .error (.commandLineTooLong line.length commandLineRoom)
  else
    let tail := line.drop headRoom
    .ok { h with
      commandLine := .ofList 512 0 (line.take headRoom)
      extraCommandLine :=
        if tail.isEmpty then h.extraCommandLine.map fun _ => .replicate 1024 0
        else some (.ofList 1024 0 tail) }

/-- A name is cut to leave room for its NUL. -/
def setName (h : BootHeader) (name : Bytes) : BootHeader :=
  { h with name := .ofList 16 0 (name.take 15) }

end BootHeader
end KernelBoot
