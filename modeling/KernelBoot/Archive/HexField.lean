import KernelBoot.Archive.Error
import KernelBoot.Bytes

/-!
The numeric fields of a record header: hexadecimal digits without a terminator. Reading is
lenient and writing strict, so a value that was written is read back, but not every field that
can be read was written.
-/
namespace KernelBoot.HexField
open Bytes

def digit? (c : UInt8) : Option UInt8 :=
  if 0x30 ≤ c ∧ c ≤ 0x39 then some (c - 0x30)
  else if 0x61 ≤ c ∧ c ≤ 0x66 then some (c - 0x61 + 10)
  else if 0x41 ≤ c ∧ c ≤ 0x46 then some (c - 0x41 + 10)
  else none

def digit (v : Nat) : UInt8 := if v < 10 then UInt8.ofNat (0x30 + v) else UInt8.ofNat (0x57 + v)

/-- Digits up to the first byte that is none. Only the last eight of them count. -/
def accumulate (value : UInt32) : Bytes → UInt32
  | [] => value
  | c :: rest =>
    match digit? c with
    | none => value
    | some d => accumulate (value * 16 + d.toUInt32) rest

/-- Leading blanks and zeros are skipped; a field without digits reads as zero. -/
def parse (field : Bytes) : UInt32 :=
  accumulate 0 (field.dropWhile fun c => c == 0x20 || c == 0x30)

def digits : (width : Nat) → (value : Nat) → Bytes
  | 0, _ => []
  | width + 1, value => digits width (value / 16) ++ [digit (value % 16)]

/-- Whether `width` places are enough for a 64-bit value. Sixteen always are. -/
def fits (width value : Nat) : Bool := 16 ≤ width || value >>> (4 * width) == 0

def format (width value : Nat) : Except ArchiveError Bytes :=
  if fits width value then .ok (digits width value) else .error (.fieldOverflow value width)

/-- Fills a whole field, or leaves it as it was. -/
def write (value : Nat) (field : Bytes) : Except ArchiveError Unit × Bytes :=
  match format field.length value with
  | .ok filled => (.ok (), filled)
  | .error e => (.error e, field)

theorem digits_length (width value : Nat) : (digits width value).length = width := by
  induction width generalizing value with
  | zero => rfl
  | succ width ih => simp [digits, ih]

end KernelBoot.HexField
