import KernelBoot.Text.Number

/-!
Physical addresses, half-open ranges of them, and page sizes. An address is a natural number
below `addressSpace`; an operation that would leave the address space gives nothing or stops at
its last address, as it says. Sizes of memory have the same 64 bits, so every address is a position.
-/
namespace KernelBoot

def addressSpace : Nat := 0x10000000000000000

def checkedAdd (a b : Nat) : Option Nat := if a + b < addressSpace then some (a + b) else none

def checkedSub (a base : Nat) : Option Nat := if base ≤ a then some (a - base) else none

def saturatingAdd (a b : Nat) : Nat := min (a + b) (addressSpace - 1)

def saturatingMul (a b : Nat) : Nat := min (a * b) (addressSpace - 1)

namespace Address

def text (a : Nat) : String := Text.hexUpper 8 a

end Address

structure PageSize where
  shift : Fin 64
deriving DecidableEq

namespace PageSize

def bytes (p : PageSize) : Nat := 1 <<< p.shift.val

def ofBytes? (n : Nat) : Option PageSize :=
  if h : n.log2 < 64 then
    if 1 <<< n.log2 = n then some ⟨⟨n.log2, h⟩⟩ else none
  else none

/-- The page size of memory claims, whatever an image uses. -/
def platform : PageSize := ⟨12⟩

def customary : PageSize := ⟨11⟩

theorem bytes_eq_two_pow (p : PageSize) : p.bytes = Nat.pow 2 p.shift.val := Nat.one_shiftLeft _

theorem bytes_pos (p : PageSize) : 0 < p.bytes := by
  rw [bytes_eq_two_pow]
  exact Nat.two_pow_pos _

theorem bytes_lt (p : PageSize) : p.bytes < addressSpace := by
  rw [bytes_eq_two_pow]
  exact Nat.pow_lt_pow_right (by decide) p.shift.isLt

theorem bytes_ofBytes? {n : Nat} {p : PageSize} (h : ofBytes? n = some p) : p.bytes = n := by
  unfold ofBytes? at h
  split at h
  · split at h
    · cases h; assumption
    · cases h
  · cases h

def alignDown (p : PageSize) (value : Nat) : Nat := value - value % p.bytes

def alignUp (p : PageSize) (value : Nat) : Option Nat :=
  (checkedAdd value (p.bytes - 1)).map p.alignDown

def pagesFor (p : PageSize) (len : Nat) : Nat := (len + p.bytes - 1) / p.bytes

def isAligned (p : PageSize) (address : Nat) : Bool := address % p.bytes == 0

end PageSize

/-- The addresses from `start` up to, but not including, `stop`. -/
structure AddressRange where
  start : Nat
  stop : Nat
  ordered : start ≤ stop
deriving DecidableEq

namespace AddressRange

/-- An inverted pair gives the empty range at its first address. -/
def between (start stop : Nat) : AddressRange := ⟨start, max start stop, Nat.le_max_left _ _⟩

/-- `len` bytes from `start` on, cut at the last address. -/
def sized (start len : Nat) : AddressRange := between start (saturatingAdd start len)

def len (r : AddressRange) : Nat := r.stop - r.start

def isEmpty (r : AddressRange) : Bool := r.stop == r.start

def contains (r : AddressRange) (address : Nat) : Bool := r.start ≤ address && address < r.stop

def overlaps (a b : AddressRange) : Bool :=
  !a.isEmpty && !b.isEmpty && a.start < b.stop && b.start < a.stop

def isFollowedBy (a b : AddressRange) : Bool := a.stop == b.start

def within (a b : AddressRange) : Bool := b.start ≤ a.start && a.stop ≤ b.stop

def text (r : AddressRange) : String := s!"[{Address.text r.start}..{Address.text r.stop})"

/-- The smallest range that covers all of `ranges`; an empty range counts with its address. -/
def span : List AddressRange → Option AddressRange
  | [] => none
  | r :: rest =>
    some (between (rest.foldl (fun lo s => min lo s.start) r.start)
      (rest.foldl (fun hi s => max hi s.stop) r.stop))

end AddressRange
end KernelBoot
