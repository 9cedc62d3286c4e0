import KernelBoot.Address

/-!
The firmware's map of memory: which regions there are, how pages are taken out of them, which of
them a kernel may use, and the lowest free place for a number of bytes.
-/
namespace KernelBoot

inductive MemoryType where
  | loaderCode
  | loaderData
  | bootServicesCode
  | bootServicesData
  | conventional
  | other (code : Nat)
deriving DecidableEq

namespace MemoryType

def ofCode : Nat → MemoryType
  | 1 => .loaderCode
  | 2 => .loaderData
  | 3 => .bootServicesCode
  | 4 => .bootServicesData
  | 7 => .conventional
  | code => .other code

/-- Free once boot services are gone. -/
def isUsable : MemoryType → Bool
  | .other _ => false
  | _ => true

end MemoryType

structure MemoryRegion where
  type : MemoryType
  start : Nat
  pages : Nat
deriving DecidableEq

namespace MemoryRegion

def pageSize : Nat := PageSize.platform.bytes

def range (r : MemoryRegion) : AddressRange := .sized r.start (saturatingMul r.pages pageSize)

def isFree (r : MemoryRegion) : Bool := r.type == .conventional

def holds (r : MemoryRegion) (start pages : Nat) : Bool :=
  r.start ≤ start && start + pages * pageSize ≤ r.start + r.pages * pageSize

/-- A free region with pages inside it taken: what is left before them, they, what is left behind
    them; an empty part is left out. -/
def carved (r : MemoryRegion) (start pages : Nat) : List MemoryRegion :=
  let before := (start - r.start) / pageSize
  let parts : List MemoryRegion :=
    [⟨.conventional, r.start, before⟩, ⟨.loaderData, start, pages⟩,
     ⟨.conventional, start + pages * pageSize, r.pages - before - pages⟩]
  parts.filter fun part => part.pages ≠ 0

end MemoryRegion

abbrev MemoryMap := List MemoryRegion

namespace MemoryMap

/-- Takes pages at an address out of the first free region that holds them all. -/
def take? (start pages : Nat) : MemoryMap → Option MemoryMap
  | [] => none
  | r :: rest =>
    if r.isFree && r.holds start pages then some (r.carved start pages ++ rest)
    else (take? start pages rest).map (r :: ·)

def usable (map : MemoryMap) : List AddressRange :=
  (map.filter fun r => r.type.isUsable).map MemoryRegion.range

def free (map : MemoryMap) : List AddressRange :=
  ((map.filter MemoryRegion.isFree).map MemoryRegion.range).mergeSort fun a b => a.start ≤ b.start

/-- The first `size` bytes of whole pages in a region, none of them below `minimum`. -/
def fit? (minimum size : Nat) (region : AddressRange) : Option AddressRange := do
  let start ← PageSize.platform.alignUp (max region.start minimum)
  let stop ← checkedAdd start size
  if stop ≤ region.stop then some (.between start stop) else none

def lowestFit? (map : MemoryMap) (minimum size : Nat) : Option AddressRange :=
  map.free.findSome? (fit? minimum size)

end MemoryMap
end KernelBoot
