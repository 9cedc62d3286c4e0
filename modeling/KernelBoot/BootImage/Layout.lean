import KernelBoot.BootImage.Header

/-!
Where the segments of a boot image lie. The header takes the first page; kernel, ramdisk, second
stage and device tree follow, each rounded up to whole pages.
-/
namespace KernelBoot

inductive SegmentKind where
  | kernel
  | ramdisk
  | second
  | deviceTree
deriving DecidableEq

/-- `extent` is the size rounded up to whole pages. -/
structure Placement where
  offset : Nat
  size : Nat
  extent : Nat
deriving DecidableEq

def Placement.stop (p : Placement) : Nat := p.offset + p.extent

structure ImageLayout where
  pageSize : PageSize
  kernel : Placement
  ramdisk : Placement
  second : Placement
  deviceTree : Placement
deriving DecidableEq

namespace ImageLayout

def place (pageSize : PageSize) (offset size : Nat) : Except BootImageError Placement :=
  match pageSize.alignUp size with
  | none => .error .layoutOverflow
  | some extent =>
    if offset + extent < addressSpace then .ok ⟨offset, size, extent⟩ else .error .layoutOverflow

def of (h : BootHeader) : Except BootImageError ImageLayout := do
  let kernel ← place h.pageSize h.pageSize.bytes h.kernel.size.toNat
  let ramdisk ← place h.pageSize kernel.stop h.ramdisk.size.toNat
  let second ← place h.pageSize ramdisk.stop h.second.size.toNat
  let deviceTree ← place h.pageSize second.stop h.deviceTreeSize.toNat
  return ⟨h.pageSize, kernel, ramdisk, second, deviceTree⟩

def segment (l : ImageLayout) : SegmentKind → Placement
  | .kernel => l.kernel
  | .ramdisk => l.ramdisk
  | .second => l.second
  | .deviceTree => l.deviceTree

def placements (l : ImageLayout) : List Placement := [l.kernel, l.ramdisk, l.second, l.deviceTree]

def imageLength (l : ImageLayout) : Nat := l.deviceTree.stop

def requiredLength (l : ImageLayout) : Nat :=
  ((l.placements.filter fun p => p.size != 0).map fun p => p.offset + p.size).foldl max 0

end ImageLayout

def isArm64Kernel (head : Bytes) : Bool := Bytes.slice head 0x38 4 == [0x41, 0x52, 0x4D, 0x64]

def kernelHeadLength : Nat := 0x3C

end KernelBoot
