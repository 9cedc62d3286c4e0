import KernelBoot.Boot.Source
import KernelBoot.Uefi.Status

/-!
Raw media of the firmware. A medium is read in whole blocks of its own size; the sectors that the
loader wants are cut out of them. Media are named in the order of their handles: `cd0`, `cd1`, …
for optical ones, `hd0`, `hd1`, … for the others; a partition has no name.
-/
namespace KernelBoot

/-- A medium as the firmware describes it. Blocks are asked for by the first of them and by the
    bytes to fill. -/
structure Medium (σ : Type) where
  blockSize : Nat
  blocks : Nat
  readBlocks : (first len : Nat) → Attempt σ UefiStatus Bytes

namespace Medium

/-- A medium that is gone is a missing device. -/
def storageError : UefiStatus → StorageError
  | .noMedia | .mediaChanged => .notFound
  | _ => .failed "block read"

def read (m : Medium σ) (first len : Nat) : Attempt σ StorageError Bytes :=
  (m.readBlocks first len).mapError storageError

/-- The blocks around `len` bytes that begin `skip` bytes into a block, in bytes. -/
def span (m : Medium σ) (skip len : Nat) : Nat :=
  (skip + len + m.blockSize - 1) / m.blockSize * m.blockSize

def device (m : Medium σ) : BlockDevice σ where
  sectorCount _ := saturatingMul m.blocks m.blockSize / sectorSize
  readSectors sector len := do
    let offset := sector * sectorSize
    let first := offset / m.blockSize
    let skip := offset % m.blockSize
    if skip = 0 ∧ len % m.blockSize = 0 then m.read first len
    else
      let blocks ← m.read first (m.span skip len)
      return blocks.slice skip len

def readAll (m : Medium σ) : Attempt σ StorageError Bytes :=
  if m.blocks * m.blockSize < addressSpace then m.read 0 (m.blocks * m.blockSize)
  else throw (.failed "medium too large")

end Medium

/-- A medium that follows a script, with zeros behind its data. -/
structure Disk where
  data : Bytes
  blockSize : Nat
  blocks : Nat
  lastBlock : Nat
  isLogical : Bool
  isPresent : Bool
  isRefused : Bool
  readFailure : Option UefiStatus

namespace Disk

def readBlocks (d : Disk) (first len : Nat) : Except UefiStatus Bytes :=
  match d.readFailure with
  | some status => .error status
  | none =>
    if len % d.blockSize ≠ 0 then .error .badBufferSize
    else if d.blocks < first + len / d.blockSize then .error .invalidParameter
    else
      let bytes := d.data.slice (first * d.blockSize) len
      .ok (bytes ++ Bytes.zeros (len - bytes.length))

def medium (d : Disk) : Medium σ where
  blockSize := d.blockSize
  blocks := saturatingAdd d.lastBlock 1
  readBlocks first len := .ofExcept (d.readBlocks first len)

def isOptical (d : Disk) : Bool := d.blockSize == 2048

def isNamed (d : Disk) : Bool := !d.isRefused && !d.isLogical && d.isPresent

def findFrom (name : String) (hard optical : Nat) : List Disk → Option Disk
  | [] => none
  | d :: rest =>
    if !d.isNamed then findFrom name hard optical rest
    else if d.isOptical then
      if s!"cd{optical}" == name then some d else findFrom name hard (optical + 1) rest
    else if s!"hd{hard}" == name then some d
    else findFrom name (hard + 1) optical rest

end Disk

def openMedium (disks : List Disk) (name : String) : Attempt σ StorageError (Medium σ) := do
  match Disk.findFrom name 0 0 disks with
  | none => throw .notFound
  | some disk =>
    let medium : Medium σ := disk.medium
    Attempt.log (LogTarget.block.line .debug
      s!"Block device: {medium.blocks} blocks of {medium.blockSize} bytes")
    return medium

end KernelBoot
