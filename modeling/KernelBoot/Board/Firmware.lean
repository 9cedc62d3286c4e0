import KernelBoot.Board.Ram
import KernelBoot.Boot.Gzip
import KernelBoot.Boot.Platform

/-!
A board with one bank of memory, whose firmware follows a script: what is reserved, what fails,
what a compressed stream inflates to. Memory is given out in ranges that are remembered, and only
such memory can be read or written.
-/
namespace KernelBoot

structure BoardScript where
  ram : AddressRange
  reserved : List AddressRange
  /-- A range that every claim above a minimum is given, unchecked. -/
  grant : Option AddressRange
  claimFails : Bool
  claimAboveFails : Bool
  memoryMap : Option (List AddressRange)
  variableTable : List (String × Bytes)
  machineType : UInt32
  inflated : Option Bytes
  refusesHandoff : Bool
  kernelFails : Bool

inductive BoardCall where
  | prepareHandoff
  | disableCaches
  | enterKernel
deriving DecidableEq

structure Board where
  script : BoardScript
  memory : Ram
  grants : List AddressRange
  calls : List BoardCall
  entered : Option Handoff

namespace Board

def new (script : BoardScript) : Board := ⟨script, .filled 0xAA, [], [], none⟩

def taken (b : Board) : List AddressRange := b.grants ++ b.script.reserved

def give (b : Board) (range : AddressRange) : Except FirmwareError AddressRange × Board :=
  (.ok range, { b with grants := b.grants ++ [range] })

def allocateAt (b : Board) (range : AddressRange) : Except FirmwareError AddressRange × Board :=
  if b.script.claimFails then (.error .outOfResources, b)
  else if !range.within b.script.ram || b.taken.any fun t => range.overlaps t then
    (.error (.addressUnavailable range.start), b)
  else b.give range

def roundUp (n : Nat) : Nat := min ((n + 4095) / 4096 * 4096) (addressSpace - 1)

/-- The first free place from `start` on; each taken range is passed at most once. -/
def freeFrom (ram : AddressRange) (taken : List AddressRange) (size : Nat) :
    (tries : Nat) → (start : Nat) → Option AddressRange
  | 0, _ => none
  | tries + 1, start =>
    let range := AddressRange.sized start size
    if !range.within ram then none
    else
      match taken.find? fun t => range.overlaps t with
      | none => some range
      | some hit => freeFrom ram taken size tries (roundUp hit.stop)

def allocateAbove (b : Board) (minimum size : Nat) : Except FirmwareError AddressRange × Board :=
  if b.script.claimAboveFails then (.error .outOfResources, b)
  else
    match b.script.grant with
    | some range => b.give range
    | none =>
      let start := roundUp (max minimum b.script.ram.start)
      match freeFrom b.script.ram b.taken (roundUp size) (b.taken.length + 1) start with
      | none => (.error .outOfResources, b)
      | some range => b.give range

def owns (b : Board) (range : AddressRange) : Bool :=
  range.within b.script.ram && b.grants.any fun g => range.within g

def read (b : Board) (range : AddressRange) : Except FirmwareError Bytes :=
  if range.isEmpty then .ok []
  else if b.owns range then .ok (b.memory.read range.start range.len)
  else .error (.notAllocated range)

def decompress (b : Board) (stream : Bytes) (room : Nat) : Except FirmwareError (Nat × Bytes) :=
  match Gzip.deflatePayload stream, b.script.inflated with
  | none, _ => .error .decompression
  | some _, none => .error (.unsupported "gzip")
  | some _, some bytes =>
    if bytes.length > room then .error .decompression else .ok (bytes.length, bytes)

def called (b : Board) (call : BoardCall) : Board := { b with calls := b.calls ++ [call] }

def firmware : Firmware Board where
  allocateAt range := .ofEffect (Effect.step fun b => b.allocateAt range)
  allocateAbove minimum size := .ofEffect (Effect.step fun b => b.allocateAbove minimum size)
  memory range := .ofEffect (Effect.ask fun b => b.read range)
  store range bytes :=
    Effect.change fun b => { b with memory := b.memory.store range.start bytes }
  memoryMap := .ofEffect (Effect.ask fun b =>
    match b.script.memoryMap with
    | none => .error (.platform "memory map")
    | some regions => .ok regions)
  readVariable name := Effect.ask fun b => b.script.variableTable.lookup name
  defaultMachineType b := b.script.machineType
  decompress stream room := .ofEffect (Effect.ask fun b => b.decompress stream room)
  prepareHandoff := .ofEffect (Effect.step fun b =>
    (if b.script.refusesHandoff then .error (.platform "stale memory map") else .ok (),
      b.called .prepareHandoff))
  disableCaches := Effect.change fun b => b.called .disableCaches
  enterKernel handoff := .ofEffect (Effect.step fun b =>
    (if b.script.kernelFails then
        .error (.unsupported "ATAG kernel entry on this architecture")
      else .ok (),
      { b.called .enterKernel with entered := some handoff }))

end Board
end KernelBoot
