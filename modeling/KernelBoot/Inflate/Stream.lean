import KernelBoot.Inflate.Reading

/-!
Deflate streams: blocks of stored bytes, or of literals and repetitions in codes that are fixed or
sent along, up to the block that says it is the last. What follows that block is not read.
-/
namespace KernelBoot.Inflate

structure BlockCodes where
  literals : CodeTree
  distances : CodeTree

namespace BlockCodes

def fixed : BlockCodes where
  literals := .plant (List.replicate 144 8 ++ List.replicate 112 9 ++ List.replicate 24 7 ++
    List.replicate 8 8)
  distances := .plant (List.replicate 32 5)

def endOfBlock : Nat := 256

/-- The first length of a length symbol, and how many bits are added to it. -/
def length? (s : Nat) : Option (Nat × Nat) :=
  let c := s - 257
  if c < 8 then some (3 + c, 0)
  else if c < 28 then some (3 + (4 + c % 4) <<< (c / 4 - 1), c / 4 - 1)
  else if c = 28 then some (258, 0)
  else none

def distance? (s : Nat) : Option (Nat × Nat) :=
  if s < 4 then some (1 + s, 0)
  else if s < 30 then some (1 + (2 + s % 2) <<< (s / 2 - 1), s / 2 - 1)
  else none

def extended (meaning : Option (Nat × Nat)) : Reading Nat := do
  match meaning with
  | none => throw .invalid
  | some (first, extra) => return first + (← Reading.number extra)

/-- A repetition must not reach behind the first byte. -/
def repetition (codes : BlockCodes) (s : Nat) : Reading Unit := do
  let length ← extended (length? s)
  let distance ← extended (distance? (← Reading.symbol codes.distances))
  if (← get).written.size < distance then throw .invalid
  Reading.repeatBack distance length

/-- Symbols up to the end of the block. Each takes a bit at least, so the bits of the stream bound
    their number. -/
def symbols (codes : BlockCodes) : (fuel : Nat) → Reading Unit
  | 0 => throw .inputEnds
  | fuel + 1 => do
    let s ← Reading.symbol codes.literals
    if s < endOfBlock then
      Reading.write (UInt8.ofNat s)
      symbols codes fuel
    else if s = endOfBlock then return
    else
      codes.repetition s
      symbols codes fuel

def lengthOrder : List Nat := [16, 17, 18, 0, 8, 7, 9, 6, 10, 5, 11, 4, 12, 3, 13, 2, 14, 1, 15]

def lengthRun (code : CodeTree) (before : Option Nat) : Reading (List Nat) := do
  match ← Reading.symbol code, before with
  | 16, none => throw .invalid
  | 16, some length => return List.replicate (3 + (← Reading.number 2)) length
  | 17, _ => return List.replicate (3 + (← Reading.number 3)) 0
  | 18, _ => return List.replicate (11 + (← Reading.number 7)) 0
  | length, _ => return [length]

/-- Reads runs until `wanted` lengths are there, last one first; no run is empty. -/
def lengthRuns (code : CodeTree) (wanted : Nat) : (fuel : Nat) → List Nat → Reading (List Nat)
  | 0, seen => return seen
  | fuel + 1, seen => do
    if wanted ≤ seen.length then return seen
    else lengthRuns code wanted fuel ((← lengthRun code seen.head?) ++ seen)

def orInvalid (a? : Option α) : Reading α :=
  match a? with
  | none => throw .invalid
  | some a => return a

def sent : Reading BlockCodes := do
  let literals := 257 + (← Reading.number 5)
  let distances := 1 + (← Reading.number 5)
  let count := 4 + (← Reading.number 4)
  if 286 < literals || 30 < distances then throw .invalid
  let given ← (lengthOrder.take count).mapM fun s => return (s, ← Reading.number 3)
  let code ← orInvalid (CodeTree.ofLengths?
    ((List.range 19).map fun s => (given.lookup s).getD 0))
  let lengths := (← lengthRuns code (literals + distances) (literals + distances) []).reverse
  if lengths.length ≠ literals + distances then throw .invalid
  let distances ← orInvalid (CodeTree.ofSparseLengths? (lengths.drop literals))
  let literals ← orInvalid (CodeTree.ofSparseLengths? (lengths.take literals))
  return { literals, distances }

end BlockCodes

/-- Stored bytes begin at a whole byte, with their number and its complement. -/
def stored : Reading Unit := do
  Reading.align
  let length ← Reading.number 16
  let complement ← Reading.number 16
  if length + complement ≠ 0xFFFF then throw .invalid
  Reading.copy length

def block (fuel : Nat) : Reading Bool := do
  let last ← Reading.bit
  match ← Reading.number 2 with
  | 0 => stored
  | 1 => BlockCodes.fixed.symbols fuel
  | 2 => (← BlockCodes.sent).symbols fuel
  | _ => throw .invalid
  return last

/-- Blocks up to the last one. Each takes a bit at least. -/
def blocks (symbolFuel : Nat) : (fuel : Nat) → Reading Unit
  | 0 => throw .inputEnds
  | fuel + 1 => do
    if ← block symbolFuel then return
    else blocks symbolFuel fuel

/-- Inflates a stream into a buffer of `room` bytes: what has been written, and whether the
    stream has come to its end. -/
def inflate (stream : Bytes) (room : Nat) : Except Stop Unit × Bytes :=
  let fuel := 8 * stream.length + 1
  let (outcome, p) := (blocks fuel fuel).run.run ⟨[], stream, room, #[]⟩
  (outcome, p.written.toList)

end KernelBoot.Inflate
