import KernelBoot.Inflate.CodeTree

/-!
Reading a stream bit by bit, each byte from its lowest bit on, and writing bytes to a buffer that
does not grow. What has been written stays written when a step fails.
-/
namespace KernelBoot.Inflate

inductive Stop where
  | outputFull
  | inputEnds
  | invalid
deriving DecidableEq

def Stop.name : Stop → String
  | .outputFull => "HasMoreOutput"
  | .inputEnds => "FailedCannotMakeProgress"
  | .invalid => "Failed"

structure Progress where
  held : List Bool
  rest : Bytes
  room : Nat
  written : Array UInt8

abbrev Reading := ExceptT Stop (StateM Progress)

namespace Reading

def bitsOf (b : UInt8) : List Bool := (List.range 8).map fun i => b.toNat.testBit i

def bit : Reading Bool :=
  ExceptT.mk fun p =>
    match p.held, p.rest with
    | b :: held, _ => (.ok b, { p with held })
    | [], byte :: rest => (.ok (byte.toNat.testBit 0), { p with held := (bitsOf byte).tail, rest })
    | [], [] => (.error .inputEnds, p)

def number : (n : Nat) → Reading Nat
  | 0 => return 0
  | n + 1 => do
    let low ← bit
    return low.toNat + 2 * (← number n)

def symbol : CodeTree → Reading Nat
  | .leaf s => return s
  | .gap => throw .invalid
  | .node zero one => do if ← bit then symbol one else symbol zero

def align : Reading Unit := modify fun p => { p with held := [] }

def isFull : Reading Bool := return (← get).room ≤ (← get).written.size

def write (b : UInt8) : Reading Unit := do
  if ← isFull then throw .outputFull
  modify fun p => { p with written := p.written.push b }

/-- Writes `length` bytes again, each as it stands `distance` bytes back by then. -/
def repeatBack (distance : Nat) : (length : Nat) → Reading Unit
  | 0 => return
  | length + 1 => do
    let p ← get
    write (p.written[p.written.size - distance]?.getD 0)
    repeatBack distance length

/-- Copies bytes of the stream; room for a byte is asked for before the byte. -/
def copy : (length : Nat) → Reading Unit
  | 0 => return
  | length + 1 => do
    if ← isFull then throw .outputFull
    write (UInt8.ofNat (← number 8))
    copy length

end Reading
end KernelBoot.Inflate
