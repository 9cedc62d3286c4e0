import KernelBoot.Bytes

/-!
Canonical prefix codes, given by the length of each symbol's code: shorter codes come first, codes
of one length in the order of their symbols. A code is kept as the tree that its bits descend.
-/
namespace KernelBoot.Inflate

inductive CodeTree where
  | leaf (symbol : Nat)
  /-- Bits that are no code. -/
  | gap
  | node (zero one : CodeTree)
deriving DecidableEq

namespace CodeTree

def longest : Nat := 15

/-- Codes up to this length are looked up at once. -/
def direct : Nat := 10

def ordered (lengths : List Nat) : List (Nat × Nat) :=
  (List.range longest).flatMap fun i =>
    (lengths.zipIdx.filter fun entry => entry.1 == i + 1)

/-- The share of all bit strings that the codes of the given lengths take, in units of the share
    of a longest code. -/
def mass (lengths : List Nat) : Nat :=
  sumOf (fun length => if length = 0 then 0 else 1 <<< (longest - length)) lengths

def isComplete (lengths : List Nat) : Bool := mass lengths == 1 <<< longest

/-- Hands out the codes from left to right below a node at `depth`: the tree there, and the
    symbols that are left. A lone code leaves gaps; they are told from a code only as far as codes
    are looked up at once, beyond that a gap reads as symbol 0. -/
def grow : (levels depth : Nat) → List (Nat × Nat) → CodeTree × List (Nat × Nat)
  | _, depth, [] => (if depth ≤ direct then .gap else .leaf 0, [])
  | 0, _, pending => (.gap, pending)
  | levels + 1, depth, (length, symbol) :: rest =>
    if length = depth then (.leaf symbol, rest)
    else
      let (zero, pending) := grow levels (depth + 1) ((length, symbol) :: rest)
      let (one, pending) := grow levels (depth + 1) pending
      (.node zero one, pending)

/-- The tree below a root of two branches, whatever it has to hold. -/
def plant (lengths : List Nat) : CodeTree :=
  let (zero, pending) := grow longest 1 (ordered lengths)
  .node zero (grow longest 1 pending).1

def ofLengths? (lengths : List Nat) : Option CodeTree :=
  if isComplete lengths then some (plant lengths) else none

/-- The same, where one symbol or none may also stand alone. -/
def ofSparseLengths? (lengths : List Nat) : Option CodeTree :=
  if isComplete lengths || (ordered lengths).length ≤ 1 then some (plant lengths) else none

end CodeTree
end KernelBoot.Inflate
