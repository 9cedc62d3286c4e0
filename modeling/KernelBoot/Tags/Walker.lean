import KernelBoot.Tags.Record

/-!
Reading a tag list as a kernel does: each step moves by the size of the record. The walk ends at
the end mark or at the first record that cannot be read.
-/
namespace KernelBoot
namespace Tag
open Bytes

/-- A record's meaning; a record too short for its tag keeps its payload as it is. -/
def ofPayload (tag : UInt32) (payload : Bytes) : Tag :=
  if tag = coreCode ∧ payload.length = 0 then .core none
  else if tag = coreCode ∧ payload.length ≥ 12 then
    .core (some ⟨word32 payload 0, word32 payload 4, word32 payload 8⟩)
  else if tag = memoryCode ∧ payload.length ≥ 8 then .memory (word32 payload 4) (word32 payload 0)
  else if tag = initrdCode ∧ payload.length ≥ 8 then .initrd (word32 payload 0) (word32 payload 4)
  else if tag = commandLineCode then .commandLine (upToNul payload)
  else .unknown tag payload

inductive Step where
  | done
  | failed (error : TagError)
  | record (tag : Tag) (length : Nat)

def step (offset : Nat) (rest : Bytes) : Step :=
  match word32? rest 0, word32? rest 4 with
  | some size, some tag =>
    if tag = noneCode then if size = 0 then .done else .failed (.badSize offset size)
    else if size < 2 then .failed (.badSize offset size)
    else
      let payload := slice rest 8 (size.toNat * 4 - 8)
      if payload.length = size.toNat * 4 - 8 then .record (ofPayload tag payload) (size.toNat * 4)
      else .failed (.unterminated offset)
  | _, _ => .failed (.unterminated offset)

theorem step_record {offset : Nat} {rest : Bytes} {tag : Tag} {length : Nat}
    (h : step offset rest = .record tag length) : 8 ≤ length ∧ length ≤ rest.length := by
  unfold step at h
  split at h
  · rename_i size code hsize hcode
    have present := word32?_bound hcode
    split at h
    · split at h <;> cases h
    · split at h
      · cases h
      · rename_i big
        have two : 2 ≤ size.toNat := by
          have := UInt32.not_lt.mp big
          simpa using UInt32.le_iff_toNat_le.mp this
        dsimp only at h
        split at h
        · rename_i full
          cases h
          simp only [slice, List.length_take, List.length_drop] at full
          omega
        · cases h
  · cases h

def walkFrom (offset : Nat) (rest : Bytes) : List (Except TagError Tag) :=
  match _taken : step offset rest with
  | .done => []
  | .failed error => [.error error]
  | .record tag length => .ok tag :: walkFrom (offset + length) (rest.drop length)
termination_by rest.length
decreasing_by
  have bounds := step_record _taken
  simp only [List.length_drop]
  omega

def walk (buf : Bytes) : List (Except TagError Tag) := walkFrom 0 buf

end Tag

structure TagWalker where
  offset : Nat
  rest : Bytes
  ended : Bool
deriving DecidableEq

namespace TagWalker

def start (buf : Bytes) : TagWalker := ⟨0, buf, false⟩

/-- A walker that has come to the end mark or to an error gives nothing any more. -/
def next (w : TagWalker) : Option (Except TagError Tag) × TagWalker :=
  if w.ended then (none, w)
  else
    match Tag.step w.offset w.rest with
    | .done => (none, { w with ended := true })
    | .failed error => (some (.error error), { w with ended := true })
    | .record tag length => (some (.ok tag), ⟨w.offset + length, w.rest.drop length, false⟩)

def after : Nat → TagWalker → TagWalker
  | 0, w => w
  | calls + 1, w => after calls w.next.2

def answer (calls : Nat) (w : TagWalker) : Option (Except TagError Tag) := (w.after calls).next.1

end TagWalker
end KernelBoot
