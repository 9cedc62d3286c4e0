import KernelBoot.Bytes

/-!
Reading bytes as UTF-8 text. Each character comes out on its own; a sequence that cannot be
continued gives one gap for the longest part of it that could still have begun a character.
-/
namespace KernelBoot.Text

/-- What a first byte announces: the number of bytes to follow, the bounds of the next one,
    and the bits of the character that the first byte holds. -/
structure Lead where
  owed : Nat
  low : UInt8
  high : UInt8
  bits : Nat

def lead? (b : UInt8) : Option Lead :=
  if b < 0x80 then some ⟨0, 0x80, 0xBF, b.toNat⟩
  else if b < 0xC2 then none
  else if b < 0xE0 then some ⟨1, 0x80, 0xBF, b.toNat - 0xC0⟩
  else if b = 0xE0 then some ⟨2, 0xA0, 0xBF, 0⟩
  else if b = 0xED then some ⟨2, 0x80, 0x9F, 0xD⟩
  else if b < 0xF0 then some ⟨2, 0x80, 0xBF, b.toNat - 0xE0⟩
  else if b = 0xF0 then some ⟨3, 0x90, 0xBF, 0⟩
  else if b < 0xF4 then some ⟨3, 0x80, 0xBF, b.toNat - 0xF0⟩
  else if b = 0xF4 then some ⟨3, 0x80, 0x8F, 4⟩
  else none

/-- Takes the bytes that are owed; only the first of them has bounds of its own. -/
def continued : (owed : Nat) → (low high : UInt8) → (bits : Nat) → Bytes → Option Nat × Bytes
  | 0, _, _, bits, rest => (some bits, rest)
  | _ + 1, _, _, _, [] => (none, [])
  | owed + 1, low, high, bits, b :: rest =>
    if low ≤ b ∧ b ≤ high then continued owed 0x80 0xBF (bits * 64 + (b.toNat - 0x80)) rest
    else (none, b :: rest)

theorem continued_length_le (owed : Nat) (low high : UInt8) (bits : Nat) (bs : Bytes) :
    (continued owed low high bits bs).2.length ≤ bs.length := by
  induction owed generalizing low high bits bs with
  | zero => simp [continued]
  | succ owed ih =>
    cases bs with
    | nil => simp [continued]
    | cons b rest =>
      simp only [continued]
      split
      · exact Nat.le_trans (ih _ _ _ _) (by simp)
      · simp

/-- The characters of a byte string, `none` for each gap. -/
def characters : Bytes → List (Option Char)
  | [] => []
  | b :: rest =>
    match lead? b with
    | none => none :: characters rest
    | some l =>
      let next := continued l.owed l.low l.high l.bits rest
      next.1.map Char.ofNat :: characters next.2
termination_by bs => bs.length
decreasing_by
  · simp
  · have := continued_length_le l.owed l.low l.high l.bits rest
    simp only [List.length_cons]
    omega

def lossy (bs : Bytes) : String :=
  String.ofList ((characters bs).map fun c => c.getD '\uFFFD')

def strict? (bs : Bytes) : Option String :=
  ((characters bs).mapM id).map String.ofList

end KernelBoot.Text
