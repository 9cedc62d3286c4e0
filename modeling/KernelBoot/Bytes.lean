/-!
Byte strings are lists. A buffer that is written in place is the same list with one window
replaced (`overwrite`), so its length never changes while the window lies inside it.
Little-endian words are read from and written to such lists.

Lengths and positions are natural numbers, as those of a machine whose sizes are words of 64 bits:
no buffer comes near their end. Where a size is read from a buffer and multiplied, as that of a tag
in words, words of 32 bits could wrap around.
-/
namespace KernelBoot

abbrev Bytes := List UInt8

def wordLimit : Nat := 0x100000000

def word? (n : Nat) : Option UInt32 := if n < wordLimit then some (UInt32.ofNat n) else none

def sumOf (f : α → Nat) (xs : List α) : Nat := xs.foldr (fun x n => f x + n) 0

@[simp] theorem sumOf_nil (f : α → Nat) : sumOf f [] = 0 := rfl

@[simp] theorem sumOf_cons (f : α → Nat) (x : α) (xs : List α) :
    sumOf f (x :: xs) = f x + sumOf f xs := rfl

@[simp] theorem sumOf_append (f : α → Nat) (xs ys : List α) :
    sumOf f (xs ++ ys) = sumOf f xs + sumOf f ys := by
  induction xs with
  | nil => simp
  | cons x xs ih => simp [ih, Nat.add_assoc]

structure Fixed (α : Type) (n : Nat) where
  toList : List α
  length_eq : toList.length = n
deriving DecidableEq

namespace Fixed

def replicate (n : Nat) (a : α) : Fixed α n := ⟨List.replicate n a, by simp⟩

def ofList (n : Nat) (fill : α) (xs : List α) : Fixed α n :=
  ⟨xs.take n ++ List.replicate (n - xs.length) fill, by
    simp only [List.length_append, List.length_take, List.length_replicate]
    omega⟩

def set (f : Fixed α n) (i : Nat) (a : α) : Fixed α n :=
  ⟨f.toList.set i a, by simpa using f.length_eq⟩

theorem ofList_toList (fill : α) (f : Fixed α n) : ofList n fill f.toList = f := by
  cases f with
  | mk xs h =>
    have cut : xs.take n = xs := List.take_of_length_le (Nat.le_of_eq h)
    simp only [ofList, cut, h, Nat.sub_self, List.replicate_zero, List.append_nil]

end Fixed

namespace Bytes

def ofChars (cs : List Char) : Bytes := cs.flatMap String.utf8EncodeChar

def ofString (s : String) : Bytes := ofChars s.toList

def zeros (n : Nat) : Bytes := List.replicate n 0

def upToNul (bs : Bytes) : Bytes := bs.takeWhile (· != 0)

def slice (bs : Bytes) (start len : Nat) : Bytes := (bs.drop start).take len

def overwrite (buf : Bytes) (pos : Nat) (bs : Bytes) : Bytes :=
  buf.take pos ++ bs ++ buf.drop (pos + bs.length)

theorem overwrite_length (buf bs : Bytes) (pos : Nat) (inside : pos + bs.length ≤ buf.length) :
    (overwrite buf pos bs).length = buf.length := by
  simp only [overwrite, List.length_append, List.length_take, List.length_drop]
  omega

/-- The `width` low bytes of `n`, least significant first. -/
def le : (width : Nat) → (n : Nat) → Bytes
  | 0, _ => []
  | width + 1, n => UInt8.ofNat n :: le width (n / 256)

def ofLe : Bytes → Nat
  | [] => 0
  | b :: rest => b.toNat + 256 * ofLe rest

@[simp] theorem le_length (width n : Nat) : (le width n).length = width := by
  induction width generalizing n with
  | zero => rfl
  | succ width ih => simp [le, ih]

theorem ofLe_le (width n : Nat) (bound : n < Nat.pow 256 width) : ofLe (le width n) = n := by
  induction width generalizing n with
  | zero =>
    have : n < 1 := bound
    simp [le, ofLe]; omega
  | succ width ih =>
    have quotient : n / 256 < Nat.pow 256 width := by
      have bound : n < Nat.pow 256 width * 256 := bound
      exact Nat.div_lt_of_lt_mul (by omega)
    simp only [le, ofLe, ih _ quotient, UInt8.toNat_ofNat']
    omega

theorem le_ofLe (bs : Bytes) : le bs.length (ofLe bs) = bs := by
  induction bs with
  | nil => rfl
  | cons b rest ih =>
    have hb := b.toNat_lt
    have high : (b.toNat + 256 * ofLe rest) / 256 = ofLe rest := by omega
    have low : UInt8.ofNat (b.toNat + 256 * ofLe rest) = b := by
      apply UInt8.toNat_inj.mp
      simp only [UInt8.toNat_ofNat']
      omega
    simp only [List.length_cons, ofLe, le, high, low, ih]

theorem ofLe_lt (bs : Bytes) : ofLe bs < Nat.pow 256 bs.length := by
  induction bs with
  | nil => exact Nat.one_pos
  | cons b rest ih =>
    have hb := b.toNat_lt
    show b.toNat + 256 * ofLe rest < Nat.pow 256 rest.length * 256
    omega

def le32 (w : UInt32) : Bytes := le 4 w.toNat

/-- The 32-bit word at `offset`; bytes beyond the end count as zero. -/
def word32 (bs : Bytes) (offset : Nat) : UInt32 := UInt32.ofNat (ofLe (slice bs offset 4))

def word32? (bs : Bytes) (offset : Nat) : Option UInt32 :=
  if (slice bs offset 4).length = 4 then some (word32 bs offset) else none

theorem word32?_bound {bs : Bytes} {offset : Nat} {w : UInt32} (h : word32? bs offset = some w) :
    offset + 4 ≤ bs.length := by
  by_cases full : (slice bs offset 4).length = 4
  · simp only [slice, List.length_take, List.length_drop] at full
    omega
  · simp [word32?, full] at h

end Bytes
end KernelBoot
