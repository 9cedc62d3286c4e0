import KernelBoot.Archive.Header

/-!
Header fields and whole headers read back as they were written. A field keeps the low digits of
its value, and reading them gives the value modulo 2^32.
-/
namespace KernelBoot

namespace HexField

theorem digit?_digit (v : Nat) (small : v < 16) : digit? (digit v) = some (UInt8.ofNat v) := by
  have table : ∀ i : Fin 16, digit? (digit i.val) = some (UInt8.ofNat i.val) := by decide
  exact table ⟨v, small⟩

theorem digit_ne_blank (v : Nat) (small : v < 16) : digit v ≠ 0x20 := by
  have table : ∀ i : Fin 16, digit i.val ≠ 0x20 := by decide
  exact table ⟨v, small⟩

theorem blank_notMem_digits (width value : Nat) : (0x20 : UInt8) ∉ digits width value := by
  induction width generalizing value with
  | zero => simp [digits]
  | succ width ih =>
    simp only [digits, List.mem_append, List.mem_singleton, not_or]
    exact ⟨ih _, (digit_ne_blank _ (Nat.mod_lt _ (by decide))).symm⟩

theorem push_digit (total v : Nat) (small : v < 16) :
    UInt32.ofNat total * 16 + (UInt8.ofNat v).toUInt32 = UInt32.ofNat (total * 16 + v) := by
  apply UInt32.toNat_inj.mp
  simp only [UInt32.toNat_add, UInt32.toNat_mul, UInt8.toNat_toUInt32, UInt32.toNat_ofNat',
    UInt8.toNat_ofNat', UInt32.reduceToNat]
  omega

theorem accumulate_digits (width value total : Nat) (rest : Bytes) :
    accumulate (UInt32.ofNat total) (digits width value ++ rest) =
      accumulate (UInt32.ofNat (total * Nat.pow 16 width + value % Nat.pow 16 width)) rest := by
  induction width generalizing value rest with
  | zero =>
    show accumulate (UInt32.ofNat total) rest =
      accumulate (UInt32.ofNat (total * 1 + value % 1)) rest
    rw [Nat.mul_one, Nat.mod_one, Nat.add_zero]
  | succ width ih =>
    have small : value % 16 < 16 := Nat.mod_lt _ (by decide)
    have places : (total * Nat.pow 16 width + value / 16 % Nat.pow 16 width) * 16 + value % 16 =
        total * Nat.pow 16 (width + 1) + value % Nat.pow 16 (width + 1) := by
      have whole : Nat.pow 16 (width + 1) = 16 * Nat.pow 16 width := Nat.mul_comm _ _
      have shift : total * (16 * Nat.pow 16 width) = 16 * (total * Nat.pow 16 width) :=
        Nat.mul_left_comm _ _ _
      rw [whole, Nat.mod_mul, shift]
      omega
    simp only [digits, List.append_assoc, List.singleton_append]
    rw [ih, accumulate, digit?_digit _ small]
    simp only [push_digit _ _ small, places]

/-- Leading zeros add nothing, so skipping them changes nothing where there are no blanks. -/
theorem accumulate_dropWhile (field : Bytes) (noBlank : (0x20 : UInt8) ∉ field) :
    accumulate 0 (field.dropWhile fun c => c == 0x20 || c == 0x30) = accumulate 0 field := by
  induction field with
  | nil => rfl
  | cons c rest ih =>
    simp only [List.mem_cons, not_or] at noBlank
    by_cases zero : c = 0x30
    · subst c
      have step : accumulate 0 (0x30 :: rest) = accumulate 0 rest := rfl
      rw [step, ← ih noBlank.2]
      rfl
    · have stays : (c == 0x20 || c == 0x30) = false := by
        simp [zero, Ne.symm noBlank.1]
      rw [List.dropWhile_cons_of_neg (by simp [stays])]

theorem parse_digits (width value : Nat) :
    parse (digits width value) = UInt32.ofNat (value % Nat.pow 16 width) := by
  have read := accumulate_digits width value 0 []
  rw [List.append_nil, Nat.zero_mul, Nat.zero_add] at read
  rw [parse, accumulate_dropWhile _ (blank_notMem_digits _ _)]
  exact read

theorem parse_digits_word (w : UInt32) : parse (digits 8 w.toNat) = w := by
  rw [parse_digits, Nat.mod_eq_of_lt (show w.toNat < Nat.pow 16 8 from w.toNat_lt)]
  exact UInt32.ofNat_toNat

end HexField

namespace RecordHeader
open Bytes

theorem slice_field (fields : List UInt32) (i : Nat) (inside : i < fields.length) (rest : Bytes) :
    slice (fields.flatMap (fun field => HexField.digits 8 field.toNat) ++ rest) (8 * i) 8 =
      HexField.digits 8 fields[i].toNat := by
  induction fields generalizing i with
  | nil => simp at inside
  | cons first more ih =>
    simp only [List.flatMap_cons, List.append_assoc]
    cases i with
    | zero => simp [slice, HexField.digits_length]
    | succ i =>
      have passed : 8 * (i + 1) =
          (HexField.digits 8 first.toNat).length + 8 * i := by
        rw [HexField.digits_length]; omega
      rw [slice, passed, List.drop_length_add_append]
      exact ih i (by simpa using inside)

theorem encode_length (h : RecordHeader) : h.encode.length = size := by
  simp [encode, fields, magic, HexField.digits_length, size]

theorem ofFields_fields (h : RecordHeader) : ofFields (fun i => h.fields.getD i 0) = h := rfl

theorem ofFields_congr {f g : Nat → UInt32} (same : ∀ i < 13, f i = g i) :
    ofFields f = ofFields g := by
  simp only [ofFields, same _ (by decide : 0 < 13), same _ (by decide : 1 < 13),
    same _ (by decide : 2 < 13), same _ (by decide : 3 < 13), same _ (by decide : 4 < 13),
    same _ (by decide : 5 < 13), same _ (by decide : 6 < 13), same _ (by decide : 7 < 13),
    same _ (by decide : 8 < 13), same _ (by decide : 9 < 13), same _ (by decide : 10 < 13),
    same _ (by decide : 11 < 13), same _ (by decide : 12 < 13)]

theorem parse_encode (h : RecordHeader) (offset : Nat) : parse h.encode offset = .ok h := by
  have whole : h.encode.take size = h.encode := by
    rw [← encode_length h, List.take_length]
  have marked : (h.encode.take 6 != magic) = false := by
    have first : h.encode.take 6 = magic := by simp [encode, magic]
    simp [first]
  have long : ¬ h.encode.length < size := by rw [encode_length]; omega
  have field : ∀ i < 13, HexField.parse (slice h.encode (6 + 8 * i) 8) = h.fields.getD i 0 := by
    intro i inside
    have there : i < h.fields.length := inside
    have behind : slice h.encode (6 + 8 * i) 8 = HexField.digits 8 h.fields[i].toNat := by
      have read := slice_field h.fields i there []
      rw [List.append_nil] at read
      rw [← read, encode, slice, slice, ← List.drop_drop]
      rfl
    rw [behind, HexField.parse_digits_word, List.getD_eq_getElem?_getD,
      List.getElem?_eq_getElem there, Option.getD_some]
  simp only [parse, whole, long, ↓reduceIte, marked, Bool.false_eq_true]
  rw [ofFields_congr field, ofFields_fields]

end RecordHeader
end KernelBoot
