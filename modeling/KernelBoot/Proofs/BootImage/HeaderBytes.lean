import KernelBoot.BootImage.Header
import KernelBoot.Proofs.Buffer

/-!
A header on disk. Its 608 bytes are read as they were written; what follows them counts as the
extra command line if it is long enough, whether it was written as one or not.
-/
namespace KernelBoot

theorem PageSize.ofBytes?_bytes (p : PageSize) : ofBytes? p.bytes = some p := by
  have log : p.bytes.log2 = p.shift.val := by
    rw [bytes_eq_two_pow]
    exact Nat.log2_two_pow
  have small : p.bytes.log2 < 64 := log ▸ p.shift.isLt
  have same : 1 <<< p.bytes.log2 = p.bytes := by rw [log, bytes]
  rw [ofBytes?, dif_pos small, if_pos same]
  congr 1
  cases p
  congr 1
  exact Fin.ext log

namespace BootHeader
open Bytes

structure Fits (h : BootHeader) : Prop where
  kernel : h.kernel.address < wordLimit
  ramdisk : h.ramdisk.address < wordLimit
  second : h.second.address < wordLimit
  tags : h.tagsAddress < wordLimit
  page : h.pageSize.bytes < wordLimit

def fields (h : BootHeader) : Bytes :=
  magic ++ (le32 h.kernel.size ++ (le 4 h.kernel.address ++ (le32 h.ramdisk.size ++
    (le 4 h.ramdisk.address ++ (le32 h.second.size ++ (le 4 h.second.address ++
    (le 4 h.tagsAddress ++ (le 4 h.pageSize.bytes ++ (le32 h.deviceTreeSize ++ (zeros 4 ++
    (h.name.toList ++ h.commandLine.toList)))))))))))

def front (h : BootHeader) : Bytes := h.fields ++ h.id.toList.flatMap le32

def extraBytes (h : BootHeader) : Bytes := (h.extraCommandLine.map (·.toList)).getD []

@[simp] theorem magic_length : magic.length = 8 := by decide

theorem words_length (words : List UInt32) : (words.flatMap le32).length = 4 * words.length := by
  induction words with
  | nil => rfl
  | cons w rest ih =>
    rw [List.flatMap_cons, List.length_append, le32_length, ih, List.length_cons]
    omega

theorem fields_length (h : BootHeader) : h.fields.length = 576 := by
  simp only [fields, List.length_append, le32_length, le_length, zeros_length, magic_length,
    h.name.length_eq, h.commandLine.length_eq]

theorem front_length (h : BootHeader) : h.front.length = size := by
  rw [front, List.length_append, fields_length, words_length, h.id.length_eq, size]

theorem bytes_length (h : BootHeader) : (h.front ++ h.extraBytes).length = h.encodedLength := by
  rw [List.length_append, front_length, encodedLength, extraBytes]
  cases h.extraCommandLine with
  | none => rfl
  | some extra =>
    simp only [Option.map_some, Option.getD_some, extra.length_eq, Option.isSome_some, ↓reduceIte]
    rfl

theorem encodedLength_le (h : BootHeader) : h.encodedLength ≤ sizeWithExtra := by
  unfold encodedLength
  split
  · exact Nat.le_refl _
  · decide

theorem extra_absent {h : BootHeader} {room : Nat} (within : h.encodedLength ≤ room)
    (small : room < sizeWithExtra) : h.extraCommandLine = none := by
  cases extra : h.extraCommandLine with
  | none => rfl
  | some written =>
    rw [encodedLength, extra] at within
    exact absurd small (Nat.not_lt.mpr within)

theorem addressField_ok {address : Nat} {bytes : Bytes} (ok : addressField address = .ok bytes) :
    address < wordLimit := by
  unfold addressField at ok
  split at ok
  · assumption
  · cases ok

theorem writePieces_ok {ps : List (Except ε Bytes)} (ok : (writePieces ps).1 = .ok ()) :
    ∀ p ∈ ps, ∃ bytes, p = .ok bytes := by
  induction ps with
  | nil => exact List.forall_mem_nil _
  | cons p rest ih =>
    cases p with
    | error e => cases ok
    | ok bytes =>
      rw [List.forall_mem_cons]
      exact ⟨⟨bytes, rfl⟩, ih ok⟩

theorem writePieces_fits {h : BootHeader} (fits : h.Fits) :
    writePieces h.pieces = (.ok (), h.front ++ h.extraBytes) := by
  simp only [pieces, addressField, fits.kernel, fits.ramdisk, fits.second, fits.tags, ↓reduceIte,
    writePieces, front, fields, extraBytes, List.append_assoc, List.append_nil]

theorem fits_of_written {h : BootHeader} (ok : (writePieces h.pieces).1 = .ok ())
    (page : h.pageSize.bytes < wordLimit) : h.Fits := by
  have field : ∀ address, addressField address ∈ h.pieces → address < wordLimit := by
    intro address member
    obtain ⟨bytes, written⟩ := writePieces_ok ok _ member
    exact addressField_ok written
  constructor
  · exact field _ (by simp [pieces])
  · exact field _ (by simp [pieces])
  · exact field _ (by simp [pieces])
  · exact field _ (by simp [pieces])
  · exact page

/-- A header is written if its numbers fit, and its buffer has room for it. -/
theorem write_eq_ok_iff {h : BootHeader} {out : Bytes} {length : Nat} :
    (h.write out).1 = .ok length ↔
      h.Fits ∧ h.encodedLength ≤ out.length ∧ length = h.encodedLength := by
  constructor
  · intro ok
    unfold write at ok
    split at ok
    · cases ok
    rename_i room
    split at ok
    · cases ok
    rename_i bytes page
    cases outcome : (writePieces h.pieces).1 with
    | error e =>
      simp only [outcome] at ok
      cases ok
    | ok _ =>
      simp only [outcome] at ok
      cases ok
      exact ⟨fits_of_written outcome (addressField_ok page), Nat.not_lt.mp room, rfl⟩
  · rintro ⟨fits, room, rfl⟩
    simp only [write, if_neg (Nat.not_lt.mpr room), addressField, if_pos fits.page,
      writePieces_fits fits]
    rfl

theorem write_written {h : BootHeader} {out : Bytes} {length : Nat}
    (ok : (h.write out).1 = .ok length) :
    (h.write out).2 = (h.front ++ h.extraBytes) ++ out.drop h.encodedLength := by
  obtain ⟨fits, room, _⟩ := write_eq_ok_iff.mp ok
  simp only [write, if_neg (Nat.not_lt.mpr room), addressField, if_pos fits.page,
    writePieces_fits fits, bytes_length]

theorem words_read (words : List UInt32) (rest : Bytes) :
    ((List.range words.length).map fun i => word32 (words.flatMap le32 ++ rest) (4 * i)) = words := by
  induction words with
  | nil => rfl
  | cons w others ih =>
    have later : ∀ i, word32 (le32 w ++ (others.flatMap le32 ++ rest)) (4 * (i + 1)) =
        word32 (others.flatMap le32 ++ rest) (4 * i) := by
      intro i
      have past : (le32 w).length ≤ 4 * (i + 1) := by
        rw [le32_length]
        omega
      rw [word32_past _ _ past, le32_length, Nat.mul_succ, Nat.add_sub_cancel]
    rw [List.length_cons, List.range_succ_eq_map, List.map_cons, List.map_map, List.flatMap_cons,
      List.append_assoc, Nat.mul_zero, word32_le32]
    simp only [Function.comp_def, Nat.succ_eq_add_one, later, ih]

/-! The fields of a header, whatever follows it. -/

section Front
variable {h : BootHeader} (fits : h.Fits) (tail : Bytes)

theorem front_magic : (h.front ++ tail).take 8 = magic := by
  rw [front, fields, List.append_assoc, List.append_assoc, List.take_left' magic_length]

include fits in
theorem front_segments : segmentAt (h.front ++ tail) 8 = h.kernel ∧
    segmentAt (h.front ++ tail) 16 = h.ramdisk ∧ segmentAt (h.front ++ tail) 24 = h.second := by
  simp only [segmentAt, front, fields, List.append_assoc, word32_past, magic_length, le32_length,
    le_length, Nat.reduceLeDiff, Nat.reduceSub, Nat.reduceAdd, Nat.le_refl, Nat.sub_self,
    word32_le32, word32_front fits.kernel, word32_front fits.ramdisk, word32_front fits.second,
    UInt32.toNat_ofNat_of_lt' fits.kernel, UInt32.toNat_ofNat_of_lt' fits.ramdisk,
    UInt32.toNat_ofNat_of_lt' fits.second, and_self]

include fits in
theorem front_numbers : (word32 (h.front ++ tail) 32).toNat = h.tagsAddress ∧
    (word32 (h.front ++ tail) 36).toNat = h.pageSize.bytes ∧
    word32 (h.front ++ tail) 40 = h.deviceTreeSize := by
  simp only [front, fields, List.append_assoc, word32_past, magic_length, le32_length, le_length,
    Nat.reduceLeDiff, Nat.reduceSub, Nat.le_refl, Nat.sub_self, word32_le32,
    word32_front fits.tags, word32_front fits.page, UInt32.toNat_ofNat_of_lt' fits.tags,
    UInt32.toNat_ofNat_of_lt' fits.page, and_self]

theorem front_texts : slice (h.front ++ tail) 48 16 = h.name.toList ∧
    slice (h.front ++ tail) 64 512 = h.commandLine.toList := by
  simp only [front, fields, List.append_assoc, slice_past, magic_length, le32_length, le_length,
    zeros_length, h.name.length_eq, Nat.reduceLeDiff, Nat.reduceSub, Nat.le_refl, Nat.sub_self,
    slice_front _ _ h.name.length_eq, slice_front _ _ h.commandLine.length_eq, and_self]

theorem front_id :
    ((List.range 8).map fun i => word32 (h.front ++ tail) (576 + 4 * i)) = h.id.toList := by
  have behind : ∀ i, word32 (h.front ++ tail) (576 + 4 * i) =
      word32 (h.id.toList.flatMap le32 ++ tail) (4 * i) := by
    intro i
    have past : h.fields.length ≤ 576 + 4 * i := by
      rw [fields_length]
      exact Nat.le_add_right 576 _
    rw [front, List.append_assoc, word32_past _ _ past, fields_length, Nat.add_sub_cancel_left]
  have read := words_read h.id.toList tail
  rw [h.id.length_eq] at read
  simp only [behind, read]

theorem front_behind : slice (h.front ++ tail) size 1024 = tail.take 1024 := by
  rw [slice_behind _ _ 1024 h.front_length, slice, List.drop_zero]

include fits in
theorem parse_front :
    parse (h.front ++ tail) = .ok { h with
      extraCommandLine :=
        if 1024 ≤ tail.length then some (.ofList 1024 0 (tail.take 1024)) else none } := by
  have whole : (h.front ++ tail).take size = h.front := List.take_left' h.front_length
  have magicWhole : ¬ magic.length < 8 := by decide
  have frontWhole : ¬ h.front.length < size := by
    rw [front_length]
    exact Nat.lt_irrefl size
  have enough : (tail.take 1024).length = 1024 ↔ 1024 ≤ tail.length := by
    rw [List.length_take]
    omega
  obtain ⟨kernel, ramdisk, second⟩ := front_segments fits tail
  obtain ⟨tags, page, deviceTree⟩ := front_numbers fits tail
  obtain ⟨name, line⟩ := front_texts (h := h) tail
  rw [parse, front_magic, if_neg magicWhole, if_neg (by simp), whole, if_neg frontWhole]
  simp only [page, PageSize.ofBytes?_bytes, kernel, ramdisk, second, tags, deviceTree, name, line,
    front_id, front_behind, enough, Fixed.ofList_toList]

end Front

/-! Texts in the fields of a header. -/

theorem extraText_eq (h : BootHeader) : h.extraText = upToNul h.extraBytes := by
  rw [extraText, extraBytes]
  cases h.extraCommandLine <;> rfl

theorem field_toList {text : Bytes} {room : Nat} (short : text.length ≤ room) :
    (Fixed.ofList room 0 text).toList = text ++ zeros (room - text.length) := by
  simp only [Fixed.ofList, List.take_of_length_le short, zeros]

theorem upToNul_field {text : Bytes} {room : Nat} (short : text.length ≤ room) :
    upToNul (Fixed.ofList room 0 text).toList = upToNul text := by
  rw [field_toList short, upToNul_zeros]

end BootHeader
end KernelBoot
