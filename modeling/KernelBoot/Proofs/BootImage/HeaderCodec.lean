import KernelBoot.Proofs.BootImage.HeaderBytes
import KernelBoot.Proofs.Boot.Run

/-!
Headers and their bytes, in both directions. What is written is read back as it was; what is read
can be written again, and comes out as it was read but for the one word that no field keeps.
-/
namespace KernelBoot

theorem Fixed.toList_ofList {xs : List α} {n : Nat} (exact : xs.length = n) (fill : α) :
    (Fixed.ofList n fill xs).toList = xs := by
  simp only [ofList, List.take_of_length_le (Nat.le_of_eq exact), exact, Nat.sub_self,
    List.replicate_zero, List.append_nil]

namespace BootHeader
open Bytes

variable {h : BootHeader} {bytes : Bytes}

theorem encode_eq_ok_iff : h.encode = .ok bytes ↔ h.Fits ∧ bytes = h.front ++ h.extraBytes := by
  have room : h.encodedLength ≤ (zeros h.encodedLength).length :=
    Nat.le_of_eq (zeros_length h.encodedLength).symm
  have nothing : (zeros h.encodedLength).drop h.encodedLength = [] :=
    List.drop_of_length_le (Nat.le_of_eq (zeros_length h.encodedLength))
  have run : h.encode = (h.write (zeros h.encodedLength)).1.map
      fun _ => (h.write (zeros h.encodedLength)).2 := rfl
  rw [run, map_eq_ok]
  constructor
  · rintro ⟨length, outcome, rfl⟩
    have written := write_written outcome
    rw [nothing, List.append_nil] at written
    exact ⟨(write_eq_ok_iff.mp outcome).1, written⟩
  · rintro ⟨fits, rfl⟩
    have outcome := write_eq_ok_iff.mpr ⟨fits, room, rfl⟩
    have written := write_written outcome
    rw [nothing, List.append_nil] at written
    exact ⟨_, outcome, written.symm⟩

theorem parse_encoded (fits : h.Fits) : parse (h.front ++ h.extraBytes) = .ok h := by
  rw [parse_front fits, extraBytes]
  cases h with
  | mk kernel ramdisk second tags page deviceTree name line id extra =>
    cases extra with
    | none => rfl
    | some field =>
      have long := Nat.le_of_eq field.length_eq.symm
      simp only [Option.map_some, Option.getD_some, if_pos long,
        List.take_of_length_le (Nat.le_of_eq field.length_eq), Fixed.ofList_toList]

theorem words_written (start count : Nat) (inside : start + 4 * count ≤ bytes.length) :
    ((List.range count).map fun i => word32 bytes (start + 4 * i)).flatMap le32 =
      slice bytes start (4 * count) := by
  induction count with
  | zero => rw [Nat.mul_zero, slice, List.take_zero]; rfl
  | succ count ih =>
    have before := ih (by omega)
    have last : le32 (word32 bytes (start + 4 * count)) = slice bytes (start + 4 * count) 4 :=
      le32_word32 (by omega)
    rw [List.range_succ, List.map_append, List.flatMap_append, before, List.map_singleton,
      List.flatMap_singleton, last, slice_join bytes _ _ rfl]
    rfl

theorem parse_ok (ok : parse bytes = .ok h) :
    size ≤ bytes.length ∧ h.Fits ∧
      h.front = (slice bytes 0 44 ++ zeros 4) ++ slice bytes 48 560 ∧
      h.extraBytes = if sizeWithExtra ≤ bytes.length then slice bytes size 1024 else [] := by
  unfold parse at ok
  split at ok
  · cases ok
  split at ok
  · cases ok
  rename_i foreign
  split at ok
  · cases ok
  rename_i whole
  split at ok
  · cases ok
  rename_i pageSize page
  have long : 608 ≤ bytes.length := by
    rw [List.length_take] at whole
    simp only [size] at whole
    omega
  have signed : magic = slice bytes 0 8 := by
    have same : bytes.take 8 = magic := by simpa using foreign
    rw [slice, List.drop_zero, same]
  have word : ∀ offset, offset + 4 ≤ 608 → le32 (word32 bytes offset) = slice bytes offset 4 := by
    intro offset inside
    exact le32_word32 (by omega)
  have number : ∀ offset, offset + 4 ≤ 608 →
      le 4 (word32 bytes offset).toNat = slice bytes offset 4 := word
  have name : (slice bytes 48 16).length = 16 := slice_length (by omega)
  have line : (slice bytes 64 512).length = 512 := slice_length (by omega)
  have count : ((List.range 8).map fun i => word32 bytes (576 + 4 * i)).length = 8 := by
    rw [List.length_map, List.length_range]
  have id : ((List.range 8).map fun i => word32 bytes (576 + 4 * i)).flatMap le32 =
      slice bytes 576 (4 * 8) := words_written 576 8 (by omega)
  cases ok
  refine ⟨long, ?_, ?_, ?_⟩
  · constructor
    · exact (word32 bytes 12).toNat_lt
    · exact (word32 bytes 20).toNat_lt
    · exact (word32 bytes 28).toNat_lt
    · exact (word32 bytes 32).toNat_lt
    · rw [PageSize.bytes_ofBytes? page]
      exact (word32 bytes 36).toNat_lt
  · simp only [front, fields, segmentAt, PageSize.bytes_ofBytes? page, Fixed.toList_ofList name,
      Fixed.toList_ofList line, Fixed.toList_ofList count, id, signed, word, number,
      Nat.reduceAdd, Nat.reduceLeDiff, Nat.reduceMul, ← List.append_assoc, slice_join]
    simp only [List.append_assoc, slice_join, Nat.reduceAdd]
  · by_cases extended : sizeWithExtra ≤ bytes.length
    · have whole : (slice bytes size 1024).length = 1024 := slice_length extended
      simp only [extraBytes, whole, ↓reduceIte, Option.map_some, Option.getD_some,
        Fixed.toList_ofList, extended]
    · have short : ¬ (slice bytes size 1024).length = 1024 := by
        simp only [slice, List.length_take, List.length_drop, size, sizeWithExtra] at extended ⊢
        omega
      simp only [extraBytes, short, ↓reduceIte, Option.map_none, Option.getD_none, extended]

/-- The bytes that a parsed header keeps: as many as it can have, with zeros in the word that has no
    field. -/
def kept (bytes : Bytes) : Bytes :=
  overwrite (bytes.take (if sizeWithExtra ≤ bytes.length then sizeWithExtra else size)) 44 (zeros 4)

theorem parsed_bytes (ok : parse bytes = .ok h) : h.front ++ h.extraBytes = kept bytes := by
  obtain ⟨long, _, front, extra⟩ := parse_ok ok
  simp only [size] at long
  have unused : ∀ stop, 44 + 4 ≤ stop → overwrite (bytes.take stop) 44 (zeros 4) =
      (slice bytes 0 44 ++ zeros 4) ++ slice bytes 48 (stop - 48) := by
    intro stop behind
    have first : min 44 stop = 44 := by omega
    rw [overwrite, List.take_take, first, zeros_length, List.drop_take, slice, slice, List.drop_zero]
  rw [front, extra, kept]
  by_cases extended : sizeWithExtra ≤ bytes.length
  · rw [if_pos extended, if_pos extended, unused _ (by decide), List.append_assoc]
    congr 1
    exact slice_join bytes 560 1024 rfl
  · rw [if_neg extended, if_neg extended, unused _ (by decide), List.append_nil]
    rfl

/-- The codec of headers. Just those are written whose addresses and page size fit into 32 bits, and
    they are read back whole. What has been read is written as it was but for the unused word. -/
theorem header_codec :
    (∀ h : BootHeader, (∃ bytes, h.encode = .ok bytes) ↔ h.Fits) ∧
      (∀ (h : BootHeader) bytes, h.encode = .ok bytes → parse bytes = .ok h) ∧
      ∀ bytes h, parse bytes = .ok h → h.encode = .ok (kept bytes) := by
  refine ⟨?_, ?_, ?_⟩
  · intro h
    constructor
    · rintro ⟨bytes, ok⟩
      exact (encode_eq_ok_iff.mp ok).1
    · intro fits
      exact ⟨_, encode_eq_ok_iff.mpr ⟨fits, rfl⟩⟩
  · intro h bytes ok
    obtain ⟨fits, rfl⟩ := encode_eq_ok_iff.mp ok
    exact parse_encoded fits
  · intro bytes h ok
    obtain ⟨_, fits, _⟩ := parse_ok ok
    exact encode_eq_ok_iff.mpr ⟨fits, (parsed_bytes ok).symm⟩

/-- A long header, and the same bytes with something in the unused word and behind the end. -/
def longHeader : BootHeader :=
  { BootHeader.new .customary with
    kernel := ⟨4, 0xFFFFFFFF⟩
    id := .ofList 8 0 [1, 2, 3]
    extraCommandLine := some (.ofList 1024 0 [0x78]) }

theorem header_codec_long :
    ∃ bytes, longHeader.encode = .ok bytes ∧ parse bytes = .ok longHeader ∧
      ∃ h, parse (overwrite bytes 44 [1, 2, 3, 4] ++ [5]) = .ok h ∧
        h.encode = .ok (kept (overwrite bytes 44 [1, 2, 3, 4] ++ [5])) := by
  have fits : longHeader.Fits := ⟨by decide, by decide, by decide, by decide, by decide⟩
  obtain ⟨bytes, encoded⟩ := (header_codec.1 longHeader).mpr fits
  have parsed := header_codec.2.1 longHeader bytes encoded
  obtain ⟨_, rfl⟩ := encode_eq_ok_iff.mp encoded
  obtain ⟨h, read, _⟩ := exists_ok_that
    (r := parse (overwrite (longHeader.front ++ longHeader.extraBytes) 44 [1, 2, 3, 4] ++ [5]))
    (fun _ => true) (by decide +kernel)
  exact ⟨_, encoded, parsed, h, read, header_codec.2.2 _ h read⟩

end BootHeader
end KernelBoot
