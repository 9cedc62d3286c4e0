import KernelBoot.Proofs.Archive.Walking

/-!
Fields that are written in place, and headers made of them. A field takes just the values that have
no more digits than it has places, and what it takes reads back modulo 2^32. A header that has been
read from anything, however lenient the reading was, is the same after it has been written.
-/
namespace KernelBoot

namespace HexField

/-- A value has as many digits as its size tells, and sixteen are enough for all words. -/
theorem fits_iff (width : Nat) (value : UInt64) :
    fits width value.toNat = true ↔ value.toNat < Nat.pow 16 width := by
  have places : value.toNat >>> (4 * width) = value.toNat / Nat.pow 16 width :=
    (Nat.shiftRight_eq_div_pow _ _).trans (congrArg _ (Nat.pow_mul 2 4 width))
  have some : 0 < Nat.pow 16 width := Nat.pow_pos (by decide)
  rw [fits, Bool.or_eq_true, decide_eq_true_eq, beq_iff_eq, places, Nat.div_eq_zero_iff_lt some]
  constructor
  · rintro (wide | small)
    · have most : Nat.pow 16 16 ≤ Nat.pow 16 width := Nat.pow_le_pow_right (by decide) wide
      exact Nat.lt_of_lt_of_le value.toNat_lt most
    · exact small
  · exact Or.inr

/-- What becomes of a field that a value is written to. -/
structure Takes (value : UInt64) (field : Bytes) (result : Except ArchiveError Unit)
    (after : Bytes) : Prop where
  succeeds_iff : result = .ok () ↔ value.toNat < Nat.pow 16 field.length
  wide : 16 ≤ field.length → result = .ok ()
  kept : ∀ e, result = .error e → e = .fieldOverflow value.toNat field.length ∧ after = field
  length_eq : after.length = field.length
  reads : result = .ok () → (parse after).toNat = value.toNat % wordLimit

theorem write_takes (value : UInt64) (field : Bytes) :
    Takes value field (write value.toNat field).1 (write value.toNat field).2 := by
  have room := fits_iff field.length value
  by_cases small : value.toNat < Nat.pow 16 field.length
  · have written : write value.toNat field = (.ok (), digits field.length value.toNat) := by
      rw [write, format, if_pos (room.mpr small)]
    rw [written]
    have whole : value.toNat % Nat.pow 16 field.length = value.toNat := Nat.mod_eq_of_lt small
    refine ⟨⟨fun _ => small, fun _ => rfl⟩, fun _ => rfl, nofun, digits_length _ _, fun _ => ?_⟩
    rw [parse_digits, whole, UInt32.toNat_ofNat']
    rfl
  · have refused : write value.toNat field =
        (.error (.fieldOverflow value.toNat field.length), field) := by
      rw [write, format, if_neg (mt room.mp small)]
    rw [refused]
    refine ⟨⟨nofun, fun fits => absurd fits small⟩, fun wide => ?_, ?_, rfl, nofun⟩
    · have always : fits field.length value.toNat = true := by simp [fits, wide]
      exact absurd (room.mp always) small
    · rintro e same
      cases same
      exact ⟨rfl, rfl⟩

end HexField

namespace RecordHeader

theorem parse_front (bytes : Bytes) (offset : Nat) :
    parse bytes offset = parse (bytes.take size) offset := by
  simp only [parse, List.take_take, Nat.min_self]

/-- What has been written to the front of a buffer reads back. -/
structure Stored (h : RecordHeader) (out written : Bytes) : Prop where
  length_eq : written.length = out.length
  behind : written.drop size = out.drop size
  reads : ∀ offset, parse written offset = .ok h

theorem write_stored (h : RecordHeader) {out : Bytes} (room : size ≤ out.length) :
    ∃ written, h.write out = .ok written ∧ Stored h out written := by
  have encoded := h.encode_length
  have written : Bytes.overwrite out 0 h.encode = h.encode ++ out.drop size := by
    rw [Bytes.overwrite, List.take_zero, List.nil_append, Nat.zero_add, encoded]
  refine ⟨h.encode ++ out.drop size, ?_, ?_, ?_, ?_⟩
  · rw [write, if_neg (Nat.not_lt.mpr room), written]
  · rw [List.length_append, List.length_drop, encoded]
    omega
  · rw [List.drop_left' encoded]
  · intro offset
    rw [parse_front, List.take_left' encoded]
    exact h.parse_encode offset

/-- All that a header needs is its magic; its fields may hold anything. -/
theorem parse_marked {raw : Bytes} (whole : size ≤ raw.length) (marked : magic <+: raw) :
    ∃ h, ∀ offset, parse raw offset = .ok h := by
  have cut : (raw.take size).length = size := List.length_take_of_le whole
  have front : (raw.take size).take 6 = magic := by
    rw [List.take_take]
    exact (List.prefix_iff_eq_take.mp marked).symm
  refine ⟨ofFields fun i => HexField.parse (Bytes.slice (raw.take size) (6 + 8 * i) 8), ?_⟩
  intro offset
  simp only [parse, cut, Nat.lt_irrefl, ↓reduceIte, front, bne_self_eq_false, Bool.false_eq_true]

/-- Fields and headers read back as they were written. A field takes a value just where it has
    places enough, and otherwise stays as it was; and of a header that was read out of any bytes
    behind the magic, writing and reading make the same header again. -/
theorem field_codec :
    (∀ value field, HexField.Takes value field (HexField.write value.toNat field).1
      (HexField.write value.toNat field).2) ∧
    (∀ (h : RecordHeader) out, size ≤ out.length →
      ∃ written, h.write out = .ok written ∧ Stored h out written) ∧
    ∀ raw : Bytes, raw.length = size → magic <+: raw →
      ∃ h, (∀ offset, parse raw offset = .ok h) ∧ ∀ out : Bytes, size ≤ out.length →
        ∃ written, h.write out = .ok written ∧ ∀ offset, parse written offset = .ok h := by
  refine ⟨HexField.write_takes, fun h out => h.write_stored, fun raw whole marked => ?_⟩
  obtain ⟨h, parsed⟩ := parse_marked (Nat.le_of_eq whole.symm) marked
  refine ⟨h, parsed, fun out room => ?_⟩
  obtain ⟨written, ok, stored⟩ := h.write_stored room
  exact ⟨written, ok, stored.reads⟩

def carelessHeader : Bytes :=
  magic ++ Bytes.ofString " 0 1F x!" ++ Bytes.ofString "FFFFFFFF" ++
    (List.replicate 11 (Bytes.ofString "  0aB z1")).flatten

theorem field_codec_careless :
    let h : RecordHeader := ⟨0x1F, ⟨0xFFFFFFFF⟩, 0xAB, 0xAB, 0xAB, 0xAB, 0xAB, 0xAB, 0xAB, 0xAB,
      0xAB, 0xAB, 0xAB⟩
    carelessHeader.length = size ∧ magic <+: carelessHeader ∧ size ≤ (Bytes.zeros 112).length ∧
      parse carelessHeader 0 = .ok h ∧
      ∃ written, h.write (Bytes.zeros 112) = .ok written ∧ parse written 0 = .ok h := by
  intro h
  have whole : carelessHeader.length = size := by decide
  have marked : magic <+: carelessHeader := by decide
  have room : size ≤ (Bytes.zeros 112).length := by decide
  have read : parse carelessHeader 0 = .ok h := by decide
  obtain ⟨h', parsed, again⟩ := field_codec.2.2 carelessHeader whole marked
  have same : h' = h := Except.ok.inj ((parsed 0).symm.trans read)
  subst same
  obtain ⟨written, ok, reads⟩ := again (Bytes.zeros 112) room
  exact ⟨whole, marked, room, read, written, ok, reads 0⟩

end RecordHeader
end KernelBoot
