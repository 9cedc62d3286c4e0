import KernelBoot.Bytes

/-!
The bytes of characters. The first 128 characters are one byte each, their number; the bytes of all
others are larger than these. So a byte below 128 in a text stands for that very character.
-/
namespace KernelBoot.Bytes

theorem encodeChar_ascii {c : Char} (ascii : c.toNat < 0x80) :
    String.utf8EncodeChar c = [UInt8.ofNat c.toNat] := by
  have low : c.val.toNat ≤ 0x7F := Nat.le_of_lt_succ ascii
  unfold String.utf8EncodeChar
  simp only [low, ↓reduceIte]
  rfl

theorem encodeChar_high {c : Char} (high : 0x80 ≤ c.toNat) {b : UInt8}
    (member : b ∈ String.utf8EncodeChar c) : 0x80 ≤ b.toNat := by
  have above : ¬ c.val.toNat ≤ 0x7F := Nat.not_le.mpr high
  have bound : c.val.toNat < 0x110000 := by
    have valid := c.valid
    simp only [UInt32.isValidChar, Nat.isValidChar] at valid
    omega
  unfold String.utf8EncodeChar at member
  simp only [above, ↓reduceIte] at member
  split at member
  · simp only [List.mem_cons, List.not_mem_nil, or_false] at member
    rcases member with rfl | rfl <;> simp only [UInt8.toNat_ofNat'] <;> omega
  · split at member
    · simp only [List.mem_cons, List.not_mem_nil, or_false] at member
      rcases member with rfl | rfl | rfl <;> simp only [UInt8.toNat_ofNat'] <;> omega
    · simp only [List.mem_cons, List.not_mem_nil, or_false] at member
      rcases member with rfl | rfl | rfl | rfl <;> simp only [UInt8.toNat_ofNat'] <;> omega

theorem ascii_code {c : Char} (ascii : c.toNat < 0x80) : (UInt8.ofNat c.toNat).toNat = c.toNat :=
  UInt8.toNat_ofNat_of_lt' (Nat.lt_trans ascii (by decide))

theorem mem_encodeChar {c : Char} (ascii : c.toNat < 0x80) (d : Char) :
    UInt8.ofNat c.toNat ∈ String.utf8EncodeChar d ↔ c = d := by
  by_cases low : d.toNat < 0x80
  · rw [encodeChar_ascii low, List.mem_singleton, ← UInt8.toNat_inj, ascii_code ascii, ascii_code low,
      Char.toNat_inj]
  · have apart : c ≠ d := fun same => low (same ▸ ascii)
    refine iff_of_false (fun member => ?_) apart
    have large := encodeChar_high (Nat.not_lt.mp low) member
    rw [ascii_code ascii] at large
    omega

theorem ofChars_cons (c : Char) (cs : List Char) :
    ofChars (c :: cs) = String.utf8EncodeChar c ++ ofChars cs := rfl

theorem ofChars_append (cs ds : List Char) : ofChars (cs ++ ds) = ofChars cs ++ ofChars ds :=
  List.flatMap_append

/-- A character of one byte is in a text just where its byte is in the bytes of the text. -/
theorem mem_ofChars {c : Char} (ascii : c.toNat < 0x80) {cs : List Char} :
    UInt8.ofNat c.toNat ∈ ofChars cs ↔ c ∈ cs := by
  rw [ofChars, List.mem_flatMap]
  constructor
  · rintro ⟨d, member, byte⟩
    rw [(mem_encodeChar ascii d).mp byte]
    exact member
  · exact fun member => ⟨c, member, (mem_encodeChar ascii c).mpr rfl⟩

theorem ofString_injective {s t : String} (same : ofString s = ofString t) : s = t := by
  have encoded : ∀ u : String, (ofString u).toByteArray = u.toByteArray := by
    intro u
    rw [← String.utf8Encode_toList]
    rfl
  rw [← String.toByteArray_inj, ← encoded s, ← encoded t, same]

end KernelBoot.Bytes
