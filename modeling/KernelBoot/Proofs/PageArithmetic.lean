import KernelBoot.Proofs.BootImage.WordLayout
import Mathlib.Order.Bounds.Defs

/-!
Rounding to pages at the limits of the address space. Rounding down gives the last page boundary
that is not above a value, and rounding up the first one that is not below it, or nothing just where
that one has left the address space. On 64-bit words, where rounding is masking, the same comes out.
-/
namespace KernelBoot.PageSize

variable {p : PageSize} {value : Nat}

theorem boundaries_apart {low high : Nat} (whole : p.bytes ∣ low) (whole' : p.bytes ∣ high)
    (differ : low < high) : low + p.bytes ≤ high := by
  have step := Nat.le_of_dvd (Nat.sub_pos_of_lt differ) (Nat.dvd_sub whole' whole)
  omega

theorem alignDown_greatest (p : PageSize) (value : Nat) :
    IsGreatest {boundary | p.bytes ∣ boundary ∧ boundary ≤ value} (p.alignDown value) := by
  refine ⟨⟨p.alignDown_dvd value, p.alignDown_le value⟩, ?_⟩
  rintro boundary ⟨whole, below⟩
  apply Nat.not_lt.mp
  intro above
  have next := boundaries_apart (p.alignDown_dvd value) whole above
  have near := p.alignDown_near value
  omega

theorem wholePages_least (p : PageSize) (value : Nat) :
    IsLeast {boundary | p.bytes ∣ boundary ∧ value ≤ boundary} (p.wholePages value) := by
  have positive := p.bytes_pos
  have near := p.alignDown_near (value + (p.bytes - 1))
  have low := p.alignDown_le (value + (p.bytes - 1))
  rw [← wholePages_eq] at near low
  refine ⟨⟨p.wholePages_dvd value, by omega⟩, ?_⟩
  rintro boundary ⟨whole, above⟩
  apply Nat.not_lt.mp
  intro below
  have next := boundaries_apart whole (p.wholePages_dvd value) below
  omega

/-- The sum that rounding up begins with leaves the address space just where its result does, as the
    end of the address space is a page boundary itself. -/
theorem alignUp_sum (p : PageSize) (value : Nat) :
    value + (p.bytes - 1) < addressSpace ↔ p.wholePages value < addressSpace := by
  rw [wholePages_eq]
  constructor
  · exact Nat.lt_of_le_of_lt (p.alignDown_le _)
  · intro inside
    apply Nat.not_le.mp
    intro outside
    have last := (p.alignDown_greatest (value + (p.bytes - 1))).2 ⟨p.bytes_dvd_addressSpace, outside⟩
    omega

theorem alignUp_wholePages (p : PageSize) (value : Nat) :
    p.alignUp value =
      if p.wholePages value < addressSpace then some (p.wholePages value) else none := by
  simp only [alignUp_eq, alignUp_sum]

theorem isAligned_iff : p.isAligned value = true ↔ p.bytes ∣ value := by
  rw [isAligned, beq_iff_eq]
  exact Nat.dvd_iff_mod_eq_zero.symm

theorem alignDown_eq_self_iff : p.alignDown value = value ↔ p.bytes ∣ value := by
  constructor
  · intro unchanged
    rw [← unchanged]
    exact p.alignDown_dvd value
  · intro whole
    exact Nat.le_antisymm (p.alignDown_le value) ((p.alignDown_greatest value).2 ⟨whole, Nat.le_refl _⟩)

theorem wholePages_of_dvd (whole : p.bytes ∣ value) : p.wholePages value = value :=
  Nat.le_antisymm ((p.wholePages_least value).2 ⟨whole, Nat.le_refl _⟩) (p.wholePages_least value).1.2

theorem isAligned_iff_unchanged (inside : value < addressSpace) :
    p.isAligned value = true ↔ p.alignUp value = some value ∧ p.alignDown value = value := by
  rw [isAligned_iff, alignDown_eq_self_iff]
  constructor
  · intro whole
    refine ⟨?_, whole⟩
    rw [alignUp_wholePages, wholePages_of_dvd whole, if_pos inside]
  · exact And.right

theorem ofBytes?_two_pow (shift : Fin 64) : ofBytes? (Nat.pow 2 shift.val) = some ⟨shift⟩ := by
  have log : (Nat.pow 2 shift.val).log2 = shift.val := Nat.log2_two_pow
  have shifted : 1 <<< shift.val = Nat.pow 2 shift.val := Nat.one_shiftLeft _
  simp only [ofBytes?, log, shifted, shift.isLt, ↓reduceDIte, ↓reduceIte, Fin.eta]

theorem pagesFor_split (p : PageSize) (len : Nat) :
    p.pagesFor len = len / p.bytes + if len % p.bytes = 0 then 0 else 1 := by
  have positive := p.bytes_pos
  have split := Nat.div_add_mod len p.bytes
  have small := Nat.mod_lt len positive
  have regroup : len + p.bytes - 1 = len % p.bytes + p.bytes - 1 + p.bytes * (len / p.bytes) := by
    omega
  rw [pagesFor, regroup, Nat.add_mul_div_left _ _ positive, Nat.add_comm]
  congr 1
  by_cases exact : len % p.bytes = 0
  · rw [if_pos exact, exact, Nat.div_eq_of_lt (by omega)]
  · rw [if_neg exact, Nat.div_eq_iff positive]
    omega

theorem pagesFor_wholePages (p : PageSize) (len : Nat) :
    p.pagesFor (p.wholePages len) = p.pagesFor len := by
  rw [pagesFor_split, wholePages, Nat.mul_mod_left, if_pos rfl, Nat.mul_div_cancel _ p.bytes_pos,
    Nat.add_zero]

/-! The same on words. -/

def pagesForWord (p : PageSize) (len : UInt64) : UInt64 :=
  if len % UInt64.ofNat p.bytes = 0 then len / UInt64.ofNat p.bytes
  else len / UInt64.ofNat p.bytes + 1

theorem bytes_toNat (p : PageSize) : (UInt64.ofNat p.bytes).toNat = p.bytes :=
  UInt64.toNat_ofNat_of_lt' p.bytes_lt

theorem pagesForWord_toNat (p : PageSize) (len : UInt64) :
    (p.pagesForWord len).toNat = p.pagesFor len.toNat := by
  have full : (len / UInt64.ofNat p.bytes).toNat = len.toNat / p.bytes := by
    rw [UInt64.toNat_div, bytes_toNat]
  have left : len % UInt64.ofNat p.bytes = 0 ↔ len.toNat % p.bytes = 0 := by
    rw [← UInt64.toNat_inj, UInt64.toNat_mod, bytes_toNat, UInt64.toNat_zero]
  rw [pagesForWord, pagesFor_split]
  simp only [left]
  by_cases exact : len.toNat % p.bytes = 0
  · rw [if_pos exact, if_pos exact, full, Nat.add_zero]
  · have positive := p.bytes_pos
    have single : p.bytes ≠ 1 := by
      intro one
      rw [one, Nat.mod_one] at exact
      exact exact rfl
    -- a remainder needs pages of two bytes at least, so there are not too many to add one
    have half : len.toNat / p.bytes ≤ len.toNat / 2 := Nat.div_le_div_left (by omega) (by decide)
    have bound := len.toNat_lt
    have inside : (len / UInt64.ofNat p.bytes).toNat + (1 : UInt64).toNat < addressSpace := by
      rw [full, UInt64.toNat_one]
      simp only [addressSpace]
      omega
    rw [if_neg exact, if_neg exact, toNat_add_exact inside, full, UInt64.toNat_one]

theorem masked_iff (p : PageSize) (value : UInt64) :
    value &&& p.mask = 0 ↔ p.isAligned value.toNat = true := by
  have parts := mask_parts value p.mask
  rw [clear_toNat] at parts
  have down := p.alignDown_le value.toNat
  rw [isAligned_iff, ← alignDown_eq_self_iff, ← UInt64.toNat_inj, UInt64.toNat_zero]
  omega

/-- Rounding as it should be: by page boundaries, and in words by masks. -/
structure Exact (p : PageSize) (value : UInt64) : Prop where
  down : IsGreatest {boundary | p.bytes ∣ boundary ∧ boundary ≤ value.toNat}
    (p.alignDown value.toNat)
  up : ∃ least, IsLeast {boundary | p.bytes ∣ boundary ∧ value.toNat ≤ boundary} least ∧
    p.alignUp value.toNat = (if least < addressSpace then some least else none) ∧
    p.pagesFor value.toNat * p.bytes = least
  aligned : p.isAligned value.toNat = true ↔
    p.alignUp value.toNat = some value.toNat ∧ p.alignDown value.toNat = value.toNat
  down_masked : (value &&& ~~~p.mask).toNat = p.alignDown value.toNat
  up_masked : (p.alignUpWord? value).map UInt64.toNat = p.alignUp value.toNat
  pages_divided : (p.pagesForWord value).toNat = p.pagesFor value.toNat
  aligned_masked : value &&& p.mask = 0 ↔ p.isAligned value.toNat = true

/-- Rounding is exact for every page size, all powers of two up to 2^63, and for every address. -/
theorem rounding_exact (shift : Fin 64) :
    ∃ p, ofBytes? (Nat.pow 2 shift.val) = some p ∧ p.bytes = Nat.pow 2 shift.val ∧
      ∀ value : UInt64, Exact p value := by
  refine ⟨⟨shift⟩, ofBytes?_two_pow shift, bytes_ofBytes? (ofBytes?_two_pow shift), ?_⟩
  intro value
  have inside : value.toNat < addressSpace := value.toNat_lt
  exact {
    down := alignDown_greatest _ _
    up := ⟨_, wholePages_least _ _, alignUp_wholePages _ _, rfl⟩
    aligned := isAligned_iff_unchanged inside
    down_masked := clear_toNat _ _
    up_masked := alignUpWord?_toNat _ _
    pages_divided := pagesForWord_toNat _ _
    aligned_masked := masked_iff _ _ }

/-- The last address has no page boundary above it, and needs as many pages as there are. -/
example : let p : PageSize := ⟨63⟩
    p.alignUp 0xFFFFFFFFFFFFFFFF = none ∧ p.alignDown 0xFFFFFFFFFFFFFFFF = 0x8000000000000000 ∧
      p.pagesFor 0xFFFFFFFFFFFFFFFF * p.bytes = addressSpace := by decide

end KernelBoot.PageSize
