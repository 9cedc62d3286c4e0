import KernelBoot.Proofs.BootImage.Geometry

/-!
The layout of an image in closed form. The page of the header and the segments in whole pages add
up to the length of the image, and a header has a layout just where that sum is an address.
-/
namespace KernelBoot

namespace PageSize

def wholePages (p : PageSize) (len : Nat) : Nat := p.pagesFor len * p.bytes

theorem bytes_le (p : PageSize) : p.bytes ≤ 0x8000000000000000 := by
  have top : p.shift.val ≤ 63 := Nat.le_of_lt_succ p.shift.isLt
  rw [bytes_eq_two_pow]
  exact Nat.pow_le_pow_right (by decide) top

theorem wholePages_eq (p : PageSize) (len : Nat) :
    p.wholePages len = p.alignDown (len + (p.bytes - 1)) := by
  have positive := p.bytes_pos
  rw [wholePages, pagesFor, alignDown, Nat.add_sub_assoc positive]
  exact Nat.div_mul_self_eq_mod_sub_self

theorem wholePages_dvd (p : PageSize) (len : Nat) : p.bytes ∣ p.wholePages len :=
  Nat.dvd_mul_left _ _

theorem alignUp_eq (p : PageSize) (len : Nat) :
    p.alignUp len = if len + (p.bytes - 1) < addressSpace then some (p.wholePages len) else none := by
  rw [alignUp, checkedAdd, wholePages_eq]
  split <;> rfl

theorem alignUp_word (p : PageSize) {len : Nat} (word : len < wordLimit) :
    p.alignUp len = some (p.wholePages len) := by
  have most := p.bytes_le
  rw [alignUp_eq, if_pos]
  simp only [wordLimit, addressSpace] at word ⊢
  omega

theorem wholePages_bounds (p : PageSize) {len : Nat} (word : len < wordLimit) :
    len ≤ p.wholePages len ∧ p.wholePages len < len + p.bytes := by
  obtain ⟨enough, near, _⟩ := alignUp_bounds (p.alignUp_word word)
  exact ⟨enough, near⟩

end PageSize

namespace BootHeader

def sizes (h : BootHeader) : List Nat :=
  [h.kernel.size.toNat, h.ramdisk.size.toNat, h.second.size.toNat, h.deviceTreeSize.toNat]

def wholeLength (h : BootHeader) : Nat :=
  h.pageSize.bytes + sumOf h.pageSize.wholePages h.sizes

theorem sizes_words (h : BootHeader) : ∀ size ∈ h.sizes, size < wordLimit := by
  have word : ∀ w : UInt32, w.toNat < wordLimit := UInt32.toNat_lt
  intro size member
  simp only [sizes, List.mem_cons, List.not_mem_nil, or_false] at member
  rcases member with rfl | rfl | rfl | rfl
  all_goals exact word _

end BootHeader

namespace ImageLayout

def placeAll (pageSize : PageSize) (offset : Nat) :
    List Nat → Except BootImageError (List Placement)
  | [] => .ok []
  | size :: rest => do
    let first ← place pageSize offset size
    let later ← placeAll pageSize first.stop rest
    return first :: later

def chain (pageSize : PageSize) (offset : Nat) : List Nat → List Placement
  | [] => []
  | size :: rest =>
    ⟨offset, size, pageSize.wholePages size⟩ ::
      chain pageSize (offset + pageSize.wholePages size) rest

theorem of_placements (h : BootHeader) :
    (of h).map placements = placeAll h.pageSize h.pageSize.bytes h.sizes := by
  simp only [of, placeAll, BootHeader.sizes, bind, Except.bind, pure, Except.pure]
  cases place h.pageSize h.pageSize.bytes h.kernel.size.toNat with
  | error e => rfl
  | ok kernel =>
    simp only
    cases place h.pageSize kernel.stop h.ramdisk.size.toNat with
    | error e => rfl
    | ok ramdisk =>
      simp only
      cases place h.pageSize ramdisk.stop h.second.size.toNat with
      | error e => rfl
      | ok second =>
        simp only
        cases place h.pageSize second.stop h.deviceTreeSize.toNat with
        | error e => rfl
        | ok deviceTree => rfl

section Chain
variable {pageSize : PageSize} {offset size : Nat} {sizes : List Nat}

theorem place_eq (word : size < wordLimit) : place pageSize offset size =
    if offset + pageSize.wholePages size < addressSpace then
      .ok ⟨offset, size, pageSize.wholePages size⟩
    else .error .layoutOverflow := by
  rw [place, pageSize.alignUp_word word]

/-- The segments are placed just where their last one ends in the address space: the ends only
    grow, so the one check at the end decides them all. -/
theorem placeAll_eq (words : ∀ size ∈ sizes, size < wordLimit) (start : offset < addressSpace) :
    placeAll pageSize offset sizes =
      if offset + sumOf pageSize.wholePages sizes < addressSpace then
        .ok (chain pageSize offset sizes)
      else .error .layoutOverflow := by
  induction sizes generalizing offset with
  | nil =>
    rw [if_pos (by simpa using start)]
    rfl
  | cons size rest ih =>
    obtain ⟨word, later⟩ := List.forall_mem_cons.mp words
    rw [placeAll, place_eq word, sumOf_cons, ← Nat.add_assoc]
    by_cases inside : offset + pageSize.wholePages size < addressSpace
    · rw [if_pos inside, ok_bind, Placement.stop, ih later inside]
      split <;> rfl
    · rw [if_neg inside, if_neg (by omega)]
      rfl

theorem chain_offsets (start : pageSize.bytes ∣ offset) :
    ∀ p ∈ chain pageSize offset sizes, pageSize.bytes ∣ p.offset ∧ offset ≤ p.offset := by
  induction sizes generalizing offset with
  | nil => exact List.forall_mem_nil _
  | cons size rest ih =>
    refine List.forall_mem_cons.mpr ⟨⟨start, Nat.le_refl _⟩, fun p member => ?_⟩
    obtain ⟨aligned, behind⟩ := ih (Nat.dvd_add start (pageSize.wholePages_dvd size)) p member
    exact ⟨aligned, Nat.le_trans (Nat.le_add_right _ _) behind⟩

theorem chain_ordered (start : pageSize.bytes ∣ offset) :
    (chain pageSize offset sizes).Pairwise fun p q => p.offset + p.extent ≤ q.offset := by
  induction sizes generalizing offset with
  | nil => exact List.Pairwise.nil
  | cons size rest ih =>
    have next := Nat.dvd_add start (pageSize.wholePages_dvd size)
    refine List.pairwise_cons.mpr ⟨fun q member => ?_, ih next⟩
    exact (chain_offsets next q member).2

theorem chain_extents (words : ∀ size ∈ sizes, size < wordLimit) :
    ∀ p ∈ chain pageSize offset sizes, p.size ≤ p.extent ∧ p.extent < p.size + pageSize.bytes := by
  induction sizes generalizing offset with
  | nil => exact List.forall_mem_nil _
  | cons size rest ih =>
    obtain ⟨word, later⟩ := List.forall_mem_cons.mp words
    exact List.forall_mem_cons.mpr ⟨pageSize.wholePages_bounds word, ih later⟩

end Chain

/-- A header has a layout, the closed form of it, or its segments overflow. -/
theorem of_outcome (h : BootHeader) :
    (of h).map placements =
      if h.wholeLength < addressSpace then .ok (chain h.pageSize h.pageSize.bytes h.sizes)
      else .error .layoutOverflow := by
  rw [of_placements, placeAll_eq h.sizes_words h.pageSize.bytes_lt]
  rfl

variable {h : BootHeader} {l : ImageLayout}

theorem of_eq_ok (ok : of h = .ok l) :
    h.wholeLength < addressSpace ∧ l.placements = chain h.pageSize h.pageSize.bytes h.sizes := by
  have outcome := of_outcome h
  rw [ok] at outcome
  by_cases inside : h.wholeLength < addressSpace
  · rw [if_pos inside] at outcome
    exact ⟨inside, Except.ok.inj outcome⟩
  · rw [if_neg inside] at outcome
    cases outcome

theorem of_succeeds (inside : h.wholeLength < addressSpace) : ∃ l, of h = .ok l := by
  have outcome := of_outcome h
  rw [if_pos inside] at outcome
  obtain ⟨l, ok, _⟩ := map_eq_ok.mp outcome
  exact ⟨l, ok⟩

theorem of_overflows (outside : addressSpace ≤ h.wholeLength) : of h = .error .layoutOverflow := by
  have outcome := of_outcome h
  rw [if_neg (Nat.not_lt.mpr outside)] at outcome
  cases result : of h with
  | ok l =>
    rw [result] at outcome
    cases outcome
  | error e =>
    rw [result] at outcome
    exact congrArg Except.error (Except.error.inj outcome)

theorem imageLength_eq (ok : of h = .ok l) :
    l.imageLength = h.wholeLength := by
  have placed := (of_eq_ok ok).2
  simp only [placements, chain, BootHeader.sizes, List.cons.injEq, and_true] at placed
  obtain ⟨_, _, _, deviceTree⟩ := placed
  rw [imageLength, deviceTree, Placement.stop]
  simp only [BootHeader.wholeLength, BootHeader.sizes, sumOf_cons, sumOf_nil]
  omega

theorem foldl_max_reached (stops : List Nat) (start : Nat) :
    stops.foldl max start = start ∨ stops.foldl max start ∈ stops := by
  induction stops generalizing start with
  | nil => exact .inl rfl
  | cons stop rest ih =>
    rw [List.foldl_cons]
    rcases ih (max start stop) with first | later
    · rw [first]
      rcases Nat.le_total start stop with below | above
      · rw [Nat.max_eq_right below]
        exact .inr List.mem_cons_self
      · exact .inl (Nat.max_eq_left above)
    · exact .inr (List.mem_cons_of_mem stop later)

/-- The required length is the end of some segment that is not empty, or zero where all are. -/
theorem required_reached (l : ImageLayout) :
    (∃ p ∈ l.placements, p.size ≠ 0 ∧ l.requiredLength = p.offset + p.size) ∨
      (∀ p ∈ l.placements, p.size = 0) ∧ l.requiredLength = 0 := by
  rcases foldl_max_reached
    ((l.placements.filter fun p => p.size != 0).map fun p => p.offset + p.size) 0 with zero | some
  · have nothing : l.requiredLength = 0 := zero
    refine .inr ⟨fun p member => Decidable.byContradiction fun filled => ?_, nothing⟩
    have stop := stop_le_required member filled
    omega
  · obtain ⟨p, kept, stop⟩ := List.mem_map.mp some
    obtain ⟨member, filled⟩ := List.mem_filter.mp kept
    exact .inl ⟨p, member, by simpa using filled, stop.symm⟩

end ImageLayout
end KernelBoot
