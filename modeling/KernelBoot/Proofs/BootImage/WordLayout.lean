import KernelBoot.Proofs.BootImage.Extents
import KernelBoot.Proofs.BootImage.HeaderCodec

/-!
Layouts in 64-bit words, where a sum that is too large wraps around. Sizes are rounded by masks, two
sums are checked for each segment, and those that come later are not. The places are those of the
exact layout, and no sum wraps that is not checked.
-/
namespace KernelBoot

def addWord? (a b : UInt64) : Option UInt64 := if a + b < a then none else some (a + b)

theorem toNat_add_exact {a b : UInt64} (inside : a.toNat + b.toNat < addressSpace) :
    (a + b).toNat = a.toNat + b.toNat := by
  rw [UInt64.toNat_add]
  exact Nat.mod_eq_of_lt inside

/-- A sum wraps just where it comes out below its first part. -/
theorem addWord?_toNat (a b : UInt64) :
    (addWord? a b).map UInt64.toNat = checkedAdd a.toNat b.toNat := by
  by_cases inside : a.toNat + b.toNat < addressSpace
  · have sum := toNat_add_exact inside
    have grown : ¬ a + b < a := by
      rw [UInt64.lt_iff_toNat_lt, sum]
      exact Nat.not_lt.mpr (Nat.le_add_right _ _)
    rw [addWord?, checkedAdd, if_neg grown, if_pos inside, Option.map_some, sum]
  · have boundA := a.toNat_lt
    have boundB := b.toNat_lt
    have wrapped : a + b < a := by
      rw [UInt64.lt_iff_toNat_lt, UInt64.toNat_add]
      simp only [addressSpace] at inside
      omega
    rw [addWord?, checkedAdd, if_pos wrapped, if_neg inside, Option.map_none]

namespace PageSize

def mask (p : PageSize) : UInt64 := UInt64.ofNat p.bytes - 1

/-- Rounds up on words: adds the mask, then clears its bits. -/
def alignUpWord? (p : PageSize) (value : UInt64) : Option UInt64 :=
  (addWord? value p.mask).map (· &&& ~~~p.mask)

theorem mask_toNat (p : PageSize) : p.mask.toNat = p.bytes - 1 := by
  have bytes : (UInt64.ofNat p.bytes).toNat = p.bytes := UInt64.toNat_ofNat_of_lt' p.bytes_lt
  have positive : 1 ≤ UInt64.ofNat p.bytes := by
    rw [UInt64.le_iff_toNat_le, bytes]
    exact p.bytes_pos
  rw [mask, UInt64.toNat_sub_of_le _ _ positive, bytes]
  rfl

/-- A word is what a mask keeps of it and what the mask clears. -/
theorem mask_parts (value mask : UInt64) :
    (value &&& ~~~mask).toNat + (value &&& mask).toNat = value.toNat := by
  have apart : (value.toBitVec &&& ~~~mask.toBitVec) &&& (value.toBitVec &&& mask.toBitVec) = 0 := by
    ext i
    simp
    grind
  have joined : (value.toBitVec &&& ~~~mask.toBitVec) ||| (value.toBitVec &&& mask.toBitVec) =
      value.toBitVec := by
    ext i
    simp
    grind
  have sum := BitVec.toNat_add_of_and_eq_zero apart
  rw [BitVec.add_eq_or_of_and_eq_zero _ _ apart, joined] at sum
  exact sum.symm

theorem clear_toNat (p : PageSize) (value : UInt64) :
    (value &&& ~~~p.mask).toNat = p.alignDown value.toNat := by
  have parts := mask_parts value p.mask
  have low : (value &&& p.mask).toNat = value.toNat % p.bytes := by
    rw [UInt64.toNat_and, mask_toNat, bytes_eq_two_pow]
    exact Nat.and_two_pow_sub_one_eq_mod _ _
  rw [alignDown]
  omega

theorem alignUpWord?_toNat (p : PageSize) (value : UInt64) :
    (p.alignUpWord? value).map UInt64.toNat = p.alignUp value.toNat := by
  have sum := addWord?_toNat value p.mask
  rw [mask_toNat] at sum
  rw [alignUpWord?, alignUp, ← sum]
  cases addWord? value p.mask with
  | none => rfl
  | some masked => exact congrArg some (p.clear_toNat masked)

end PageSize

structure WordPlacement where
  offset : UInt64
  size : UInt64
  extent : UInt64
deriving DecidableEq

namespace WordPlacement

def placement (w : WordPlacement) : Placement := ⟨w.offset.toNat, w.size.toNat, w.extent.toNat⟩

def place? (pageSize : PageSize) (cursor size : UInt64) : Option (WordPlacement × UInt64) := do
  let extent ← pageSize.alignUpWord? size
  let next ← addWord? cursor extent
  return (⟨cursor, size, extent⟩, next)

def placeAll (pageSize : PageSize) (cursor : UInt64) : List UInt64 → Option (List WordPlacement)
  | [] => some []
  | size :: rest => do
    let (first, next) ← place? pageSize cursor size
    let later ← placeAll pageSize next rest
    return first :: later

def layout? (h : BootHeader) : Option (List WordPlacement) :=
  placeAll h.pageSize (UInt64.ofNat h.pageSize.bytes)
    [h.kernel.size.toUInt64, h.ramdisk.size.toUInt64, h.second.size.toUInt64,
      h.deviceTreeSize.toUInt64]

/-! The sums that are not checked. -/

def imageLength (places : List WordPlacement) : UInt64 :=
  match places.getLast? with
  | none => 0
  | some last => last.offset + last.extent

def requiredLength (places : List WordPlacement) : UInt64 :=
  ((places.filter fun w => w.size != 0).map fun w => w.offset + w.size).foldl max 0

theorem place?_placement (pageSize : PageSize) (cursor size : UInt64) :
    (place? pageSize cursor size).map (fun (w, next) => (w.placement, next.toNat)) =
      (ImageLayout.place pageSize cursor.toNat size.toNat).toOption.map fun p => (p, p.stop) := by
  have rounded := pageSize.alignUpWord?_toNat size
  rw [place?, ImageLayout.place, ← rounded]
  cases pageSize.alignUpWord? size with
  | none => rfl
  | some extent =>
    have sum := addWord?_toNat cursor extent
    by_cases inside : cursor.toNat + extent.toNat < addressSpace
    · rw [checkedAdd, if_pos inside] at sum
      obtain ⟨next, added, stop⟩ := Option.map_eq_some_iff.mp sum
      simp [added, stop, inside, placement, Placement.stop, Except.toOption]
    · rw [checkedAdd, if_neg inside] at sum
      simp [Option.map_eq_none_iff.mp sum, inside, Except.toOption]

theorem placeAll_placements (pageSize : PageSize) (cursor : UInt64) (sizes : List UInt64) :
    (placeAll pageSize cursor sizes).map (·.map placement) =
      (ImageLayout.placeAll pageSize cursor.toNat (sizes.map UInt64.toNat)).toOption := by
  induction sizes generalizing cursor with
  | nil => rfl
  | cons size rest ih =>
    have step := place?_placement pageSize cursor size
    rw [placeAll, List.map_cons, ImageLayout.placeAll]
    cases placed : ImageLayout.place pageSize cursor.toNat size.toNat with
    | error e =>
      rw [placed] at step
      rw [Option.map_eq_none_iff.mp step]
      rfl
    | ok first =>
      rw [placed] at step
      obtain ⟨⟨w, next⟩, found, same⟩ := Option.map_eq_some_iff.mp step
      obtain ⟨place, stop⟩ := Prod.mk.inj same
      have later := ih next
      rw [stop] at later
      rw [found, ok_bind]
      simp only [Option.bind_eq_bind, Option.bind_some]
      cases behind : ImageLayout.placeAll pageSize first.stop (rest.map UInt64.toNat) with
      | error e =>
        rw [behind] at later
        rw [Option.map_eq_none_iff.mp later]
        rfl
      | ok places =>
        rw [behind] at later
        obtain ⟨ws, run, rfl⟩ := Option.map_eq_some_iff.mp later
        rw [run, ← place]
        rfl

theorem layout?_placements (h : BootHeader) :
    (layout? h).map (·.map placement) =
      ((ImageLayout.of h).map ImageLayout.placements).toOption := by
  have bytes : (UInt64.ofNat h.pageSize.bytes).toNat = h.pageSize.bytes :=
    UInt64.toNat_ofNat_of_lt' h.pageSize.bytes_lt
  rw [layout?, placeAll_placements, bytes, ImageLayout.of_placements]
  rfl

theorem toNat_max (a b : UInt64) : (max a b).toNat = max a.toNat b.toNat := by
  show (if a ≤ b then b else a).toNat = _
  by_cases ordered : a ≤ b
  · rw [if_pos ordered, Nat.max_eq_right (UInt64.le_iff_toNat_le.mp ordered)]
  · have above := mt UInt64.le_iff_toNat_le.mpr ordered
    rw [if_neg ordered, Nat.max_eq_left (by omega)]

theorem toNat_foldl_max (stops : List UInt64) (start : UInt64) :
    (stops.foldl max start).toNat = (stops.map UInt64.toNat).foldl max start.toNat := by
  induction stops generalizing start with
  | nil => rfl
  | cons stop rest ih => rw [List.foldl_cons, List.map_cons, List.foldl_cons, ih, toNat_max]

/-- What a run on words has computed: the places of the layout, and the sums over them. -/
structure Computes (places : List WordPlacement) (l : ImageLayout) : Prop where
  placements : places.map placement = l.placements
  stops : ∀ w ∈ places, (w.offset + w.extent).toNat = w.offset.toNat + w.extent.toNat
  ends : ∀ w ∈ places, (w.offset + w.size).toNat = w.offset.toNat + w.size.toNat
  length : (imageLength places).toNat = l.imageLength
  required : (requiredLength places).toNat = l.requiredLength

theorem layout?_computes {h : BootHeader} {l : ImageLayout} (ok : ImageLayout.of h = .ok l) :
    ∃ places, layout? h = some places ∧ Computes places l := by
  have found := layout?_placements h
  rw [ok] at found
  obtain ⟨places, run, placements⟩ := Option.map_eq_some_iff.mp found
  have inside : ∀ w ∈ places, w.offset.toNat + w.extent.toNat < addressSpace ∧
      w.size.toNat ≤ w.extent.toNat := by
    intro w member
    have placed : w.placement ∈ l.placements := placements ▸ List.mem_map_of_mem member
    have below := (ImageLayout.of_chained ok).stop_le_length _ placed
    rw [ImageLayout.imageLength_eq ok] at below
    exact ⟨Nat.lt_of_le_of_lt below (ImageLayout.of_eq_ok ok).1,
      (ImageLayout.of_sizes ok _ placed).2⟩
  have stops : ∀ w ∈ places, (w.offset + w.extent).toNat = w.offset.toNat + w.extent.toNat :=
    fun w member => toNat_add_exact (inside w member).1
  have ends : ∀ w ∈ places, (w.offset + w.size).toNat = w.offset.toNat + w.size.toNat := by
    intro w member
    obtain ⟨below, most⟩ := inside w member
    exact toNat_add_exact (by omega)
  refine ⟨places, run, placements, stops, ends, ?_, ?_⟩
  · have last := congrArg List.getLast? placements
    rw [List.getLast?_map] at last
    obtain ⟨w, final, same⟩ := Option.map_eq_some_iff.mp last
    have deviceTree : w.placement = l.deviceTree := same
    rw [imageLength, final, ImageLayout.imageLength, ← deviceTree]
    exact stops w (List.mem_of_getLast? final)
  · have kept : (fun w : WordPlacement => w.size != 0) =
        (fun p : Placement => p.size != 0) ∘ placement := by
      funext w
      have zero : w.size = 0 ↔ w.size.toNat = 0 := UInt64.toNat_inj.symm
      show (w.size != 0) = (w.size.toNat != 0)
      rw [Bool.eq_iff_iff, bne_iff_ne, bne_iff_ne, ne_eq, ne_eq, zero]
    rw [requiredLength, toNat_foldl_max, ImageLayout.requiredLength, ← placements, List.filter_map,
      List.map_map, List.map_map, kept]
    congr 1
    apply List.map_congr_left
    intro w member
    exact ends w (List.mem_filter.mp member).1

end WordPlacement

namespace ImageLayout

/-- A layout that is as it should be. -/
structure Exact (h : BootHeader) (l : ImageLayout) : Prop where
  sizes : l.placements.map Placement.size = h.sizes
  aligned : ∀ p ∈ l.placements, h.pageSize.bytes ∣ p.offset
  behind_header : ∀ p ∈ l.placements, h.pageSize.bytes ≤ p.offset
  ordered : l.placements.Pairwise fun p q => p.offset + p.extent ≤ q.offset
  extents : ∀ p ∈ l.placements, p.size ≤ p.extent ∧ p.extent < p.size + h.pageSize.bytes
  length : l.imageLength = h.wholeLength
  covered : ∀ p ∈ l.placements, p.size ≠ 0 → p.offset + p.size ≤ l.requiredLength
  reached : (∃ p ∈ l.placements, p.size ≠ 0 ∧ l.requiredLength = p.offset + p.size) ∨
    (∀ p ∈ l.placements, p.size = 0) ∧ l.requiredLength = 0
  required : l.requiredLength ≤ l.imageLength

theorem chain_sizes (pageSize : PageSize) (offset : Nat) (sizes : List Nat) :
    (chain pageSize offset sizes).map Placement.size = sizes := by
  induction sizes generalizing offset with
  | nil => rfl
  | cons size rest ih => rw [chain, List.map_cons, ih]

theorem of_exact {h : BootHeader} {l : ImageLayout} (ok : of h = .ok l) : Exact h l := by
  have placements := (of_eq_ok ok).2
  have offsets : ∀ p ∈ chain h.pageSize h.pageSize.bytes h.sizes,
      h.pageSize.bytes ∣ p.offset ∧ h.pageSize.bytes ≤ p.offset :=
    chain_offsets (Nat.dvd_refl h.pageSize.bytes)
  constructor
  · rw [placements, chain_sizes]
  · rw [placements]
    exact fun p member => (offsets p member).1
  · rw [placements]
    exact fun p member => (offsets p member).2
  · rw [placements]
    exact chain_ordered (Nat.dvd_refl _)
  · rw [placements]
    exact chain_extents h.sizes_words
  · exact imageLength_eq ok
  · exact fun p member => stop_le_required member
  · exact required_reached l
  · exact (of_chained ok).required_le_length

/-- The numbers of a header on disk are too small to overflow. -/
theorem parsed_inside {bytes : Bytes} {h : BootHeader} (parsed : BootHeader.parse bytes = .ok h) :
    h.wholeLength < addressSpace := by
  obtain ⟨_, fits, _⟩ := BootHeader.parse_ok parsed
  have page := fits.page
  have whole : ∀ size ∈ h.sizes, h.pageSize.wholePages size < 2 * wordLimit := by
    intro size member
    have word := h.sizes_words size member
    have near := (h.pageSize.wholePages_bounds word).2
    omega
  simp only [BootHeader.sizes, List.forall_mem_cons] at whole
  obtain ⟨kernel, ramdisk, second, deviceTree, _⟩ := whole
  simp only [BootHeader.wholeLength, BootHeader.sizes, sumOf_cons, sumOf_nil, wordLimit,
    addressSpace] at *
  omega

/-- Layouts are exact. A header has one just where its page and its segments in whole pages end
    in the address space, and then all is where it should be; in words the same comes out, and
    what no check looks at does not wrap. Every header that is parsed has a layout. -/
theorem layout_exact :
    (∀ h, (∃ l, of h = .ok l) ↔ h.wholeLength < addressSpace) ∧
      (∀ h, addressSpace ≤ h.wholeLength →
        of h = .error .layoutOverflow ∧ WordPlacement.layout? h = none) ∧
      (∀ h l, of h = .ok l → Exact h l ∧
        ∃ places, WordPlacement.layout? h = some places ∧ WordPlacement.Computes places l) ∧
      ∀ bytes h, BootHeader.parse bytes = .ok h → ∃ l, of h = .ok l := by
  refine ⟨fun h => ⟨?_, of_succeeds⟩, fun h outside => ?_, fun h l ok => ?_, fun bytes h parsed => ?_⟩
  · rintro ⟨l, ok⟩
    exact (of_eq_ok ok).1
  · have overflow := of_overflows outside
    have found := WordPlacement.layout?_placements h
    rw [overflow] at found
    exact ⟨overflow, Option.map_eq_none_iff.mp found⟩
  · exact ⟨of_exact ok, WordPlacement.layout?_computes ok⟩
  · exact of_succeeds (parsed_inside parsed)

/-- Pages of a quarter of the address space: two segments of one page each still fit, a third does
    not. -/
def hugePages (deviceTreeSize : UInt32) : BootHeader :=
  { BootHeader.new ⟨62, by decide⟩ with
    kernel := ⟨1, 0⟩
    second := ⟨0xFFFFFFFF, 0⟩
    deviceTreeSize }

theorem layout_exact_huge :
    (hugePages 0).wholeLength < addressSpace ∧ addressSpace ≤ (hugePages 1).wholeLength ∧
      of (hugePages 1) = .error .layoutOverflow ∧
      (∃ l, of (hugePages 0) = .ok l ∧ Exact (hugePages 0) l ∧
        l.requiredLength = 0x80000000FFFFFFFF) ∧
      ∃ h, BootHeader.parse (BootHeader.new .customary).front = .ok h ∧ ∃ l, of h = .ok l := by
  have inside : (hugePages 0).wholeLength < addressSpace := by decide
  have outside : addressSpace ≤ (hugePages 1).wholeLength := by decide
  obtain ⟨l, ok⟩ := (layout_exact.1 (hugePages 0)).mpr inside
  obtain ⟨h, parsed, _⟩ := exists_ok_that (r := BootHeader.parse (BootHeader.new .customary).front)
    (fun _ => true) (by decide +kernel)
  refine ⟨inside, outside, (layout_exact.2.1 _ outside).1,
    ⟨l, ok, (layout_exact.2.2.1 _ l ok).1, ?_⟩, h, parsed, layout_exact.2.2.2 _ h parsed⟩
  cases ok
  rfl

end ImageLayout
end KernelBoot
