import KernelBoot.BootImage.Layout
import KernelBoot.Proofs.Boot.Ranges

/-!
The geometry of an image. Each segment starts where the one before it stops, the first behind the
page of the header, and has whole pages; an empty segment has none.
-/
namespace KernelBoot

/-- A segment of a known size at a known place. -/
structure Placement.At (pageSize : PageSize) (offset size : Nat) (p : Placement) : Prop where
  offset_eq : p.offset = offset
  size_eq : p.size = size
  size_le : p.size ≤ p.extent
  pages : pageSize.bytes ∣ p.extent
  inside : p.stop < addressSpace
  empty : size = 0 → p.extent = 0

theorem Placement.At.size_le_stop {pageSize : PageSize} {offset size : Nat} {p : Placement}
    (placed : p.At pageSize offset size) : p.offset + p.size ≤ p.stop :=
  Nat.add_le_add_left placed.size_le p.offset

theorem PageSize.alignUp_zero (p : PageSize) : p.alignUp 0 = some 0 := by
  have small := p.bytes_lt
  have positive := p.bytes_pos
  have rest : (0 + (p.bytes - 1)) % p.bytes = p.bytes - 1 := by
    rw [Nat.zero_add]
    exact Nat.mod_eq_of_lt (by omega)
  have inSpace : 0 + (p.bytes - 1) < addressSpace := by omega
  rw [alignUp, checkedAdd, if_pos inSpace, Option.map_some, alignDown, rest, Nat.zero_add,
    Nat.sub_self]

namespace ImageLayout

theorem place_at {pageSize : PageSize} {offset size : Nat} {p : Placement}
    (ok : place pageSize offset size = .ok p) : p.At pageSize offset size := by
  unfold place at ok
  split at ok
  · cases ok
  rename_i extent up
  split at ok
  · rename_i inside
    cases ok
    refine ⟨rfl, rfl, (PageSize.alignUp_bounds up).1, PageSize.alignUp_dvd up, inside, ?_⟩
    rintro rfl
    rw [pageSize.alignUp_zero] at up
    cases up
    rfl
  · cases ok

structure Chained (h : BootHeader) (l : ImageLayout) : Prop where
  pageSize : l.pageSize = h.pageSize
  kernel : l.kernel.At h.pageSize h.pageSize.bytes h.kernel.size.toNat
  ramdisk : l.ramdisk.At h.pageSize l.kernel.stop h.ramdisk.size.toNat
  second : l.second.At h.pageSize l.ramdisk.stop h.second.size.toNat
  deviceTree : l.deviceTree.At h.pageSize l.second.stop h.deviceTreeSize.toNat

theorem of_chained {h : BootHeader} {l : ImageLayout} (ok : of h = .ok l) : Chained h l := by
  unfold of at ok
  simp only [bind, Except.bind, pure, Except.pure] at ok
  split at ok
  · cases ok
  rename_i kernel kernelOk
  split at ok
  · cases ok
  rename_i ramdisk ramdiskOk
  split at ok
  · cases ok
  rename_i second secondOk
  split at ok
  · cases ok
  rename_i deviceTree deviceTreeOk
  cases ok
  exact ⟨rfl, place_at kernelOk, place_at ramdiskOk, place_at secondOk, place_at deviceTreeOk⟩

theorem forall_placements {l : ImageLayout} {motive : Placement → Prop} :
    (∀ p ∈ l.placements, motive p) ↔
      motive l.kernel ∧ motive l.ramdisk ∧ motive l.second ∧ motive l.deviceTree := by
  simp only [placements, List.forall_mem_cons, List.not_mem_nil, false_implies, implies_true,
    and_true]

theorem of_sizes {h : BootHeader} {l : ImageLayout} (ok : of h = .ok l) :
    ∀ p ∈ l.placements, p.size < wordLimit ∧ p.size ≤ p.extent := by
  have word : ∀ {offset : Nat} {size : UInt32} {p : Placement},
      p.At h.pageSize offset size.toNat → p.size < wordLimit ∧ p.size ≤ p.extent := by
    intro offset size p placed
    exact ⟨placed.size_eq ▸ size.toNat_lt, placed.size_le⟩
  have chained := of_chained ok
  exact forall_placements.mpr
    ⟨word chained.kernel, word chained.ramdisk, word chained.second, word chained.deviceTree⟩

theorem of_empty {h : BootHeader} {l : ImageLayout} (ok : of h = .ok l) :
    ∀ p ∈ l.placements, p.size = 0 → p.extent = 0 := by
  have chained := of_chained ok
  refine forall_placements.mpr ⟨?_, ?_, ?_, ?_⟩
  · exact fun nothing => chained.kernel.empty (chained.kernel.size_eq ▸ nothing)
  · exact fun nothing => chained.ramdisk.empty (chained.ramdisk.size_eq ▸ nothing)
  · exact fun nothing => chained.second.empty (chained.second.size_eq ▸ nothing)
  · exact fun nothing => chained.deviceTree.empty (chained.deviceTree.size_eq ▸ nothing)

theorem stop_le_required {l : ImageLayout} {p : Placement} (member : p ∈ l.placements)
    (some : p.size ≠ 0) : p.offset + p.size ≤ l.requiredLength := by
  refine le_foldl_max (.inr (List.mem_map.mpr ⟨p, List.mem_filter.mpr ⟨member, ?_⟩, rfl⟩))
  simpa using some

namespace Chained
variable {h : BootHeader} {l : ImageLayout}

theorem header_first (chained : Chained h l) : ∀ p ∈ l.placements, h.pageSize.bytes ≤ p.offset := by
  have kernel := chained.kernel.offset_eq
  have ramdisk := chained.ramdisk.offset_eq
  have second := chained.second.offset_eq
  have deviceTree := chained.deviceTree.offset_eq
  simp only [Placement.stop] at ramdisk second deviceTree
  refine forall_placements.mpr ⟨?_, ?_, ?_, ?_⟩
  all_goals omega

theorem stop_le_length (chained : Chained h l) : ∀ p ∈ l.placements, p.stop ≤ l.imageLength := by
  have ramdisk := chained.ramdisk.offset_eq
  have second := chained.second.offset_eq
  have deviceTree := chained.deviceTree.offset_eq
  simp only [Placement.stop] at ramdisk second deviceTree
  simp only [imageLength, Placement.stop]
  refine forall_placements.mpr ⟨?_, ?_, ?_, ?_⟩
  all_goals omega

theorem size_le_length (chained : Chained h l) :
    ∀ p ∈ l.placements, p.offset + p.size ≤ l.imageLength := by
  obtain ⟨kernel, ramdisk, second, deviceTree⟩ := forall_placements.mp chained.stop_le_length
  exact forall_placements.mpr
    ⟨Nat.le_trans chained.kernel.size_le_stop kernel,
      Nat.le_trans chained.ramdisk.size_le_stop ramdisk,
      Nat.le_trans chained.second.size_le_stop second,
      Nat.le_trans chained.deviceTree.size_le_stop deviceTree⟩

theorem required_le_length (chained : Chained h l) : l.requiredLength ≤ l.imageLength := by
  apply foldl_max_le.mpr
  constructor
  · exact Nat.zero_le _
  · intro stop member
    obtain ⟨p, kept, rfl⟩ := List.mem_map.mp member
    exact chained.size_le_length p (List.mem_filter.mp kept).1

theorem length_pages (chained : Chained h l) : h.pageSize.bytes ∣ l.imageLength := by
  have kernel : h.pageSize.bytes ∣ l.kernel.stop := by
    rw [Placement.stop, chained.kernel.offset_eq]
    exact Nat.dvd_add (Nat.dvd_refl _) chained.kernel.pages
  have ramdisk : h.pageSize.bytes ∣ l.ramdisk.stop := by
    rw [Placement.stop, chained.ramdisk.offset_eq]
    exact Nat.dvd_add kernel chained.ramdisk.pages
  have second : h.pageSize.bytes ∣ l.second.stop := by
    rw [Placement.stop, chained.second.offset_eq]
    exact Nat.dvd_add ramdisk chained.second.pages
  rw [imageLength, Placement.stop, chained.deviceTree.offset_eq]
  exact Nat.dvd_add second chained.deviceTree.pages

end Chained
end ImageLayout
end KernelBoot
