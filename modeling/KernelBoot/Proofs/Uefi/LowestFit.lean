import KernelBoot.Proofs.Boot.Ranges
import KernelBoot.Uefi.MemoryMap
import Mathlib.Order.Bounds.Defs

/-!
The lowest free place in a memory map. Regions may be listed in any order, may touch or overlap, and
may say that they go on to the end of the address space or beyond. What is found is the lowest of
all page boundaries that have the bytes behind them in one free region, and nothing is found only
where there is none.
-/
namespace KernelBoot

/-- The cut at the last address takes nothing away that could be told by its end. -/
theorem MemoryRegion.range_room (r : MemoryRegion) {address size : Nat}
    (inSpace : address + size < addressSpace) :
    address + size ≤ r.range.stop ↔ address + size ≤ r.start + r.pages * pageSize := by
  simp only [range, AddressRange.sized, AddressRange.between, saturatingAdd, saturatingMul]
  omega

namespace MemoryMap

/-- A page boundary in a range, and `size` bytes of the range behind it. -/
structure Room (region : AddressRange) (minimum size address : Nat) : Prop where
  aligned : PageSize.platform.bytes ∣ address
  above : minimum ≤ address
  starts : region.start ≤ address
  ends : address + size ≤ region.stop
  inSpace : address + size < addressSpace

/-- A page boundary with `size` bytes of a free region behind it. They end below the end of the
    address space, as what is behind the last byte of a range has to be an address. -/
structure Fits (map : MemoryMap) (minimum size address : Nat) : Prop where
  aligned : PageSize.platform.bytes ∣ address
  above : minimum ≤ address
  inSpace : address + size < addressSpace
  free : ∃ r ∈ map, r.type = .conventional ∧ r.start ≤ address ∧
    address + size ≤ r.start + r.pages * MemoryRegion.pageSize

variable {region : AddressRange} {regions : List AddressRange} {map : MemoryMap}
  {minimum size address : Nat} {range : AddressRange}

theorem fit?_eq_some : fit? minimum size region = some range ↔
    ∃ start, PageSize.platform.alignUp (max region.start minimum) = some start ∧
      Room region minimum size start ∧ range = .between start (start + size) := by
  simp only [fit?, checkedAdd, Option.bind_eq_bind, Option.bind_eq_some_iff]
  constructor
  · rintro ⟨start, up, stop, sum, room⟩
    split at sum
    · rename_i inSpace
      cases sum
      split at room
      · rename_i ends
        cases room
        have low := (PageSize.alignUp_bounds up).1
        exact ⟨start, up, ⟨PageSize.alignUp_dvd up, by omega, by omega, ends, inSpace⟩, rfl⟩
      · cases room
    · cases sum
  · rintro ⟨start, up, room, rfl⟩
    exact ⟨start, up, start + size, if_pos room.inSpace, if_pos room.ends⟩

/-- Where a region has room, the lowest boundary behind its start and the minimum has. -/
theorem Room.lowest (room : Room region minimum size address) {low : Nat} (above : minimum ≤ low)
    (starts : region.start ≤ low) (aligned : PageSize.platform.bytes ∣ low)
    (below : low ≤ address) : Room region minimum size low := by
  have ends := room.ends
  have inSpace := room.inSpace
  exact ⟨aligned, above, starts, by omega, by omega⟩

theorem Room.fit (room : Room region minimum size address) :
    ∃ start ≤ address, fit? minimum size region = some (.between start (start + size)) := by
  have behind : max region.start minimum ≤ address := Nat.max_le.mpr ⟨room.starts, room.above⟩
  have inSpace := room.inSpace
  obtain ⟨start, below, up⟩ := PageSize.alignUp_least room.aligned behind (by omega)
  have low := (PageSize.alignUp_bounds up).1
  have lower := room.lowest (by omega) (by omega) (PageSize.alignUp_dvd up) below
  exact ⟨start, below, fit?_eq_some.mpr ⟨start, up, lower, rfl⟩⟩

theorem fit?_eq_none : fit? minimum size region = none ↔
    ∀ address, ¬ Room region minimum size address := by
  constructor
  · intro nothing address room
    obtain ⟨_, _, found⟩ := room.fit
    rw [nothing] at found
    cases found
  · intro full
    cases found : fit? minimum size region with
    | none => rfl
    | some range =>
      obtain ⟨start, _, room, _⟩ := fit?_eq_some.mp found
      exact absurd room (full start)

/-- In regions that are sorted by their starts, the first one with room has the lowest. -/
theorem findFit_least (sorted : regions.Pairwise fun a b => a.start ≤ b.start)
    (found : regions.findSome? (fit? minimum size) = some range) :
    ∃ start, IsLeast {address | ∃ region ∈ regions, Room region minimum size address} start ∧
      range = .between start (start + size) := by
  induction regions with
  | nil => cases found
  | cons first rest ih =>
    obtain ⟨lowest, later⟩ := List.pairwise_cons.mp sorted
    rw [List.findSome?_cons] at found
    cases here : fit? minimum size first with
    | some place =>
      rw [here] at found
      cases found
      obtain ⟨start, up, room, same⟩ := fit?_eq_some.mp here
      refine ⟨start, ⟨⟨first, List.mem_cons_self, room⟩, ?_⟩, same⟩
      rintro address ⟨region, member, other⟩
      -- a boundary in any of the regions lies behind the start of the first one
      have behind : first.start ≤ address := by
        rcases List.mem_cons.mp member with rfl | further
        · exact other.starts
        · exact Nat.le_trans (lowest region further) other.starts
      have inSpace := other.inSpace
      obtain ⟨aligned, below, up'⟩ := PageSize.alignUp_least other.aligned
        (Nat.max_le.mpr ⟨behind, other.above⟩) (by omega)
      rw [up] at up'
      cases up'
      exact below
    | none =>
      rw [here] at found
      obtain ⟨start, ⟨⟨region, member, room⟩, least⟩, same⟩ := ih later found
      refine ⟨start, ⟨⟨region, List.mem_cons_of_mem _ member, room⟩, ?_⟩, same⟩
      rintro address ⟨other, among, otherRoom⟩
      rcases List.mem_cons.mp among with rfl | further
      · exact absurd otherRoom (fit?_eq_none.mp here address)
      · exact least ⟨other, further, otherRoom⟩

theorem free_sorted (map : MemoryMap) : map.free.Pairwise fun a b => a.start ≤ b.start := by
  apply List.Pairwise.imp (fun {_ _} below => of_decide_eq_true below)
  apply List.pairwise_mergeSort
  · intro a b c first second
    simp only [decide_eq_true_eq] at *
    omega
  · intro a b
    simp only [Bool.or_eq_true, decide_eq_true_eq]
    omega

theorem mem_free : region ∈ map.free ↔ ∃ r ∈ map, r.type = .conventional ∧ r.range = region := by
  simp [free, MemoryRegion.isFree, and_assoc]

theorem fits_iff : Fits map minimum size address ↔
    ∃ region ∈ map.free, Room region minimum size address := by
  constructor
  · rintro ⟨aligned, above, inSpace, r, member, conventional, starts, ends⟩
    have ends' := (r.range_room inSpace).mpr ends
    have listed := mem_free.mpr ⟨r, member, conventional, rfl⟩
    exact ⟨r.range, listed, aligned, above, starts, ends', inSpace⟩
  · rintro ⟨_, member, room⟩
    obtain ⟨r, among, conventional, rfl⟩ := mem_free.mp member
    have ends := (r.range_room room.inSpace).mp room.ends
    exact ⟨room.aligned, room.above, room.inSpace, r, among, conventional, room.starts, ends⟩

theorem lowestFit?_eq_none : map.lowestFit? minimum size = none ↔
    ∀ address, ¬ Fits map minimum size address := by
  simp only [lowestFit?, List.findSome?_eq_none_iff, fit?_eq_none, fits_iff]
  constructor
  · rintro full address ⟨region, member, room⟩
    exact full region member address room
  · intro full region member address room
    exact full address ⟨region, member, room⟩

theorem lowestFit?_eq_some (found : map.lowestFit? minimum size = some range) :
    ∃ start, IsLeast {address | Fits map minimum size address} start ∧
      range = .between start (start + size) := by
  obtain ⟨start, least, same⟩ := findFit_least (free_sorted map) found
  simp only [← fits_iff] at least
  exact ⟨start, least, same⟩

theorem lowestFit?_of_fits (fits : Fits map minimum size address) :
    ∃ start, IsLeast {address | Fits map minimum size address} start ∧
      map.lowestFit? minimum size = some (.between start (start + size)) := by
  cases found : map.lowestFit? minimum size with
  | none => exact absurd fits (lowestFit?_eq_none.mp found address)
  | some range =>
    obtain ⟨start, least, rfl⟩ := lowestFit?_eq_some found
    exact ⟨start, least, rfl⟩

end MemoryMap
end KernelBoot
