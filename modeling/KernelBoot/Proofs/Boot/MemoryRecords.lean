import KernelBoot.Boot.TagList
import KernelBoot.Proofs.Boot.Ranges
import Mathlib.Data.List.Permutation

/-!
The memory that is reported to a kernel. A firmware lists its regions in any order, overlapping or
touching; the records of them come by start with a gap between any two, end at 4 GiB at the
latest, and cover just memory of the regions. Regions with gaps between them are determined by
the addresses that they cover, so the order of the firmware's list does not show.
-/
namespace KernelBoot

namespace MemoryRegions

def Covers (regions : List AddressRange) (address : Nat) : Prop :=
  ∃ r ∈ regions, r.contains address = true

/-- Memory in each region and a gap between any two, the lower one first. -/
structure Spaced (regions : List AddressRange) : Prop where
  filled : ∀ r ∈ regions, r.start < r.stop
  gaps : regions.Pairwise fun a b => a.stop < b.start

variable {r s : AddressRange} {regions rest : List AddressRange} {address : Nat}

theorem covers_cons :
    Covers (r :: rest) address ↔ r.contains address = true ∨ Covers rest address := by
  simp only [Covers, List.mem_cons, exists_eq_or_imp]

theorem joined_contains (order : r.start ≤ s.start) (touching : s.start ≤ r.stop) :
    (AddressRange.between r.start (max r.stop s.stop)).contains address = true ↔
      r.contains address = true ∨ s.contains address = true := by
  have orderedR := r.ordered
  have orderedS := s.ordered
  simp only [AddressRange.contains_iff, AddressRange.between]
  omega

theorem merge_covers (sorted : regions.Pairwise fun a b => a.start ≤ b.start) :
    Covers (merge regions) address ↔ Covers regions address := by
  fun_induction merge regions with
  | case1 => exact Iff.rfl
  | case2 => exact Iff.rfl
  | case3 r s rest touching ih =>
    obtain ⟨fromR, others⟩ := List.pairwise_cons.mp sorted
    obtain ⟨_, restSorted⟩ := List.pairwise_cons.mp others
    have joined : (AddressRange.between r.start (max r.stop s.stop) :: rest).Pairwise
        fun a b => a.start ≤ b.start :=
      List.pairwise_cons.mpr ⟨fun g member => fromR g (List.mem_cons_of_mem s member), restSorted⟩
    rw [ih joined, covers_cons, covers_cons, covers_cons,
      joined_contains (fromR s List.mem_cons_self) touching, or_assoc]
  | case4 r s rest apart ih =>
    rw [covers_cons, ih (List.pairwise_cons.mp sorted).2, ← covers_cons]

theorem merge_start (low : ∀ g ∈ regions, address ≤ g.start) :
    ∀ g ∈ merge regions, address ≤ g.start := by
  fun_induction merge regions with
  | case1 => exact low
  | case2 => exact low
  | case3 r s rest touching ih =>
    obtain ⟨first, others⟩ := List.forall_mem_cons.mp low
    exact ih (List.forall_mem_cons.mpr ⟨first, (List.forall_mem_cons.mp others).2⟩)
  | case4 r s rest apart ih =>
    obtain ⟨first, others⟩ := List.forall_mem_cons.mp low
    exact List.forall_mem_cons.mpr ⟨first, ih others⟩

theorem merge_spaced (filled : ∀ g ∈ regions, g.start < g.stop)
    (sorted : regions.Pairwise fun a b => a.start ≤ b.start) : Spaced (merge regions) := by
  fun_induction merge regions with
  | case1 => exact ⟨filled, List.Pairwise.nil⟩
  | case2 r => exact ⟨filled, List.pairwise_singleton _ r⟩
  | case3 r s rest touching ih =>
    obtain ⟨fromR, others⟩ := List.pairwise_cons.mp sorted
    obtain ⟨first, filled'⟩ := List.forall_mem_cons.mp filled
    refine ih (List.forall_mem_cons.mpr ⟨?_, (List.forall_mem_cons.mp filled').2⟩)
      (List.pairwise_cons.mpr
        ⟨fun g member => fromR g (List.mem_cons_of_mem s member), (List.pairwise_cons.mp others).2⟩)
    simp only [AddressRange.between]
    omega
  | case4 r s rest apart ih =>
    obtain ⟨_, others⟩ := List.pairwise_cons.mp sorted
    obtain ⟨first, filled'⟩ := List.forall_mem_cons.mp filled
    have later := ih filled' others
    have low : ∀ g ∈ merge (s :: rest), s.start ≤ g.start :=
      merge_start (List.forall_mem_cons.mpr ⟨Nat.le_refl _, (List.pairwise_cons.mp others).1⟩)
    refine ⟨List.forall_mem_cons.mpr ⟨first, later.filled⟩, List.pairwise_cons.mpr ⟨?_, later.gaps⟩⟩
    intro g member
    exact Nat.lt_of_lt_of_le (Nat.not_le.mp apart) (low g member)

/-! Regions with gaps between them are determined by what they cover. -/

theorem Spaced.tail (spaced : Spaced (r :: rest)) : Spaced rest :=
  ⟨(List.forall_mem_cons.mp spaced.filled).2, (List.pairwise_cons.mp spaced.gaps).2⟩

theorem Spaced.head_covered (spaced : Spaced (r :: rest)) : Covers (r :: rest) r.start :=
  covers_cons.mpr (.inl (AddressRange.contains_iff.mpr
    ⟨Nat.le_refl _, spaced.filled r List.mem_cons_self⟩))

theorem Spaced.head_below (spaced : Spaced (r :: rest)) (covered : Covers rest address) :
    r.stop < address := by
  obtain ⟨g, member, inside⟩ := covered
  have gap := (List.pairwise_cons.mp spaced.gaps).1 g member
  rw [AddressRange.contains_iff] at inside
  omega

/-- The first region begins at the lowest covered address and ends at one that is not covered. -/
theorem Spaced.head_bounds (spaced : Spaced (r :: rest)) :
    (∀ a, Covers (r :: rest) a → r.start ≤ a) ∧ ¬ Covers (r :: rest) r.stop := by
  have ordered := r.ordered
  constructor
  · intro a covered
    rcases covers_cons.mp covered with inside | behind
    · exact (AddressRange.contains_iff.mp inside).1
    · have below := spaced.head_below behind
      omega
  · intro covered
    rcases covers_cons.mp covered with inside | behind
    · exact Nat.lt_irrefl _ (AddressRange.contains_iff.mp inside).2
    · exact Nat.lt_irrefl _ (spaced.head_below behind)

theorem Spaced.covers_tail (spaced : Spaced (r :: rest)) :
    Covers rest address ↔ Covers (r :: rest) address ∧ r.stop ≤ address := by
  constructor
  · intro covered
    exact ⟨covers_cons.mpr (.inr covered), Nat.le_of_lt (spaced.head_below covered)⟩
  · rintro ⟨covered, behind⟩
    refine (covers_cons.mp covered).resolve_left fun inside => ?_
    exact Nat.not_lt.mpr behind (AddressRange.contains_iff.mp inside).2

theorem Spaced.head_le {rest' : List AddressRange} (spaced : Spaced (r :: rest))
    (other : Spaced (s :: rest')) (covers : ∀ a, Covers (s :: rest') a → Covers (r :: rest) a) :
    r.start ≤ s.start ∧ (s.start ≤ r.stop → s.stop ≤ r.stop) := by
  obtain ⟨lowest, gap⟩ := spaced.head_bounds
  refine ⟨lowest _ (covers _ other.head_covered), fun early => ?_⟩
  refine Nat.not_lt.mp fun beyond => gap (covers _ (covers_cons.mpr (.inl ?_)))
  exact AddressRange.contains_iff.mpr ⟨early, beyond⟩

theorem Spaced.eq_of_covers {regions' : List AddressRange} (spaced : Spaced regions)
    (other : Spaced regions') (same : ∀ a, Covers regions a ↔ Covers regions' a) :
    regions = regions' := by
  induction regions generalizing regions' with
  | nil =>
    cases regions' with
    | nil => rfl
    | cons s rest' =>
      obtain ⟨_, absurd, _⟩ := (same s.start).mpr other.head_covered
      cases absurd
  | cons r rest ih =>
    cases regions' with
    | nil =>
      obtain ⟨_, absurd, _⟩ := (same r.start).mp spaced.head_covered
      cases absurd
    | cons s rest' =>
      have orderedR := r.ordered
      have orderedS := s.ordered
      obtain ⟨startLe, stopLe⟩ := spaced.head_le other fun a => (same a).mpr
      obtain ⟨startGe, stopGe⟩ := other.head_le spaced fun a => (same a).mp
      have starts : r.start = s.start := Nat.le_antisymm startLe startGe
      have stops : r.stop = s.stop := Nat.le_antisymm (stopGe (by omega)) (stopLe (by omega))
      have heads : r = s := by
        cases r
        cases s
        cases starts
        cases stops
        rfl
      subst heads
      have tails := ih spaced.tail other.tail fun a => by
        rw [spaced.covers_tail, other.covers_tail, same a]
      rw [tails]

/-! What merging makes of a list of regions. -/

def ascending (regions : List AddressRange) : List AddressRange :=
  (regions.filter fun r => !r.isEmpty).mergeSort fun a b => a.start ≤ b.start

theorem ascending_sorted (regions : List AddressRange) :
    (ascending regions).Pairwise fun a b => a.start ≤ b.start := by
  have sorted := @List.pairwise_mergeSort _ (fun a b : AddressRange => decide (a.start ≤ b.start))
    (by
      intro a b c first second
      simp only [decide_eq_true_eq] at first second ⊢
      exact Nat.le_trans first second)
    (by
      intro a b
      simp only [Bool.or_eq_true, decide_eq_true_eq]
      exact Nat.le_total _ _)
    (regions.filter fun r => !r.isEmpty)
  exact sorted.imp of_decide_eq_true

theorem mem_ascending : r ∈ ascending regions ↔ r ∈ regions ∧ r.start < r.stop := by
  have ordered := r.ordered
  rw [ascending, List.mem_mergeSort, List.mem_filter, Bool.not_eq_true', ← Bool.not_eq_true,
    AddressRange.isEmpty_iff]
  refine and_congr_right fun _ => ?_
  omega

theorem coalesce_spaced (regions : List AddressRange) : Spaced (coalesce regions) :=
  merge_spaced (fun _ member => (mem_ascending.mp member).2) (ascending_sorted regions)

theorem coalesce_covers (regions : List AddressRange) (address : Nat) :
    Covers (coalesce regions) address ↔ Covers regions address := by
  have merged : Covers (coalesce regions) address ↔ Covers (ascending regions) address :=
    merge_covers (ascending_sorted regions)
  rw [merged]
  constructor
  · rintro ⟨r, member, inside⟩
    exact ⟨r, (mem_ascending.mp member).1, inside⟩
  · rintro ⟨r, member, inside⟩
    have bounds := AddressRange.contains_iff.mp inside
    exact ⟨r, mem_ascending.mpr ⟨member, by omega⟩, inside⟩

theorem coalesce_congr {regions' : List AddressRange}
    (same : ∀ a, Covers regions a ↔ Covers regions' a) : coalesce regions = coalesce regions' :=
  (coalesce_spaced regions).eq_of_covers (coalesce_spaced regions') fun a => by
    rw [coalesce_covers, coalesce_covers, same a]

end MemoryRegions

namespace MemoryRecord
open MemoryRegions

def Covers (records : List MemoryRecord) (address : Nat) : Prop :=
  ∃ r ∈ records, r.start.toNat ≤ address ∧ address < r.start.toNat + r.size.toNat

/-- The bytes of a region that are reported: those below 4 GiB, and one page less than 4 GiB of
    them at most. -/
def reportedSize (region : AddressRange) : Nat :=
  min (min region.stop wordLimit - region.start) (wordLimit - 4096)

variable {regions : List AddressRange} {address : Nat}

theorem ofRegion_eq_some {region : AddressRange} {r : MemoryRecord}
    (reported : ofRegion region = some r) :
    region.start < wordLimit ∧ r.start.toNat = region.start ∧
      r.size.toNat = reportedSize region := by
  unfold ofRegion at reported
  split at reported
  · cases reported
  · rename_i low
    cases reported
    have page : wordLimit = 4294967296 := rfl
    refine ⟨Nat.not_le.mp low, ?_, ?_⟩
    · simp only [UInt32.toNat_ofNat']
      omega
    · simp only [UInt32.toNat_ofNat', reportedSize]
      omega

theorem ofRegion_low {region : AddressRange} (low : region.start < wordLimit) :
    ∃ r, ofRegion region = some r ∧ r.start.toNat = region.start ∧
      r.size.toNat = reportedSize region := by
  obtain ⟨r, reported⟩ : ∃ r, ofRegion region = some r := by
    rw [ofRegion, if_neg (Nat.not_le.mpr low)]
    exact ⟨_, rfl⟩
  exact ⟨r, reported, (ofRegion_eq_some reported).2⟩

theorem mem_ofRegions {r : MemoryRecord} (member : r ∈ ofRegions regions) :
    ∃ region ∈ regions, region.start < wordLimit ∧ r.start.toNat = region.start ∧
      r.size.toNat = reportedSize region := by
  obtain ⟨region, given, reported⟩ := List.mem_filterMap.mp member
  exact ⟨region, given, ofRegion_eq_some reported⟩

theorem ofRegions_numbers (regions : List AddressRange) :
    (ofRegions regions).map (fun r => (r.start.toNat, r.size.toNat)) =
      (regions.filter fun g => decide (g.start < wordLimit)).map
        fun g => (g.start, reportedSize g) := by
  induction regions with
  | nil => rfl
  | cons g rest ih =>
    by_cases low : g.start < wordLimit
    · obtain ⟨r, reported, start, size⟩ := ofRegion_low low
      have first : ofRegions (g :: rest) = r :: ofRegions rest := by
        simp only [ofRegions, List.filterMap_cons, reported]
      rw [first, List.filter_cons, if_pos (decide_eq_true low), List.map_cons, List.map_cons, ih,
        start, size]
    · have skipped : ofRegions (g :: rest) = ofRegions rest := by
        simp only [ofRegions, List.filterMap_cons, ofRegion, if_pos (Nat.not_lt.mp low)]
      rw [skipped, List.filter_cons, if_neg (by simpa using low), ih]

theorem reported_stop {region : AddressRange} (filled : region.start < region.stop)
    (low : region.start < wordLimit) :
    0 < reportedSize region ∧ region.start + reportedSize region ≤ wordLimit ∧
      region.start + reportedSize region ≤ region.stop := by
  have page : wordLimit = 4294967296 := rfl
  simp only [reportedSize]
  omega

theorem ofRegions_ascending (spaced : Spaced regions) :
    (ofRegions regions).Pairwise fun a b => a.start.toNat + a.size.toNat < b.start.toNat := by
  refine List.Pairwise.filterMap _ ?_ (List.Pairwise.and_mem.mp spaced.gaps)
  rintro g g' ⟨member, _, gap⟩ r reported r' reported'
  obtain ⟨low, start, size⟩ := ofRegion_eq_some reported
  obtain ⟨_, start', _⟩ := ofRegion_eq_some reported'
  have stop := (reported_stop (spaced.filled g member) low).2.2
  rw [start, size, start']
  exact Nat.lt_of_le_of_lt stop gap

/-- What a kernel may rely on in the records of a list of regions. -/
structure Reports (regions : List AddressRange) (records : List MemoryRecord) : Prop where
  /-- The merged regions that begin below 4 GiB, in order and in their own numbers. -/
  numbers : records.map (fun r => (r.start.toNat, r.size.toNat)) =
    ((coalesce regions).filter fun g => decide (g.start < wordLimit)).map
      fun g => (g.start, reportedSize g)
  ascending : records.Pairwise fun a b => a.start.toNat + a.size.toNat < b.start.toNat
  filled : ∀ r ∈ records, 0 < r.size.toNat
  bounded : ∀ r ∈ records, r.start.toNat + r.size.toNat ≤ wordLimit
  sound : ∀ a, Covers records a → MemoryRegions.Covers regions a
  complete : ∀ a < 0xFFFFF000, MemoryRegions.Covers regions a → Covers records a

theorem ofRegions_bounds (spaced : Spaced regions) :
    ∀ r ∈ ofRegions regions, 0 < r.size.toNat ∧ r.start.toNat + r.size.toNat ≤ wordLimit := by
  intro r member
  obtain ⟨g, given, low, start, size⟩ := mem_ofRegions member
  obtain ⟨some, below, _⟩ := reported_stop (spaced.filled g given) low
  rw [start, size]
  exact ⟨some, below⟩

theorem ofRegions_sound (spaced : Spaced regions) (covered : Covers (ofRegions regions) address) :
    MemoryRegions.Covers regions address := by
  obtain ⟨r, member, low, high⟩ := covered
  obtain ⟨g, given, first, start, size⟩ := mem_ofRegions member
  have stop := (reported_stop (spaced.filled g given) first).2.2
  rw [start] at low
  rw [start, size] at high
  exact ⟨g, given, AddressRange.contains_iff.mpr ⟨low, by omega⟩⟩

theorem ofRegions_complete (below : address < 0xFFFFF000)
    (covered : MemoryRegions.Covers regions address) : Covers (ofRegions regions) address := by
  obtain ⟨g, given, inside⟩ := covered
  obtain ⟨low, high⟩ := AddressRange.contains_iff.mp inside
  have page : wordLimit = 4294967296 := rfl
  obtain ⟨r, reported, start, size⟩ := ofRegion_low (by omega : g.start < wordLimit)
  refine ⟨r, List.mem_filterMap.mpr ⟨g, given, reported⟩, ?_, ?_⟩
  · rw [start]
    exact low
  · rw [start, size, reportedSize]
    omega

/-- The records of any list of regions report its memory, and tell nothing of its order. -/
theorem records_report (regions : List AddressRange) :
    Reports regions (ofRegions (coalesce regions)) ∧
      ∀ others, regions.Perm others →
        ofRegions (coalesce others) = ofRegions (coalesce regions) := by
  have spaced := coalesce_spaced regions
  constructor
  · exact {
      numbers := ofRegions_numbers _
      ascending := ofRegions_ascending spaced
      filled := fun r member => (ofRegions_bounds spaced r member).1
      bounded := fun r member => (ofRegions_bounds spaced r member).2
      sound := fun a covered => (coalesce_covers regions a).mp (ofRegions_sound spaced covered)
      complete := fun a below covered =>
        ofRegions_complete below ((coalesce_covers regions a).mpr covered) }
  · intro others permuted
    have same : ∀ a, MemoryRegions.Covers others a ↔ MemoryRegions.Covers regions a := by
      intro a
      simp only [MemoryRegions.Covers, permuted.mem_iff]
    rw [coalesce_congr same]

/-- Regions that touch, that overlap, that are empty, and that lie across and above 4 GiB. -/
def mixedRegions : List AddressRange :=
  [.between 0x9000 0xA000, .between 0x180000000 0x200000000, .between 0x1000 0x2000,
    .between 0x2800 0x4000, .between 0x5000 0x5000, .between 0x2000 0x3000,
    .between 0x80000000 0x120000000]

theorem records_report_mixed :
    ofRegions (coalesce mixedRegions) =
        [⟨0x1000, 0x3000⟩, ⟨0x9000, 0x1000⟩, ⟨0x80000000, 0x80000000⟩] ∧
      Reports mixedRegions (ofRegions (coalesce mixedRegions)) ∧
      mixedRegions.Perm mixedRegions.reverse ∧
      ofRegions (coalesce mixedRegions.reverse) = ofRegions (coalesce mixedRegions) := by
  obtain ⟨reports, unordered⟩ := records_report mixedRegions
  have reversed : mixedRegions.Perm mixedRegions.reverse := mixedRegions.reverse_perm.symm
  exact ⟨by cbv, reports, reversed, unordered _ reversed⟩

end MemoryRecord
end KernelBoot
