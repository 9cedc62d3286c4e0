import KernelBoot.Boot.Plan
import KernelBoot.Proofs.Boot.Contract

/-!
Ranges and the bytes in them. Ranges inside ranges that share nothing share nothing either, and
what is claimed or stored outside a range does not change what is read from it.
-/
namespace KernelBoot

namespace AddressRange

theorem isEmpty_iff {r : AddressRange} : r.isEmpty = true ↔ r.stop = r.start := by
  simp [isEmpty]

theorem within_iff {a b : AddressRange} : a.within b = true ↔ b.start ≤ a.start ∧ a.stop ≤ b.stop := by
  simp [within]

theorem contains_iff {r : AddressRange} {address : Nat} :
    r.contains address = true ↔ r.start ≤ address ∧ address < r.stop := by
  simp [contains]

theorem overlaps_iff {a b : AddressRange} :
    a.overlaps b = true ↔ a.stop ≠ a.start ∧ b.stop ≠ b.start ∧ a.start < b.stop ∧ b.start < a.stop := by
  simp [overlaps, isEmpty, and_assoc]

theorem apart_iff {a b : AddressRange} : a.overlaps b = false ↔
    (a.stop ≠ a.start → b.stop ≠ b.start → a.stop ≤ b.start ∨ b.stop ≤ a.start) := by
  rw [← Bool.not_eq_true, overlaps_iff]
  omega

theorem apart_comm {a b : AddressRange} (apart : a.overlaps b = false) : b.overlaps a = false := by
  rw [apart_iff] at apart ⊢
  omega

theorem apart_empty {a : AddressRange} (empty : a.isEmpty = true) (b : AddressRange) :
    a.overlaps b = false := by
  rw [isEmpty_iff] at empty
  rw [apart_iff]
  omega

theorem apart_of_within {a a' b b' : AddressRange} (apart : a'.overlaps b' = false)
    (inA : a.within a' = true) (inB : b.within b' = true) : a.overlaps b = false := by
  rw [within_iff] at inA inB
  rw [apart_iff] at apart ⊢
  have orderedA := a.ordered
  have orderedB := b.ordered
  omega

theorem apart_contains {a b : AddressRange} {address : Nat} (apart : a.overlaps b = false)
    (low : b.start ≤ address) (high : address < b.stop) : a.contains address = false := by
  rw [apart_iff] at apart
  rw [← Bool.not_eq_true, contains_iff]
  omega

theorem within_refl (a : AddressRange) : a.within a = true :=
  within_iff.mpr ⟨Nat.le_refl _, Nat.le_refl _⟩

theorem within_trans {a b c : AddressRange} (first : a.within b = true) (second : b.within c = true) :
    a.within c = true := by
  rw [within_iff] at *
  omega

theorem sized_start (start len : Nat) : (sized start len).start = start := rfl

theorem sized_stop {start len : Nat} (fits : start + len < addressSpace) :
    (sized start len).stop = start + len := by
  simp only [sized, between, saturatingAdd]
  omega

theorem sized_empty (start : Nat) : (sized start 0).isEmpty = true := by
  rw [isEmpty_iff]
  simp only [sized, between, saturatingAdd]
  omega

theorem sized_len {start len : Nat} (fits : len = 0 ∨ start + len < addressSpace) :
    (sized start len).len = len := by
  rcases fits with rfl | fits
  · rw [AddressRange.len, isEmpty_iff.mp (sized_empty start), Nat.sub_self]
  · rw [AddressRange.len, sized_stop fits, sized_start]
    omega

theorem cut_fits {r : AddressRange} {len : Nat} (short : len ≤ r.len)
    (bounded : r.len = 0 ∨ r.stop < addressSpace) : len = 0 ∨ r.start + len < addressSpace := by
  have ordered := r.ordered
  simp only [AddressRange.len] at short bounded
  omega

theorem sized_within {r : AddressRange} {len : Nat} (short : len ≤ r.len) :
    (sized r.start len).within r = true := by
  have ordered := r.ordered
  rw [within_iff]
  simp only [sized, between, saturatingAdd, AddressRange.len] at *
  omega

end AddressRange

namespace PageSize

theorem platform_bytes : platform.bytes = 4096 := rfl

theorem alignDown_le (p : PageSize) (value : Nat) : p.alignDown value ≤ value := Nat.sub_le _ _

theorem alignUp_bounds {p : PageSize} {value aligned : Nat} (up : p.alignUp value = some aligned) :
    value ≤ aligned ∧ aligned < value + p.bytes ∧ aligned < addressSpace := by
  simp only [alignUp, checkedAdd] at up
  split at up
  · rename_i fits
    simp only [Option.map_some, Option.some.injEq, alignDown] at up
    have positive := p.bytes_pos
    have small := Nat.mod_lt (value + (p.bytes - 1)) positive
    omega
  · cases up

theorem alignDown_dvd (p : PageSize) (value : Nat) : p.bytes ∣ p.alignDown value :=
  Nat.dvd_sub_mod value

theorem alignDown_near (p : PageSize) (value : Nat) : value < p.alignDown value + p.bytes := by
  have small := Nat.mod_lt value p.bytes_pos
  have part := Nat.mod_le value p.bytes
  simp only [alignDown]
  omega

theorem alignUp_dvd {p : PageSize} {value aligned : Nat} (up : p.alignUp value = some aligned) :
    p.bytes ∣ aligned := by
  simp only [alignUp, checkedAdd] at up
  split at up
  · cases up
    exact p.alignDown_dvd _
  · cases up

theorem bytes_dvd_addressSpace (p : PageSize) : p.bytes ∣ addressSpace := by
  rw [bytes_eq_two_pow]
  exact Nat.pow_dvd_pow 2 (Nat.le_of_lt p.shift.isLt)

/-- Aligning gives no more than any page boundary behind, and fails only where there is none. -/
theorem alignUp_least {p : PageSize} {value boundary : Nat} (whole : p.bytes ∣ boundary)
    (behind : value ≤ boundary) (inSpace : boundary < addressSpace) :
    ∃ aligned ≤ boundary, p.alignUp value = some aligned := by
  have lastPage := Nat.le_of_dvd (by omega) (Nat.dvd_sub p.bytes_dvd_addressSpace whole)
  have positive := p.bytes_pos
  have fits : value + (p.bytes - 1) < addressSpace := by omega
  have up : p.alignUp value = some (p.alignDown (value + (p.bytes - 1))) := by
    rw [alignUp, checkedAdd, if_pos fits, Option.map_some]
  refine ⟨_, Nat.not_lt.mp ?_, up⟩
  intro farther
  have step := Nat.le_of_dvd (by omega) (Nat.dvd_sub (alignUp_dvd up) whole)
  have near := (alignUp_bounds up).2.1
  omega

end PageSize

theorem foldl_max_le {stops : List Nat} {start n : Nat} :
    stops.foldl max start ≤ n ↔ start ≤ n ∧ ∀ stop ∈ stops, stop ≤ n := by
  induction stops generalizing start with
  | nil => simp
  | cons stop rest ih => rw [List.foldl_cons, ih, List.forall_mem_cons, Nat.max_le, and_assoc]

theorem le_foldl_max {stops : List Nat} {start n : Nat} (bound : n ≤ start ∨ n ∈ stops) :
    n ≤ stops.foldl max start := by
  obtain ⟨low, each⟩ := foldl_max_le.mp (Nat.le_refl (stops.foldl max start))
  rcases bound with below | member
  · exact Nat.le_trans below low
  · exact each n member

namespace MemoryPlan

theorem window_covers {address len : Nat} {window : AddressRange}
    (made : window? address len = some window) :
    address + len < addressSpace ∧ (AddressRange.sized address len).within window = true := by
  simp only [window?, checkedAdd, Option.bind_eq_bind, Option.bind_eq_some_iff] at made
  obtain ⟨stop, inside, stop', up, same⟩ := made
  cases same
  split at inside
  · rename_i fits
    cases inside
    obtain ⟨low, _, _⟩ := PageSize.alignUp_bounds up
    have down := PageSize.platform.alignDown_le address
    refine ⟨fits, ?_⟩
    rw [AddressRange.within_iff, AddressRange.sized_stop fits, AddressRange.sized_start]
    simp only [AddressRange.between]
    omega
  · cases inside

/-- The window of a range: whole pages, and less than one of them too much on either side. -/
structure Window (address len : Nat) (window : AddressRange) : Prop where
  start_aligned : 4096 ∣ window.start
  stop_aligned : 4096 ∣ window.stop
  start_le : window.start ≤ address
  start_near : address < window.start + 4096
  le_stop : address + len ≤ window.stop
  stop_near : window.stop < address + len + 4096

theorem window_pages {address len : Nat} {window : AddressRange}
    (made : window? address len = some window) : Window address len window := by
  simp only [window?, checkedAdd, Option.bind_eq_bind, Option.bind_eq_some_iff] at made
  obtain ⟨stop, inside, stop', up, same⟩ := made
  split at inside
  · cases inside
    cases same
    obtain ⟨low, near, _⟩ := PageSize.alignUp_bounds up
    have down := PageSize.platform.alignDown_le address
    have most : max (PageSize.platform.alignDown address) stop' = stop' := Nat.max_eq_right (by omega)
    have start_near := PageSize.platform.alignDown_near address
    rw [PageSize.platform_bytes] at near start_near
    constructor
    · exact PageSize.platform.alignDown_dvd address
    · simp only [AddressRange.between, most]
      exact PageSize.alignUp_dvd up
    · exact down
    · exact start_near
    · simp only [AddressRange.between, most]
      exact low
    · simp only [AddressRange.between, most]
      exact near
  · cases inside

end MemoryPlan

namespace Ram

theorem read_length (m : Ram) (start len : Nat) : (m.read start len).length = len := by
  simp [read]

theorem read_congr {m m' : Ram} {start len : Nat}
    (same : ∀ a, start ≤ a → a < start + len → m'.byte a = m.byte a) :
    m'.read start len = m.read start len := by
  simp only [read]
  apply List.map_congr_left
  intro i member
  have bound := List.mem_range.mp member
  exact same (start + i) (Nat.le_add_right _ _) (Nat.add_lt_add_left bound _)

theorem read_take (m : Ram) (start : Nat) {short len : Nat} (shorter : short ≤ len) :
    (m.read start len).take short = m.read start short := by
  simp only [read, ← List.map_take, List.take_range, Nat.min_eq_left shorter]

theorem read_store_apart (m : Ram) {q r : AddressRange} {bytes : Bytes} (fits : bytes.length = q.len)
    (apart : q.overlaps r = false) :
    (m.store q.start bytes).read r.start r.len = m.read r.start r.len := by
  apply read_congr
  intro a low high
  apply store_outside
  rw [AddressRange.apart_iff] at apart
  have orderedQ := q.ordered
  have orderedR := r.ordered
  simp only [AddressRange.len] at fits high
  omega

end Ram

namespace FirmwareView
variable {v : FirmwareView σ} {w w' : σ}

theorem Reachable.of_within {grants : List AddressRange} {r q : AddressRange}
    (reachable : Reachable grants q) (inside : r.within q = true) : Reachable grants r := by
  rcases reachable with empty | ⟨g, member, within⟩
  · left
    have ordered := r.ordered
    rw [AddressRange.isEmpty_iff] at *
    rw [AddressRange.within_iff] at inside
    omega
  · exact .inr ⟨g, member, AddressRange.within_trans inside within⟩

theorem Reachable.mono {grants more : List AddressRange} {r : AddressRange}
    (reachable : Reachable grants r) (sub : grants ⊆ more) : Reachable more r := by
  rcases reachable with empty | ⟨g, member, within⟩
  · exact .inl empty
  · exact .inr ⟨g, sub member, within⟩

/-- A range that shares nothing with any grant shares nothing with what can be reached. -/
theorem Reachable.apart {grants : List AddressRange} {r window : AddressRange}
    (reachable : Reachable grants r) (fresh : ∀ g ∈ grants, window.overlaps g = false) :
    window.overlaps r = false := by
  rcases reachable with empty | ⟨g, member, within⟩
  · exact AddressRange.apart_comm (AddressRange.apart_empty empty window)
  · exact AddressRange.apart_of_within (fresh g member) (AddressRange.within_refl window) within

theorem read_length (v : FirmwareView σ) (w : σ) (r : AddressRange) : (v.read w r).length = r.len :=
  Ram.read_length _ _ _

theorem Grown.read {range r : AddressRange} (grown : v.Grown w w' range)
    (reachable : Reachable (v.grants w) r) : v.read w' r = v.read w r := by
  apply Ram.read_congr
  intro a low high
  have ordered := r.ordered
  simp only [AddressRange.len] at high
  rcases reachable with empty | ⟨g, member, within⟩
  · rw [AddressRange.isEmpty_iff] at empty
    omega
  · rw [AddressRange.within_iff] at within
    exact grown.kept g member a (by omega) (by omega)

theorem Extended.grown {range : AddressRange} (extended : v.Extended w w' range) :
    v.Grown w w' range where
  valid := extended.valid
  grants := extended.grants
  kept := by
    intro g member a low high
    exact extended.outside a (AddressRange.apart_contains (extended.fresh g member) low high)

theorem read_sized {r : AddressRange} {len : Nat} (short : len ≤ r.len)
    (fits : len = 0 ∨ r.start + len < addressSpace) :
    v.read w (.sized r.start len) = (v.read w r).take len := by
  simp only [FirmwareView.read, AddressRange.sized_start, AddressRange.sized_len fits]
  exact (Ram.read_take _ _ short).symm

end FirmwareView

namespace Firmware.Lawful
variable {f : Firmware σ} {v : FirmwareView σ} {s t : Session σ}

/-- A store puts its bytes into its range; what is apart from the range is as it was. -/
theorem store_ok (lawful : f.Lawful v) (valid : v.valid s.world) {range : AddressRange}
    {bytes : Bytes} {u : Unit} (fits : bytes.length = range.len)
    (reachable : FirmwareView.Reachable (v.grants s.world) range)
    (run : (f.store range bytes).Ends s u t) :
    v.valid t.world ∧ v.grants t.world = v.grants s.world ∧ v.read t.world range = bytes ∧
      ∀ r, range.overlaps r = false → v.read t.world r = v.read s.world r := by
  obtain ⟨valid', ram, grants⟩ := lawful.store valid fits reachable run
  refine ⟨valid', grants, ?_, ?_⟩
  · rw [FirmwareView.read, ram, ← fits, Ram.read_store]
  · intro r apart
    rw [FirmwareView.read, ram, Ram.read_store_apart _ fits apart]
    rfl

end Firmware.Lawful
end KernelBoot
