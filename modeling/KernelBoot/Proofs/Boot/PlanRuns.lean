import KernelBoot.Proofs.Boot.Loading
import KernelBoot.Proofs.Calls

/-!
A plan over a whole run of claims and placings. What is asked of the firmware is little: a claim
gets just its window, and never one that shares a byte with an earlier grant. Memory above a
minimum may begin anywhere, and even lie below it.
-/
namespace KernelBoot
open FirmwareView

/-- The firmware gives out what it says and forgets nothing that it has given out. -/
structure Firmware.Allocates (f : Firmware σ) (v : FirmwareView σ) : Prop where
  exactly : ∀ {s range granted t}, v.valid s.world → (f.allocateAt range).Gives s granted t →
    granted = range ∧ (∀ g ∈ v.grants s.world, range.overlaps g = false) ∧
      v.valid t.world ∧ v.grants t.world = v.grants s.world ++ [range]
  above : ∀ {s minimum size granted t}, v.valid s.world →
    (f.allocateAbove minimum size).Gives s granted t →
    size ≤ granted.len ∧ granted.stop < addressSpace ∧
      v.valid t.world ∧ v.grants t.world = v.grants s.world ++ [granted]
  exactly_refused : ∀ {s range e t}, v.valid s.world →
    (f.allocateAt range).run.Ends s (.error e) t →
    v.valid t.world ∧ v.grants t.world = v.grants s.world
  above_refused : ∀ {s minimum size e t}, v.valid s.world →
    (f.allocateAbove minimum size).run.Ends s (.error e) t →
    v.valid t.world ∧ v.grants t.world = v.grants s.world

inductive PlanCall where
  | claim (what : String) (address len : Nat)
  | place (current : AddressRange) (len tagArea : Nat)

namespace MemoryPlan

variable {f : Firmware σ} {v : FirmwareView σ} {s t : Session σ} {plan plan' : MemoryPlan}
  {result : Except PlanError AddressRange}

def effect (f : Firmware σ) (plan : MemoryPlan) :
    PlanCall → Effect σ (Except PlanError AddressRange × MemoryPlan)
  | .claim what address len => claim f plan what address len
  | .place current len tagArea => placeRamdisk f plan current len tagArea

def perform (f : Firmware σ) (state : MemoryPlan × Session σ) (c : PlanCall) :
    Except PlanError AddressRange × (MemoryPlan × Session σ) :=
  let ((result, plan), s) := (effect f state.1 c).run state.2
  (result, plan, s)

/-- The claim has got its window, whole and new, and nothing else has changed. -/
structure ClaimedExactly (v : FirmwareView σ) (plan plan' : MemoryPlan) (w w' : σ)
    (address len : Nat) (range : AddressRange) : Prop where
  fits : address + len < addressSpace
  start : range.start = address
  stop : range.stop = address + len
  window : ∃ window, Window address len window ∧ (∀ g ∈ v.grants w, window.overlaps g = false) ∧
    v.grants w' = v.grants w ++ [window] ∧
    plan' = { plan with claimed := plan.claimed ++ [window] }

structure Stays (plan plan' : MemoryPlan) (current : AddressRange) (len : Nat)
    (range : AddressRange) : Prop where
  start : range.start = current.start
  stop : current.stop < addressSpace → range.stop = current.start + len
  plan : plan' = plan

/-- The ramdisk has moved into a new grant, above all windows so far and above the tag area. -/
structure Relocated (v : FirmwareView σ) (plan plan' : MemoryPlan) (w w' : σ) (len tagArea : Nat)
    (range : AddressRange) : Prop where
  stop : range.stop = range.start + len
  aligned : 4096 ∣ range.start
  granted : ∃ granted, range.within granted = true ∧ v.grants w' = v.grants w ++ [granted] ∧
    plan' = { plan with claimed := plan.claimed ++ [granted], ramdisk := range.start }
  windows : ∀ g ∈ plan.claimed, g.stop ≤ range.start
  tags : plan.tags + tagArea ≤ range.start

def Outcome (v : FirmwareView σ)
    (turn : Turn (MemoryPlan × Session σ) PlanCall PlanError AddressRange) : Prop :=
  match turn.call, turn.result with
  | .claim _ address len, .ok range =>
    (len = 0 → range = .sized address 0 ∧ turn.after.1 = turn.before.1) ∧
    (len ≠ 0 → ClaimedExactly v turn.before.1 turn.after.1 turn.before.2.world turn.after.2.world
      address len range)
  | .claim _ _ _, .error _ => turn.after.1 = turn.before.1
  | .place current len tagArea, .ok range =>
    (len ≤ current.len → Stays turn.before.1 turn.after.1 current len range) ∧
    (current.len < len → Relocated v turn.before.1 turn.after.1 turn.before.2.world
      turn.after.2.world len tagArea range)
  | .place current len _, .error _ =>
    current.len < len ∧ turn.after.1.ramdisk = turn.before.1.ramdisk

def claimedRanges (run : List (Turn (MemoryPlan × Session σ) PlanCall PlanError AddressRange)) :
    List AddressRange :=
  run.filterMap fun turn =>
    match turn.call, turn.result with
    | .claim _ _ _, .ok range => some range
    | _, _ => none

theorem ClaimedExactly.within {w w' : σ} {address len : Nat} {range : AddressRange}
    (claimed : ClaimedExactly v plan plan' w w' address len range) {window : AddressRange}
    (pages : Window address len window) : range.within window = true := by
  rw [AddressRange.within_iff, claimed.start, claimed.stop]
  exact ⟨pages.start_le, pages.le_stop⟩

theorem claim_outcome (allocates : f.Allocates v) (valid : v.valid s.world) {what : String}
    {address len : Nat} (run : (claim f plan what address len).Ends s (result, plan') t) :
    Outcome v ⟨(plan, s), .claim what address len, result, (plan', t)⟩ ∧
      v.valid t.world ∧ v.grants s.world ⊆ v.grants t.world := by
  rcases claim_cases run with ⟨nothing, rfl, rfl, rfl⟩ | ⟨some, none, ⟨e, rfl⟩, rfl, rfl⟩ |
    ⟨window, s', some, made, world, outcome⟩
  · exact ⟨⟨fun _ => ⟨rfl, rfl⟩, fun some => absurd nothing some⟩, valid, fun _ => id⟩
  · exact ⟨rfl, valid, fun _ => id⟩
  rw [← world] at valid
  rcases outcome with ⟨granted, given, rfl, rfl⟩ | ⟨e, refused, ⟨e', rfl⟩, rfl⟩
  · obtain ⟨rfl, fresh, valid', grants⟩ := allocates.exactly valid given
    obtain ⟨fits, _⟩ := window_covers made
    rw [world] at fresh grants
    refine ⟨⟨fun nothing => absurd nothing some, fun _ => ?_⟩, valid', ?_⟩
    · exact ⟨fits, rfl, AddressRange.sized_stop fits, granted, window_pages made, fresh, grants, rfl⟩
    · rw [grants]
      exact List.subset_append_left _ _
  · obtain ⟨valid', grants⟩ := allocates.exactly_refused valid refused
    rw [world] at grants
    exact ⟨rfl, valid', grants ▸ fun _ => id⟩

/-- The floor counts the tag area up to the last address; no ramdisk lies above that. -/
theorem tags_le_floor {len tagArea address : Nat} (some : 0 < len)
    (fits : address + len < addressSpace) (above : plan.relocationFloor tagArea ≤ address) :
    plan.tags + tagArea ≤ address := by
  have tags : (AddressRange.sized plan.tags tagArea).stop ≤ plan.relocationFloor tagArea :=
    le_foldl_max (.inl (Nat.le_refl _))
  simp only [AddressRange.sized, AddressRange.between, saturatingAdd] at tags
  omega

theorem placeRamdisk_outcome (allocates : f.Allocates v) (valid : v.valid s.world)
    {current : AddressRange} {len tagArea : Nat}
    (run : (placeRamdisk f plan current len tagArea).Ends s (result, plan') t) :
    Outcome v ⟨(plan, s), .place current len tagArea, result, (plan', t)⟩ ∧
      v.valid t.world ∧ v.grants s.world ⊆ v.grants t.world := by
  rcases placeRamdisk_cases run with ⟨short, rfl, rfl, rfl⟩ | ⟨longer, ⟨e, rfl, _⟩, rfl, refused⟩ |
    ⟨granted, s', longer, given, world, outcome⟩
  · refine ⟨⟨fun _ => ⟨rfl, ?_, rfl⟩, fun longer => absurd short (Nat.not_le.mpr longer)⟩, valid,
      fun _ => id⟩
    intro inSpace
    have ordered := current.ordered
    simp only [AddressRange.len] at short
    exact AddressRange.sized_stop (by omega)
  · rcases refused with rfl | ⟨size, e', refused⟩
    · exact ⟨⟨longer, rfl⟩, valid, fun _ => id⟩
    · obtain ⟨valid', grants⟩ := allocates.above_refused valid refused
      exact ⟨⟨longer, rfl⟩, valid', grants ▸ fun _ => id⟩
  obtain ⟨enough, inSpace, valid', grants⟩ := allocates.above valid given
  rw [← world] at valid' grants
  have more : v.grants s.world ⊆ v.grants t.world := by
    rw [grants]
    exact List.subset_append_left _ _
  rcases outcome with ⟨⟨e, rfl, _⟩, rfl⟩ | ⟨address, up, above, rfl, rfl⟩
  · exact ⟨⟨longer, rfl⟩, valid', more⟩
  · obtain ⟨fits, covered⟩ := aligned_within enough inSpace up
    refine ⟨⟨fun short => absurd short (Nat.not_le.mpr longer), fun _ => ?_⟩, valid', more⟩
    exact {
      stop := AddressRange.sized_stop fits
      aligned := PageSize.alignUp_dvd up
      granted := ⟨granted, covered, grants, rfl⟩
      windows := fun g member => Nat.le_trans (stop_le_floor plan tagArea member) above
      tags := tags_le_floor (Nat.zero_lt_of_lt longer) fits above }

theorem perform_outcome (allocates : f.Allocates v) (c : PlanCall)
    (state : MemoryPlan × Session σ) (valid : v.valid state.2.world) :
    Outcome v ⟨state, c, (perform f state c).1, (perform f state c).2⟩ ∧
      v.valid (perform f state c).2.2.world ∧
      v.grants state.2.world ⊆ v.grants (perform f state c).2.2.world := by
  cases c with
  | claim what address len => exact claim_outcome allocates valid rfl
  | place current len tagArea => exact placeRamdisk_outcome allocates valid rfl

/-- A range that a claim has got lies in a grant from then on, and is apart from what lay in one
    before. -/
theorem claim_apart {state next : MemoryPlan × Session σ} {what : String} {address len : Nat}
    {range : AddressRange}
    (outcome : Outcome v ⟨state, .claim what address len, .ok range, next⟩) :
    Reachable (v.grants next.2.world) range ∧
      ∀ q, Reachable (v.grants state.2.world) q → range.overlaps q = false := by
  obtain ⟨nothing, something⟩ := outcome
  by_cases zero : len = 0
  · have empty := AddressRange.sized_empty address
    rw [(nothing zero).1]
    exact ⟨.inl empty, fun q _ => AddressRange.apart_empty empty q⟩
  · have claimed := something zero
    obtain ⟨window, pages, fresh, grants, _⟩ := claimed.window
    have within := claimed.within pages
    simp only at grants fresh
    refine ⟨.inr ⟨window, by simp [grants], within⟩, ?_⟩
    intro q reachable
    have apart := reachable.apart fresh
    exact AddressRange.apart_of_within apart within (AddressRange.within_refl q)

theorem claimedRanges_apart (allocates : f.Allocates v) (calls : List PlanCall)
    (state : MemoryPlan × Session σ) (valid : v.valid state.2.world) :
    (claimedRanges (turns (perform f) state calls)).Pairwise (fun a b => a.overlaps b = false) ∧
      ∀ r ∈ claimedRanges (turns (perform f) state calls), ∀ q,
        Reachable (v.grants state.2.world) q → q.overlaps r = false := by
  induction calls generalizing state with
  | nil => exact ⟨List.Pairwise.nil, nofun⟩
  | cons c rest ih =>
    obtain ⟨outcome, valid', more⟩ := perform_outcome allocates c state valid
    obtain ⟨pairwise, apart⟩ := ih (perform f state c).2 valid'
    have older : ∀ r ∈ claimedRanges (turns (perform f) (perform f state c).2 rest), ∀ q,
        Reachable (v.grants state.2.world) q → q.overlaps r = false :=
      fun r member q reachable => apart r member q (reachable.mono more)
    rw [turns]
    generalize perform f state c = ran at outcome pairwise apart older ⊢
    obtain ⟨result, next⟩ := ran
    cases c with
    | place current len tagArea => exact ⟨pairwise, older⟩
    | claim what address len =>
      cases result with
      | error e => exact ⟨pairwise, older⟩
      | ok range =>
        obtain ⟨reachable, fresh⟩ := claim_apart outcome
        -- this range is in a grant by now, and what is claimed later is apart from every grant
        refine ⟨List.pairwise_cons.mpr ⟨fun r member => apart r member range reachable, pairwise⟩, ?_⟩
        intro r member q before
        rcases List.mem_cons.mp member with rfl | later
        · exact AddressRange.apart_comm (fresh q before)
        · exact older r later q before

/-- Any claims and placings on one plan, in any order and failing or not. -/
theorem plan_run (allocates : f.Allocates v) (plan : MemoryPlan) (valid : v.valid s.world)
    (calls : List PlanCall) :
    (∀ turn ∈ turns (perform f) (plan, s) calls, Outcome v turn) ∧
      (claimedRanges (turns (perform f) (plan, s) calls)).Pairwise
        fun a b => a.overlaps b = false := by
  refine ⟨?_, (claimedRanges_apart allocates calls (plan, s) valid).1⟩
  refine turns_of_step (fun state => v.valid state.2.world) (Outcome v) ?_ valid
  intro c _ state valid
  obtain ⟨outcome, valid', _⟩ := perform_outcome allocates c state valid
  exact ⟨outcome, valid'⟩

end MemoryPlan

theorem Board.firmware_allocates : Board.firmware.Allocates Board.view where
  exactly valid given := by
    obtain ⟨ok, rfl⟩ := allocateAt_gives.mp given
    obtain ⟨same, extended⟩ := allocateAt_ok valid ok
    exact ⟨same, extended.fresh, extended.valid, extended.grants⟩
  above valid given := by
    obtain ⟨ok, rfl⟩ := allocateAbove_gives.mp given
    obtain ⟨enough, inSpace, grown⟩ := allocateAbove_ok valid ok
    exact ⟨enough, inSpace, grown.valid, grown.grants⟩
  exactly_refused valid refused := by
    obtain ⟨failed, rfl⟩ := (Attempt.ends_step fun b : Board => b.allocateAt _).mp refused
    rw [allocateAt_refused failed]
    exact ⟨valid, rfl⟩
  above_refused valid refused := by
    obtain ⟨failed, rfl⟩ := (Attempt.ends_step fun b : Board => b.allocateAbove _ _).mp refused
    rw [allocateAbove_refused failed]
    exact ⟨valid, rfl⟩

namespace MemoryPlan

/-- An odd kernel, a claim that shares its last page, an empty one, a ramdisk that outgrows its
    page, a claim behind it, and one that leaves the address space. -/
def sixCalls : List PlanCall :=
  [.claim "kernel" 0x10008001 0x1800, .claim "ramdisk" 0x10009900 0x10,
    .claim "second" 0x10100000 0, .place (.sized 0x10009900 0x10) 0x1234 0x2000,
    .claim "tag area" 0x10000100 0x2000, .claim "second" 0xFFFFFFFFFFFFFFFF 2]

theorem plan_run_sixCalls :
    let state : MemoryPlan × Session Board :=
      (⟨0x10008001, 0x10009900, 0, 0x10000100, []⟩, ⟨bareBoard, .new 0⟩)
    let run := turns (perform Board.firmware) state sixCalls
    claimedRanges run =
        [.sized 0x10008001 0x1800, .sized 0x10100000 0, .sized 0x10000100 0x2000] ∧
      (stateAfter (perform Board.firmware) state sixCalls).1.ramdisk = 0x1000A000 ∧
      (∀ turn ∈ run, Outcome Board.view turn) ∧
      (claimedRanges run).Pairwise fun a b => a.overlaps b = false := by
  intro state run
  have valid : Board.view.valid state.2.world := ⟨rfl, by decide, List.forall_mem_nil _⟩
  refine ⟨by decide +kernel, by decide +kernel, ?_⟩
  exact plan_run Board.firmware_allocates state.1 valid sixCalls

end MemoryPlan
end KernelBoot
