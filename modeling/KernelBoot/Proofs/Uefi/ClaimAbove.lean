import KernelBoot.Proofs.Boot.Claims
import KernelBoot.Proofs.PageArithmetic
import KernelBoot.Proofs.Uefi.LowestFit
import KernelBoot.Uefi.Machine

/-!
Claims above an address. The map of memory is looked up once, the allocator is asked for the lowest
place in it that fits, and nothing is asked for where there is none. So a ramdisk that has to move
is never given memory that it has to refuse. All of this holds of any firmware, whatever its map and
its allocator say.
-/
namespace KernelBoot
open Attempt MemoryMap

/-- The page boundaries from the minimum on where the pages for `size` bytes are free. -/
def MemoryMap.places (map : MemoryMap) (minimum size : Nat) : Set Nat :=
  {address | Fits map minimum (PageSize.platform.wholePages size) address}

/-- The allocator has nothing against free pages of the map, except for those at address zero. -/
def BootServices.GivesFree (services : BootServices σ) (s : Session σ) (map : MemoryMap) : Prop :=
  ∀ r ∈ map, r.type = .conventional → ∀ start pages, start ≠ 0 → r.start ≤ start →
    start + pages * MemoryRegion.pageSize ≤ r.start + r.pages * MemoryRegion.pageSize →
    ∃ t, (services.allocatePages start pages).Gives s () t

namespace UefiPlatform

def pagesAt (start size : Nat) : AddressRange :=
  .between start (start + PageSize.platform.wholePages size)

def below (s : Session (UefiPlatform σ)) : Session σ := ⟨s.world.system, s.logger⟩

/-- The platform when its system has gone on. -/
def after (s : Session (UefiPlatform σ)) (u : Session σ) : Session (UefiPlatform σ) :=
  ⟨{ s.world with system := u.world }, u.logger⟩

def claimLine (range : AddressRange) : LogLine :=
  LogTarget.firmware.line .debug
    s!"Allocated {PageSize.platform.pagesFor range.len} pages at {Address.text range.start}"

/-- What comes of a claim: the allocator is asked for the pages of the range and for nothing else.
    What it gives is claimed and handed out as that range, what it refuses is refused. -/
def Answers (services : BootServices σ) (s : Session (UefiPlatform σ)) (range : AddressRange)
    (result : Except FirmwareError AddressRange) (t : Session (UefiPlatform σ)) : Prop :=
  match (services.allocatePages range.start (PageSize.platform.pagesFor range.len)).run.run
    (below s) with
  | (.ok (), u) => result = .ok range ∧
      t = ⟨⟨u.world, s.world.claimed ++ [range]⟩, u.logger.log (claimLine range)⟩
  | (.error status, u) => result = .error (claimError range.start status) ∧ t = after s u

variable {services : BootServices σ} {s t : Session (UefiPlatform σ)} {u : Session σ}
  {map : MemoryMap} {minimum size start : Nat} {range : AddressRange}
  {result : Except FirmwareError AddressRange}

theorem call_ends {a : Attempt σ ε α} {r : Except ε α} (run : a.run.Ends (below s) r u) :
    (call a).run.Ends s r (after s u) := by
  have called : (call a).run.run s =
      ((a.run.run (below s)).1, after s (a.run.run (below s)).2) := rfl
  rw [Effect.Ends, called, run]

theorem claim_ends (run : (claim services range).run.Ends s result t) :
    Answers services s range result t := by
  unfold Answers
  rcases outcome : (services.allocatePages range.start (PageSize.platform.pagesFor range.len)).run.run
    (below s) with ⟨answer, u⟩
  have asked := call_ends outcome
  rw [claim, Effect.Ends, run_bind, run_mapError, asked] at run
  cases answer with
  | ok _ =>
    cases run
    exact ⟨rfl, rfl⟩
  | error status =>
    cases run
    exact ⟨rfl, rfl⟩

theorem Answers.granted {granted : AddressRange}
    (answers : Answers services s range (.ok granted) t) : granted = range := by
  unfold Answers at answers
  split at answers
  · exact Except.ok.inj answers.1
  · cases answers.1

theorem Answers.given (answers : Answers services s range result t)
    (works : (services.allocatePages range.start
      (PageSize.platform.pagesFor range.len)).Gives (below s) () u) : result = .ok range := by
  unfold Answers at answers
  rw [works] at answers
  exact answers.1

theorem pagesFor_pagesAt (start size : Nat) :
    PageSize.platform.pagesFor (pagesAt start size).len = PageSize.platform.pagesFor size := by
  have length : (pagesAt start size).len = PageSize.platform.wholePages size := by
    simp only [pagesAt, AddressRange.between, AddressRange.len]
    omega
  rw [length, PageSize.pagesFor_wholePages]

/-! From the map to the allocator. -/

theorem retrieveMap_gives (readable : services.memoryMap.Gives (below s) map u) :
    (retrieveMap services).Gives s map (after s u) :=
  gives_mapError.mpr (call_ends readable)

theorem claimAbove_run (minimum size : Nat) (readable : services.memoryMap.Gives (below s) map u) :
    (claimAbove services minimum size).run.run s =
      match map.lowestFit? minimum (PageSize.platform.wholePages size) with
      | none => (.error .outOfResources, after s u)
      | some range => (claim services range).run.run (after s u) := by
  have given : (retrieveMap services).run.run s = (.ok map, after s u) := retrieveMap_gives readable
  rw [claimAbove, run_bind, given]
  show (match map.lowestFit? minimum (PageSize.platform.wholePages size) with
    | none => throw FirmwareError.outOfResources
    | some range => claim services range : Attempt _ FirmwareError AddressRange).run.run _ = _
  cases map.lowestFit? minimum (PageSize.platform.wholePages size) with
  | none => rfl
  | some range => rfl

theorem claimAbove_gives (run : (claimAbove services minimum size).Gives s range t) :
    ∃ map u start, services.memoryMap.Gives (below s) map u ∧
      IsLeast (map.places minimum size) start ∧ range = pagesAt start size := by
  obtain ⟨map, middle, given, _⟩ := gives_bind.mp run
  rcases outcome : services.memoryMap.run.run (below s) with ⟨answer, u⟩
  have asked := call_ends outcome
  cases answer with
  | error status =>
    have given := asked.symm.trans (gives_mapError.mp given)
    cases given
  | ok map =>
    rw [Gives, Effect.Ends, claimAbove_run minimum size outcome] at run
    cases found : map.lowestFit? minimum (PageSize.platform.wholePages size) with
    | none =>
      rw [found] at run
      cases run
    | some place =>
      rw [found] at run
      rw [(claim_ends run).granted]
      obtain ⟨start, least, same⟩ := lowestFit?_eq_some found
      exact ⟨map, u, start, outcome, least, same⟩

theorem placeRamdisk_high (plan : MemoryPlan) (current : AddressRange) (len tagArea : Nat)
    {e : PlanError} {plan' : MemoryPlan}
    (run : (plan.placeRamdisk (firmware services) current len tagArea).Ends s (.error e, plan') t) :
    ¬ MemoryPlan.IsTooLow e := by
  intro low
  obtain ⟨granted, s', given, beneath⟩ := MemoryPlan.placeRamdisk_too_low run low
  obtain ⟨_, _, start, _, least, rfl⟩ := claimAbove_gives given
  have above : plan.relocationFloor tagArea ≤ start := least.1.above
  exact absurd beneath (Nat.not_lt.mpr above)

/-- Where there is a place, the lowest one is asked for, and given if the allocator gives what is
    free. -/
theorem claimAbove_places (readable : services.memoryMap.Gives (below s) map u)
    (some : (map.places minimum size).Nonempty) :
    ∃ start result t, IsLeast (map.places minimum size) start ∧
      (claimAbove services minimum size).run.Ends s result t ∧
      Answers services (after s u) (pagesAt start size) result t ∧
      (start ≠ 0 → services.GivesFree u map → result = .ok (pagesAt start size)) := by
  obtain ⟨address, fits⟩ := some
  obtain ⟨start, least, found⟩ := lowestFit?_of_fits fits
  rcases claimed : (claim services (pagesAt start size)).run.run (after s u) with ⟨result, t⟩
  have run : (claimAbove services minimum size).run.Ends s result t := by
    rw [Effect.Ends, claimAbove_run minimum size readable, found]
    exact claimed
  have answers := claim_ends claimed
  refine ⟨start, result, t, least, run, answers, fun nonzero gives => ?_⟩
  obtain ⟨r, member, conventional, starts, ends⟩ := least.1.free
  obtain ⟨v, works⟩ := gives r member conventional start (PageSize.platform.pagesFor size) nonzero
    starts ends
  rw [← pagesFor_pagesAt start size] at works
  exact answers.given works

theorem claimAbove_full (readable : services.memoryMap.Gives (below s) map u)
    (full : ∀ address, address ∉ map.places minimum size) :
    (claimAbove services minimum size).Fails s .outOfResources (after s u) := by
  have run := claimAbove_run minimum size readable
  rw [lowestFit?_eq_none.mpr full] at run
  exact run

/-- Where pages of the map fit above an address, the lowest of them are the ones that are asked for.
    Where none fit, nothing is asked for and nothing is changed. So no ramdisk that moves comes to
    lie below the minimum. -/
theorem claimAbove_lowest (services : BootServices σ) (s : Session (UefiPlatform σ))
    (minimum size : Nat) :
    (∀ map u, services.memoryMap.Gives (below s) map u →
      ((map.places minimum size).Nonempty →
        ∃ start result t, IsLeast (map.places minimum size) start ∧
          (claimAbove services minimum size).run.Ends s result t ∧
          Answers services (after s u) (pagesAt start size) result t ∧
          (start ≠ 0 → services.GivesFree u map → result = .ok (pagesAt start size))) ∧
      ((∀ address, address ∉ map.places minimum size) →
        (claimAbove services minimum size).Fails s .outOfResources (after s u))) ∧
    ∀ (plan : MemoryPlan) (current : AddressRange) (len tagArea address floor : Nat),
      ((plan.placeRamdisk (firmware services) current len tagArea).run s).1.1 ≠
        .error (.invalidRamdiskAddress address floor) := by
  refine ⟨fun map u readable => ⟨claimAbove_places readable, claimAbove_full readable⟩, ?_⟩
  intro plan current len tagArea address floor refused
  rcases outcome : (plan.placeRamdisk (firmware services) current len tagArea).run s with
    ⟨⟨result, plan'⟩, t⟩
  rw [outcome] at refused
  cases refused
  exact placeRamdisk_high plan current len tagArea outcome trivial

end UefiPlatform

/-! The scripted machine: its map can be read, and its allocator gives what is free in it, as long as
the script lets neither fail. -/

namespace Machine
variable {s : Session Machine}

def looked (m : Machine) : Machine := { m with mapCalls := m.mapCalls + 1 }

theorem memoryMap_gives (s : Session Machine)
    (readable : s.world.script.mapRetrieval.outcome s.world.mapCalls = .ok ()) :
    services.memoryMap.Gives s s.world.map { s with world := s.world.looked } := by
  have step : services.memoryMap = retrieveMap := rfl
  refine step ▸ (gives_step _).mpr ⟨?_, rfl⟩
  simp only [readable]
  rfl

theorem take?_holds {map : MemoryMap} {start pages : Nat} {r : MemoryRegion} (member : r ∈ map)
    (free : r.isFree = true) (holds : r.holds start pages = true) :
    ∃ rest, map.take? start pages = some rest := by
  induction map with
  | nil => cases member
  | cons first rest ih =>
    unfold take?
    by_cases here : (first.isFree && first.holds start pages) = true
    · exact ⟨_, if_pos here⟩
    · rw [if_neg here]
      rcases List.mem_cons.mp member with rfl | further
      · exact absurd (Bool.and_eq_true_iff.mpr ⟨free, holds⟩) here
      · obtain ⟨taken, found⟩ := ih further
        exact ⟨_, by rw [found]; rfl⟩

theorem services_giveFree
    (works : s.world.script.allocation.outcome s.world.allocationCalls = .ok ()) :
    services.GivesFree s s.world.map := by
  intro r member conventional start pages nonzero starts ends
  have free : r.isFree = true := by simp [MemoryRegion.isFree, conventional]
  have holds : r.holds start pages = true := by
    simp only [MemoryRegion.holds, Bool.and_eq_true, decide_eq_true_eq]
    exact ⟨starts, ends⟩
  obtain ⟨rest, taken⟩ := take?_holds member free holds
  have once : (s.world.allocateOnce start pages).1 = .ok () := by
    simp only [allocateOnce, works, taken]
  rcases outcome : s.world.allocateOnce start pages with ⟨answer, after⟩
  rw [outcome] at once
  subst once
  have step : services.allocatePages start pages = ofEffect (Effect.step (allocate start pages)) := rfl
  refine ⟨{ s with world := after }, step ▸ (gives_step _).mpr ⟨?_, ?_⟩⟩
  · simp only [allocate, outcome, if_neg nonzero]
  · simp only [allocate, outcome, if_neg nonzero]

def withMemory (map : MemoryMap) : Machine :=
  .new ⟨none, none, ⟨none, none, .emptyRoot⟩, [], map, .reliable, .reliable, [], []⟩

end Machine

/-- The region that holds the minimum has only a page left behind it. So two pages are given
    further up, out of a region that is listed earlier; for a page more than that one has, nothing
    is asked for. -/
theorem UefiPlatform.claimAbove_lowest_unsorted :
    let m := Machine.withMemory [⟨.conventional, 0x100000, 3⟩, ⟨.loaderData, 0xA000, 1⟩,
      ⟨.conventional, 0x8000, 2⟩]
    let s : Session (UefiPlatform Machine) := ⟨⟨m, []⟩, .new 0⟩
    (∃ t, (claimAbove Machine.services 0x8800 5000).Gives s (.between 0x100000 0x102000) t) ∧
      (claimAbove Machine.services 0x8800 0x4000).Fails s .outOfResources
        { s with world := ⟨m.looked, []⟩ } := by
  intro m s
  have two : PageSize.platform.wholePages 5000 = 0x2000 := by decide
  have four : PageSize.platform.wholePages 0x4000 = 0x4000 := by decide
  have page := PageSize.platform_bytes
  have unit : MemoryRegion.pageSize = 4096 := rfl
  have free : ∀ r ∈ m.map, r.type = .conventional →
      r = ⟨.conventional, 0x100000, 3⟩ ∨ r = ⟨.conventional, 0x8000, 2⟩ := by decide
  have readable := Machine.memoryMap_gives (below s) rfl
  constructor
  · have fits : 0x100000 ∈ m.map.places 0x8800 5000 :=
      ⟨by decide, by decide, by decide, ⟨.conventional, 0x100000, 3⟩, by decide, rfl, by decide,
        by decide⟩
    obtain ⟨start, result, t, least, run, _, given⟩ :=
      ((claimAbove_lowest Machine.services s 0x8800 5000).1 _ _ readable).1 ⟨_, fits⟩
    have lowest : start = 0x100000 := by
      apply Nat.le_antisymm (least.2 fits)
      obtain ⟨aligned, above, _, r, member, conventional, starts, ends⟩ := least.1
      rw [two, unit] at ends
      rw [page] at aligned
      rcases free r member conventional with rfl | rfl
      · exact starts
      · simp only at ends
        omega
    subst lowest
    rw [given (by decide) (Machine.services_giveFree rfl), pagesAt, two] at run
    exact ⟨t, run⟩
  · apply ((claimAbove_lowest Machine.services s 0x8800 0x4000).1 _ _ readable).2
    rintro address ⟨_, _, _, r, member, conventional, starts, ends⟩
    rw [four, unit] at ends
    rcases free r member conventional with rfl | rfl
    · simp only at starts ends
      omega
    · simp only at starts ends
      omega

/-- The last page of all cannot be given, as its end has no address. -/
theorem UefiPlatform.claimAbove_last_page :
    let m := Machine.withMemory [⟨.conventional, 0xFFFFFFFFFFFFF000, 1⟩]
    let s : Session (UefiPlatform Machine) := ⟨⟨m, []⟩, .new 0⟩
    m.script.mapRetrieval.outcome m.mapCalls = .ok () ∧
      PageSize.platform.wholePages 0x1000 < addressSpace ∧
      (∃ r ∈ m.map, r.type = .conventional ∧ PageSize.platform.bytes ∣ r.start ∧
        0 ≤ r.start ∧ r.start + PageSize.platform.wholePages 0x1000 ≤
          r.start + r.pages * MemoryRegion.pageSize) ∧
      (claimAbove Machine.services 0 0x1000).Fails s .outOfResources
        { s with world := ⟨m.looked, []⟩ } := by
  intro m s
  have whole : PageSize.platform.wholePages 0x1000 = 0x1000 := by decide
  refine ⟨rfl, by decide, ⟨⟨.conventional, 0xFFFFFFFFFFFFF000, 1⟩, by decide, rfl, by decide,
    by decide, by decide⟩, ?_⟩
  apply claimAbove_full (Machine.memoryMap_gives (below s) rfl)
  rintro address ⟨_, _, inSpace, r, member, _, starts, _⟩
  rw [List.mem_singleton.mp member] at starts
  rw [whole] at inSpace
  simp only [addressSpace] at starts inSpace
  omega

end KernelBoot
