import KernelBoot.Proofs.Boot.Ranges
import KernelBoot.Proofs.Buffer

/-!
Claiming memory. The windows of a plan are what the firmware has given out since its plan was
made. A claimed range shares nothing with what could be reached before, and a ramdisk that moves
goes behind all windows.
-/
namespace KernelBoot.MemoryPlan
open FirmwareView

/-- The firmware has given out the plan's windows since the state `w₀`, and nothing else. -/
structure Accounts (plan : MemoryPlan) (v : FirmwareView σ) (w₀ w : σ) : Prop where
  valid : v.valid w
  grants : v.grants w = v.grants w₀ ++ plan.claimed

structure SameAddresses (plan plan' : MemoryPlan) : Prop where
  kernel : plan'.kernel = plan.kernel
  ramdisk : plan'.ramdisk = plan.ramdisk
  second : plan'.second = plan.second
  tags : plan'.tags = plan.tags

/-- What a claim has done: the range is there, apart from all that could be reached, and what
    could be reached is as it was. -/
structure Claimed (v : FirmwareView σ) (w₀ w w' : σ) (plan plan' : MemoryPlan)
    (range : AddressRange) : Prop where
  accounts : plan'.Accounts v w₀ w'
  addresses : plan.SameAddresses plan'
  kept : plan.claimed ⊆ plan'.claimed
  reachable : Reachable plan'.claimed range
  apart : ∀ r, Reachable (v.grants w) r → range.overlaps r = false
  read : ∀ r, Reachable (v.grants w) r → v.read w' r = v.read w r

variable {f : Firmware σ} {v : FirmwareView σ} {s t : Session σ} {w₀ : σ} {plan plan' : MemoryPlan}

theorem Accounts.reachable {w : σ} {r : AddressRange} (accounts : plan.Accounts v w₀ w)
    (reachable : Reachable plan.claimed r) : Reachable (v.grants w) r :=
  reachable.mono (by rw [accounts.grants]; exact List.subset_append_right _ _)

theorem Accounts.same {w w' : σ} (accounts : plan.Accounts v w₀ w) (same : v.Same w w') :
    plan.Accounts v w₀ w' :=
  ⟨same.valid, same.grants.trans accounts.grants⟩

theorem claim_cases {what : String} {address len : Nat}
    {result : Except PlanError AddressRange}
    (run : (claim f plan what address len).Ends s (result, plan') t) :
    (len = 0 ∧ result = .ok (.sized address 0) ∧ plan' = plan ∧ t = s) ∨
    (len ≠ 0 ∧ window? address len = none ∧ (∃ e, result = .error e) ∧ plan' = plan ∧ t = s) ∨
    (∃ window s', len ≠ 0 ∧ window? address len = some window ∧ s'.world = s.world ∧
      ((∃ granted, (f.allocateAt window).Gives s' granted t ∧ result = .ok (.sized address len) ∧
          plan' = { plan with claimed := plan.claimed ++ [granted] }) ∨
        (∃ e, (f.allocateAt window).run.Ends s' (.error e) t ∧ (∃ e, result = .error e) ∧
          plan' = plan))) := by
  unfold claim at run
  split at run
  · rename_i nothing
    cases run
    exact .inl ⟨nothing, rfl, rfl, rfl⟩
  · rename_i some
    split at run
    · rename_i none
      cases run
      exact .inr (.inl ⟨some, none, ⟨_, rfl⟩, rfl, rfl⟩)
    · rename_i window made
      obtain ⟨_, s', logged, rest⟩ := Effect.ends_bind.mp run
      obtain ⟨answer, s'', asked, rest⟩ := Effect.ends_bind.mp rest
      refine .inr (.inr ⟨window, s', some, made, Effect.ends_log logged, ?_⟩)
      cases answer with
      | error e =>
        cases rest
        exact .inr ⟨e, asked, ⟨_, rfl⟩, rfl⟩
      | ok granted =>
        cases rest
        exact .inl ⟨granted, asked, rfl, rfl⟩

theorem claim_range {what : String} {address len : Nat} {range : AddressRange}
    (run : (claim f plan what address len).Ends s (.ok range, plan') t) :
    range = .sized address len ∧ (len = 0 ∨ address + len < addressSpace) := by
  rcases claim_cases run with ⟨rfl, same, _⟩ | ⟨_, _, ⟨_, absurd⟩, _⟩ |
    ⟨_, _, _, made, _, ⟨_, _, same, _⟩ | ⟨_, _, ⟨_, absurd⟩, _⟩⟩
  · exact ⟨Except.ok.inj same, .inl rfl⟩
  · cases absurd
  · exact ⟨Except.ok.inj same, .inr (window_covers made).1⟩
  · cases absurd

/-- What no failure of a claim is, and nothing that follows with its range, does not happen. -/
theorem claimed_avoids {bad : LoadError → Prop} (fine : ∀ e, ¬ bad (.ofPlan e)) {what : String}
    {address len : Nat} {claimed : Except PlanError AddressRange}
    {rest : AddressRange → Attempt σ LoadError α}
    (claiming : (claim f plan what address len).Ends s (claimed, plan') t)
    (later : (len = 0 ∨ address + len < addressSpace) → (rest (.sized address len)).Avoids bad) :
    (Attempt.ofExcept (claimed.mapError LoadError.ofPlan) >>= rest).Avoids bad := by
  refine Attempt.avoids_bind (Attempt.avoids_ofExcept_mapError fun e _ => fine e) ?_
  intro s₁ range s₂ checked
  obtain ⟨claimedOk, _⟩ := Attempt.gives_ofExcept.mp checked
  rw [mapError_eq_ok.mp claimedOk] at claiming
  obtain ⟨rfl, fits⟩ := claim_range claiming
  exact later fits

theorem claim_ok (lawful : f.Lawful v) (accounts : plan.Accounts v w₀ s.world) {what : String}
    {address len : Nat} {range : AddressRange}
    (run : (claim f plan what address len).Ends s (.ok range, plan') t) :
    range = .sized address len ∧ (len = 0 ∨ address + len < addressSpace) ∧
      Claimed v w₀ s.world t.world plan plan' range := by
  rcases claim_cases run with ⟨rfl, same, rfl, rfl⟩ | ⟨_, _, ⟨_, absurd⟩, _⟩ |
    ⟨window, s', _, made, world, ⟨granted, given, same, rfl⟩ | ⟨_, _, ⟨_, absurd⟩, _⟩⟩
  · cases same
    have empty := AddressRange.sized_empty address
    exact ⟨rfl, .inl rfl, accounts, ⟨rfl, rfl, rfl, rfl⟩, fun _ => id, .inl empty,
      fun r _ => AddressRange.apart_empty empty r, fun _ _ => rfl⟩
  · cases absurd
  · cases same
    obtain ⟨fits, covered⟩ := window_covers made
    obtain ⟨rfl, fresh, grown⟩ := lawful.allocateAt (world ▸ accounts.valid) given
    rw [world] at fresh grown
    refine ⟨rfl, .inr fits, ⟨grown.valid, ?_⟩, ⟨rfl, rfl, rfl, rfl⟩, ?_, ?_, ?_, ?_⟩
    · rw [grown.grants, accounts.grants, List.append_assoc]
    · exact List.subset_append_left _ _
    · exact .inr ⟨granted, by simp, covered⟩
    · intro r reachable
      have apart := reachable.apart fresh
      exact AddressRange.apart_of_within apart covered (AddressRange.within_refl r)
    · intro r reachable
      exact grown.read reachable
  · cases absurd

/-- Ranges that a plan has claimed one after the other, the last one first. -/
structure Holds (plan : MemoryPlan) (v : FirmwareView σ) (w₀ w : σ) (ranges : List AddressRange) :
    Prop where
  accounts : plan.Accounts v w₀ w
  reachable : ∀ r ∈ ranges, Reachable plan.claimed r
  apart : ranges.Pairwise fun a b => a.overlaps b = false

/-- One more claim shares nothing with those before it and leaves their bytes alone. -/
theorem Holds.claim {w w' : σ} {ranges : List AddressRange} {range : AddressRange}
    (holds : plan.Holds v w₀ w ranges) (claimed : Claimed v w₀ w w' plan plan' range) :
    plan'.Holds v w₀ w' (range :: ranges) ∧ ∀ r ∈ ranges, v.read w' r = v.read w r := by
  have before : ∀ r ∈ ranges, Reachable (v.grants w) r := by
    intro r member
    exact holds.accounts.reachable (holds.reachable r member)
  refine ⟨⟨claimed.accounts, ?_, ?_⟩, fun r member => claimed.read r (before r member)⟩
  · intro r member
    rcases List.mem_cons.mp member with rfl | earlier
    · exact claimed.reachable
    · exact (holds.reachable r earlier).mono claimed.kept
  · exact List.pairwise_cons.mpr ⟨fun r member => claimed.apart r (before r member), holds.apart⟩

theorem stop_le_floor (plan : MemoryPlan) (tagArea : Nat) {g : AddressRange}
    (member : g ∈ plan.claimed) : g.stop ≤ plan.relocationFloor tagArea :=
  le_foldl_max (.inr (List.mem_map_of_mem member))

/-- What finding a place for a ramdisk of `len` bytes has done: all that was claimed is as it was,
    and what is apart from the old place is apart from the new one. -/
structure Placed (v : FirmwareView σ) (w w' : σ) (plan : MemoryPlan) (current range : AddressRange)
    (len : Nat) : Prop where
  valid : v.valid w'
  length : range.len = len
  grants : ∃ more, v.grants w' = v.grants w ++ more ∧ Reachable (plan.claimed ++ more) range
  apart : ∀ r, Reachable plan.claimed r → current.overlaps r = false → range.overlaps r = false
  read : ∀ r, Reachable (v.grants w) r → v.read w' r = v.read w r

theorem placed_stays {w : σ} {current : AddressRange} {len : Nat} (valid : v.valid w)
    (reachable : Reachable plan.claimed current)
    (bounded : current.len = 0 ∨ current.stop < addressSpace) (stays : len ≤ current.len) :
    Placed v w w plan current (.sized current.start len) len := by
  have inside := AddressRange.sized_within stays
  have length := AddressRange.sized_len (AddressRange.cut_fits stays bounded)
  refine ⟨valid, length, ⟨[], (List.append_nil _).symm, ?_⟩, ?_, fun _ _ => rfl⟩
  · rw [List.append_nil]
    exact reachable.of_within inside
  · intro r _ apart
    exact AddressRange.apart_of_within apart inside (AddressRange.within_refl r)

theorem aligned_within {granted : AddressRange} {address len : Nat}
    (enough : len + relocationSlack ≤ granted.len) (inSpace : granted.stop < addressSpace)
    (up : PageSize.platform.alignUp granted.start = some address) :
    address + len < addressSpace ∧ (AddressRange.sized address len).within granted = true := by
  obtain ⟨low, near, _⟩ := PageSize.alignUp_bounds up
  have slack : relocationSlack = 4096 := rfl
  have page := PageSize.platform_bytes
  have ordered := granted.ordered
  simp only [AddressRange.len] at enough
  have fits : address + len < addressSpace := by omega
  refine ⟨fits, ?_⟩
  rw [AddressRange.within_iff, AddressRange.sized_stop fits, AddressRange.sized_start]
  omega

/-- A place at the floor or above it lies behind all windows. -/
theorem placed_above {w w' : σ} {current granted : AddressRange} {address len tagArea : Nat}
    (grown : v.Grown w w' granted) (fits : address + len < addressSpace)
    (covered : (AddressRange.sized address len).within granted = true)
    (above : plan.relocationFloor tagArea ≤ address) :
    Placed v w w' plan current (.sized address len) len := by
  refine ⟨grown.valid, AddressRange.sized_len (.inr fits), ⟨[granted], grown.grants, ?_⟩, ?_, ?_⟩
  · exact .inr ⟨granted, by simp, covered⟩
  · intro r claimed _
    rcases claimed with empty | ⟨g, member, within⟩
    · exact AddressRange.apart_comm (AddressRange.apart_empty empty _)
    · have below := stop_le_floor plan tagArea member
      rw [AddressRange.within_iff] at within
      rw [AddressRange.apart_iff, AddressRange.sized_stop fits, AddressRange.sized_start]
      omega
  · intro r claimed
    exact grown.read claimed

/-- A place for the ramdisk is refused because it lies below the minimum. -/
def IsTooLow : PlanError → Prop
  | .invalidRamdiskAddress _ _ => True
  | _ => False

theorem placeRamdisk_cases {current : AddressRange} {len tagArea : Nat}
    {result : Except PlanError AddressRange}
    (run : (placeRamdisk f plan current len tagArea).Ends s (result, plan') t) :
    (len ≤ current.len ∧ result = .ok (.sized current.start len) ∧ plan' = plan ∧ t = s) ∨
    (current.len < len ∧ (∃ e, result = .error e ∧ ¬ IsTooLow e) ∧ plan' = plan ∧
      (t = s ∨ ∃ size e, (f.allocateAbove (plan.relocationFloor tagArea) size).run.Ends s
        (.error e) t)) ∨
    (∃ granted s', current.len < len ∧ (f.allocateAbove (plan.relocationFloor tagArea)
        (len + relocationSlack)).Gives s granted s' ∧ t.world = s'.world ∧
      (((∃ e, result = .error e ∧ (IsTooLow e → granted.start < plan.relocationFloor tagArea)) ∧
          plan' = { plan with claimed := plan.claimed ++ [granted] }) ∨
        ∃ address, PageSize.platform.alignUp granted.start = some address ∧
          plan.relocationFloor tagArea ≤ address ∧ result = .ok (.sized address len) ∧
          plan' = { plan with claimed := plan.claimed ++ [granted], ramdisk := address })) := by
  unfold placeRamdisk at run
  split at run
  · rename_i stays
    cases run
    exact .inl ⟨stays, rfl, rfl, rfl⟩
  · rename_i grows
    have longer := Nat.not_le.mp grows
    simp only [checkedAdd] at run
    split at run
    · cases run
      exact .inr (.inl ⟨longer, ⟨_, rfl, id⟩, rfl, .inl rfl⟩)
    · rename_i request requested
      split at requested
      · cases requested
        obtain ⟨answer, s', asked, aligning⟩ := Effect.ends_bind.mp run
        cases answer with
        | error e =>
          cases aligning
          exact .inr (.inl ⟨longer, ⟨_, rfl, id⟩, rfl, .inr ⟨_, e, asked⟩⟩)
        | ok granted =>
          simp only at aligning
          split at aligning
          · cases aligning
            exact .inr (.inr ⟨granted, _, longer, asked, rfl, .inl ⟨⟨_, rfl, False.elim⟩, rfl⟩⟩)
          · rename_i address up
            split at aligning
            · rename_i below
              cases aligning
              have low := Nat.lt_of_le_of_lt (PageSize.alignUp_bounds up).1 below
              exact .inr (.inr ⟨granted, _, longer, asked, rfl, .inl ⟨⟨_, rfl, fun _ => low⟩, rfl⟩⟩)
            · rename_i above
              obtain ⟨_, s'', logged, done⟩ := Effect.ends_bind.mp aligning
              have world := Effect.ends_log logged
              cases done
              exact .inr (.inr ⟨granted, s', longer, asked, world,
                .inr ⟨address, up, Nat.not_lt.mp above, rfl, rfl⟩⟩)
      · cases requested

/-- A place is refused as too low only where the firmware has given memory below the minimum. -/
theorem placeRamdisk_too_low {current : AddressRange} {len tagArea : Nat} {e : PlanError}
    (run : (placeRamdisk f plan current len tagArea).Ends s (.error e, plan') t) (low : IsTooLow e) :
    ∃ granted s', (f.allocateAbove (plan.relocationFloor tagArea) (len + relocationSlack)).Gives s
      granted s' ∧ granted.start < plan.relocationFloor tagArea := by
  rcases placeRamdisk_cases run with ⟨_, stays, _⟩ | ⟨_, ⟨_, same, other⟩, _⟩ |
    ⟨granted, s', _, given, _, ⟨⟨_, same, below⟩, _⟩ | ⟨_, _, _, moved, _⟩⟩
  · cases stays
  · cases same
    exact absurd low other
  · cases same
    exact ⟨granted, s', given, below low⟩
  · cases moved

theorem placeRamdisk_ok (lawful : f.Lawful v) (valid : v.valid s.world)
    {current range : AddressRange} {len tagArea : Nat} (reachable : Reachable plan.claimed current)
    (bounded : current.len = 0 ∨ current.stop < addressSpace)
    (run : (placeRamdisk f plan current len tagArea).Ends s (.ok range, plan') t) :
    Placed v s.world t.world plan current range len := by
  rcases placeRamdisk_cases run with ⟨stays, same, _, rfl⟩ | ⟨_, ⟨_, absurd, _⟩, _⟩ |
    ⟨granted, s', _, given, world, ⟨⟨_, absurd, _⟩, _⟩ | ⟨address, up, above, same, _⟩⟩
  · cases same
    exact placed_stays valid reachable bounded stays
  · cases absurd
  · cases absurd
  · cases same
    obtain ⟨enough, inSpace, grown⟩ := lawful.allocateAbove valid given
    obtain ⟨fits, covered⟩ := aligned_within enough inSpace up
    rw [← world] at grown
    exact placed_above grown fits covered above

end KernelBoot.MemoryPlan
