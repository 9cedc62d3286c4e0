import KernelBoot.Proofs.Boot.Segments

/-!
An image in claimed memory. Its tag area and its segments are claimed one after the other, so no
two of them share a byte and a segment that is filled stays as it is while the next one is.
-/
namespace KernelBoot
open FirmwareView

variable {source : Source σ} {f : Firmware σ} {v : FirmwareView σ} {image : Bytes}
  {s t : Session σ} {config : LoaderConfig}

theorem addressOverride_quiet (reads : ∀ name, v.Quiet (f.readVariable name)) (name : String) :
    v.Quiet (addressOverride f name) := by
  refine quiet_bind (reads name) fun found => ?_
  cases found with
  | none => exact quiet_pure none
  | some value =>
    simp only
    split
    · exact quiet_bind (quiet_log _) fun _ => quiet_pure _
    · exact quiet_bind (quiet_log _) fun _ => quiet_pure _

theorem MemoryPlan.resolve_ok (reads : ∀ name, v.Quiet (f.readVariable name))
    (valid : v.valid s.world) {h : BootHeader} {arm64 : Bool} {plan : MemoryPlan}
    (run : (MemoryPlan.resolve f h arm64).Ends s plan t) :
    v.Same s.world t.world ∧ plan.claimed = [] := by
  obtain ⟨kernel, s₁, kernelRun, ramdiskStep⟩ := Effect.ends_bind.mp run
  obtain ⟨ramdisk, s₂, ramdiskRun, tagsStep⟩ := Effect.ends_bind.mp ramdiskStep
  obtain ⟨tags, s₃, tagsRun, done⟩ := Effect.ends_bind.mp tagsStep
  obtain ⟨rfl, rfl⟩ := Effect.ends_pure.mp done
  have first := addressOverride_quiet reads _ _ _ _ valid kernelRun
  have second := addressOverride_quiet reads _ _ _ _ first.valid ramdiskRun
  have third := addressOverride_quiet reads _ _ _ _ second.valid tagsRun
  exact ⟨(first.trans second).trans third, rfl⟩

theorem placeSegment_range {plan plan' : MemoryPlan} {what : String} {address : Nat}
    {placement : Placement} {range : AddressRange}
    (run : (placeSegment source f plan what address placement).Gives s (range, plan') t) :
    range = .sized address placement.extent ∧
      (placement.extent = 0 ∨ address + placement.extent < addressSpace) := by
  obtain ⟨⟨claimed, _⟩, s₁, claiming, checking⟩ := Attempt.gives_bind.mp run
  obtain ⟨granted, s₂, checked, loading⟩ := Attempt.gives_bind.mp checking
  obtain ⟨claimedOk, rfl⟩ := Attempt.gives_ofExcept.mp checked
  obtain ⟨_, s₃, _, done⟩ := Attempt.gives_bind.mp loading
  obtain ⟨same, _⟩ := Attempt.gives_pure.mp done
  cases same
  have claimOk := Attempt.gives_lift.mp claiming
  rw [mapError_eq_ok.mp claimedOk] at claimOk
  exact MemoryPlan.claim_range claimOk

/-- What an image in memory has behind it: it was examined, the tag area was claimed where the
    plan has it, and its ramdisk was placed. -/
theorem placeImage_cases {placed : PlacedImage}
    (run : (placeImage source f config).Gives s placed t) :
    (∃ s₁, (examine source).Gives s placed.facts s₁) ∧
      (∃ plan s₂ s₃, (MemoryPlan.resolve f placed.facts.header placed.facts.arm64).Ends s₂ plan s₃ ∧
        placed.tags = .sized plan.tags config.tagAreaSize) ∧
      ∃ plan plan' s₂ s₃, (placeSegment source f plan "ramdisk" plan.ramdisk
        placed.facts.layout.ramdisk).Gives s₂ (placed.ramdisk, plan') s₃ := by
  obtain ⟨facts, s₁, examined, announcing⟩ := Attempt.gives_bind.mp run
  obtain ⟨_, s₂, _, resolving⟩ := Attempt.gives_bind.mp announcing
  obtain ⟨plan₀, s₃, resolved, claiming⟩ := Attempt.gives_bind.mp resolving
  obtain ⟨⟨claimed, plan₁⟩, s₄, claimRun, checking⟩ := Attempt.gives_bind.mp claiming
  obtain ⟨area, s₅, checked, placingKernel⟩ := Attempt.gives_bind.mp checking
  obtain ⟨claimedOk, rfl⟩ := Attempt.gives_ofExcept.mp checked
  have claimOk := Attempt.gives_lift.mp claimRun
  rw [mapError_eq_ok.mp claimedOk] at claimOk
  obtain ⟨⟨kernel, plan₂⟩, s₆, _, placingRamdisk⟩ := Attempt.gives_bind.mp placingKernel
  obtain ⟨⟨ramdisk, plan₃⟩, s₇, ramdiskRun, placingSecond⟩ := Attempt.gives_bind.mp placingRamdisk
  obtain ⟨⟨second, plan₄⟩, s₈, _, done⟩ := Attempt.gives_bind.mp placingSecond
  obtain ⟨rfl, _⟩ := Attempt.gives_pure.mp done
  exact ⟨⟨s₁, examined⟩, ⟨plan₀, s₂, s₃, Attempt.gives_lift.mp resolved,
    (MemoryPlan.claim_range claimOk).1⟩, plan₂, plan₃, s₆, s₇, ramdiskRun⟩

section Failures
open Attempt
variable {bad : LoadError → Prop} (fine : ∀ e, ¬ bad (.ofPlan e))
include fine

theorem placeSegment_avoids {plan : MemoryPlan} {what : String} {address : Nat} {p : Placement}
    (loads : (p.extent = 0 ∨ address + p.extent < addressSpace) →
      (loadSegment source f what (.sized address p.extent) p.offset p.size).Avoids bad) :
    (placeSegment source f plan what address p).Avoids bad := by
  refine avoids_bind (avoids_lift _) fun s₁ ⟨claimed, plan'⟩ s₂ claiming => ?_
  refine MemoryPlan.claimed_avoids fine (gives_lift.mp claiming) fun fits => ?_
  exact avoids_bind (loads fits) fun _ _ _ _ => avoids_pure _

theorem placeImage_fails
    (loads : ∀ {s s₁ facts}, (examine source).Gives s facts s₁ → ∀ p ∈ facts.layout.placements,
      ∀ what address, (p.extent = 0 ∨ address + p.extent < addressSpace) →
        (loadSegment source f what (.sized address p.extent) p.offset p.size).Avoids bad)
    {e : LoadError} (isBad : bad e) (failed : (placeImage source f config).Fails s e t) :
    (examine source).Fails s e t := by
  rcases fails_bind.mp failed with examining | ⟨facts, s₁, examined, placing⟩
  · exact examining
  · have avoided : ∀ {x : Attempt σ LoadError PlacedImage}, x.Avoids bad → ¬ x.Fails s₁ e t :=
      fun avoids failed => avoids _ _ _ failed isBad
    refine absurd placing (avoided ?_)
    refine avoids_bind (avoids_lift _) fun _ _ _ _ => ?_
    refine avoids_bind (avoids_lift _) fun _ plan _ _ => ?_
    refine avoids_bind (avoids_lift _) fun _ ⟨claimed, plan₁⟩ _ claiming => ?_
    refine MemoryPlan.claimed_avoids fine (gives_lift.mp claiming) fun _ => ?_
    refine avoids_bind (placeSegment_avoids fine (loads examined _ ?_ _ _)) ?_
    · simp [ImageLayout.placements]
    rintro _ ⟨kernel, plan₂⟩ _ _
    refine avoids_bind (placeSegment_avoids fine (loads examined _ ?_ _ _)) ?_
    · simp [ImageLayout.placements]
    rintro _ ⟨ramdisk, plan₃⟩ _ _
    refine avoids_bind (placeSegment_avoids fine (loads examined _ ?_ _ _)) ?_
    · simp [ImageLayout.placements]
    rintro _ ⟨second, plan₄⟩ _ _
    exact avoids_pure _

end Failures

/-- The segment of an image at the start of a range that ends below the last address. -/
structure Filled (v : FirmwareView σ) (w : σ) (image : Bytes) (placement : Placement)
    (range : AddressRange) : Prop where
  bounded : range.len = 0 ∨ range.stop < addressSpace
  fits : placement.size ≤ range.len
  bytes : (v.read w range).take placement.size = image.slice placement.offset placement.size

structure PlacedImage.Sound (p : PlacedImage) (v : FirmwareView σ) (image : Bytes) (w₀ w : σ) :
    Prop where
  described : ∃ parsed, BootHeader.parse (image.take BootHeader.sizeWithExtra) = .ok parsed ∧
    ImageLayout.of parsed = .ok p.facts.layout ∧ p.facts.layout.requiredLength ≤ image.length
  holds : p.plan.Holds v w₀ w [p.second, p.ramdisk, p.kernel, p.tags]
  tags : p.tags.len = 0 ∨ p.tags.stop < addressSpace
  kernel : Filled v w image p.facts.layout.kernel p.kernel
  ramdisk : Filled v w image p.facts.layout.ramdisk p.ramdisk
  second : Filled v w image p.facts.layout.second p.second

theorem sized_bounded {start len : Nat} (fits : len = 0 ∨ start + len < addressSpace) :
    (AddressRange.sized start len).len = 0 ∨ (AddressRange.sized start len).stop < addressSpace := by
  rw [AddressRange.sized_len fits]
  rcases fits with rfl | fits
  · exact .inl rfl
  · exact .inr (by rw [AddressRange.sized_stop fits]; exact fits)

theorem Filled.later {w w' : σ} {placement : Placement} {range : AddressRange}
    (filled : Filled v w image placement range) (kept : v.read w' range = v.read w range) :
    Filled v w' image placement range :=
  ⟨filled.bounded, filled.fits, by rw [kept]; exact filled.bytes⟩

theorem placeSegment_holds (lawful : f.Lawful v) (delivers : source.Delivers v image) {w₀ : σ}
    {plan plan' : MemoryPlan} {ranges : List AddressRange}
    (holds : plan.Holds v w₀ s.world ranges) {what : String} {address : Nat} {placement : Placement}
    (sound : placement.size ≤ placement.extent) {range : AddressRange}
    (run : (placeSegment source f plan what address placement).Gives s (range, plan') t) :
    plan'.Holds v w₀ t.world (range :: ranges) ∧ (∀ r ∈ ranges, v.read t.world r = v.read s.world r) ∧
      Filled v t.world image placement range := by
  obtain ⟨rfl, fits, claimed, bytes⟩ := placeSegment_ok lawful delivers holds.accounts sound run
  obtain ⟨held, kept⟩ := holds.claim claimed
  refine ⟨held, kept, sized_bounded fits, ?_, bytes⟩
  rw [AddressRange.sized_len fits]
  exact sound

theorem placeImage_ok (lawful : f.Lawful v) (delivers : source.Delivers v image)
    (valid : v.valid s.world) {placed : PlacedImage}
    (run : (placeImage source f config).Gives s placed t) :
    placed.Sound v image s.world t.world := by
  unfold placeImage at run
  obtain ⟨facts, s₁, examined, announcing⟩ := Attempt.gives_bind.mp run
  obtain ⟨same₁, parsed, parseOk, layoutOk, long⟩ := examine_ok delivers valid examined
  have chained := ImageLayout.of_chained layoutOk
  obtain ⟨_, s₂, announced, resolving⟩ := Attempt.gives_bind.mp announcing
  have same₂ := FirmwareView.Same.of_eq same₁.valid (Attempt.gives_log announced)
  obtain ⟨plan₀, s₃, resolved, claiming⟩ := Attempt.gives_bind.mp resolving
  obtain ⟨same₃, unclaimed⟩ :=
    MemoryPlan.resolve_ok lawful.readVariable_quiet same₂.valid (Attempt.gives_lift.mp resolved)
  have same := (same₁.trans same₂).trans same₃
  have start : plan₀.Holds v s.world s₃.world [] := by
    refine ⟨⟨same.valid, ?_⟩, List.forall_mem_nil _, List.Pairwise.nil⟩
    rw [same.grants, unclaimed, List.append_nil]
  obtain ⟨⟨claimed, plan₁⟩, s₄, claimRun, checking⟩ := Attempt.gives_bind.mp claiming
  obtain ⟨area, s₅, checked, placingKernel⟩ := Attempt.gives_bind.mp checking
  obtain ⟨claimedOk, rfl⟩ := Attempt.gives_ofExcept.mp checked
  have claimOk := Attempt.gives_lift.mp claimRun
  rw [mapError_eq_ok.mp claimedOk] at claimOk
  obtain ⟨rfl, tagsFit, claimedTags⟩ := MemoryPlan.claim_ok lawful start.accounts claimOk
  obtain ⟨holdsTags, _⟩ := start.claim claimedTags
  obtain ⟨⟨kernel, plan₂⟩, s₆, kernelRun, placingRamdisk⟩ := Attempt.gives_bind.mp placingKernel
  obtain ⟨holdsKernel, _, filledKernel⟩ :=
    placeSegment_holds lawful delivers holdsTags chained.kernel.size_le kernelRun
  obtain ⟨⟨ramdisk, plan₃⟩, s₇, ramdiskRun, placingSecond⟩ := Attempt.gives_bind.mp placingRamdisk
  obtain ⟨holdsRamdisk, keptRamdisk, filledRamdisk⟩ :=
    placeSegment_holds lawful delivers holdsKernel chained.ramdisk.size_le ramdiskRun
  obtain ⟨⟨second, plan₄⟩, s₈, secondRun, done⟩ := Attempt.gives_bind.mp placingSecond
  obtain ⟨holdsSecond, keptSecond, filledSecond⟩ :=
    placeSegment_holds lawful delivers holdsRamdisk chained.second.size_le secondRun
  obtain ⟨rfl, rfl⟩ := Attempt.gives_pure.mp done
  exact {
    described := ⟨parsed, parseOk, layoutOk, long⟩
    holds := holdsSecond
    tags := sized_bounded tagsFit
    kernel := (filledKernel.later (keptRamdisk kernel (by simp))).later (keptSecond kernel (by simp))
    ramdisk := filledRamdisk.later (keptSecond ramdisk (by simp))
    second := filledSecond }

end KernelBoot
