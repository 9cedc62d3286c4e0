import KernelBoot.Proofs.Boot.Loading
import KernelBoot.Proofs.Tags.Calls

/-!
What a load leaves alone. All that it stores lies in memory that was granted on its own way, so a
byte outside those grants is as it was, wherever the load ends. The ranges stored to come from the
windows of the plan, and from the place of a ramdisk that has moved.
-/
namespace KernelBoot
open FirmwareView Attempt

namespace FirmwareView

/-- Since the state `w₀` just the ranges `granted` were given out, clear of all earlier ones, and no
    byte outside them has changed. -/
structure Confined (v : FirmwareView σ) (w₀ w : σ) (granted : List AddressRange) : Prop where
  valid : v.valid w
  grants : v.grants w = v.grants w₀ ++ granted
  fresh : ∀ g ∈ granted, ∀ earlier ∈ v.grants w₀, g.overlaps earlier = false
  outside : ∀ a, (∀ g ∈ granted, g.contains a = false) → (v.ram w).byte a = (v.ram w₀).byte a

/-- Since the state `w₀` some ranges were given out, and memory has changed nowhere else. -/
def Framed (v : FirmwareView σ) (w₀ : σ) (t : Session σ) : Prop :=
  ∃ granted, v.Confined w₀ t.world granted

variable {v : FirmwareView σ} {w₀ w w' : σ} {granted : List AddressRange} {s t : Session σ}

theorem Confined.refl (valid : v.valid w₀) : v.Confined w₀ w₀ [] :=
  ⟨valid, (List.append_nil _).symm, List.forall_mem_nil _, fun _ _ => rfl⟩

theorem Confined.same (confined : v.Confined w₀ w granted) (same : v.Same w w') :
    v.Confined w₀ w' granted where
  valid := same.valid
  grants := same.grants.trans confined.grants
  fresh := confined.fresh
  outside a apart := by rw [same.ram, confined.outside a apart]

theorem Confined.extend {range : AddressRange} (confined : v.Confined w₀ w granted)
    (extended : v.Extended w w' range) : v.Confined w₀ w' (granted ++ [range]) where
  valid := extended.valid
  grants := by rw [extended.grants, confined.grants, List.append_assoc]
  fresh := by
    intro g member earlier before
    rcases List.mem_append.mp member with claimed | last
    · exact confined.fresh g claimed earlier before
    · rw [List.mem_singleton.mp last]
      exact extended.fresh earlier (by rw [confined.grants]; exact List.mem_append_left _ before)
  outside := by
    intro a apart
    rw [extended.outside a (apart range (by simp))]
    exact confined.outside a fun g member => apart g (List.mem_append_left _ member)

theorem Confined.store {f : Firmware σ} (guards : f.Guards v) {range : AddressRange} {bytes : Bytes}
    {u : Unit} (confined : v.Confined w₀ s.world granted) (reachable : Reachable granted range)
    (fits : bytes.length = range.len) (run : (f.store range bytes).Ends s u t) :
    v.Confined w₀ t.world granted := by
  have known : Reachable (v.grants s.world) range := by
    rw [confined.grants]
    exact reachable.mono (List.subset_append_right _ _)
  obtain ⟨valid, ram, grants⟩ := guards.store confined.valid fits known run
  refine ⟨valid, grants.trans confined.grants, confined.fresh, ?_⟩
  intro a apart
  rw [ram, ← confined.outside a apart]
  apply Ram.store_outside
  have ordered := range.ordered
  rw [fits, AddressRange.len]
  rcases reachable with empty | ⟨g, member, within⟩
  · rw [AddressRange.isEmpty_iff] at empty
    omega
  · have beyond := apart g member
    rw [← Bool.not_eq_true, AddressRange.contains_iff] at beyond
    rw [AddressRange.within_iff] at within
    omega

theorem Confined.earlier (confined : v.Confined w₀ w granted) {g : AddressRange}
    (member : g ∈ v.grants w₀) : v.read w g = v.read w₀ g := by
  apply Ram.read_congr
  intro a low high
  have ordered := g.ordered
  have inside : a < g.stop := by
    simp only [AddressRange.len] at high
    omega
  apply confined.outside
  intro own claimed
  exact AddressRange.apart_contains (confined.fresh own claimed g member) low inside

theorem Confined.framed (confined : v.Confined w₀ s.world granted) : v.Framed w₀ s :=
  ⟨granted, confined⟩

theorem Quiet.confines {x : Attempt σ ε α} (quiet : v.Quiet x.run)
    (confined : v.Confined w₀ s.world granted) :
    x.Meets s (fun _ t => v.Confined w₀ t.world granted) (v.Framed w₀) where
  given _ t run := confined.same (quiet s _ t confined.valid run)
  failed _ t run := (confined.same (quiet s _ t confined.valid run)).framed

end FirmwareView

variable {source : Source σ} {f : Firmware σ} {storage : Storage σ} {v : FirmwareView σ}
  {s t : Session σ} {w₀ : σ} {granted : List AddressRange} {plan plan' : MemoryPlan}
  {request : LoadRequest} {config : LoaderConfig}

theorem Firmware.Guards.opens (guards : f.Guards v) (confined : v.Confined w₀ s.world granted)
    (range : AddressRange) :
    ((f.memory range).mapError LoadError.firmware).Meets s
      (fun memory t => v.Confined w₀ t.world granted ∧ memory.length = range.len) (v.Framed w₀) := by
  have quiet := Quiet.confines (guards.memory_quiet range) confined
  refine meets_mapError ⟨fun memory t run => ⟨quiet.given memory t run, ?_⟩, quiet.failed⟩
  exact (guards.memory confined.valid run).2

theorem Firmware.Guards.stores (guards : f.Guards v) (confined : v.Confined w₀ s.world granted)
    {range : AddressRange} {bytes : Bytes} (reachable : Reachable granted range)
    (fits : bytes.length = range.len) :
    (liftM (f.store range bytes) : Attempt σ ε Unit).Meets s
      (fun _ t => v.Confined w₀ t.world granted) (v.Framed w₀) :=
  meets_lift fun _ _ run => confined.store guards reachable fits run

namespace MemoryPlan

/-- The plan `plan'` has come from `plan` and accounts for all grants; memory of `range` is its. -/
structure Secures (v : FirmwareView σ) (w₀ : σ) (plan plan' : MemoryPlan) (range : AddressRange)
    (t : Session σ) : Prop where
  confined : v.Confined w₀ t.world plan'.claimed
  kept : plan.claimed ⊆ plan'.claimed
  reachable : Reachable plan'.claimed range

def Settles (v : FirmwareView σ) (w₀ : σ) (plan : MemoryPlan)
    (outcome : Except PlanError AddressRange × MemoryPlan) (t : Session σ) : Prop :=
  v.Confined w₀ t.world outcome.2.claimed ∧
    ∀ range, outcome.1 = .ok range → Secures v w₀ plan outcome.2 range t

theorem claim_settles (guards : f.Guards v) (confined : v.Confined w₀ s.world plan.claimed)
    {what : String} {address len : Nat} {result : Except PlanError AddressRange}
    (run : (plan.claim f what address len).Ends s (result, plan') t) :
    Settles v w₀ plan (result, plan') t := by
  rcases claim_cases run with ⟨_, rfl, rfl, rfl⟩ | ⟨_, _, ⟨_, rfl⟩, rfl, rfl⟩ |
    ⟨window, s', _, made, world, ⟨own, given, rfl, rfl⟩ | ⟨_, refused, ⟨_, rfl⟩, rfl⟩⟩
  · refine ⟨confined, fun range same => ?_⟩
    cases same
    exact ⟨confined, List.Subset.refl _, .inl (AddressRange.sized_empty address)⟩
  · exact ⟨confined, fun range same => by cases same⟩
  · rw [← world] at confined
    obtain ⟨rfl, extended⟩ := guards.allocateAt confined.valid given
    have grown := confined.extend extended
    refine ⟨grown, fun range same => ?_⟩
    cases same
    exact ⟨grown, List.subset_append_left _ _, .inr ⟨own, by simp, (window_covers made).2⟩⟩
  · rw [← world] at confined
    have same := guards.allocateAt_refused confined.valid refused
    exact ⟨confined.same same, fun range same => by cases same⟩

/-- A ramdisk stays inside its old range, or moves into memory that is claimed for it. -/
theorem placeRamdisk_settles (guards : f.Guards v) (confined : v.Confined w₀ s.world plan.claimed)
    {current : AddressRange} (reachable : Reachable plan.claimed current) {len tagArea : Nat}
    {result : Except PlanError AddressRange}
    (run : (plan.placeRamdisk f current len tagArea).Ends s (result, plan') t) :
    Settles v w₀ plan (result, plan') t := by
  rcases placeRamdisk_cases run with ⟨stays, rfl, rfl, rfl⟩ | ⟨_, ⟨_, rfl, _⟩, rfl, unmoved⟩ |
    ⟨own, s', _, given, world, outcome⟩
  · refine ⟨confined, fun range same => ?_⟩
    cases same
    exact ⟨confined, List.Subset.refl _, reachable.of_within (AddressRange.sized_within stays)⟩
  · refine ⟨?_, fun range same => by cases same⟩
    rcases unmoved with rfl | ⟨_, _, refused⟩
    · exact confined
    · exact confined.same (guards.allocateAbove_refused confined.valid refused)
  · obtain ⟨enough, inSpace, extended⟩ := guards.allocateAbove confined.valid given
    have grown := confined.extend extended
    rw [← world] at grown
    rcases outcome with ⟨⟨_, rfl, _⟩, rfl⟩ | ⟨address, up, _, rfl, rfl⟩
    · exact ⟨grown, fun range same => by cases same⟩
    · refine ⟨grown, fun range same => ?_⟩
      cases same
      have covered := (aligned_within enough inSpace up).2
      exact ⟨grown, List.subset_append_left _ _, .inr ⟨own, by simp, covered⟩⟩

theorem Settles.checked {outcome : Except PlanError AddressRange × MemoryPlan}
    (settles : Settles v w₀ plan outcome s) :
    (ofExcept (outcome.1.mapError LoadError.ofPlan)).Meets s
      (fun range t => Secures v w₀ plan outcome.2 range t) (v.Framed w₀) :=
  meets_ofExcept (fun range ok => settles.2 range (mapError_eq_ok.mp ok)) settles.1.framed

end MemoryPlan

/-- What a source delivers goes into the front of the range, also when it fails half way. -/
theorem loadSegment_meets (guards : f.Guards v) (bounded : source.Bounded v)
    (confined : v.Confined w₀ s.world granted) {what : String} {range : AddressRange}
    {offset size : Nat} (reachable : Reachable granted range) :
    (loadSegment source f what range offset size).Meets s
      (fun _ t => v.Confined w₀ t.world granted) (v.Framed w₀) := by
  unfold loadSegment
  split
  · exact meets_pure confined
  refine meets_guard confined.framed fun _ => ?_
  refine meets_bind (guards.opens confined range) fun memory s₁ ⟨opened, length⟩ => ?_
  refine meets_guard opened.framed fun room => ?_
  have reading : (liftM (source.readAt offset size) : Attempt σ LoadError _).Meets s₁
      (fun read t => v.Confined w₀ t.world granted ∧ read.2.length ≤ size ∧
        (read.1 = .ok () → read.2.length = size)) (v.Framed w₀) := by
    refine meets_lift fun ⟨result, data⟩ s₂ read => ⟨?_, bounded.within read, ?_⟩
    · exact opened.same (bounded.quiet offset size _ _ _ opened.valid read)
    · rintro rfl
      exact bounded.whole read
  refine meets_bind reading fun ⟨result, data⟩ s₂ ⟨before, most, whole⟩ => ?_
  simp only at most whole
  cases result with
  | error e =>
    -- the rest of the range is stored as it was found
    have fits : (data ++ memory.drop data.length).length = range.len := by
      rw [List.length_append, List.length_drop]
      omega
    exact meets_bind (guards.stores before reachable fits) fun _ s₃ after => meets_throw after.framed
  | ok _ =>
    have exact := whole rfl
    have fits : (data ++ Bytes.zeros (memory.length - size)).length = range.len := by
      rw [List.length_append, Bytes.zeros_length]
      omega
    refine meets_bind (guards.stores before reachable fits) fun _ s₃ after => ?_
    exact Quiet.confines (quiet_lift (quiet_log _)) after

theorem placeSegment_meets (guards : f.Guards v) (bounded : source.Bounded v)
    (confined : v.Confined w₀ s.world plan.claimed) {what : String} {address : Nat}
    {placement : Placement} :
    (placeSegment source f plan what address placement).Meets s
      (fun placed t => plan.Secures v w₀ placed.2 placed.1 t) (v.Framed w₀) := by
  have claiming : (liftM (plan.claim f what address placement.extent) :
      Attempt σ LoadError _).Meets s (plan.Settles v w₀) (v.Framed w₀) :=
    meets_lift fun _ _ run => MemoryPlan.claim_settles guards confined run
  refine meets_bind claiming fun ⟨claimed, plan'⟩ s₁ settles => ?_
  refine meets_bind settles.checked fun range s₂ secures => ?_
  apply meets_bind (loadSegment_meets guards bounded secures.confined secures.reachable)
  exact fun _ s₃ loaded => meets_pure ⟨loaded, secures.kept, secures.reachable⟩

/-- The tag area and the ramdisk of a placed image can be stored to. -/
structure PlacedImage.Owns (p : PlacedImage) (v : FirmwareView σ) (w₀ : σ) (t : Session σ) :
    Prop where
  confined : v.Confined w₀ t.world p.plan.claimed
  tags : Reachable p.plan.claimed p.tags
  ramdisk : Reachable p.plan.claimed p.ramdisk

theorem placeImage_meets (guards : f.Guards v) (bounded : source.Bounded v)
    (valid : v.valid s.world) :
    (placeImage source f config).Meets s (fun placed t => placed.Owns v s.world t)
      (v.Framed s.world) := by
  have examining := Quiet.confines (examine_quiet bounded.quiet) (Confined.refl valid)
  refine meets_bind examining fun facts s₁ examined => ?_
  refine meets_bind (Quiet.confines (quiet_lift (quiet_log _)) examined) fun _ s₂ announced => ?_
  have resolving : (liftM (MemoryPlan.resolve f facts.header facts.arm64) :
      Attempt σ LoadError _).Meets s₂ (fun plan t => v.Confined s.world t.world plan.claimed)
      (v.Framed s.world) := by
    refine meets_lift fun plan s₃ run => ?_
    obtain ⟨same, unclaimed⟩ := MemoryPlan.resolve_ok guards.readVariable_quiet announced.valid run
    rw [unclaimed]
    exact announced.same same
  refine meets_bind resolving fun plan₀ s₃ resolved => ?_
  have claiming : (liftM (plan₀.claim f "tags" plan₀.tags config.tagAreaSize) :
      Attempt σ LoadError _).Meets s₃ (plan₀.Settles v s.world) (v.Framed s.world) :=
    meets_lift fun _ _ run => MemoryPlan.claim_settles guards resolved run
  refine meets_bind claiming fun ⟨claimed, plan₁⟩ s₄ settles => ?_
  refine meets_bind settles.checked fun area s₅ withTags => ?_
  apply meets_bind (placeSegment_meets guards bounded withTags.confined)
  intro ⟨kernel, plan₂⟩ s₆ withKernel
  apply meets_bind (placeSegment_meets guards bounded withKernel.confined)
  intro ⟨ramdisk, plan₃⟩ s₇ withRamdisk
  apply meets_bind (placeSegment_meets guards bounded withRamdisk.confined)
  intro ⟨second, plan₄⟩ s₈ withSecond
  have tags := (withTags.reachable.mono withKernel.kept).mono withRamdisk.kept
  exact meets_pure ⟨withSecond.confined, tags.mono withSecond.kept,
    withRamdisk.reachable.mono withSecond.kept⟩

/-- Patching stores to the final place alone, and leaves all that was claimed before. -/
theorem patchRamdisk_meets (guards : f.Guards v) (apart : storage.Apart v)
    (confined : v.Confined w₀ s.world plan.claimed) {loaded : AddressRange}
    (reachable : Reachable plan.claimed loaded) {size : Nat} :
    (patchRamdisk f storage plan loaded size request config).Meets s
      (fun _ t => ∃ granted, plan.claimed ⊆ granted ∧ v.Confined w₀ t.world granted)
      (v.Framed w₀) := by
  unfold patchRamdisk
  refine meets_guard confined.framed fun _ => ?_
  refine meets_bind (guards.opens confined loaded) fun memory s₁ ⟨opened, _⟩ => ?_
  refine meets_guard opened.framed fun _ => ?_
  have inflating := originalRamdisk_quiet guards.decompress_quiet (memory.take size) config
  refine meets_bind (Quiet.confines inflating opened) fun original s₂ inflated => ?_
  have gathering := Injection.gather_quiet apart request.searchPrefix request.rootDevice config
  refine meets_bind (Quiet.confines (quiet_lift gathering) inflated) fun injection s₃ gathered => ?_
  refine meets_bind (Quiet.confines (quiet_lift (quiet_logAll _)) gathered) fun _ s₄ logged => ?_
  refine meets_bind (Quiet.confines (quiet_pure _) logged) fun patched s₅ accepted => ?_
  have placing : (liftM (plan.placeRamdisk f loaded patched.length config.tagAreaSize) :
      Attempt σ LoadError _).Meets s₅ (plan.Settles v w₀) (v.Framed w₀) :=
    meets_lift fun _ _ run => MemoryPlan.placeRamdisk_settles guards accepted reachable run
  refine meets_bind placing fun ⟨placed, plan'⟩ s₆ settles => ?_
  refine meets_bind settles.checked fun range s₇ secures => ?_
  refine meets_bind (guards.opens secures.confined range) fun target s₈ ⟨reopened, length⟩ => ?_
  have fits := (patched.write_length target).trans length
  refine meets_bind (guards.stores reopened secures.reachable fits) fun _ s₉ stored => ?_
  refine meets_bind (Quiet.confines (quiet_pure _) stored) fun written s₁₀ measured => ?_
  -- the new plan ends here, so from now on the grants are all that is known of it
  exact meets_guard measured.framed fun _ => meets_pure ⟨_, secures.kept, measured⟩

theorem finalRamdisk_meets (guards : f.Guards v) (apart : storage.Apart v) {placed : PlacedImage}
    (owns : placed.Owns v w₀ s) :
    (finalRamdisk f storage placed request config).Meets s
      (fun _ t => ∃ granted, placed.plan.claimed ⊆ granted ∧ v.Confined w₀ t.world granted)
      (v.Framed w₀) := by
  unfold finalRamdisk
  split
  · exact patchRamdisk_meets guards apart owns.confined owns.ramdisk
  · exact meets_pure ⟨_, List.Subset.refl _, owns.confined⟩

theorem writeTagList_meets (guards : f.Guards v) (confined : v.Confined w₀ s.world granted)
    {area ramdisk : AddressRange} (reachable : Reachable granted area) {line : CommandLine} :
    (writeTagList f area ramdisk line).Meets s (fun _ t => v.Confined w₀ t.world granted)
      (v.Framed w₀) := by
  have mapping := quiet_mapError LoadError.firmware guards.memoryMap_quiet
  refine meets_bind (Quiet.confines mapping confined) fun regions s₁ mapped => ?_
  refine meets_bind (Quiet.confines (quiet_lift (quiet_logAll _)) mapped) fun _ s₂ warned => ?_
  refine meets_guard warned.framed fun _ => ?_
  refine meets_bind (guards.opens warned area) fun memory s₃ ⟨opened, length⟩ => ?_
  have fits := (writeTags_buffer memory ramdisk
    (MemoryRecord.ofRegions (MemoryRegions.coalesce regions)) line).trans length
  refine meets_bind (guards.stores opened reachable fits) fun _ s₄ stored => ?_
  refine meets_bind (Quiet.confines (quiet_pure _) stored) fun written s₅ accepted => ?_
  exact meets_bind (Quiet.confines (quiet_lift (quiet_log _)) accepted) fun _ _ done => meets_pure done

theorem load_meets (guards : f.Guards v) (apart : storage.Apart v) (bounded : source.Bounded v)
    (valid : v.valid s.world) :
    (load source f storage request config).Meets s (fun _ => v.Framed s.world)
      (v.Framed s.world) := by
  refine meets_bind (placeImage_meets guards bounded valid) fun placed s₁ owns => ?_
  apply meets_bind (finalRamdisk_meets guards apart owns)
  intro ramdisk s₂ ⟨granted, kept, settled⟩
  have building := buildCommandLine_quiet guards.readVariable_quiet placed.facts.header request config
  refine meets_bind (Quiet.confines (quiet_lift building) settled) fun line s₃ built => ?_
  refine meets_bind (writeTagList_meets guards built (owns.tags.mono kept)) fun length s₄ listed => ?_
  refine meets_bind (Quiet.confines (quiet_pure _) listed) fun header s₅ checked => ?_
  refine meets_bind (Quiet.confines (quiet_lift (quiet_log _)) checked) fun _ s₆ logged => ?_
  exact meets_pure logged.framed

/-- The header of a prepared boot is `header` with new addresses and the new size of the ramdisk. -/
def PreparedBoot.Renews (p : PreparedBoot) (header : BootHeader) : Prop :=
  ∃ size : UInt32, size.toNat = p.ramdisk.len ∧
    p.header = { header with
      kernel := { header.kernel with address := p.kernel.start }
      ramdisk := ⟨size, p.ramdisk.start⟩
      second := { header.second with address := p.second.start }
      tagsAddress := p.tags.start }

theorem load_renews {p : PreparedBoot}
    (run : (load source f storage request config).Gives s p t) :
    ∃ header s₁, (readHeader source).Gives s header s₁ ∧ p.Renews header := by
  obtain ⟨placed, _, _, _, steps, final⟩ := load_steps run
  obtain ⟨⟨_, examined⟩, _⟩ := placeImage_cases steps.placing
  obtain ⟨s₁, readRun, _⟩ := examine_cases examined
  refine ⟨placed.facts.header, s₁, readRun, ?_⟩
  unfold finalHeader at final
  split at final
  · cases final
  · rename_i size word
    exact ⟨size, word?_exact word, (Except.ok.inj final).symm⟩

/-- Wherever a load ends, no byte outside the ranges that it was granted has changed, and what was
    given out before is still given out and as it was. The header that a load hands on is the one
    that was read, but for where the segments and the tags are and how long the ramdisk is. -/
theorem load_frame (guards : f.Guards v) (apart : storage.Apart v) (bounded : source.Bounded v)
    (valid : v.valid s.world) :
    (∀ {result t}, (load source f storage request config).run.Ends s result t →
      ∃ granted, v.Confined s.world t.world granted ∧
        ∀ g ∈ v.grants s.world, v.read t.world g = v.read s.world g) ∧
    ∀ {p t}, (load source f storage request config).Gives s p t →
      ∃ header s₁, (readHeader source).Gives s header s₁ ∧ p.Renews header := by
  refine ⟨?_, load_renews⟩
  intro result t run
  have framed : v.Framed s.world t := by
    cases result with
    | ok p => exact (load_meets guards apart bounded valid).given p t run
    | error e => exact (load_meets guards apart bounded valid).failed e t run
  obtain ⟨granted, confined⟩ := framed
  exact ⟨granted, confined, fun g member => confined.earlier member⟩

/-- A page that was given out before lies right above the kernel, where the ramdisk would go. -/
theorem load_frame_held :
    let held := AddressRange.sized 0x10009000 0x1000
    let s : Session Board := ⟨{ bareBoard with grants := [held] }, .new 0⟩
    Board.view.valid s.world ∧
      ∃ p t, (load (.ofMemory bareImage) Board.firmware oneDevice.storage quietRequest
          smallTags).Gives s p t ∧
        (∃ granted, Board.view.Confined s.world t.world granted ∧
          ∀ g ∈ [held], Board.view.read t.world g = Board.view.read s.world g) ∧
        ∃ header s₁, (readHeader (.ofMemory bareImage)).Gives s header s₁ ∧ p.Renews header := by
  intro held s
  have sound : Board.view.valid s.world := ⟨rfl, by decide, by decide⟩
  obtain ⟨p, t, run⟩ := exists_gives (by decide +kernel :
    ((load (.ofMemory bareImage) Board.firmware oneDevice.storage quietRequest smallTags).run.run
      s).1.toOption.isSome = true)
  have apart := oneDevice.storage_apart Board.view
  have bounded := Source.ofMemory_bounded bareImage Board.view
  exact ⟨sound, p, t, run, (load_frame Board.firmware_guards apart bounded sound).1 run,
    (load_frame Board.firmware_guards apart bounded sound).2 run⟩

end KernelBoot
