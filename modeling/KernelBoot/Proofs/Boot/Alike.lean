import KernelBoot.Proofs.Boot.ImageFaults

/-!
Two loads side by side. Firmware and storage see one part of the world; sources, which live in the
rest of it, leave that part alone. Two loads that start alike in that part and are told the same by
their sources take the same steps, so they end alike and with the same result.
-/
namespace KernelBoot

/-- From sessions that look the same in one part of the world, both effects end with the same value
    and in sessions that look the same there. -/
def Effect.Alike (part : σ → τ) (e e' : Effect σ α) : Prop :=
  ∀ s s' a a' t t', part s.world = part s'.world → e.Ends s a t → e'.Ends s' a' t' →
    a = a' ∧ part t.world = part t'.world

/-- What the effect does depends on one part of the world alone, and so does what it leaves there. -/
def Effect.ActsOn (part : σ → τ) (e : Effect σ α) : Prop := e.Alike part e

/-- The services that a load asks for act on one part of the world. -/
structure Firmware.ActsOn (f : Firmware σ) (part : σ → τ) : Prop where
  allocateAt : ∀ range, (f.allocateAt range).run.ActsOn part
  allocateAbove : ∀ minimum size, (f.allocateAbove minimum size).run.ActsOn part
  memory : ∀ range, (f.memory range).run.ActsOn part
  store : ∀ range bytes, (f.store range bytes).ActsOn part
  memoryMap : f.memoryMap.run.ActsOn part
  readVariable : ∀ name, (f.readVariable name).ActsOn part
  decompress : ∀ stream room, (f.decompress stream room).run.ActsOn part

structure Storage.ActsOn (storage : Storage σ) (part : σ → τ) : Prop where
  list : ∀ dir, (storage.list dir).run.ActsOn part
  readFile : ∀ path, (storage.readFile path).run.ActsOn part
  readDevice : ∀ device, (storage.readDevice device).run.ActsOn part

def GatherAlike (part : σ → τ) (storage storage' : Storage σ) (request : LoadRequest)
    (config : LoaderConfig) : Prop :=
  (Injection.gather storage request.searchPrefix request.rootDevice config).Alike part
    (Injection.gather storage' request.searchPrefix request.rootDevice config)

variable {part : σ → τ}

namespace Effect
variable {e e' : Effect σ α}

theorem Alike.ends (alike : e.Alike part e') {s s' t : Session σ} {a : α}
    (same : part s.world = part s'.world) (run : e.Ends s a t) :
    ∃ t', e'.Ends s' a t' ∧ part t.world = part t'.world := by
  rcases run' : e'.run s' with ⟨a', t'⟩
  obtain ⟨rfl, world⟩ := alike s s' a a' t t' same run run'
  exact ⟨t', run', world⟩

theorem alike_bind {f f' : α → Effect σ β} (first : e.Alike part e')
    (second : ∀ a, (f a).Alike part (f' a)) : (e >>= f).Alike part (e' >>= f') := by
  intro s s' b b' u u' same run run'
  obtain ⟨a, t, ran, rest⟩ := ends_bind.mp run
  obtain ⟨a', t', ran', rest'⟩ := ends_bind.mp run'
  obtain ⟨rfl, between⟩ := first s s' a a' t t' same ran ran'
  exact second a t t' b b' u u' between rest rest'

theorem acts_bind {f : α → Effect σ β} (first : e.ActsOn part) (second : ∀ a, (f a).ActsOn part) :
    (e >>= f).ActsOn part := alike_bind first second

theorem acts_pure (a : α) : (pure a : Effect σ α).ActsOn part := by
  intro s s' b b' t t' same run run'
  obtain ⟨rfl, rfl⟩ := ends_pure.mp run
  obtain ⟨rfl, rfl⟩ := ends_pure.mp run'
  exact ⟨rfl, same⟩

theorem acts_log (line : LogLine) : (log line).ActsOn part := by
  intro s s' a a' t t' same run run'
  rw [ends_log run, ends_log run']
  exact ⟨rfl, same⟩

theorem acts_ask (f : σ → α) : (ask f).ActsOn id := by
  intro s s' a a' t t' same run run'
  obtain ⟨rfl, rfl⟩ := ends_ask run
  obtain ⟨rfl, rfl⟩ := ends_ask run'
  exact ⟨congrArg f same, same⟩

theorem acts_step (f : σ → α × σ) : (step f).ActsOn id := by
  intro s s' a a' t t' same run run'
  cases run
  cases run'
  exact ⟨congrArg (fun w => (f w).1) same, congrArg (fun w => (f w).2) same⟩

theorem acts_change (f : σ → σ) : (change f).ActsOn id := by
  intro s s' a a' t t' same run run'
  cases run
  cases run'
  exact ⟨rfl, congrArg f same⟩

theorem acts_logAll (lines : List LogLine) : (logAll lines).ActsOn part := by
  induction lines with
  | nil => exact acts_pure ()
  | cons line rest ih => exact acts_bind (acts_log line) fun _ => ih

end Effect

namespace Attempt
open Effect
variable {x x' : Attempt σ ε α}

/-- Of a value that both runs go on with it is known that the step before has given it. -/
theorem alike_bind {f f' : α → Attempt σ ε β} (first : x.run.Alike part x'.run)
    (second : ∀ s a t, x.Gives s a t → (f a).run.Alike part (f' a).run) :
    (x >>= f).run.Alike part (x' >>= f').run := by
  intro s s' r r' u u' same run run'
  simp only [Ends, run_bind] at run run'
  rcases outcome : x.run.run s with ⟨result, t⟩
  rcases outcome' : x'.run.run s' with ⟨result', t'⟩
  obtain ⟨rfl, between⟩ := first s s' result result' t t' same outcome outcome'
  rw [outcome] at run
  rw [outcome'] at run'
  cases result with
  | error e =>
    cases run
    cases run'
    exact ⟨rfl, between⟩
  | ok a => exact second s a t outcome t t' r r' u u' between run run'

theorem acts_bind {f : α → Attempt σ ε β} (first : x.run.ActsOn part)
    (second : ∀ a, (f a).run.ActsOn part) : (x >>= f).run.ActsOn part :=
  alike_bind first fun _ a _ _ => second a

theorem acts_pure (a : α) : (pure a : Attempt σ ε α).run.ActsOn part := Effect.acts_pure _

theorem alike_lift {e e' : Effect σ α} (alike : e.Alike part e') :
    (liftM e : Attempt σ ε α).run.Alike part (liftM e' : Attempt σ ε α).run :=
  Effect.alike_bind alike fun a => Effect.acts_pure (Except.ok a)

theorem acts_lift {e : Effect σ α} (acts : e.ActsOn part) :
    (liftM e : Attempt σ ε α).run.ActsOn part := alike_lift acts

theorem acts_ofExcept (r : Except ε α) : (ofExcept r : Attempt σ ε α).run.ActsOn part :=
  Effect.acts_pure r

theorem acts_mapError (f : ε → ε') (acts : x.run.ActsOn part) : (x.mapError f).run.ActsOn part := by
  refine Effect.acts_bind acts fun result => ?_
  cases result with
  | ok value => exact Effect.acts_pure _
  | error e => exact Effect.acts_pure _

theorem alike_guard {c : Prop} [Decidable c] {e : ε} {rest rest' : Unit → Attempt σ ε α}
    (later : ¬ c → (rest ()).run.Alike part (rest' ()).run) :
    (if c then throw e >>= rest else rest ()).run.Alike part
      (if c then throw e >>= rest' else rest' ()).run := by
  by_cases failed : c
  · rw [if_pos failed, if_pos failed]
    have thrown : (throw e : Attempt σ ε PUnit).run.ActsOn part := Effect.acts_pure (Except.error e)
    exact alike_bind thrown fun _ _ _ given => absurd given gives_throw
  · rw [if_neg failed, if_neg failed]
    exact later failed

theorem acts_guard {c : Prop} [Decidable c] {e : ε} {rest : Unit → Attempt σ ε α}
    (later : (rest ()).run.ActsOn part) :
    (if c then throw e >>= rest else rest ()).run.ActsOn part := alike_guard fun _ => later

end Attempt

variable {f : Firmware σ} {storage : Storage σ} {request : LoadRequest} {config : LoaderConfig}

/-! The steps of a load that do not read from the image. -/

section Steps

section Planning
open Effect
variable (acts : f.ActsOn part)
include acts

theorem addressOverride_acts (name : String) : (addressOverride f name).ActsOn part := by
  refine acts_bind (acts.readVariable name) fun found => ?_
  cases found with
  | none => exact acts_pure none
  | some value =>
    simp only
    split
    · exact acts_bind (acts_log _) fun _ => acts_pure _
    · exact acts_bind (acts_log _) fun _ => acts_pure _

theorem MemoryPlan.resolve_acts (h : BootHeader) (arm64 : Bool) :
    (MemoryPlan.resolve f h arm64).ActsOn part := by
  refine acts_bind (addressOverride_acts acts _) fun kernel => ?_
  refine acts_bind (addressOverride_acts acts _) fun ramdisk => ?_
  exact acts_bind (addressOverride_acts acts _) fun tags => acts_pure _

theorem MemoryPlan.claim_acts (plan : MemoryPlan) (what : String) (address len : Nat) :
    (plan.claim f what address len).ActsOn part := by
  unfold MemoryPlan.claim
  split
  · exact acts_pure _
  split
  · exact acts_pure _
  refine acts_bind (acts_log _) fun _ => acts_bind (acts.allocateAt _) fun result => ?_
  cases result with
  | error e => exact acts_pure _
  | ok granted => exact acts_pure _

theorem MemoryPlan.placeRamdisk_acts (plan : MemoryPlan) (current : AddressRange)
    (len tagArea : Nat) : (plan.placeRamdisk f current len tagArea).ActsOn part := by
  unfold MemoryPlan.placeRamdisk
  split
  · exact acts_pure _
  simp only
  split
  · exact acts_pure _
  refine acts_bind (acts.allocateAbove _ _) fun result => ?_
  cases result with
  | error e => exact acts_pure _
  | ok granted =>
    simp only
    split
    · exact acts_pure _
    split
    · exact acts_pure _
    · exact acts_bind (acts_log _) fun _ => acts_pure _

theorem buildCommandLine_acts (h : BootHeader) :
    (buildCommandLine f h request config).ActsOn part :=
  acts_bind (acts.readVariable _) fun _ => acts_pure _

end Planning

namespace Injection
open Effect
variable (acts : storage.ActsOn part)
include acts

theorem readFiles_acts (dir : String) (names : List String) :
    (readFiles storage dir names).ActsOn part := by
  induction names with
  | nil => exact acts_pure []
  | cons name rest ih =>
    refine acts_bind (acts.readFile _) fun result => ?_
    cases result with
    | ok data => exact acts_bind ih fun later => acts_pure _
    | error error => exact acts_bind (acts_log _) fun _ => ih

theorem listFiles_acts (dir : String) : (listFiles storage dir).ActsOn part := by
  refine acts_bind (acts.list dir) fun result => ?_
  cases result with
  | ok names => exact readFiles_acts acts dir names
  | error error => exact acts_bind (acts_log _) fun _ => acts_pure _

theorem readNested_acts (device : Option String) : (readNested storage device).ActsOn part := by
  cases device with
  | none => exact acts_pure none
  | some device =>
    by_cases ramdisk : isRamdiskDevice device = true
    · rw [readNested, if_pos ramdisk]
      refine acts_bind (acts.readDevice device) fun result => ?_
      cases result with
      | ok data => exact acts_pure _
      | error error => exact acts_bind (acts_log _) fun _ => acts_pure _
    · rw [readNested, if_neg ramdisk]
      exact acts_pure none

theorem gather_acts (searchPrefix : String) (device : Option String) :
    (gather storage searchPrefix device config).ActsOn part := by
  refine acts_bind (listFiles_acts acts _) fun files => ?_
  refine acts_bind (readNested_acts acts device) fun nested => ?_
  exact acts_bind (acts_log _) fun _ => acts_pure _

end Injection

open Attempt
variable (acts : f.ActsOn part)
include acts

theorem inflateRamdisk_acts (compressed : Bytes) :
    (inflateRamdisk f compressed config).run.ActsOn part := by
  unfold inflateRamdisk
  split
  · exact Effect.acts_pure (Except.error _)
  refine acts_guard ?_
  refine acts_bind (acts_mapError _ (acts.decompress _ _)) fun ⟨actual, written⟩ => ?_
  exact acts_guard (acts_bind (acts_lift (Effect.acts_log _)) fun _ => acts_pure _)

theorem originalRamdisk_acts (raw : Bytes) : (originalRamdisk f raw config).run.ActsOn part := by
  unfold originalRamdisk
  split
  · exact acts_mapError _ (inflateRamdisk_acts acts raw)
  · exact acts_pure _

theorem patchRamdisk_alike {storage' : Storage σ}
    (gathered : GatherAlike part storage storage' request config) (plan : MemoryPlan)
    (loaded : AddressRange) (size : Nat) :
    (patchRamdisk f storage plan loaded size request config).run.Alike part
      (patchRamdisk f storage' plan loaded size request config).run := by
  unfold patchRamdisk
  refine alike_guard fun _ => ?_
  refine alike_bind (acts_mapError _ (acts.memory _)) fun _ memory _ _ => alike_guard fun _ => ?_
  refine alike_bind (originalRamdisk_acts acts _) fun _ original _ _ => ?_
  refine alike_bind (alike_lift gathered) fun _ injection _ _ => ?_
  refine acts_bind (acts_lift (Effect.acts_logAll _)) fun _ => ?_
  refine acts_bind (acts_ofExcept _) fun patched => ?_
  refine acts_bind (acts_lift (MemoryPlan.placeRamdisk_acts acts _ _ _ _)) fun ⟨placed, _⟩ => ?_
  refine acts_bind (acts_ofExcept _) fun range => ?_
  refine acts_bind (acts_mapError _ (acts.memory _)) fun target => ?_
  refine acts_bind (acts_lift (acts.store _ _)) fun _ => ?_
  exact acts_bind (acts_ofExcept _) fun length => acts_guard (acts_pure _)

theorem finalRamdisk_alike {storage' : Storage σ}
    (gathered : GatherAlike part storage storage' request config) (placed : PlacedImage) :
    (finalRamdisk f storage placed request config).run.Alike part
      (finalRamdisk f storage' placed request config).run := by
  unfold finalRamdisk
  split
  · exact patchRamdisk_alike acts gathered _ _ _
  · exact acts_pure _

theorem writeTagList_acts (area ramdisk : AddressRange) (line : CommandLine) :
    (writeTagList f area ramdisk line).run.ActsOn part := by
  refine acts_bind (acts_mapError _ acts.memoryMap) fun regions => ?_
  refine acts_bind (acts_lift (Effect.acts_logAll _)) fun _ => acts_guard ?_
  refine acts_bind (acts_mapError _ (acts.memory _)) fun memory => ?_
  refine acts_bind (acts_lift (acts.store _ _)) fun _ => ?_
  refine acts_bind (acts_ofExcept _) fun length => ?_
  exact acts_bind (acts_lift (Effect.acts_log _)) fun _ => acts_pure _

end Steps

/-- What a load reads of two images is the same: their headers, as far as they count, and the bytes
    of their segments. -/
structure ReadsSame (image image' : Bytes) : Prop where
  length : image.length = image'.length
  header : (BootHeader.parse (image.take BootHeader.sizeWithExtra)).map dropForeignExtra =
    (BootHeader.parse (image'.take BootHeader.sizeWithExtra)).map dropForeignExtra
  segments : ∀ {h l}, BootHeader.parse (image.take BootHeader.sizeWithExtra) = .ok h →
    ImageLayout.of h = .ok l → ∀ p ∈ [l.kernel, l.ramdisk, l.second],
      image.slice p.offset p.size = image'.slice p.offset p.size

theorem ReadsSame.refl (image : Bytes) : ReadsSame image image := ⟨rfl, rfl, fun _ _ _ _ => rfl⟩

/-! The steps that read. All reads lie inside the images, so none of them fails. -/

section Reading
open Attempt
variable {source source' : Source σ} {image image' : Bytes}

/-- Two sources of images, which have no hand in what firmware and storage see. -/
structure Source.Beside (part : σ → τ) (source source' : Source σ) (image image' : Bytes) : Prop where
  carries : source.Carries image
  carries' : source'.Carries image'
  apart : ∀ offset len, (source.readAt offset len).Keeps part
  apart' : ∀ offset len, (source'.readAt offset len).Keeps part
  same : ReadsSame image image'

namespace Source.Beside
variable (beside : Source.Beside part source source' image image')
include beside

theorem readAt_alike {offset len : Nat} (inside : offset + len ≤ image.length)
    (same : image.slice offset len = image'.slice offset len) :
    (source.readAt offset len).Alike part (source'.readAt offset len) := by
  intro s s' a a' t t' alike run run'
  have inside' : offset + len ≤ image'.length := by
    rw [← beside.same.length]
    exact inside
  obtain ⟨u, ends⟩ := beside.carries.read inside s
  obtain ⟨u', ends'⟩ := beside.carries'.read inside' s'
  cases run.symm.trans ends
  cases run'.symm.trans ends'
  have kept := beside.apart offset len s _ t run
  have kept' := beside.apart' offset len s' _ t' run'
  rw [same, kept, kept']
  exact ⟨rfl, alike⟩

end Source.Beside

namespace Source.Beside
variable (beside : Source.Beside part source source' image image')
include beside

theorem readHeader_alike : (readHeader source).run.Alike part (readHeader source').run := by
  intro s s' r r' u u' alike run run'
  obtain ⟨t, read, ends⟩ := beside.carries.readHeader_ends s
  obtain ⟨t', read', ends'⟩ := beside.carries'.readHeader_ends s'
  cases run.symm.trans ends
  cases run'.symm.trans ends'
  have kept := beside.apart _ _ s _ _ read
  have kept' := beside.apart' _ _ s' _ _ read'
  rw [beside.same.header, kept, kept']
  exact ⟨rfl, alike⟩

theorem size_alike : (Attempt.ask source.size : Attempt σ ε Nat).run.Alike part
    (Attempt.ask source'.size : Attempt σ ε Nat).run := by
  refine alike_lift ?_
  intro s s' a a' t t' alike run run'
  obtain ⟨rfl, rfl⟩ := Effect.ends_ask run
  obtain ⟨rfl, rfl⟩ := Effect.ends_ask run'
  rw [beside.carries.size_eq, beside.carries'.size_eq, beside.same.length]
  exact ⟨rfl, alike⟩

theorem detectArm64_alike {h : BootHeader} {l : ImageLayout}
    (parsed : BootHeader.parse (image.take BootHeader.sizeWithExtra) = .ok h)
    (laid : ImageLayout.of h = .ok l) (long : l.requiredLength ≤ image.length) :
    (detectArm64 source l).run.Alike part (detectArm64 source' l).run := by
  unfold detectArm64
  split
  · exact acts_pure _
  · rename_i enough
    have some : l.kernel.size ≠ 0 := by
      have head : 0 < kernelHeadLength := by decide
      omega
    have stop := ImageLayout.stop_le_required (l := l) (List.mem_cons_self) some
    have segment := beside.same.segments parsed laid l.kernel List.mem_cons_self
    have head : image.slice l.kernel.offset kernelHeadLength =
        image'.slice l.kernel.offset kernelHeadLength := by
      have cut := congrArg (List.take kernelHeadLength) segment
      have least : min kernelHeadLength l.kernel.size = kernelHeadLength := by omega
      rw [Bytes.slice, Bytes.slice, List.take_take, List.take_take, least] at cut
      exact cut
    refine alike_bind (alike_lift (beside.readAt_alike (by omega) head)) ?_
    rintro _ ⟨result, head⟩ _ _
    exact acts_bind (acts_ofExcept _) fun _ => acts_pure _

theorem examine_alike : (examine source).run.Alike part (examine source').run := by
  refine alike_bind beside.readHeader_alike fun s header t read => alike_guard fun _ => ?_
  obtain ⟨parsed, parseOk, rfl⟩ := beside.carries.readHeader_parsed read
  refine alike_bind (acts_ofExcept _) fun s₁ layout t₁ placed => ?_
  have laid := mapError_eq_ok.mp (gives_ofExcept.mp placed).1
  rw [dropForeignExtra_layout] at laid
  refine alike_bind beside.size_alike fun s₂ size t₂ asked => alike_guard fun long => ?_
  obtain ⟨rfl, _⟩ := gives_ask asked
  rw [beside.carries.size_eq] at long
  apply alike_bind (beside.detectArm64_alike parseOk laid (Nat.not_lt.mp long))
  intro _ _ _ _
  exact acts_pure _

theorem segment_same {facts : ImageFacts} {s t : Session σ}
    (examined : (examine source).Gives s facts t) {p : Placement}
    (member : p ∈ [facts.layout.kernel, facts.layout.ramdisk, facts.layout.second]) :
    image.slice p.offset p.size = image'.slice p.offset p.size := by
  obtain ⟨s₁, read, laid, _⟩ := examine_cases examined
  obtain ⟨parsed, parseOk, dropped⟩ := beside.carries.readHeader_parsed read
  rw [dropped, dropForeignExtra_layout] at laid
  exact beside.same.segments parseOk laid p member

variable (acts : f.ActsOn part)
include acts

theorem loadSegment_alike {what : String} {range : AddressRange} {offset size : Nat}
    (inside : range.isEmpty = true ∨ offset + size ≤ image.length)
    (same : image.slice offset size = image'.slice offset size) :
    (loadSegment source f what range offset size).run.Alike part
      (loadSegment source' f what range offset size).run := by
  unfold loadSegment
  split
  · exact acts_pure _
  rename_i some
  have within := inside.resolve_left some
  refine alike_guard fun _ => ?_
  refine alike_bind (acts_mapError _ (acts.memory range)) fun _ memory _ _ => alike_guard fun _ => ?_
  refine alike_bind (alike_lift (beside.readAt_alike within same)) fun _ ⟨result, data⟩ _ _ => ?_
  cases result with
  | error e =>
    exact acts_bind (acts_lift (acts.store _ _)) fun _ => Effect.acts_pure (Except.error _)
  | ok _ =>
    exact acts_bind (acts_lift (acts.store _ _)) fun _ => acts_lift (Effect.acts_log _)

theorem placeSegment_alike {plan : MemoryPlan} {what : String} {address : Nat} {p : Placement}
    (inside : p.extent = 0 ∨ p.offset + p.size ≤ image.length)
    (same : image.slice p.offset p.size = image'.slice p.offset p.size) :
    (placeSegment source f plan what address p).run.Alike part
      (placeSegment source' f plan what address p).run := by
  refine alike_bind (acts_lift (MemoryPlan.claim_acts acts _ _ _ _)) ?_
  intro s₁ ⟨claimed, plan'⟩ t₁ claiming
  refine alike_bind (acts_ofExcept _) fun s₂ range t₂ checked => ?_
  have claimOk := gives_lift.mp claiming
  rw [mapError_eq_ok.mp (gives_ofExcept.mp checked).1] at claimOk
  obtain ⟨rfl, _⟩ := MemoryPlan.claim_range claimOk
  have readable : (AddressRange.sized address p.extent).isEmpty = true ∨
      p.offset + p.size ≤ image.length := by
    rcases inside with nothing | within
    · rw [nothing]
      exact .inl (AddressRange.sized_empty address)
    · exact .inr within
  exact alike_bind (beside.loadSegment_alike acts readable same) fun _ _ _ _ => acts_pure _

theorem placeImage_alike :
    (placeImage source f config).run.Alike part (placeImage source' f config).run := by
  refine alike_bind beside.examine_alike fun s facts t examined => ?_
  have inside : ∀ p ∈ facts.layout.placements, p.extent = 0 ∨ p.offset + p.size ≤ image.length :=
    fun p member => segment_inside beside.carries.toExact examined member
  refine alike_bind (acts_lift (Effect.acts_log _)) fun _ _ _ _ => ?_
  refine alike_bind (acts_lift (MemoryPlan.resolve_acts acts _ _)) fun _ plan _ _ => ?_
  refine alike_bind (acts_lift (MemoryPlan.claim_acts acts _ _ _ _)) fun _ ⟨claimed, plan₁⟩ _ _ => ?_
  refine alike_bind (acts_ofExcept _) fun _ area _ _ => ?_
  have placing : ∀ plan what address, ∀ p ∈ [facts.layout.kernel, facts.layout.ramdisk,
      facts.layout.second], (placeSegment source f plan what address p).run.Alike part
        (placeSegment source' f plan what address p).run := by
    intro plan what address p member
    have listed : p ∈ facts.layout.placements := List.mem_append_left [facts.layout.deviceTree] member
    exact beside.placeSegment_alike acts (inside p listed) (beside.segment_same examined member)
  refine alike_bind (placing _ _ _ _ (by simp)) fun _ ⟨kernel, plan₂⟩ _ _ => ?_
  refine alike_bind (placing _ _ _ _ (by simp)) fun _ ⟨ramdisk, plan₃⟩ _ _ => ?_
  exact alike_bind (placing _ _ _ _ (by simp)) fun _ ⟨second, plan₄⟩ _ _ => acts_pure _

theorem load_alike_gathering {storage' : Storage σ}
    (gathered : GatherAlike part storage storage' request config) :
    (load source f storage request config).run.Alike part
      (load source' f storage' request config).run := by
  refine alike_bind (beside.placeImage_alike acts) fun _ placed _ _ => ?_
  refine alike_bind (finalRamdisk_alike acts gathered placed) fun _ ramdisk _ _ => ?_
  refine acts_bind (acts_lift (buildCommandLine_acts acts _)) fun line => ?_
  refine acts_bind (writeTagList_acts acts _ _ _) fun length => ?_
  refine acts_bind (acts_ofExcept _) fun header => ?_
  exact acts_bind (acts_lift (Effect.acts_log _)) fun _ => acts_pure _

theorem load_alike (storageActs : storage.ActsOn part) :
    (load source f storage request config).run.Alike part
      (load source' f storage request config).run :=
  beside.load_alike_gathering acts (Injection.gather_acts storageActs _ _)

end Source.Beside
end Reading

/-! A board is all that its firmware acts on, and scripted storage acts on nothing. -/

theorem Board.firmware_acts : Board.firmware.ActsOn id where
  allocateAt range := Effect.acts_step fun b : Board => b.allocateAt range
  allocateAbove minimum size := Effect.acts_step fun b : Board => b.allocateAbove minimum size
  memory range := Effect.acts_ask fun b : Board => b.read range
  store range bytes :=
    Effect.acts_change fun b : Board => { b with memory := b.memory.store range.start bytes }
  memoryMap := by
    intro s s' a a' t t' same run run'
    cases run
    cases run'
    exact ⟨congrArg (fun b : Board => (Board.firmware.memoryMap.run.run ⟨b, s.logger⟩).1) same, same⟩
  readVariable name := Effect.acts_ask fun b : Board => b.script.variableTable.lookup name
  decompress stream room := Effect.acts_ask fun b : Board => b.decompress stream room

theorem ScriptedStorage.storage_acts (storage : ScriptedStorage) :
    (storage.storage : Storage σ).ActsOn part :=
  ⟨fun _ => Effect.acts_pure _, fun _ => Effect.acts_pure _, fun _ => Effect.acts_pure _⟩

end KernelBoot
