import KernelBoot.Boot.Load
import KernelBoot.Proofs.Boot.Claims
import KernelBoot.Proofs.BootImage.Geometry

/-!
Putting the segments of an image into memory. What is known of an image is read off its first
bytes; a segment fills the start of its claimed range and touches nothing that was claimed before.
-/
namespace KernelBoot
open FirmwareView

variable {source : Source σ} {f : Firmware σ} {v : FirmwareView σ} {image : Bytes}
  {s t : Session σ} {w₀ : σ} {plan plan' : MemoryPlan}

theorem readHeader_cases {header : BootHeader} (run : (readHeader source).Gives s header t) :
    ∃ head parsed,
      (source.readAt 0 (min (source.size s.world) BootHeader.sizeWithExtra)).Ends s (.ok (), head) t ∧
      BootHeader.parse head = .ok parsed ∧ header = dropForeignExtra parsed := by
  unfold readHeader at run
  obtain ⟨size, s₁, asked, reading⟩ := Attempt.gives_bind.mp run
  obtain ⟨rfl, rfl⟩ := Attempt.gives_ask asked
  obtain ⟨⟨result, head⟩, s₂, readRun, checking⟩ := Attempt.gives_bind.mp reading
  obtain ⟨_, s₃, checked, parsing⟩ := Attempt.gives_bind.mp checking
  obtain ⟨resultOk, rfl⟩ := Attempt.gives_ofExcept.mp checked
  obtain ⟨parsed, s₄, parseRun, done⟩ := Attempt.gives_bind.mp parsing
  obtain ⟨parseOk, rfl⟩ := Attempt.gives_ofExcept.mp parseRun
  obtain ⟨rfl, rfl⟩ := Attempt.gives_pure.mp done
  have delivered := Attempt.gives_lift.mp readRun
  have noError : result = .ok () := mapError_eq_ok.mp resultOk
  rw [noError] at delivered
  exact ⟨head, parsed, delivered, mapError_eq_ok.mp parseOk, rfl⟩

theorem readHeader_gives {head : Bytes} {parsed : BootHeader}
    (read : (source.readAt 0 (min (source.size s.world) BootHeader.sizeWithExtra)).Ends s
      (.ok (), head) t) (ok : BootHeader.parse head = .ok parsed) :
    (readHeader source).Gives s (dropForeignExtra parsed) t := by
  unfold readHeader
  apply Attempt.gives_bind.mpr
  refine ⟨source.size s.world, s, rfl, Attempt.gives_bind.mpr ⟨_, t, Attempt.gives_lift.mpr read, ?_⟩⟩
  apply Attempt.gives_bind.mpr
  refine ⟨(), t, rfl, Attempt.gives_bind.mpr ⟨parsed, t, ?_, rfl⟩⟩
  exact Attempt.gives_ofExcept.mpr ⟨mapError_eq_ok.mpr ok, rfl⟩

theorem readHeader_ok (delivers : source.Delivers v image) (valid : v.valid s.world)
    {header : BootHeader} (run : (readHeader source).Gives s header t) :
    v.Same s.world t.world ∧
      ∃ parsed, BootHeader.parse (image.take BootHeader.sizeWithExtra) = .ok parsed ∧
        header = dropForeignExtra parsed := by
  obtain ⟨head, parsed, delivered, parseOk, dropped⟩ := readHeader_cases run
  obtain ⟨same, headEq, _⟩ := delivers.readAt_ok valid delivered
  have whole : image.take BootHeader.sizeWithExtra = head := by
    rw [headEq, delivers.size valid, Bytes.slice, List.drop_zero, Nat.min_comm,
      ← List.take_eq_take_min]
  exact ⟨same, parsed, by rw [whole]; exact parseOk, dropped⟩

theorem detectArm64_quiet (reads : ∀ offset len, v.Quiet (source.readAt offset len))
    (layout : ImageLayout) : v.Quiet (detectArm64 source layout).run := by
  unfold detectArm64
  split
  · exact quiet_pure _
  · refine quiet_attempt_bind (quiet_lift (reads _ _)) fun ⟨result, head⟩ => ?_
    refine quiet_attempt_bind (quiet_pure _) fun _ => quiet_pure _

theorem readHeader_quiet (reads : ∀ offset len, v.Quiet (source.readAt offset len)) :
    v.Quiet (readHeader source).run := by
  refine quiet_attempt_bind (quiet_lift (quiet_ask _)) fun available => ?_
  refine quiet_attempt_bind (quiet_lift (reads _ _)) fun ⟨result, head⟩ => ?_
  refine quiet_attempt_bind (quiet_pure _) fun _ => ?_
  exact quiet_attempt_bind (quiet_pure _) fun header => quiet_pure _

theorem examine_quiet (reads : ∀ offset len, v.Quiet (source.readAt offset len)) :
    v.Quiet (examine source).run := by
  refine quiet_attempt_bind (readHeader_quiet reads) fun header => quiet_guard ?_
  refine quiet_attempt_bind (quiet_pure _) fun layout => ?_
  refine quiet_attempt_bind (quiet_lift (quiet_ask _)) fun available => quiet_guard ?_
  exact quiet_attempt_bind (detectArm64_quiet reads layout) fun arm64 => quiet_pure _

theorem dropForeignExtra_layout (h : BootHeader) :
    ImageLayout.of (dropForeignExtra h) = ImageLayout.of h := by
  unfold dropForeignExtra
  split <;> rfl

/-- An examined image has a layout, and the source is long enough for it. -/
theorem examine_cases {facts : ImageFacts} (run : (examine source).Gives s facts t) :
    ∃ s₁, (readHeader source).Gives s facts.header s₁ ∧
      ImageLayout.of facts.header = .ok facts.layout ∧
      facts.layout.requiredLength ≤ source.size s₁.world ∧
      (detectArm64 source facts.layout).Gives s₁ facts.arm64 t := by
  unfold examine at run
  obtain ⟨header, s₁, readRun, checking⟩ := Attempt.gives_bind.mp run
  obtain ⟨_, placing⟩ := Attempt.gives_guard.mp checking
  obtain ⟨layout, s₂, laid, measuring⟩ := Attempt.gives_bind.mp placing
  obtain ⟨layoutOk, rfl⟩ := Attempt.gives_ofExcept.mp laid
  obtain ⟨size, s₃, asked, comparing⟩ := Attempt.gives_bind.mp measuring
  obtain ⟨rfl, rfl⟩ := Attempt.gives_ask asked
  obtain ⟨long, detecting⟩ := Attempt.gives_guard.mp comparing
  obtain ⟨arm64, s₄, detected, done⟩ := Attempt.gives_bind.mp detecting
  obtain ⟨rfl, rfl⟩ := Attempt.gives_pure.mp done
  exact ⟨_, readRun, mapError_eq_ok.mp layoutOk, Nat.not_lt.mp long, detected⟩

theorem examine_gives {s₁ : Session σ} {header : BootHeader} {layout : ImageLayout} {arm64 : Bool}
    (read : (readHeader source).Gives s header s₁) (plain : header.deviceTreeSize = 0)
    (laid : ImageLayout.of header = .ok layout)
    (long : layout.requiredLength ≤ source.size s₁.world)
    (detected : (detectArm64 source layout).Gives s₁ arm64 t) :
    (examine source).Gives s ⟨header, layout, arm64⟩ t := by
  unfold examine
  apply Attempt.gives_bind.mpr
  refine ⟨header, s₁, read, Attempt.gives_guard.mpr ⟨fun other => other plain, ?_⟩⟩
  apply Attempt.gives_bind.mpr
  refine ⟨layout, s₁, Attempt.gives_ofExcept.mpr ⟨mapError_eq_ok.mpr laid, rfl⟩, ?_⟩
  apply Attempt.gives_bind.mpr
  refine ⟨source.size s₁.world, s₁, rfl, Attempt.gives_guard.mpr ⟨Nat.not_lt.mpr long, ?_⟩⟩
  exact Attempt.gives_bind.mpr ⟨arm64, t, detected, rfl⟩

theorem examine_ok (delivers : source.Delivers v image) (valid : v.valid s.world)
    {facts : ImageFacts} (run : (examine source).Gives s facts t) :
    v.Same s.world t.world ∧
      ∃ parsed, BootHeader.parse (image.take BootHeader.sizeWithExtra) = .ok parsed ∧
        ImageLayout.of parsed = .ok facts.layout ∧ facts.layout.requiredLength ≤ image.length := by
  obtain ⟨s₁, readRun, laid, long, detected⟩ := examine_cases run
  obtain ⟨first, parsed, parseOk, same⟩ := readHeader_ok delivers valid readRun
  have second := detectArm64_quiet delivers.quiet facts.layout _ _ _ first.valid detected
  rw [delivers.size first.valid] at long
  rw [same, dropForeignExtra_layout] at laid
  exact ⟨first.trans second, parsed, parseOk, laid, long⟩

theorem loadSegment_ok (lawful : f.Lawful v) (delivers : source.Delivers v image)
    (valid : v.valid s.world) {what : String} {range : AddressRange} {offset size : Nat} {u : Unit}
    (within : size ≤ range.len)
    (run : (loadSegment source f what range offset size).Gives s u t) :
    v.valid t.world ∧ v.grants t.world = v.grants s.world ∧
      (v.read t.world range).take size = image.slice offset size ∧
      ∀ r, range.overlaps r = false → v.read t.world r = v.read s.world r := by
  unfold loadSegment at run
  split at run
  · rename_i empty
    obtain ⟨_, rfl⟩ := Attempt.gives_pure.mp run
    have nothing : size = 0 := by
      rw [AddressRange.isEmpty_iff] at empty
      simp only [AddressRange.len] at within
      omega
    subst nothing
    exact ⟨valid, rfl, by rw [List.take_zero, Bytes.slice, List.take_zero], fun _ _ => rfl⟩
  · obtain ⟨_, opening⟩ := Attempt.gives_guard.mp run
    obtain ⟨memory, s₁, looked, checking⟩ := Attempt.gives_bind.mp opening
    obtain ⟨same, reachable, memoryEq⟩ :=
      lawful.memory_ok valid (Attempt.gives_mapError.mp looked)
    have memoryLength : memory.length = range.len := by rw [memoryEq, FirmwareView.read_length]
    obtain ⟨_, reading⟩ := Attempt.gives_guard.mp checking
    obtain ⟨⟨result, data⟩, s₂, readRun, storing⟩ := Attempt.gives_bind.mp reading
    cases result with
    | error error =>
      obtain ⟨_, s₃, _, failing⟩ := Attempt.gives_bind.mp storing
      exact absurd failing Attempt.gives_throw
    | ok _ =>
      obtain ⟨same₂, dataEq, dataLength⟩ :=
        delivers.readAt_ok same.valid (Attempt.gives_lift.mp readRun)
      obtain ⟨_, s₃, stored, logging⟩ := Attempt.gives_bind.mp storing
      have world := Attempt.gives_log logging
      let bytes := data ++ Bytes.zeros (memory.length - size)
      have fits : bytes.length = range.len := by
        simp only [bytes, List.length_append, Bytes.zeros_length]
        omega
      have before := same.trans same₂
      obtain ⟨valid', grants, holds, kept⟩ := lawful.store_ok same₂.valid fits
        (by rw [before.grants]; exact reachable) (Attempt.gives_lift.mp stored)
      rw [← world] at valid' grants holds kept
      refine ⟨valid', grants.trans before.grants, ?_, ?_⟩
      · rw [holds, List.take_left' dataLength, dataEq]
      · intro r apart
        exact (kept r apart).trans (before.read r)

theorem placeSegment_ok (lawful : f.Lawful v) (delivers : source.Delivers v image)
    (accounts : plan.Accounts v w₀ s.world) {what : String} {address : Nat} {placement : Placement}
    (sound : placement.size ≤ placement.extent) {range : AddressRange}
    (run : (placeSegment source f plan what address placement).Gives s (range, plan') t) :
    range = .sized address placement.extent ∧
      (placement.extent = 0 ∨ address + placement.extent < addressSpace) ∧
      MemoryPlan.Claimed v w₀ s.world t.world plan plan' range ∧
      (v.read t.world range).take placement.size =
        image.slice placement.offset placement.size := by
  unfold placeSegment at run
  obtain ⟨⟨result, after⟩, s₁, claiming, checking⟩ := Attempt.gives_bind.mp run
  obtain ⟨granted, s₂, checked, loading⟩ := Attempt.gives_bind.mp checking
  obtain ⟨resultOk, rfl⟩ := Attempt.gives_ofExcept.mp checked
  obtain ⟨_, s₃, loaded, done⟩ := Attempt.gives_bind.mp loading
  obtain ⟨same, rfl⟩ := Attempt.gives_pure.mp done
  cases same
  have claimOk := Attempt.gives_lift.mp claiming
  rw [mapError_eq_ok.mp resultOk] at claimOk
  obtain ⟨rfl, fits, claimed⟩ := MemoryPlan.claim_ok lawful accounts claimOk
  have within : placement.size ≤ (AddressRange.sized address placement.extent).len := by
    rw [AddressRange.sized_len fits]
    exact sound
  obtain ⟨valid, grants, holds, kept⟩ :=
    loadSegment_ok lawful delivers claimed.accounts.valid within loaded
  refine ⟨rfl, fits, ?_, holds⟩
  exact {
    accounts := ⟨valid, grants.trans claimed.accounts.grants⟩
    addresses := claimed.addresses
    kept := claimed.kept
    reachable := claimed.reachable
    apart := claimed.apart
    read := fun r reachable => (kept r (claimed.apart r reachable)).trans (claimed.read r reachable) }

end KernelBoot
