import KernelBoot.Proofs.Boot.Segments
import KernelBoot.Proofs.Ramdisk.Written

/-!
Patching a loaded ramdisk. Nothing on the way to the new archive touches memory. The archive fills
its place, so what was in that memory before does not show, and all that was apart from the old
place is still there.
-/
namespace KernelBoot
open FirmwareView

variable {f : Firmware σ} {storage : Storage σ} {v : FirmwareView σ} {s t : Session σ}

namespace Injection

theorem readFiles_quiet (apart : storage.Apart v) (dir : String) (names : List String) :
    v.Quiet (readFiles storage dir names) := by
  induction names with
  | nil => exact quiet_pure []
  | cons name rest ih =>
    refine quiet_bind (apart.readFile _) fun result => ?_
    cases result with
    | ok data => exact quiet_bind ih fun later => quiet_pure _
    | error error => exact quiet_bind (quiet_log _) fun _ => ih

theorem listFiles_quiet (apart : storage.Apart v) (dir : String) :
    v.Quiet (listFiles storage dir) := by
  refine quiet_bind (apart.list dir) fun result => ?_
  cases result with
  | ok names => exact readFiles_quiet apart dir names
  | error error => exact quiet_bind (quiet_log _) fun _ => quiet_pure _

theorem readNested_quiet (apart : storage.Apart v) (device : Option String) :
    v.Quiet (readNested storage device) := by
  cases device with
  | none => exact quiet_pure none
  | some device =>
    by_cases ramdisk : isRamdiskDevice device = true
    · rw [readNested, if_pos ramdisk]
      refine quiet_bind (apart.readDevice device) fun result => ?_
      cases result with
      | ok data => exact quiet_pure _
      | error error => exact quiet_bind (quiet_log _) fun _ => quiet_pure _
    · rw [readNested, if_neg ramdisk]
      exact quiet_pure none

theorem gather_quiet (apart : storage.Apart v) (searchPrefix : String) (device : Option String)
    (config : LoaderConfig) : v.Quiet (gather storage searchPrefix device config) := by
  refine quiet_bind (listFiles_quiet apart _) fun files => ?_
  refine quiet_bind (readNested_quiet apart device) fun nested => ?_
  exact quiet_bind (quiet_log _) fun _ => quiet_pure _

end Injection

theorem inflateRamdisk_quiet (inflates : ∀ stream room, v.Quiet (f.decompress stream room).run)
    (compressed : Bytes) (config : LoaderConfig) :
    v.Quiet (inflateRamdisk f compressed config).run := by
  unfold inflateRamdisk
  split
  · exact quiet_pure _
  · refine quiet_guard ?_
    refine quiet_attempt_bind (quiet_mapError _ (inflates _ _)) ?_
    rintro ⟨actual, written⟩
    refine quiet_guard ?_
    exact quiet_attempt_bind (quiet_lift (quiet_log _)) fun _ => quiet_pure _

theorem originalRamdisk_quiet (inflates : ∀ stream room, v.Quiet (f.decompress stream room).run)
    (raw : Bytes) (config : LoaderConfig) :
    v.Quiet (originalRamdisk f raw config).run := by
  unfold originalRamdisk
  split
  · exact quiet_mapError _ (inflateRamdisk_quiet inflates raw config)
  · exact quiet_pure _

/-- A ramdisk has its final place: all that is claimed and was apart from the old place is apart
    from the new one, and as it was. -/
structure Moved (v : FirmwareView σ) (w w' : σ) (plan : MemoryPlan) (loaded range : AddressRange) :
    Prop where
  valid : v.valid w'
  grants : ∃ more, v.grants w' = v.grants w ++ more ∧ Reachable (plan.claimed ++ more) range
  apart : ∀ r, Reachable plan.claimed r → loaded.overlaps r = false → range.overlaps r = false
  read : ∀ r, Reachable plan.claimed r → loaded.overlaps r = false → v.read w' r = v.read w r

/-- The bytes of a patched ramdisk, whatever the memory held that they are written to: `raw` is
    inflated if it is compressed, then the storage is asked for the files. -/
def Repacked (f : Firmware σ) (storage : Storage σ) (request : LoadRequest) (config : LoaderConfig)
    (raw : Bytes) (s : Session σ) (bytes : Bytes) : Prop :=
  ∃ original s₁ injection s₂ patched,
    (originalRamdisk f raw config).Gives s original s₁ ∧
    (Injection.gather storage request.searchPrefix request.rootDevice config).Ends s₁ injection s₂ ∧
    (patch original injection config).1 = .ok patched ∧
    ∀ dest : Bytes, dest.length = patched.length →
      patched.write dest = (.ok patched.length, bytes)

variable {plan : MemoryPlan} {w₀ : σ} {loaded range : AddressRange} {size : Nat}
  {request : LoadRequest} {config : LoaderConfig}

theorem patchRamdisk_ok (lawful : f.Lawful v) (storageApart : storage.Apart v)
    (accounts : plan.Accounts v w₀ s.world) (claimed : Reachable plan.claimed loaded)
    (bounded : loaded.len = 0 ∨ loaded.stop < addressSpace)
    (run : (patchRamdisk f storage plan loaded size request config).Gives s range t) :
    Moved v s.world t.world plan loaded range ∧
      ∃ s₁, (f.memory loaded).Gives s (v.read s.world loaded) s₁ ∧
        Repacked f storage request config ((v.read s.world loaded).take size) s₁
          (v.read t.world range) := by
  unfold patchRamdisk at run
  obtain ⟨_, opening⟩ := Attempt.gives_guard.mp run
  obtain ⟨memory, s₁, looked, checking⟩ := Attempt.gives_bind.mp opening
  have lookedAt := Attempt.gives_mapError.mp looked
  obtain ⟨same₁, _, rfl⟩ := lawful.memory_ok accounts.valid lookedAt
  obtain ⟨_, inflating⟩ := Attempt.gives_guard.mp checking
  obtain ⟨original, s₂, inflated, gathering⟩ := Attempt.gives_bind.mp inflating
  have same₂ :=
    originalRamdisk_quiet lawful.decompress_quiet _ config _ _ _ same₁.valid inflated
  obtain ⟨injection, s₃, gathered, patching⟩ := Attempt.gives_bind.mp gathering
  have gatheredBy := Attempt.gives_lift.mp gathered
  have same₃ := Injection.gather_quiet storageApart _ _ config _ _ _ same₂.valid gatheredBy
  obtain ⟨_, s₄, logged, accepting⟩ := Attempt.gives_bind.mp patching
  have same₄ := FirmwareView.Same.of_eq same₃.valid (Attempt.gives_logAll logged)
  have same := ((same₁.trans same₂).trans same₃).trans same₄
  obtain ⟨patched, s₅, accepted, placing⟩ := Attempt.gives_bind.mp accepting
  obtain ⟨patchedOk, rfl⟩ := Attempt.gives_ofExcept.mp accepted
  obtain ⟨⟨found, plan'⟩, s₆, placeRun, settling⟩ := Attempt.gives_bind.mp placing
  obtain ⟨place, s₇, settled, opening⟩ := Attempt.gives_bind.mp settling
  obtain ⟨foundOk, rfl⟩ := Attempt.gives_ofExcept.mp settled
  have placeOk := Attempt.gives_lift.mp placeRun
  rw [mapError_eq_ok.mp foundOk] at placeOk
  have placed := MemoryPlan.placeRamdisk_ok lawful same.valid claimed bounded placeOk
  obtain ⟨target, s₈, opened, writing⟩ := Attempt.gives_bind.mp opening
  obtain ⟨same₈, reachable, targetEq⟩ := lawful.memory_ok placed.valid (Attempt.gives_mapError.mp opened)
  obtain ⟨_, s₉, stored, measuring⟩ := Attempt.gives_bind.mp writing
  obtain ⟨length, s₁₀, measured, comparing⟩ := Attempt.gives_bind.mp measuring
  obtain ⟨lengthOk, rfl⟩ := Attempt.gives_ofExcept.mp measured
  obtain ⟨agrees, done⟩ := Attempt.gives_guard.mp comparing
  obtain ⟨rfl, rfl⟩ := Attempt.gives_pure.mp done
  have targetLength : target.length = patched.length := by
    rw [targetEq, FirmwareView.read_length, placed.length]
  have full : (patched.write target).1 = .ok target.length := by
    have reported : (patched.write target).1 = .ok length := mapError_eq_ok.mp lengthOk
    rw [reported, targetLength, Decidable.not_not.mp agrees]
  have fits : (patched.write target).2.length = range.len := by
    rw [PatchedRamdisk.write_length, targetLength, placed.length]
  obtain ⟨valid, grants, holds, kept⟩ := lawful.store_ok same₈.valid fits
    (by rw [same₈.grants]; exact reachable) (Attempt.gives_lift.mp stored)
  obtain ⟨more, given, covered⟩ := placed.grants
  refine ⟨⟨valid, ⟨more, ?_, covered⟩, placed.apart, ?_⟩, s₁, lookedAt, ?_⟩
  · rw [grants, same₈.grants, given, same.grants]
  · intro r inPlan apart
    have before := (accounts.same same).reachable inPlan
    rw [kept r (placed.apart r inPlan apart), same₈.read, placed.read r before, same.read]
  · refine ⟨original, s₂, injection, s₃, patched, inflated, gatheredBy, mapError_eq_ok.mp patchedOk, ?_⟩
    intro dest destLength
    rw [PatchedRamdisk.write_fills full (destLength.trans targetLength.symm), holds]
    exact Prod.ext (full.trans (congrArg Except.ok targetLength)) rfl

end KernelBoot
