import KernelBoot.Proofs.Boot.Loading
import KernelBoot.Proofs.Ramdisk.Predicted

/-!
Internal errors of a load. The checks that guard against them hold as soon as memory that is handed
out is as long as its range: a segment is not larger than its pages, a patched ramdisk is as long
as was foretold, and what the tag list can tell of a ramdisk the header can tell too. Sources may
fail or lie, and storage may do anything.
-/
namespace KernelBoot
open Attempt

def LoadError.IsBug : LoadError → Prop
  | .bug _ => True
  | _ => False

/-- Memory that is handed out is just as long as its range. -/
def Firmware.ExactMemory (f : Firmware σ) : Prop :=
  ∀ {range s bytes t}, (f.memory range).Gives s bytes t → bytes.length = range.len

variable {source : Source σ} {f : Firmware σ} {storage : Storage σ} {s t : Session σ}
  {request : LoadRequest} {config : LoaderConfig}

/-! What a load fails with: its parts, and the checks of the load itself. -/

/-- No part of a load fails with such an error. What the load's own checks say is left open. -/
structure NoPartFails (bad : LoadError → Prop) : Prop where
  ofRead : ∀ what e, ¬ bad (.ofRead what e)
  ofImage : ∀ e, ¬ bad (.ofImage e)
  ofPlan : ∀ e, ¬ bad (.ofPlan e)
  ofPatch : ∀ e, ¬ bad (.ofPatch e)

def LoadError.IsOwn : LoadError → Prop
  | .bug _ => True
  | .tags _ => True
  | _ => False

theorem isOwn_noPartFails : NoPartFails LoadError.IsOwn where
  ofRead what e := by cases e <;> exact id
  ofImage e := by cases e <;> exact id
  ofPlan e := by cases e <;> exact id
  ofPatch e := by
    cases e with
    | archive e => cases e <;> exact id
    | _ => exact id

namespace NoPartFails
variable {bad : LoadError → Prop}

theorem of_own (own : ∀ e, bad e → e.IsOwn) : NoPartFails bad where
  ofRead what e isBad := isOwn_noPartFails.ofRead what e (own _ isBad)
  ofImage e isBad := isOwn_noPartFails.ofImage e (own _ isBad)
  ofPlan e isBad := isOwn_noPartFails.ofPlan e (own _ isBad)
  ofPatch e isBad := isOwn_noPartFails.ofPatch e (own _ isBad)

theorem firmware (parts : NoPartFails bad) (e : FirmwareError) : ¬ bad (.firmware e) :=
  parts.ofPatch (.decompress e)

theorem unsupported (parts : NoPartFails bad) (what : String) : ¬ bad (.unsupported what) :=
  parts.ofPatch (.unsupported what)

theorem readHeader (parts : NoPartFails bad) : (readHeader source).Avoids bad := by
  refine avoids_bind (avoids_lift _) fun _ size _ _ => ?_
  refine avoids_bind (avoids_lift _) fun _ ⟨result, head⟩ _ _ => ?_
  refine avoids_bind (avoids_ofExcept_mapError fun e _ => parts.ofRead _ e) fun _ _ _ _ => ?_
  refine avoids_bind (avoids_ofExcept_mapError fun e _ => parts.ofImage e) fun _ header _ _ => ?_
  exact avoids_pure _

theorem detectArm64 (parts : NoPartFails bad) (layout : ImageLayout) :
    (detectArm64 source layout).Avoids bad := by
  unfold KernelBoot.detectArm64
  split
  · exact avoids_pure _
  · refine avoids_bind (avoids_lift _) fun _ ⟨result, head⟩ _ _ => ?_
    refine avoids_bind (avoids_ofExcept_mapError fun e _ => parts.ofRead _ e) fun _ _ _ _ => ?_
    exact avoids_pure _

theorem examine (parts : NoPartFails bad) : (examine source).Avoids bad := by
  refine avoids_bind parts.readHeader fun _ header _ _ => avoids_guard (parts.unsupported _) ?_
  refine avoids_bind (avoids_ofExcept_mapError fun e _ => parts.ofImage e) fun _ layout _ _ => ?_
  refine avoids_bind (avoids_lift _) fun _ size _ _ => ?_
  refine avoids_guard (parts.ofRead "boot image" (.prematureEnd 0 layout.requiredLength size)) ?_
  exact avoids_bind (parts.detectArm64 layout) fun _ _ _ _ => avoids_pure _

theorem originalRamdisk (parts : NoPartFails bad) (raw : Bytes) :
    (originalRamdisk f raw config).Avoids bad := by
  unfold KernelBoot.originalRamdisk
  split
  · exact avoids_mapError (avoids_all parts.ofPatch)
  · exact avoids_pure _

section Checks
-- the checks that compare memory with its range hold for exact memory; else their errors must be fine
variable (checks : (∀ what, ¬ bad (.bug what)) ∨ f.ExactMemory)
include checks

theorem loadSegment (parts : NoPartFails bad) {what : String} {range : AddressRange}
    {offset size : Nat} (small : size < addressSpace) (fits : size ≤ range.len) :
    (loadSegment source f what range offset size).Avoids bad := by
  unfold KernelBoot.loadSegment
  split
  · exact avoids_pure _
  · refine avoids_check (Nat.not_le.mpr small) ?_
    refine avoids_bind (avoids_mapError (avoids_all parts.firmware)) fun _ memory _ looked => ?_
    refine avoids_unless (checks.imp (fun fine => fine _) fun exact => ?_) ?_
    · rw [exact (gives_mapError.mp looked)]
      exact Nat.not_lt.mpr fits
    refine avoids_bind (avoids_lift _) fun _ ⟨result, data⟩ _ _ => ?_
    cases result with
    | ok _ => exact avoids_bind (avoids_lift _) fun _ _ _ _ => avoids_lift _
    | error e =>
      exact avoids_bind (avoids_lift _) fun _ _ _ _ => avoids_throw (parts.ofRead what e)

theorem placeImage (parts : NoPartFails bad) : (placeImage source f config).Avoids bad := by
  intro s e t failed isBad
  refine parts.examine s e t (placeImage_fails parts.ofPlan ?_ isBad failed) isBad
  intro s₀ s₁ facts examined p member what address fits
  obtain ⟨_, _, laid, _⟩ := examine_cases examined
  obtain ⟨small, enough⟩ := ImageLayout.of_sizes laid p member
  refine parts.loadSegment checks (Nat.lt_trans small (by decide)) ?_
  rw [AddressRange.sized_len fits]
  exact enough

theorem patchRamdisk (parts : NoPartFails bad) {plan : MemoryPlan} {loaded : AddressRange}
    {size : Nat} (small : size < addressSpace) (fits : size ≤ loaded.len) :
    (patchRamdisk f storage plan loaded size request config).Avoids bad := by
  unfold KernelBoot.patchRamdisk
  refine avoids_check (Nat.not_le.mpr small) ?_
  refine avoids_bind (avoids_mapError (avoids_all parts.firmware)) fun _ memory _ looked => ?_
  refine avoids_unless (checks.imp (fun fine => fine _) fun exact => ?_) ?_
  · rw [exact (gives_mapError.mp looked)]
    exact Nat.not_lt.mpr fits
  refine avoids_bind (parts.originalRamdisk _) fun _ original _ _ => ?_
  refine avoids_bind (avoids_lift _) fun _ injection _ _ => ?_
  refine avoids_bind (avoids_lift _) fun _ _ _ _ => ?_
  apply avoids_bind (avoids_ofExcept_mapError fun e _ => parts.ofPatch e)
  intro _ patched _ accepted
  -- what is written later is what was planned here, so it has the length that was planned
  have planned := patch_planned (mapError_eq_ok.mp (gives_ofExcept.mp accepted).1)
  refine avoids_bind (avoids_lift _) fun _ ⟨placed, _⟩ _ _ => ?_
  refine avoids_bind (avoids_ofExcept_mapError fun e _ => parts.ofPlan e) fun _ range _ _ => ?_
  refine avoids_bind (avoids_mapError (avoids_all parts.firmware)) fun _ target _ _ => ?_
  refine avoids_bind (avoids_lift _) fun _ _ _ _ => ?_
  apply avoids_bind (avoids_ofExcept_mapError fun e _ => parts.ofPatch e)
  intro _ length _ measured
  have written := mapError_eq_ok.mp (gives_ofExcept.mp measured).1
  have agrees := PatchedRamdisk.written_length_eq planned written
  exact avoids_check (not_not.mpr agrees) (avoids_pure _)

theorem finalRamdisk (parts : NoPartFails bad) {placed : PlacedImage}
    (small : placed.facts.layout.ramdisk.size < wordLimit)
    (fits : placed.facts.layout.ramdisk.size ≤ placed.ramdisk.len) :
    (finalRamdisk f storage placed request config).Avoids bad := by
  unfold KernelBoot.finalRamdisk
  split
  · exact parts.patchRamdisk checks (Nat.lt_trans small (by decide)) fits
  · exact avoids_pure _

end Checks
end NoPartFails

theorem isBug_noPartFails : NoPartFails LoadError.IsBug := by
  refine .of_own fun e isBug => ?_
  cases e with
  | bug what => trivial
  | _ => cases isBug

theorem placeImage_not_bug (exact : f.ExactMemory) :
    (placeImage source f config).Avoids LoadError.IsBug :=
  isBug_noPartFails.placeImage (.inr exact)

theorem placeImage_ramdisk {placed : PlacedImage}
    (run : (placeImage source f config).Gives s placed t) :
    placed.facts.layout.ramdisk.size < wordLimit ∧
      placed.facts.layout.ramdisk.size ≤ placed.ramdisk.len := by
  obtain ⟨⟨s₁, examined⟩, _, _, _, _, _, placing⟩ := placeImage_cases run
  obtain ⟨_, _, laid, _⟩ := examine_cases examined
  obtain ⟨small, enough⟩ := ImageLayout.of_sizes laid placed.facts.layout.ramdisk
    (by simp [ImageLayout.placements])
  obtain ⟨range, fits⟩ := placeSegment_range placing
  rw [range, AddressRange.sized_len fits]
  exact ⟨small, enough⟩

theorem finalRamdisk_not_bug (exact : f.ExactMemory) {placed : PlacedImage}
    (small : placed.facts.layout.ramdisk.size < wordLimit)
    (fits : placed.facts.layout.ramdisk.size ≤ placed.ramdisk.len) :
    (finalRamdisk f storage placed request config).Avoids LoadError.IsBug :=
  isBug_noPartFails.finalRamdisk (.inr exact) small fits

theorem writeTagList_not_bug {area ramdisk : AddressRange} {line : CommandLine} :
    (writeTagList f area ramdisk line).Avoids LoadError.IsBug :=
  writeTagList_avoids (fun _ => id) (fun _ _ => id) (fun _ _ => id) fun _ _ _ _ => id

theorem writeTagList_ramdisk {area ramdisk : AddressRange} {line : CommandLine} {length : Nat}
    (run : (writeTagList f area ramdisk line).Gives s length t) : ramdisk.len < wordLimit := by
  obtain ⟨memory, records, _, written⟩ := writeTagList_cases run
  obtain ⟨_, _, _, size, _, sizeEq, _⟩ := writeTags_ok (Prod.ext written rfl)
  rw [← sizeEq]
  exact size.toNat_lt

/-- A load blames itself for nothing, whatever the source, the storage and the firmware do, as
    long as memory that is handed out is as long as its range. -/
theorem load_no_internal_error (exact : f.ExactMemory) :
    (load source f storage request config).Avoids LoadError.IsBug := by
  refine avoids_bind (placeImage_not_bug exact) fun _ placed _ placing => ?_
  obtain ⟨small, fits⟩ := placeImage_ramdisk placing
  refine avoids_bind (finalRamdisk_not_bug exact small fits) fun _ ramdisk _ _ => ?_
  refine avoids_bind (avoids_lift _) fun _ line _ _ => ?_
  refine avoids_bind writeTagList_not_bug fun _ length _ listed => ?_
  -- a ramdisk too long for the header has been too long for the tag list before
  have word := writeTagList_ramdisk listed
  refine avoids_bind (avoids_ofExcept fun e failed => ?_) fun _ header _ _ => ?_
  · simp only [finalHeader, word?, if_pos word] at failed
    cases failed
  · exact avoids_bind (avoids_lift _) fun _ _ _ _ => avoids_pure _

theorem Board.firmware_exactMemory : Board.firmware.ExactMemory :=
  fun run => read_length (memory_gives.mp run).1

/-- A file that delivers its header and then fails, when the memory of the kernel is claimed. -/
theorem load_no_internal_error_failing :
    let file : ScriptedFile := ⟨bareImage, none, 1024, none⟩
    let s : Session Board := ⟨bareBoard, .new 0⟩
    let e := LoadError.read "kernel" (.storage (.failed "read error"))
    Board.firmware.ExactMemory ∧
      (∃ t, (load (.ofFile file.reader) Board.firmware oneDevice.storage quietRequest
        .default).Fails s e t) ∧ ¬ e.IsBug := by
  intro file s e
  obtain ⟨t, failed⟩ : ∃ t, (load (.ofFile file.reader) Board.firmware oneDevice.storage
      quietRequest .default).Fails s e t := exists_fails (by decide +kernel)
  exact ⟨Board.firmware_exactMemory, ⟨t, failed⟩,
    load_no_internal_error Board.firmware_exactMemory s e t failed⟩

end KernelBoot
