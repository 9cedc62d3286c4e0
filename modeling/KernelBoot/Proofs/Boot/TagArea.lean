import KernelBoot.Boot.Load
import KernelBoot.Proofs.Boot.Ranges
import KernelBoot.Proofs.Tags.Lists

/-!
The tag list in its area. It is written last; a kernel that walks the area finds the ramdisk, the
memory that the firmware reports and the command line.
-/
namespace KernelBoot
open FirmwareView Attempt

variable {f : Firmware σ} {v : FirmwareView σ} {s t : Session σ}

theorem buildCommandLine_quiet (reads : ∀ name, v.Quiet (f.readVariable name)) (h : BootHeader)
    (request : LoadRequest)
    (config : LoaderConfig) : v.Quiet (buildCommandLine f h request config) :=
  quiet_bind (reads _) fun _ => quiet_pure _

/-- The tags that `bytes` hold are those of a ramdisk, of reported memory and of a command line. -/
def Announces (bytes : Bytes) (ramdisk : AddressRange) (regions : List AddressRange)
    (line : CommandLine) : Prop :=
  ∃ start size : UInt32, start.toNat = ramdisk.start ∧ size.toNat = ramdisk.len ∧
    Tag.walk bytes =
      (bootTags start size (MemoryRecord.ofRegions (MemoryRegions.coalesce regions)) line).map .ok

theorem writeTagList_ok (lawful : f.Lawful v) (valid : v.valid s.world)
    {area ramdisk : AddressRange} {line : CommandLine} {length : Nat}
    (run : (writeTagList f area ramdisk line).Gives s length t) :
    (v.valid t.world ∧ v.grants t.world = v.grants s.world) ∧
      (∀ r, area.overlaps r = false → v.read t.world r = v.read s.world r) ∧
      length ≤ area.len ∧
      ∃ regions s₁, f.memoryMap.Gives s regions s₁ ∧
        Announces ((v.read t.world area).take length) ramdisk regions line := by
  unfold writeTagList at run
  obtain ⟨regions, s₁, mapped, warning⟩ := gives_bind.mp run
  have mappedBy := gives_mapError.mp mapped
  have same₁ := lawful.memoryMap_quiet _ _ _ valid mappedBy
  obtain ⟨_, s₂, warned, checking⟩ := gives_bind.mp warning
  have same₂ := FirmwareView.Same.of_eq same₁.valid (gives_logAll warned)
  obtain ⟨_, opening⟩ := gives_guard.mp checking
  obtain ⟨memory, s₃, opened, storing⟩ := gives_bind.mp opening
  obtain ⟨same₃, reachable, memoryEq⟩ := lawful.memory_ok same₂.valid (gives_mapError.mp opened)
  have same := (same₁.trans same₂).trans same₃
  obtain ⟨_, s₄, stored, accepting⟩ := gives_bind.mp storing
  obtain ⟨written, s₅, accepted, logging⟩ := gives_bind.mp accepting
  obtain ⟨writtenOk, rfl⟩ := gives_ofExcept.mp accepted
  obtain ⟨_, s₆, logged, done⟩ := gives_bind.mp logging
  obtain ⟨rfl, rfl⟩ := gives_pure.mp done
  have world := gives_log logged
  obtain ⟨size, within, start, size', startEq, sizeEq, walked⟩ :=
    writeTags_ok (Prod.ext writtenOk rfl)
  have memoryLength : memory.length = area.len := by rw [memoryEq, FirmwareView.read_length]
  obtain ⟨valid', grants, holds, kept⟩ := lawful.store_ok same₃.valid (size.trans memoryLength)
    (by rw [same₃.grants]; exact reachable) (gives_lift.mp stored)
  rw [← world] at valid' grants holds kept
  refine ⟨⟨valid', grants.trans same.grants⟩, ?_, ?_, regions, s₁, mappedBy, ?_⟩
  · intro r apart
    exact (kept r apart).trans (same.read r)
  · rw [← memoryLength]
    exact within
  · rw [holds]
    exact ⟨start, size', startEq, sizeEq, by simpa using walked []⟩

theorem writeTagList_cases {area ramdisk : AddressRange} {line : CommandLine} {length : Nat}
    (run : (writeTagList f area ramdisk line).Gives s length t) :
    ∃ memory records, tagListLength records line ≤ area.len ∧
      (writeTags memory ramdisk records line).1 = .ok length := by
  obtain ⟨regions, s₁, _, warning⟩ := gives_bind.mp run
  obtain ⟨_, s₂, _, checking⟩ := gives_bind.mp warning
  obtain ⟨room, opening⟩ := gives_guard.mp checking
  obtain ⟨memory, s₃, _, storing⟩ := gives_bind.mp opening
  obtain ⟨_, s₄, _, accepting⟩ := gives_bind.mp storing
  obtain ⟨written, s₅, accepted, logging⟩ := gives_bind.mp accepting
  obtain ⟨_, s₆, _, done⟩ := gives_bind.mp logging
  obtain ⟨rfl, _⟩ := gives_pure.mp done
  exact ⟨memory, _, Nat.not_lt.mp room, (gives_ofExcept.mp accepted).1⟩

/-- What ends the writing of a list: the firmware, too little room, or what a list cannot hold. -/
theorem writeTagList_avoids {bad : LoadError → Prop} {area ramdisk : AddressRange}
    {line : CommandLine} (firmware : ∀ e, ¬ bad (.firmware e))
    (room : ∀ needed available, ¬ bad (.bufferTooSmall needed available))
    (address : ∀ what a, ¬ bad (.invalidAddress what a))
    (tags : ∀ memory records e, (writeTags memory ramdisk records line).1 = .error (.tags e) →
      ¬ bad (.tags e)) :
    (writeTagList f area ramdisk line).Avoids bad := by
  refine avoids_bind (avoids_mapError (avoids_all firmware)) fun _ regions _ _ => ?_
  refine avoids_bind (avoids_lift _) fun _ _ _ _ => avoids_guard (room _ _) ?_
  refine avoids_bind (avoids_mapError (avoids_all firmware)) fun _ memory _ _ => ?_
  refine avoids_bind (avoids_lift _) fun _ _ _ _ => ?_
  refine avoids_bind (avoids_ofExcept fun e failed => ?_) fun _ _ _ _ => ?_
  · rcases writeTags_error failed with ⟨what, a, rfl⟩ | ⟨e', rfl⟩
    · exact address what a
    · exact tags memory _ e' failed
  · exact avoids_bind (avoids_lift _) fun _ _ _ _ => avoids_pure _

end KernelBoot
