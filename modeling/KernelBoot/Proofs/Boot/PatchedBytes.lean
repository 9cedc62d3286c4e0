import KernelBoot.Proofs.Boot.Alike
import KernelBoot.Proofs.Boot.Loading

/-!
The patched ramdisk of a load. Its bytes come from what the ramdisk of the image is inflated to and
from what the storage gives. The storage has a part of the world to itself, so where the segments
lie, and how long they are, does not show in what it gives.
-/
namespace KernelBoot
open FirmwareView

/-- The firmware leaves one part of the world alone, whatever the loader asks of it. -/
structure Firmware.Keeps (f : Firmware σ) (part : σ → τ) : Prop where
  allocateAt : ∀ range, (f.allocateAt range).run.Keeps part
  allocateAbove : ∀ minimum size, (f.allocateAbove minimum size).run.Keeps part
  memory : ∀ range, (f.memory range).run.Keeps part
  store : ∀ range bytes, (f.store range bytes).Keeps part
  memoryMap : f.memoryMap.run.Keeps part
  readVariable : ∀ name, (f.readVariable name).Keeps part
  decompress : ∀ stream room, (f.decompress stream room).run.Keeps part

/-- Firmware and storage in one world, of which the storage has a part to itself. -/
structure Firmware.Beside (f : Firmware σ) (storage : Storage σ) (v : FirmwareView σ) (part : σ → τ) :
    Prop where
  lawful : f.Lawful v
  keeps : f.Keeps part
  apart : storage.Apart v
  acts : storage.ActsOn part

def FirmwareView.pinned (v : FirmwareView σ) (part : σ → τ) (p : τ) : FirmwareView σ :=
  { v with valid := fun w => v.valid w ∧ part w = p }

def HasRamdisk (image raw : Bytes) : Prop :=
  ∃ h l, BootHeader.parse (image.take BootHeader.sizeWithExtra) = .ok h ∧ ImageLayout.of h = .ok l ∧
    image.slice l.ramdisk.offset l.ramdisk.size = raw

instance (image raw : Bytes) : Decidable (HasRamdisk image raw) :=
  decidable_of_iff ((BootHeader.parse (image.take BootHeader.sizeWithExtra)).toOption.any fun h =>
      (ImageLayout.of h).toOption.any fun l => image.slice l.ramdisk.offset l.ramdisk.size == raw) <| by
    rw [HasRamdisk]
    cases BootHeader.parse (image.take BootHeader.sizeWithExtra) with
    | error e => simp [Except.toOption]
    | ok h =>
      cases laid : ImageLayout.of h <;> simp [Except.toOption, laid]

/-- The source of an image with this ramdisk. It leaves memory and the part of the storage alone. -/
structure Source.Bears (source : Source σ) (v : FirmwareView σ) (part : σ → τ) (raw : Bytes) :
    Prop where
  image : ∃ image, source.Delivers v image ∧ HasRamdisk image raw
  keeps : ∀ offset len, (source.readAt offset len).Keeps part

/-- The bytes of the archive that adding the injection gives, whatever they are written over. -/
def Patches (config : LoaderConfig) (original : Bytes) (injection : Injection) (bytes : Bytes) :
    Prop :=
  ∃ patched, (patch original injection config).1 = .ok patched ∧
    ∀ dest : Bytes, dest.length = patched.length → patched.write dest = (.ok patched.length, bytes)

def ramdiskSizes (tags : Bytes) : List UInt32 :=
  (Tag.walk tags).filterMap fun item =>
    match item with
    | .ok (.initrd _ size) => some size
    | _ => none

variable {f : Firmware σ} {v : FirmwareView σ} {part : σ → τ} {storage : Storage σ}
  {source : Source σ} {image raw : Bytes} {s t : Session σ} {request : LoadRequest}
  {config : LoaderConfig}

theorem Effect.Keeps.pinned {e : Effect σ α} (keeps : e.Keeps part) (quiet : v.Quiet e) (p : τ) :
    (v.pinned part p).Quiet e := by
  rintro s a t ⟨valid, here⟩ run
  have same := quiet s a t valid run
  exact ⟨⟨same.valid, (keeps s a t run).trans here⟩, same.ram, same.grants⟩

theorem Firmware.Lawful.pinned (lawful : f.Lawful v) (keeps : f.Keeps part) (p : τ) :
    f.Lawful (v.pinned part p) where
  allocateAt {_ _ _ _} valid run := by
    obtain ⟨same, fresh, grown⟩ := lawful.allocateAt valid.1 run
    exact ⟨same, fresh, ⟨grown.valid, (keeps.allocateAt _ _ _ _ run).trans valid.2⟩, grown.grants,
      grown.kept⟩
  allocateAbove {_ _ _ _ _} valid run := by
    obtain ⟨enough, inSpace, grown⟩ := lawful.allocateAbove valid.1 run
    exact ⟨enough, inSpace, ⟨grown.valid, (keeps.allocateAbove _ _ _ _ _ run).trans valid.2⟩,
      grown.grants, grown.kept⟩
  memory_quiet range := (keeps.memory range).pinned (lawful.memory_quiet range) p
  memory_reachable valid reachable := lawful.memory_reachable valid.1 reachable
  memory_foreign valid run := lawful.memory_foreign valid.1 run
  store {_ _ _ _ _} valid fits reachable run := by
    obtain ⟨valid', ram, grants⟩ := lawful.store valid.1 fits reachable run
    exact ⟨⟨valid', (keeps.store _ _ _ _ _ run).trans valid.2⟩, ram, grants⟩
  memoryMap_quiet := keeps.memoryMap.pinned lawful.memoryMap_quiet p
  readVariable_quiet name := (keeps.readVariable name).pinned (lawful.readVariable_quiet name) p
  decompress_quiet stream room :=
    (keeps.decompress stream room).pinned (lawful.decompress_quiet stream room) p

theorem Source.Delivers.pinned (delivers : source.Delivers v image)
    (keeps : ∀ offset len, (source.readAt offset len).Keeps part) (p : τ) :
    source.Delivers (v.pinned part p) image where
  size valid := delivers.size valid.1
  quiet offset len := (keeps offset len).pinned (delivers.quiet offset len) p
  inside valid within := delivers.inside valid.1 within
  outside valid run := delivers.outside valid.1 run

theorem Patches.unique {original bytes bytes' : Bytes} {injection : Injection}
    (patches : Patches config original injection bytes)
    (patches' : Patches config original injection bytes') : bytes = bytes' := by
  obtain ⟨patched, ok, written⟩ := patches
  obtain ⟨patched', ok', written'⟩ := patches'
  cases ok.symm.trans ok'
  have dest := Bytes.zeros_length patched.length
  have both := (written _ dest).symm.trans (written' _ dest)
  exact (Prod.mk.inj both).2

theorem Announces.ramdiskSizes {bytes : Bytes} {ramdisk : AddressRange}
    {regions : List AddressRange} {line : CommandLine}
    (announces : Announces bytes ramdisk regions line) :
    ∃ size : UInt32, size.toNat = ramdisk.len ∧ ramdiskSizes bytes = [size] := by
  obtain ⟨start, size, _, sizeEq, walked⟩ := announces
  refine ⟨size, sizeEq, ?_⟩
  rw [KernelBoot.ramdiskSizes, walked]
  simp [bootTags]

/-- Where the bytes of a patched ramdisk come from: the ramdisk of the image, inflated if that is
    needed, and an injection that is gathered while the storage is as it was at the start. -/
theorem load_patches (beside : f.Beside storage v part) (bears : source.Bears v part raw)
    (valid : v.valid s.world) (multiboot : request.multiboot = true) {p : PreparedBoot}
    (run : (load source f storage request config).Gives s p t) :
    ∃ original s₁ injection s₂ s₃, v.valid s₁.world ∧
      (originalRamdisk f raw config).Gives s₁ original s₂ ∧ part s₂.world = part s.world ∧
      (Injection.gather storage request.searchPrefix request.rootDevice config).Ends s₂ injection s₃ ∧
      Patches config original injection (v.read t.world p.ramdisk) := by
  obtain ⟨image, delivers, h, l, parsed, laid, rfl⟩ := bears.image
  obtain ⟨header, placed, s₁, _, _, parsed', laid', _, steps, contents⟩ :=
    (load_prepares beside.lawful beside.apart delivers valid run).contents
  cases parsed.symm.trans parsed'
  cases laid.symm.trans laid'
  obtain ⟨memory, s₂, looked, original, s₃, injection, s₄, patched, inflated, gathered, patchedOk,
    written⟩ := contents.patched multiboot
  -- up to here only firmware and source have acted, so the part of the storage is as it was
  have pinned := beside.lawful.pinned beside.keeps (part s.world)
  have sound := placeImage_ok pinned (delivers.pinned bears.keeps _) ⟨valid, rfl⟩ steps.placing
  have same := pinned.memory_quiet _ _ _ _ sound.holds.accounts.valid looked
  have same' := originalRamdisk_quiet pinned.decompress_quiet _ _ _ _ _ same.valid inflated
  exact ⟨original, s₂, injection, s₃, s₄, same.valid.1, inflated, same'.valid.2, gathered, patched,
    patchedOk, written⟩

theorem load_ramdiskSizes (beside : f.Beside storage v part) (bears : source.Bears v part raw)
    (valid : v.valid s.world) {p : PreparedBoot}
    (run : (load source f storage request config).Gives s p t) :
    ∃ size : UInt32, size.toNat = (v.read t.world p.ramdisk).length ∧
      ramdiskSizes (v.read t.world p.tags) = [size] := by
  obtain ⟨image, delivers, _⟩ := bears.image
  obtain ⟨_, _, _, _, _, _, _, _, _, contents⟩ :=
    (load_prepares beside.lawful beside.apart delivers valid run).contents
  obtain ⟨regions, _, _, announces⟩ := contents.tags
  rw [FirmwareView.read_length]
  exact announces.ramdiskSizes

end KernelBoot
