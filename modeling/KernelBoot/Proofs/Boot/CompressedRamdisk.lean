import KernelBoot.Proofs.Boot.PatchedBytes

/-!
A compressed ramdisk. A firmware that inflates it gives the load the bytes that were compressed, so
the patched ramdisk is the same as if the image had carried them as they are. Its last bytes tell
the size; a platform that writes another count is not believed, and a size that is too large is
refused before it is asked.
-/
namespace KernelBoot
open Attempt

/-- A gzip stream that tells the length of these bytes at its end. They are no such stream. -/
structure Packs (stream bytes : Bytes) : Prop where
  compressed : Gzip.isGzip stream = true
  size : stream.drop (stream.length - 4) = Bytes.le 4 bytes.length
  plain : Gzip.isGzip bytes = false
  short : bytes.length < wordLimit

instance (stream bytes : Bytes) : Decidable (Packs stream bytes) :=
  decidable_of_iff (Gzip.isGzip stream = true ∧
      stream.drop (stream.length - 4) = Bytes.le 4 bytes.length ∧
      Gzip.isGzip bytes = false ∧ bytes.length < wordLimit)
    ⟨fun ⟨compressed, size, plain, short⟩ => ⟨compressed, size, plain, short⟩,
      fun ⟨compressed, size, plain, short⟩ => ⟨compressed, size, plain, short⟩⟩

variable {stream bytes written : Bytes} {f : Firmware σ} {v : FirmwareView σ} {s t : Session σ}
  {config : LoaderConfig} {count : Nat}

namespace Packs
variable (packs : Packs stream bytes)
include packs

theorem uncompressedSize :
    Gzip.uncompressedSize? stream = some (UInt32.ofNat bytes.length) := by
  have long : 4 ≤ stream.length := by
    have four := congrArg List.length packs.size
    rw [List.length_drop, Bytes.le_length] at four
    omega
  have last : stream.slice (stream.length - 4) 4 = Bytes.le 4 bytes.length := by
    rw [Bytes.slice, packs.size]
    exact List.take_of_length_le (Nat.le_of_eq (Bytes.le_length 4 _))
  have whole : (stream.slice (stream.length - 4) 4).length = 4 := by
    rw [last, Bytes.le_length]
  rw [Gzip.uncompressedSize?, if_neg (Nat.not_lt.mpr long), Bytes.word32?, if_pos whole,
    Bytes.word32, last, Bytes.ofLe_le 4 _ packs.short]

theorem size_toNat : (UInt32.ofNat bytes.length).toNat = bytes.length :=
  UInt32.toNat_ofNat_of_lt packs.short

theorem too_large (large : config.maxRamdiskSize < bytes.length) (s : Session σ) :
    (inflateRamdisk f stream config).Fails s
      (.bufferTooSmall bytes.length config.maxRamdiskSize) s := by
  simp only [inflateRamdisk, packs.uncompressedSize, packs.size_toNat]
  exact fails_guard.mpr (.inl ⟨large, rfl, rfl⟩)

theorem miscounted (room : bytes.length ≤ config.maxRamdiskSize) (differs : count ≠ bytes.length)
    (inflated : (f.decompress stream bytes.length).Gives s (count, written) t) :
    (inflateRamdisk f stream config).Fails s (.prematureEnd bytes.length count) t := by
  simp only [inflateRamdisk, packs.uncompressedSize, packs.size_toNat]
  refine fails_guard.mpr (.inr ⟨Nat.not_lt.mpr room, fails_bind.mpr (.inr ?_)⟩)
  exact ⟨(count, written), t, gives_mapError.mpr inflated, fails_guard.mpr (.inl ⟨differs, rfl, rfl⟩)⟩

theorem inflates (room : bytes.length ≤ config.maxRamdiskSize)
    (inflated : (f.decompress stream bytes.length).Gives s (bytes.length, bytes) t) :
    ∃ t', (inflateRamdisk f stream config).Gives s bytes t' ∧ t'.world = t.world := by
  have filled : (Bytes.zeros bytes.length).overwrite 0 bytes = bytes := by
    have rest : (Bytes.zeros bytes.length).drop bytes.length = [] :=
      List.drop_of_length_le (Nat.le_of_eq (Bytes.zeros_length _))
    rw [Bytes.overwrite_start, rest, List.append_nil]
  simp only [inflateRamdisk, packs.uncompressedSize, packs.size_toNat]
  have counted : ¬ bytes.length ≠ bytes.length := fun differs => differs rfl
  exact ⟨_, gives_guard.mpr ⟨Nat.not_lt.mpr room, gives_bind.mpr ⟨_, t, gives_mapError.mpr inflated,
    gives_guard.mpr ⟨counted, gives_bind.mpr ⟨(), _, rfl, gives_pure.mpr ⟨filled.symm, rfl⟩⟩⟩⟩⟩,
    rfl⟩

theorem originalRamdisk_eq {original : Bytes}
    (inflated : ∃ u, (f.decompress stream bytes.length).Gives s (bytes.length, bytes) u)
    (run : (originalRamdisk f stream config).Gives s original t) : original = bytes := by
  rw [originalRamdisk, if_pos packs.compressed] at run
  have inflating := gives_mapError.mp run
  rcases Nat.lt_or_ge config.maxRamdiskSize bytes.length with large | room
  · cases inflating.symm.trans (packs.too_large large s)
  · obtain ⟨u, decompressed⟩ := inflated
    obtain ⟨t', gives, _⟩ := packs.inflates room decompressed
    cases inflating.symm.trans gives
    rfl

theorem originalRamdisk_plain {original : Bytes}
    (run : (originalRamdisk f bytes config).Gives s original t) : original = bytes := by
  have plain : ¬ Gzip.isGzip bytes = true := by
    rw [packs.plain]
    exact Bool.false_ne_true
  rw [originalRamdisk, if_neg plain] at run
  exact (gives_pure.mp run).1

end Packs

/-- A compressed ramdisk boots like a plain one. Where the firmware inflates the stream to these
    bytes, they are what is patched, whatever else the images with the one and the other hold.
    Another count ends the load early; a size that is too large does so in the session as it was,
    since no firmware is asked then. -/
theorem compressed_boots_alike (packs : Packs stream bytes) :
    (∀ {σ} {f : Firmware σ} {config : LoaderConfig} {s : Session σ},
      (bytes.length ≤ config.maxRamdiskSize → ∀ t,
        (f.decompress stream bytes.length).Gives s (bytes.length, bytes) t →
          ∃ t', (inflateRamdisk f stream config).Gives s bytes t' ∧ t'.world = t.world) ∧
      (bytes.length ≤ config.maxRamdiskSize → ∀ count written t,
        (f.decompress stream bytes.length).Gives s (count, written) t → count ≠ bytes.length →
          (inflateRamdisk f stream config).Fails s (.prematureEnd bytes.length count) t) ∧
      (config.maxRamdiskSize < bytes.length → (inflateRamdisk f stream config).Fails s
        (.bufferTooSmall bytes.length config.maxRamdiskSize) s)) ∧
    ∀ {σ τ} {f : Firmware σ} {v : FirmwareView σ} {part : σ → τ} {storage : Storage σ}
      {source source' : Source σ} {request : LoadRequest} {config : LoaderConfig}
      {s s' t t' : Session σ} {p p' : PreparedBoot},
      f.Beside storage v part → source.Bears v part stream → source'.Bears v part bytes →
      (∀ u, v.valid u.world →
        ∃ u', (f.decompress stream bytes.length).Gives u (bytes.length, bytes) u') →
      v.valid s.world → v.valid s'.world → part s.world = part s'.world →
      request.multiboot = true → (load source f storage request config).Gives s p t →
      (load source' f storage request config).Gives s' p' t' →
        (∃ injection, Patches config bytes injection (v.read t.world p.ramdisk)) ∧
        v.read t.world p.ramdisk = v.read t'.world p'.ramdisk ∧
        ∃ size, ramdiskSizes (v.read t.world p.tags) = [size] ∧
          ramdiskSizes (v.read t'.world p'.tags) = [size] := by
  refine ⟨fun {σ f config s} => ⟨fun room t => packs.inflates room, ?_, ?_⟩, ?_⟩
  · intro room count written t inflated differs
    exact packs.miscounted room differs inflated
  · intro large
    exact packs.too_large large s
  · intro σ τ f v part storage source source' request config s s' t t' p p' beside bears bears'
      inflates valid valid' same multiboot run run'
    obtain ⟨original, s₁, injection, s₂, s₃, valid₁, found, kept, gathered, patches⟩ :=
      load_patches beside bears valid multiboot run
    obtain ⟨original', s₁', injection', s₂', s₃', _, found', kept', gathered', patches'⟩ :=
      load_patches beside bears' valid' multiboot run'
    cases packs.originalRamdisk_eq (inflates s₁ valid₁) found
    cases packs.originalRamdisk_plain found'
    have between : part s₂.world = part s₂'.world := by
      rw [kept, kept', same]
    obtain ⟨rfl, _⟩ :=
      Injection.gather_acts beside.acts _ _ _ _ _ _ _ _ between gathered gathered'
    have equal := patches.unique patches'
    obtain ⟨size, length, sizes⟩ := load_ramdiskSizes beside bears valid run
    obtain ⟨size', length', sizes'⟩ := load_ramdiskSizes beside bears' valid' run'
    have sameSize : size' = size := by
      apply UInt32.toNat_inj.mp
      rw [length, length', equal]
    rw [sameSize] at sizes'
    exact ⟨⟨injection, patches⟩, equal, size, sizes, sizes'⟩

/-! A board keeps to its script, so what it inflates to stays what it is. -/

theorem Board.firmware_keeps_script : Board.firmware.Keeps Board.script where
  allocateAt range := by
    intro s a t run
    obtain ⟨_, rfl⟩ := (Attempt.ends_step fun b : Board => b.allocateAt range).mp run
    simp only [Board.allocateAt]
    split
    · rfl
    · split <;> rfl
  allocateAbove minimum size := by
    intro s a t run
    obtain ⟨_, rfl⟩ := (Attempt.ends_step fun b : Board => b.allocateAbove minimum size).mp run
    simp only [Board.allocateAbove]
    split
    · rfl
    · split
      · rfl
      · split <;> rfl
  memory range := by
    intro s a t run
    cases run
    rfl
  store range bytes := by
    intro s a t run
    cases run
    rfl
  memoryMap := by
    intro s a t run
    cases run
    rfl
  readVariable name := by
    intro s a t run
    cases run
    rfl
  decompress stream room := by
    intro s a t run
    cases run
    rfl

theorem Board.decompress_gives {u : Session Board} {stream bytes : Bytes}
    (framed : (Gzip.deflatePayload stream).isSome = true) (script : u.world.script.inflated = some bytes) :
    (Board.firmware.decompress stream bytes.length).Gives u (bytes.length, bytes) u := by
  obtain ⟨payload, found⟩ := Option.isSome_iff_exists.mp framed
  refine (Attempt.gives_answer fun b : Board => b.decompress stream bytes.length).mpr ⟨?_, rfl⟩
  simp only [Board.decompress, found, script, Nat.lt_irrefl, gt_iff_lt, if_false]

def smallRamdisk : Bytes :=
  Archive.records [.file (Bytes.ofString "init.rc") [0x0A]] ++ Archive.trailerBytes

/-- The same ramdisk in a stored block of a gzip stream. -/
def storedRamdisk : Bytes :=
  let length := smallRamdisk.length
  [0x1F, 0x8B, 8, 0, 0, 0, 0, 0, 0, 3] ++
    (1 :: Bytes.le 2 length ++ Bytes.le 2 (0xFFFF - length) ++ smallRamdisk) ++
    Bytes.le 4 0xeaf82c73 ++ Bytes.le 4 length

/-- The bare image with a ramdisk on the page behind its kernel, and its size in the header. -/
def imageWith (ramdisk : Bytes) : Bytes :=
  Bytes.overwrite bareImage 16 (Bytes.le 4 ramdisk.length) ++ Bytes.zeros 1020 ++ ramdisk

def inflatingBoard : Board := .new { bareBoard.script with inflated := some smallRamdisk }

theorem compressed_boots_alike_stored :
    let s : Session Board := ⟨inflatingBoard, .new 0⟩
    let loaded := fun ramdisk : Bytes => load (.ofMemory (imageWith ramdisk)) Board.firmware
      oneDevice.storage quietRequest smallTags
    Packs storedRamdisk smallRamdisk ∧
      (∃ t, (inflateRamdisk Board.firmware storedRamdisk smallTags).Gives s smallRamdisk t) ∧
      ∃ p p' t t', (loaded storedRamdisk).Gives s p t ∧ (loaded smallRamdisk).Gives s p' t' ∧
        Board.view.read t.world p.ramdisk = Board.view.read t'.world p'.ramdisk ∧
        ∃ size, ramdiskSizes (Board.view.read t.world p.tags) = [size] ∧
          ramdiskSizes (Board.view.read t'.world p'.tags) = [size] := by
  intro s loaded
  have packs : Packs storedRamdisk smallRamdisk := by decide +kernel
  obtain ⟨inflation, loads⟩ := compressed_boots_alike packs
  let v := Board.view.pinned Board.script inflatingBoard.script
  have keeps := Board.firmware_keeps_script
  have beside : Board.firmware.Beside oneDevice.storage v Board.script :=
    ⟨Board.firmware_lawful.pinned keeps _, keeps, oneDevice.storage_apart v, oneDevice.storage_acts⟩
  have bears : ∀ raw, (imageWith raw).length < addressSpace → HasRamdisk (imageWith raw) raw →
      (Source.ofMemory (imageWith raw)).Bears v Board.script raw := fun raw short has =>
    ⟨⟨imageWith raw, Source.ofMemory_delivers short v, has⟩, Source.ofMemory_keeps _ _⟩
  have valid : v.valid s.world := ⟨⟨rfl, by decide, List.forall_mem_nil _⟩, rfl⟩
  have inflates : ∀ u, v.valid u.world → (Board.firmware.decompress storedRamdisk
      smallRamdisk.length).Gives u (smallRamdisk.length, smallRamdisk) u := by
    rintro u ⟨_, script⟩
    exact Board.decompress_gives (by decide +kernel) (by rw [script]; rfl)
  obtain ⟨p, t, run⟩ := Attempt.exists_gives (by decide +kernel :
    ((loaded storedRamdisk).run.run s).1.toOption.isSome = true)
  obtain ⟨p', t', run'⟩ := Attempt.exists_gives (by decide +kernel :
    ((loaded smallRamdisk).run.run s).1.toOption.isSome = true)
  have room : smallRamdisk.length ≤ smallTags.maxRamdiskSize := by decide +kernel
  obtain ⟨t₁, inflated, _⟩ := inflation.1 room s (inflates s valid)
  obtain ⟨_, same, sizes⟩ := loads beside (bears storedRamdisk (by decide +kernel) (by decide +kernel))
    (bears smallRamdisk (by decide +kernel) (by decide +kernel))
    (fun u there => ⟨u, inflates u there⟩) valid valid rfl rfl run run'
  exact ⟨packs, ⟨t₁, inflated⟩, p, p', t, t', run, run', same, sizes⟩

end KernelBoot
