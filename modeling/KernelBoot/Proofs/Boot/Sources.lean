import KernelBoot.Proofs.Boot.Alike

/-!
One image in memory, in a file, or on a device. A file may deliver its bytes in pieces of any size,
and a device only in whole sectors; a read gives the same bytes from each of them, or the same
refusal. So it does not matter to a load where its image is.
-/
namespace KernelBoot
open Effect FirmwareView

/-- A file with the bytes of an image. A read inside it delivers at least one of them, and as many of
    the others as it likes. -/
structure FileReader.Delivers (file : FileReader σ) (image : Bytes) : Prop where
  length_eq : ∀ w, file.length w = image.length
  read : ∀ s offset room, 0 < room → offset + room ≤ image.length →
    ∃ count t, 0 < count ∧ count ≤ room ∧
      (file.readAt offset room).Gives s (image.slice offset count) t

/-- A device with the bytes of an image, which is as long as all its sectors. -/
structure BlockDevice.Holds (device : BlockDevice σ) (image : Bytes) : Prop where
  count_eq : ∀ w, device.sectorCount w * sectorSize = image.length
  read : ∀ s first len, sectorSize ∣ len → first * sectorSize + len ≤ image.length →
    ∃ t, (device.readSectors first len).Gives s (image.slice (first * sectorSize) len) t

inductive Source.Of (image : Bytes) : Source σ → Prop
  | memory : Source.Of image (.ofMemory image)
  | file {file : FileReader σ} (delivers : file.Delivers image) : Source.Of image (.ofFile file)
  | disk {device : BlockDevice σ} (holds : device.Holds image) : Source.Of image (.ofDisk device)

/-- The device with a record of what is asked of it: first sectors and lengths. -/
def BlockDevice.recorded (device : BlockDevice σ) : BlockDevice (σ × List (Nat × Nat)) where
  sectorCount world := device.sectorCount world.1
  readSectors first len :=
    (device.readSectors first len).on Prod.fst fun inner world => (inner, world.2 ++ [(first, len)])

def AsksBelow (count : Nat) (asked : Nat × Nat) : Prop :=
  sectorSize ∣ asked.2 ∧
    ∀ sector, asked.1 ≤ sector → sector * sectorSize < asked.1 * sectorSize + asked.2 → sector < count

variable {image : Bytes} {source source' : Source σ} {file : FileReader σ} {device : BlockDevice σ}

namespace FileReader

/-- However short the single reads are, a loop of them delivers all that is asked for. -/
theorem Delivers.fill (delivers : file.Delivers image) {room : Nat} :
    ∀ {offset}, offset + room ≤ image.length → ∀ done s,
      ∃ t, (file.fill offset room done).Ends s (.ok (), done ++ image.slice offset room) t := by
  induction room using Nat.strongRecOn with
  | ind room ih =>
    intro offset inside done s
    rw [FileReader.fill]
    by_cases nothing : room = 0
    · have empty : image.slice offset 0 = [] := List.take_zero
      rw [if_pos nothing, nothing, empty, List.append_nil]
      exact ⟨s, rfl⟩
    · rw [if_neg nothing]
      obtain ⟨count, t, some, most, gives⟩ :=
        delivers.read s offset room (Nat.pos_of_ne_zero nothing) inside
      have length : (image.slice offset count).length = count := Bytes.slice_length (by omega)
      have all : image.slice offset room =
          image.slice offset count ++ image.slice (offset + count) (room - count) := by
        rw [Bytes.slice_join image _ _ rfl, Nat.add_sub_cancel' most]
      rw [all, ← List.append_assoc]
      -- an empty chunk would end the loop, but this one is not empty
      cases chunk : image.slice offset count with
      | nil =>
        rw [chunk, List.length_nil] at length
        omega
      | cons b rest =>
        rw [chunk] at gives length
        have behind : offset + count + (room - count) ≤ image.length := by omega
        obtain ⟨u, ends⟩ := ih (room - count) (by omega) behind (done ++ b :: rest) t
        refine ⟨u, ends_bind.mpr ⟨_, t, gives, ?_⟩⟩
        rw [← length] at ends ⊢
        exact ends

theorem fill_quiet {v : FirmwareView σ} (quiet : ∀ offset room, v.Quiet (file.readAt offset room).run)
    {room : Nat} : ∀ offset done, v.Quiet (file.fill offset room done) := by
  induction room using Nat.strongRecOn with
  | ind room ih =>
    intro offset done
    rw [FileReader.fill]
    by_cases nothing : room = 0
    · rw [if_pos nothing]
      exact quiet_pure _
    · rw [if_neg nothing]
      refine quiet_bind (quiet offset room) fun result => ?_
      cases result with
      | error e => exact quiet_pure _
      | ok chunk =>
        cases chunk with
        | nil => exact quiet_bind (quiet_ask _) fun _ => quiet_pure _
        | cons b rest =>
          have less : room - (b :: rest).length < room := by
            rw [List.length_cons]
            omega
          exact ih _ less _ _

end FileReader

namespace Source

theorem ofFile_answers (delivers : file.Delivers image) (short : image.length < addressSpace)
    (s : Session σ) (offset len : Nat) :
    ∃ t, ((ofFile file).readAt offset len).Ends s (answer image offset len) t := by
  simp only [answer]
  by_cases inside : offset + len ≤ image.length
  · rw [if_pos inside]
    obtain ⟨t, ends⟩ := delivers.fill inside [] s
    refine ⟨t, ends_bind.mpr ⟨_, s, rfl, ?_⟩⟩
    simp only [delivers.length_eq, outside?_eq short, if_pos inside]
    exact ends
  · rw [if_neg inside]
    refine ⟨s, ends_bind.mpr ⟨_, s, rfl, ?_⟩⟩
    simp only [delivers.length_eq, outside?_eq short, if_neg inside]
    rfl

/-- The blocks around the bytes that are asked for: whole ones, which cover them and end where the
    last of them does. -/
theorem blocks_around {size offset len count : Nat} (some : 0 < size)
    (inside : offset + len ≤ count * size) :
    let span := (offset % size + len + size - 1) / size * size
    offset / size * size + offset % size = offset ∧ offset % size + len ≤ span ∧ size ∣ span ∧
      offset / size * size + span ≤ count * size := by
  intro span
  have start := Nat.div_add_mod' offset size
  have split := Nat.div_add_mod' (offset % size + len + size - 1) size
  have small := Nat.mod_lt (offset % size + len + size - 1) some
  have covered : offset % size + len ≤ span := by omega
  refine ⟨start, covered, Nat.dvd_mul_left _ _, ?_⟩
  -- one block more would begin behind the bytes that are asked for
  have below : offset / size * size + span < (count + 1) * size := by
    rw [Nat.succ_mul]
    omega
  rw [← Nat.add_mul] at below ⊢
  exact Nat.mul_le_mul_right size (Nat.le_of_lt_succ (Nat.lt_of_mul_lt_mul_right below))

def cut (skip len : Nat) : Except StorageError Bytes → Except SourceError Unit × Bytes
  | .error e => (.error (.storage e), [])
  | .ok sectors => (.ok (), sectors.slice skip len)

/-- A read from a disk is refused, or it is nothing, or it is one read of sectors. -/
theorem ofDisk_run (device : BlockDevice σ) (offset len : Nat) (s : Session σ) :
    ((ofDisk device).readAt offset len).run s =
      match outside? offset len (saturatingMul (device.sectorCount s.world) sectorSize) with
      | some e => ((.error e, []), s)
      | none =>
        if len = 0 then ((.ok (), []), s)
        else
          let read := (device.readSectors (offset / sectorSize)
            ((offset % sectorSize + len + sectorSize - 1) / sectorSize * sectorSize)).run.run s
          (cut (offset % sectorSize) len read.1, read.2) := by
  simp only [ofDisk, StateT.run_bind]
  have size : (Effect.ask fun world => saturatingMul (device.sectorCount world) sectorSize).run s =
      pure (saturatingMul (device.sectorCount s.world) sectorSize, s) := rfl
  rw [size, pure_bind]
  cases outside? offset len (saturatingMul (device.sectorCount s.world) sectorSize) with
  | some e => rfl
  | none =>
    by_cases nothing : len = 0
    · simp only [if_pos nothing]
      rfl
    · simp only [if_neg nothing, StateT.run_bind]
      rcases (device.readSectors (offset / sectorSize)
        ((offset % sectorSize + len + sectorSize - 1) / sectorSize * sectorSize)).run.run s with
        ⟨result, t⟩
      cases result with
      | error e => rfl
      | ok sectors => rfl

theorem ofDisk_answers (holds : device.Holds image) (short : image.length < addressSpace)
    (s : Session σ) (offset len : Nat) :
    ∃ t, ((ofDisk device).readAt offset len).Ends s (answer image offset len) t := by
  have count := holds.count_eq s.world
  have size : saturatingMul (device.sectorCount s.world) sectorSize = image.length := by
    rw [saturatingMul, count]
    omega
  simp only [Effect.Ends, ofDisk_run, size, outside?_eq short, answer]
  by_cases inside : offset + len ≤ image.length
  · rw [if_pos inside, if_pos inside]
    by_cases nothing : len = 0
    · have empty : image.slice offset len = [] := by
        rw [nothing]
        exact List.take_zero
      rw [empty]
      exact ⟨s, if_pos nothing⟩
    · rw [← count] at inside
      obtain ⟨start, covered, whole, last⟩ := blocks_around (by decide : 0 < sectorSize) inside
      rw [count] at last
      obtain ⟨t, gives⟩ := holds.read s _ _ whole last
      have window := Bytes.slice_slice image (offset / sectorSize * sectorSize) covered
      rw [start] at window
      have outcome : _ = (Except.ok _, t) := gives
      simp only [if_neg nothing, outcome, cut, window]
      exact ⟨t, rfl⟩
  · rw [if_neg inside, if_neg inside]
    exact ⟨s, rfl⟩

theorem Of.size_eq (placed : Of image source) (short : image.length < addressSpace) (w : σ) :
    source.size w = image.length := by
  cases placed with
  | memory => rfl
  | file delivers => exact delivers.length_eq w
  | disk holds =>
    have count := holds.count_eq w
    simp only [ofDisk, saturatingMul, count]
    omega

theorem Of.answers (placed : Of image source) (short : image.length < addressSpace)
    (s : Session σ) (offset len : Nat) :
    ∃ t, (source.readAt offset len).Ends s (answer image offset len) t := by
  cases placed with
  | memory => exact ofMemory_answers short s offset len
  | file delivers => exact ofFile_answers delivers short s offset len
  | disk holds => exact ofDisk_answers holds short s offset len

theorem Of.carries (placed : Of image source) (short : image.length < addressSpace) :
    source.Carries image := .of_answers (placed.size_eq short) (placed.answers short)

/-! A source leaves alone what its file or its device leaves alone. -/

theorem ofFile_keeps {part : σ → τ} (keeps : ∀ offset room, (file.readAt offset room).run.Keeps part)
    (offset len : Nat) : ((ofFile file).readAt offset len).Keeps part := by
  apply keeps_of_quiet
  intro p
  refine quiet_bind (quiet_ask _) fun size => ?_
  cases outside? offset len size with
  | some e => exact quiet_pure _
  | none => exact FileReader.fill_quiet (fun offset room => (keeps offset room).quiet p) _ _

theorem ofDisk_keeps {part : σ → τ}
    (keeps : ∀ first len, (device.readSectors first len).run.Keeps part) (offset len : Nat) :
    ((ofDisk device).readAt offset len).Keeps part := by
  apply keeps_of_quiet
  intro p
  refine quiet_bind (quiet_ask _) fun size => ?_
  cases outside? offset len size with
  | some e => exact quiet_pure _
  | none =>
    by_cases nothing : len = 0
    · simp only [if_pos nothing]
      exact quiet_pure _
    · simp only [if_neg nothing]
      refine quiet_bind ((keeps _ _).quiet p) fun result => ?_
      cases result with
      | error e => exact quiet_pure _
      | ok sectors => exact quiet_pure _

/-- A device is asked for sectors that it has, and a record of that changes no answer. -/
theorem ofDisk_recorded (device : BlockDevice σ) {s t : Session (σ × List (Nat × Nat))}
    {offset len : Nat} {result : Except SourceError Unit × Bytes}
    (run : ((ofDisk device.recorded).readAt offset len).Ends s result t) :
    ((ofDisk device).readAt offset len).Ends ⟨s.world.1, s.logger⟩ result ⟨t.world.1, t.logger⟩ ∧
      ∀ asked ∈ t.world.2, asked ∈ s.world.2 ∨ AsksBelow (device.sectorCount s.world.1) asked := by
  have count : device.recorded.sectorCount s.world = device.sectorCount s.world.1 := rfl
  simp only [Effect.Ends, ofDisk_run, count] at run ⊢
  cases refused : outside? offset len (saturatingMul (device.sectorCount s.world.1) sectorSize) with
  | some e =>
    rw [refused] at run
    cases run
    exact ⟨rfl, fun asked earlier => .inl earlier⟩
  | none =>
    rw [refused] at run
    by_cases nothing : len = 0
    · simp only [if_pos nothing] at run ⊢
      cases run
      exact ⟨rfl, fun asked earlier => .inl earlier⟩
    · simp only [if_neg nothing] at run ⊢
      cases run
      refine ⟨rfl, fun asked member => ?_⟩
      rcases List.mem_append.mp member with earlier | last
      · exact .inl earlier
      · right
        rw [List.mem_singleton.mp last]
        have inside := (outside?_eq_none.mp refused).2
        have saturated : saturatingMul (device.sectorCount s.world.1) sectorSize ≤
            device.sectorCount s.world.1 * sectorSize := Nat.min_le_left _ _
        obtain ⟨_, _, whole, stop⟩ :=
          blocks_around (by decide : 0 < sectorSize) (Nat.le_trans inside saturated)
        refine ⟨whole, fun sector _ below => ?_⟩
        exact Nat.lt_of_mul_lt_mul_right (Nat.lt_of_lt_of_le below stop)

end Source

/-- All places of an image are the same to those who read it. A read has one answer, which does not
    depend on the place; a disk is only asked for whole sectors that it has; and loads end with the
    same result and leave firmware and storage in the same state. -/
theorem sources_interchangeable {image : Bytes} (short : image.length < addressSpace) :
    (∀ {source : Source σ}, Source.Of image source → (∀ w, source.size w = image.length) ∧
      ∀ s offset len, ∃ t, (source.readAt offset len).Ends s (Source.answer image offset len) t) ∧
    (∀ (device : BlockDevice σ) {s t offset len result},
      ((Source.ofDisk device.recorded).readAt offset len).Ends s result t →
        ((Source.ofDisk device).readAt offset len).Ends ⟨s.world.1, s.logger⟩ result
          ⟨t.world.1, t.logger⟩ ∧
        ∀ asked ∈ t.world.2, asked ∈ s.world.2 ∨ AsksBelow (device.sectorCount s.world.1) asked) ∧
    ∀ {τ} {part : σ → τ} {source source' : Source σ} {f : Firmware σ} {storage : Storage σ},
      Source.Of image source → Source.Of image source' →
      (∀ offset len, (source.readAt offset len).Keeps part) →
      (∀ offset len, (source'.readAt offset len).Keeps part) →
      f.ActsOn part → storage.ActsOn part → ∀ request config,
        (load source f storage request config).run.Alike part
          (load source' f storage request config).run := by
  refine ⟨?_, ?_, ?_⟩
  · intro source placed
    exact ⟨placed.size_eq short, placed.answers short⟩
  · intro device s t offset len result run
    exact Source.ofDisk_recorded device run
  · intro τ part source source' f storage placed placed' apart apart' acts storageActs request config
    have beside : Source.Beside part source source' image image :=
      ⟨placed.carries short, placed'.carries short, apart, apart', ReadsSame.refl image⟩
    exact beside.load_alike acts storageActs

/-! Scripted files and disks that do not fail. -/

def ScriptedFile.dribbling (image : Bytes) (chunk : Nat) : ScriptedFile :=
  ⟨image, none, image.length, some chunk⟩

def ScriptedDisk.whole (image : Bytes) : ScriptedDisk := ⟨image, none, image.length / sectorSize⟩

theorem ScriptedFile.dribbling_delivers {image : Bytes} {chunk : Nat} (positive : 0 < chunk) :
    ((ScriptedFile.dribbling image chunk).reader : FileReader σ).Delivers image where
  length_eq _ := rfl
  read s offset room wanted inside := by
    have works : ¬ offset ≥ image.length := by omega
    refine ⟨min room chunk, s, by omega, by omega, ?_⟩
    exact Attempt.gives_ofExcept.mpr ⟨if_neg works, rfl⟩

theorem ScriptedDisk.whole_holds {image : Bytes} (sectors : sectorSize ∣ image.length) :
    ((ScriptedDisk.whole image).device : BlockDevice σ).Holds image := by
  have nothing : (sectorSize - image.length % sectorSize) % sectorSize = 0 := by
    rw [Nat.mod_eq_zero_of_dvd sectors, Nat.sub_zero, Nat.mod_self]
  have padded : (ScriptedDisk.whole image).padded =
      image ++ Bytes.zeros ((sectorSize - image.length % sectorSize) % sectorSize) := rfl
  rw [nothing, Bytes.zeros, List.replicate_zero, List.append_nil] at padded
  constructor
  · intro w
    have count : ((ScriptedDisk.whole image).device : BlockDevice σ).sectorCount w =
        (ScriptedDisk.whole image).padded.length / sectorSize := rfl
    rw [count, padded]
    exact Nat.div_mul_cancel sectors
  · intro s first len _ inside
    have known : ¬ first + len / sectorSize > image.length / sectorSize := by
      simp only [sectorSize] at inside ⊢
      omega
    have present : ¬ first * sectorSize + len > (ScriptedDisk.whole image).padded.length := by
      rw [padded]
      exact Nat.not_lt.mpr inside
    refine ⟨s, Attempt.gives_ofExcept.mpr ⟨(if_neg known).trans ((if_neg present).trans ?_), rfl⟩⟩
    rw [padded]

def sectoredImage : Bytes := bareImage ++ Bytes.zeros 508

theorem sources_interchangeable_sectored :
    let s : Session Board := ⟨bareBoard, .new 0⟩
    let loaded := fun source => load source Board.firmware oneDevice.storage quietRequest smallTags
    sectoredImage.length < addressSpace ∧ ∃ p t t' t'',
      (loaded (.ofMemory sectoredImage)).Gives s p t ∧
      (loaded (.ofFile (ScriptedFile.dribbling sectoredImage 3).reader)).Gives s p t' ∧
      (loaded (.ofDisk (ScriptedDisk.whole sectoredImage).device)).Gives s p t'' ∧
      t.world = t'.world ∧ t.world = t''.world := by
  intro s loaded
  have short : sectoredImage.length < addressSpace := by decide +kernel
  have inFile : Source.Of sectoredImage (.ofFile (ScriptedFile.dribbling sectoredImage 3).reader :
      Source Board) := .file (ScriptedFile.dribbling_delivers (by decide))
  have onDisk : Source.Of sectoredImage (.ofDisk (ScriptedDisk.whole sectoredImage).device :
      Source Board) := .disk (ScriptedDisk.whole_holds (by decide +kernel))
  obtain ⟨p, t, run⟩ := Attempt.exists_gives (by decide +kernel :
    ((loaded (.ofMemory sectoredImage)).run.run s).1.toOption.isSome = true)
  have memoryKeeps := Source.ofMemory_keeps sectoredImage (id : Board → Board)
  have toFile := (sources_interchangeable short).2.2 .memory inFile memoryKeeps
    (Source.ofFile_keeps fun _ _ => Attempt.keeps_ofExcept id) Board.firmware_acts oneDevice.storage_acts
    quietRequest smallTags
  have toDisk := (sources_interchangeable short).2.2 .memory onDisk memoryKeeps
    (Source.ofDisk_keeps fun _ _ => Attempt.keeps_ofExcept id) Board.firmware_acts oneDevice.storage_acts
    quietRequest smallTags
  obtain ⟨t', run', world'⟩ := toFile.ends rfl run
  obtain ⟨t'', run'', world''⟩ := toDisk.ends rfl run
  exact ⟨short, p, t, t', t'', run, run', run'', world', world''⟩

end KernelBoot
