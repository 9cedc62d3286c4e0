import KernelBoot.Proofs.Boot.Sources
import KernelBoot.Uefi.Medium

/-!
Reads from a raw medium. Bytes are widened to sectors, and sectors to the medium's own blocks, of
whatever size those are. What is read are the bytes that were asked for, and the firmware is only
asked for blocks that the medium has.
-/
namespace KernelBoot
open Effect Attempt

namespace Medium

/-- A medium with this content: blocks are read as they lie on it. -/
structure Holds (m : Medium σ) (content : Bytes) : Prop where
  length_eq : content.length = m.blocks * m.blockSize
  read : ∀ s first len, m.blockSize ∣ len → first * m.blockSize + len ≤ content.length →
    ∃ t, (m.readBlocks first len).Gives s (content.slice (first * m.blockSize) len) t

/-- The medium with a record of what is asked of it: first blocks and lengths. -/
def recorded (m : Medium σ) : Medium (σ × List (Nat × Nat)) where
  blockSize := m.blockSize
  blocks := m.blocks
  readBlocks first len :=
    (m.readBlocks first len).on Prod.fst fun inner world => (inner, world.2 ++ [(first, len)])

def Has (m : Medium σ) (asked : Nat × Nat) : Prop :=
  m.blockSize ∣ asked.2 ∧ ∀ block, asked.1 ≤ block →
    block * m.blockSize < asked.1 * m.blockSize + asked.2 → block < m.blocks

def sectored (m : Medium σ) : Nat := m.blocks * m.blockSize / sectorSize * sectorSize

def request (m : Medium σ) (offset len : Nat) : Nat × Nat :=
  (offset / m.blockSize, m.span (offset % m.blockSize) len)

variable {m : Medium σ} {content : Bytes}

/-- Where blocks begin and end with the bytes that are wanted, there is nothing around these. -/
theorem span_exact (some : 0 < m.blockSize) {len : Nat} (whole : len % m.blockSize = 0) :
    m.span 0 len = len := by
  obtain ⟨count, rfl⟩ := Nat.dvd_of_mod_eq_zero whole
  have regroup : 0 + m.blockSize * count + m.blockSize - 1 =
      m.blockSize - 1 + m.blockSize * count := by omega
  rw [span, regroup, Nat.add_mul_div_left _ _ some, Nat.div_eq_of_lt (by omega), Nat.zero_add,
    Nat.mul_comm]

/-- Either way, one read of whole blocks is all that the firmware is asked for. -/
theorem device_run (some : 0 < m.blockSize) (sector len : Nat) (s : Session σ) :
    let offset := sector * sectorSize
    let asked := m.request offset len
    let read := (m.read asked.1 asked.2).run.run s
    (m.device.readSectors sector len).run.run s =
      (read.1.map fun blocks =>
        if offset % m.blockSize = 0 ∧ len % m.blockSize = 0 then blocks
        else blocks.slice (offset % m.blockSize) len, read.2) := by
  intro offset asked read
  by_cases direct : offset % m.blockSize = 0 ∧ len % m.blockSize = 0
  · have exact : asked = (offset / m.blockSize, len) := by
      simp only [asked, request, direct.1, span_exact some direct.2]
    have plain : m.device.readSectors sector len = m.read (offset / m.blockSize) len := if_pos direct
    simp only [read, exact, plain, if_pos direct]
    rcases (m.read (offset / m.blockSize) len).run.run s with ⟨result, t⟩
    cases result <;> rfl
  · have bounced : m.device.readSectors sector len = do
        let blocks ← m.read asked.1 asked.2
        return blocks.slice (offset % m.blockSize) len := if_neg direct
    simp only [read, bounced, if_neg direct, run_bind]
    rcases (m.read asked.1 asked.2).run.run s with ⟨result, t⟩
    cases result <;> rfl

theorem recorded_read (m : Medium σ) (first len : Nat) (s : Session (σ × List (Nat × Nat))) :
    (m.recorded.read first len).run.run s =
      let read := (m.read first len).run.run ⟨s.world.1, s.logger⟩
      (read.1, ⟨(read.2.world, s.world.2 ++ [(first, len)]), read.2.logger⟩) := by
  simp only [read, run_mapError]
  rfl

theorem recorded_readSectors (some : 0 < m.blockSize) (sector len : Nat)
    (s : Session (σ × List (Nat × Nat))) :
    (m.recorded.device.readSectors sector len).run.run s =
      let read := (m.device.readSectors sector len).run.run ⟨s.world.1, s.logger⟩
      (read.1, ⟨(read.2.world, s.world.2 ++ [m.request (sector * sectorSize) len]),
        read.2.logger⟩) := by
  have some' : 0 < m.recorded.blockSize := some
  rw [device_run some', recorded_read, device_run some]
  rfl

theorem sectored_le (m : Medium σ) : m.sectored ≤ m.blocks * m.blockSize :=
  Nat.div_mul_le_self _ _

/-- Widened twice, a read still ends with the last block. -/
theorem Holds.readSectors (some : 0 < m.blockSize) (holds : m.Holds content) (s : Session σ)
    {sector len : Nat} (inside : sector * sectorSize + len ≤ m.sectored) :
    ∃ t, (m.device.readSectors sector len).Gives s (content.slice (sector * sectorSize) len) t := by
  obtain ⟨start, covered, whole, last⟩ :=
    Source.blocks_around some (Nat.le_trans inside m.sectored_le)
  rw [← holds.length_eq] at last
  obtain ⟨t, gives⟩ := holds.read s _ _ whole last
  have read : (m.read (sector * sectorSize / m.blockSize)
      (m.span (sector * sectorSize % m.blockSize) len)).Gives s _ t := gives_mapError.mpr gives
  rw [Gives, Ends] at read
  refine ⟨t, ?_⟩
  rw [Gives, Ends, device_run some]
  simp only [request, read, Except.map]
  by_cases direct : sector * sectorSize % m.blockSize = 0 ∧ len % m.blockSize = 0
  · have exact := span_exact some direct.2
    rw [direct.1, Nat.add_zero] at start
    rw [span] at exact
    rw [if_pos direct, direct.1, exact, start]
  · have window := Bytes.slice_slice content (sector * sectorSize / m.blockSize * m.blockSize) covered
    rw [start] at window
    rw [if_neg direct, window]

section Short
variable (short : m.blocks * m.blockSize < 0x8000000000000000)
include short

theorem sectorCount_eq (w : σ) : m.device.sectorCount w * sectorSize = m.sectored := by
  have all : saturatingMul m.blocks m.blockSize = m.blocks * m.blockSize :=
    Nat.min_eq_left (by simp only [addressSpace]; omega)
  simp only [device, all, sectored]

theorem sectored_lt : m.sectored < addressSpace := by
  have most := m.sectored_le
  simp only [addressSpace]
  omega

theorem size_eq (w : σ) : (Source.ofDisk m.device).size w = m.sectored := by
  have less := sectored_lt short
  simp only [Source.ofDisk, sectorCount_eq short, saturatingMul]
  omega

theorem refused {offset len : Nat} (outside : m.sectored < offset + len) (s : Session σ) :
    ((Source.ofDisk m.device).readAt offset len).Ends s
      (.error (.prematureEnd offset len m.sectored), []) s := by
  have size := size_eq short s.world
  simp only [Source.ofDisk] at size
  rw [Ends, Source.ofDisk_run, size, Source.outside?_eq (sectored_lt short),
    if_neg (Nat.not_le.mpr outside)]

theorem Holds.readAt (some : 0 < m.blockSize) (holds : m.Holds content) {offset len : Nat}
    (inside : offset + len ≤ m.sectored) (s : Session σ) :
    ∃ t, ((Source.ofDisk m.device).readAt offset len).Ends s (.ok (), content.slice offset len) t := by
  have most := m.sectored_le
  have length : (content.take m.sectored).length = m.sectored := by
    rw [List.length_take, holds.length_eq, Nat.min_eq_left most]
  have sectors : m.device.Holds (content.take m.sectored) := by
    refine ⟨fun w => by rw [sectorCount_eq short, length], fun s sector len _ within => ?_⟩
    rw [length] at within
    rw [Bytes.slice_take content within]
    exact holds.readSectors some s within
  have answers := Source.ofDisk_answers sectors (by rw [length]; exact sectored_lt short) s offset len
  rw [Source.answer, length, if_pos inside, Bytes.slice_take content inside] at answers
  exact answers

/-- A read that is refused, or of nothing, asks for nothing, any other one for one run of blocks. -/
theorem recorded_readAt (some : 0 < m.blockSize) (offset len : Nat)
    (s : Session (σ × List (Nat × Nat))) :
    let plain := ((Source.ofDisk m.device).readAt offset len).run ⟨s.world.1, s.logger⟩
    ∃ asked, (∀ blocks ∈ asked, m.Has blocks) ∧
      ((Source.ofDisk m.recorded.device).readAt offset len).Ends s plain.1
        ⟨(plain.2.world, s.world.2 ++ asked), plain.2.logger⟩ := by
  have size := size_eq short s.world.1
  have size' : saturatingMul (m.recorded.device.sectorCount s.world) sectorSize = m.sectored := size
  have quiet : s = ⟨(s.world.1, s.world.2 ++ []), s.logger⟩ := by rw [List.append_nil]
  simp only [Source.ofDisk] at size
  simp only [Effect.Ends, Source.ofDisk_run, size, size', Source.outside?_eq (sectored_lt short)]
  by_cases inside : offset + len ≤ m.sectored
  · simp only [if_pos inside]
    by_cases nothing : len = 0
    · simp only [if_pos nothing]
      exact ⟨[], by simp, congrArg _ quiet⟩
    · simp only [if_neg nothing, recorded_readSectors some]
      obtain ⟨_, _, _, sectors⟩ := Source.blocks_around (by decide : 0 < sectorSize) inside
      obtain ⟨_, _, whole, last⟩ := Source.blocks_around some (Nat.le_trans sectors m.sectored_le)
      refine ⟨[_], fun blocks one => ?_, rfl⟩
      rw [List.mem_singleton.mp one]
      exact ⟨whole, fun block _ below => Nat.lt_of_mul_lt_mul_right (Nat.lt_of_lt_of_le below last)⟩
  · simp only [if_neg inside]
    exact ⟨[], by simp, congrArg _ quiet⟩

end Short

/-- Reads from a disk on a medium are exact, whatever the size of its blocks. The disk is as long as
    all whole sectors. It asks the firmware only for whole blocks that the medium has, and a record
    of that changes nothing. A read inside delivers the bytes of the medium, and any other one is
    refused before the medium is touched. -/
theorem raw_reads_exact {m : Medium σ} (some : 0 < m.blockSize)
    (short : m.blocks * m.blockSize < 0x8000000000000000) :
    let size := m.blocks * m.blockSize / sectorSize * sectorSize
    (∀ w, (Source.ofDisk m.device).size w = size) ∧
    ∀ offset len (s : Session (σ × List (Nat × Nat))),
      let plain := ((Source.ofDisk m.device).readAt offset len).run ⟨s.world.1, s.logger⟩
      let recorded := (Source.ofDisk m.recorded.device).readAt offset len
      (∃ asked, (∀ blocks ∈ asked, m.Has blocks) ∧
        recorded.Ends s plain.1 ⟨(plain.2.world, s.world.2 ++ asked), plain.2.logger⟩) ∧
      (offset + len ≤ size → ∀ content, m.Holds content →
        plain.1 = (.ok (), content.slice offset len)) ∧
      (size < offset + len →
        recorded.Ends s (.error (.prematureEnd offset len size), []) s) := by
  refine ⟨size_eq short, fun offset len s => ⟨?_, ?_, ?_⟩⟩
  · exact recorded_readAt short some offset len s
  · intro inside content holds
    obtain ⟨t, ends⟩ := holds.readAt short some inside ⟨s.world.1, s.logger⟩
    exact congrArg Prod.fst ends
  · exact fun outside => refused (m := m.recorded) short outside s

end Medium

/-- A scripted medium that does not fail and has data for all its blocks. -/
theorem Disk.medium_holds {d : Disk} (works : d.readFailure = none) (some : 0 < d.blockSize)
    (all : d.blocks = saturatingAdd d.lastBlock 1) (full : d.data.length = d.blocks * d.blockSize) :
    (d.medium : Medium σ).Holds d.data where
  length_eq := by rw [full, all]; rfl
  read s first len whole inside := by
    refine ⟨s, gives_ofExcept.mpr ⟨?_, rfl⟩⟩
    have whole : d.blockSize ∣ len := whole
    have aligned : ¬ len % d.blockSize ≠ 0 := not_not_intro (Nat.mod_eq_zero_of_dvd whole)
    have within : first * d.blockSize + len ≤ d.data.length := inside
    have known : ¬ d.blocks < first + len / d.blockSize := by
      rw [full, ← Nat.div_mul_cancel whole, ← Nat.add_mul] at within
      exact Nat.not_lt.mpr (Nat.le_of_mul_le_mul_right within some)
    have length : (d.data.slice (first * d.blockSize) len).length = len := Bytes.slice_length within
    simp only [readBlocks, works, if_neg aligned, if_neg known, length, Nat.sub_self, Bytes.zeros,
      List.replicate_zero, List.append_nil]
    rfl

/-- A medium of three blocks, none of which ends with a sector. -/
def Disk.straddling : Disk where
  data := (List.range 1560).map UInt8.ofNat
  blockSize := 520
  blocks := 3
  lastBlock := 2
  isLogical := false
  isPresent := true
  isRefused := false
  readFailure := none

theorem Medium.raw_reads_exact_straddling :
    let m : Medium Unit := Disk.straddling.medium
    let content := Disk.straddling.data
    let s : Session (Unit × List (Nat × Nat)) := ⟨((), []), .new 0⟩
    0 < m.blockSize ∧ m.blocks * m.blockSize < 0x8000000000000000 ∧ m.Holds content ∧
      500 + 700 ≤ 1536 ∧ 1536 < 1500 + 60 ∧
      (((Source.ofDisk m.device).readAt 500 700).run ⟨(), .new 0⟩).1 =
        (.ok (), content.slice 500 700) ∧
      ((Source.ofDisk m.recorded.device).readAt 1500 60).Ends s
        (.error (.prematureEnd 1500 60 1536), []) s := by
  intro m content s
  have some : 0 < m.blockSize := by decide
  have short : m.blocks * m.blockSize < 0x8000000000000000 := by decide
  have holds : m.Holds content :=
    Disk.medium_holds rfl (by decide) rfl (by simp [Disk.straddling])
  have size : m.blocks * m.blockSize / sectorSize * sectorSize = 1536 := by decide
  obtain ⟨_, reads⟩ := raw_reads_exact some short
  rw [size] at reads
  exact ⟨some, short, holds, by decide, by decide, (reads 500 700 s).2.1 (by decide) content holds,
    (reads 1500 60 s).2.2 (by decide)⟩

end KernelBoot
