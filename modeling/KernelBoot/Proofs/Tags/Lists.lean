import KernelBoot.Boot.TagList
import KernelBoot.Proofs.Buffer
import KernelBoot.Tags.Walker

/-!
A written tag list read again. Each record that a writer lets through is one step of a walk,
whatever follows it, so a finished list is walked as what was put into it.
-/
namespace KernelBoot

namespace Tag
open Bytes

/-- The bytes are one record with this meaning, whatever follows them. -/
def Reads (bytes : Bytes) (tag : Tag) : Prop :=
  ∀ offset rest, step offset (bytes ++ rest) = .record tag bytes.length

def AllRead (bytes : Bytes) (tags : List Tag) : Prop :=
  ∀ offset rest, walkFrom offset (bytes ++ rest) =
    tags.map Except.ok ++ walkFrom (offset + bytes.length) rest

theorem Reads.all {bytes : Bytes} {tag : Tag} (reads : Reads bytes tag) : AllRead bytes [tag] := by
  intro offset rest
  have taken := reads offset rest
  rw [walkFrom]
  split
  · rename_i ended
    rw [taken] at ended
    cases ended
  · rename_i error failed
    rw [taken] at failed
    cases failed
  · rename_i tag' length found
    rw [taken] at found
    cases found
    rw [List.drop_left' rfl]
    rfl

theorem AllRead.append {first second : Bytes} {tags more : List Tag} (read : AllRead first tags)
    (readMore : AllRead second more) : AllRead (first ++ second) (tags ++ more) := by
  intro offset rest
  rw [List.append_assoc, read, readMore, List.map_append, List.append_assoc, List.length_append,
    Nat.add_assoc]

/-- A record with a size that counts its words and a tag that is not the end mark. -/
theorem reads_record {code : UInt32} {words : Nat} {payload : Bytes} (present : code ≠ noneCode)
    (least : 2 ≤ words) (fits : words < wordLimit) (length : payload.length = words * 4 - 8) :
    Reads (le 4 words ++ (le32 code ++ payload)) (ofPayload code payload) := by
  intro offset rest
  have back : (UInt32.ofNat words).toNat = words := by
    simp only [UInt32.toNat_ofNat']
    exact Nat.mod_eq_of_lt fits
  have big : ¬ UInt32.ofNat words < 2 := by
    rw [UInt32.lt_iff_toNat_lt, back]
    exact Nat.not_lt.mpr least
  have codeWord : word32? (le 4 words ++ (le32 code ++ (payload ++ rest))) 4 = some code := by
    rw [le32, word32?_behind (le32_lt code) _ _ (le_length 4 words), UInt32.ofNat_toNat]
  have body : slice (le 4 words ++ (le32 code ++ (payload ++ rest))) 8 (words * 4 - 8) = payload := by
    have head : (le 4 words ++ le32 code).length = 8 := by
      rw [List.length_append, le32_length, le_length]
    rw [← List.append_assoc, slice_behind _ _ _ head, slice_front payload rest length]
  have whole : (le 4 words ++ (le32 code ++ payload)).length = words * 4 := by
    simp only [List.length_append, le32_length, le_length, length]
    omega
  rw [List.append_assoc, List.append_assoc, step, word32?_front fits, codeWord]
  simp only [present, ↓reduceIte, big, back, body, length, whole]

theorem ofPayload_initrd (start size : UInt32) :
    ofPayload initrdCode (le32 start ++ le32 size) = .initrd start size := by
  obtain ⟨first, second⟩ := word32_pair start size
  simp only [ofPayload, first, second, pair_length]
  simp [coreCode, memoryCode, initrdCode]

theorem ofPayload_memory (start size : UInt32) :
    ofPayload memoryCode (le32 size ++ le32 start) = .memory start size := by
  obtain ⟨first, second⟩ := word32_pair size start
  simp only [ofPayload, first, second, pair_length]
  simp [coreCode, memoryCode]

theorem step_endMark (offset : Nat) (rest : Bytes) :
    step offset (le 4 0 ++ (le32 noneCode ++ rest)) = .done := by
  have code : word32? (le 4 0 ++ (le32 noneCode ++ rest)) 4 = some noneCode :=
    word32?_behind (by decide) _ _ (le_length 4 0)
  rw [step, word32?_front (by decide), code]
  simp

theorem walkFrom_endMark (offset : Nat) (rest : Bytes) :
    walkFrom offset (le 4 0 ++ (le32 noneCode ++ rest)) = [] := by
  have ended := step_endMark offset rest
  rw [walkFrom]
  split
  · rfl
  · rename_i failed
    rw [ended] at failed
    cases failed
  · rename_i found
    rw [ended] at found
    cases found

end Tag

def TagEntry.tag : TagEntry → Tag
  | .initrd start size => .initrd start size
  | .memory start size => .memory start size
  | .commandLine line => .commandLine line

namespace TagWriter
open Bytes Tag

def padded (words : Nat) (payload : Bytes) : Bytes :=
  payload ++ zeros (max words 2 * 4 - 8 - payload.length)

theorem record_ok {w w' : TagWriter} {code : UInt32} {words : Nat} {payload : Bytes}
    (ok : w.record code words payload = .ok w') :
    words < wordLimit ∧ 8 + payload.length ≤ max words 2 * 4 ∧
      w.position + max words 2 * 4 ≤ w.buf.length ∧
      w' = ⟨w.buf.overwrite w.position (le 4 words ++ (le32 code ++ padded words payload)),
        w.position + max words 2 * 4⟩ := by
  unfold record at ok
  simp only at ok
  split at ok
  · cases ok
  · rename_i room
    split at ok
    · cases ok
    · rename_i sound
      cases ok
      refine ⟨by omega, by omega, by omega, ?_⟩
      simp only [padded, List.append_assoc]

def Adds (w w' : TagWriter) (bytes : Bytes) : Prop :=
  w.position + bytes.length ≤ w.buf.length ∧
    w' = ⟨w.buf.overwrite w.position bytes, w.position + bytes.length⟩

theorem Adds.append {w w' w'' : TagWriter} {first second : Bytes} (one : w.Adds w' first)
    (two : w'.Adds w'' second) : w.Adds w'' (first ++ second) := by
  obtain ⟨room, rfl⟩ := one
  obtain ⟨more, rfl⟩ := two
  have size := overwrite_length w.buf first w.position room
  simp only [size] at more
  rw [Adds, List.length_append, ← Nat.add_assoc, overwrite_append _ _ _ _ (by omega)]
  exact ⟨more, rfl⟩

theorem record_reads {w w' : TagWriter} {code : UInt32} {words : Nat} {payload : Bytes}
    (present : code ≠ noneCode) (least : 2 ≤ words) (ok : w.record code words payload = .ok w') :
    ∃ bytes, w.Adds w' bytes ∧ Reads bytes (ofPayload code (padded words payload)) := by
  obtain ⟨fits, inside, room, rfl⟩ := record_ok ok
  have most : max words 2 = words := Nat.max_eq_left least
  have body : (padded words payload).length = words * 4 - 8 := by
    simp only [padded, List.length_append, zeros_length, most] at inside ⊢
    omega
  have whole : (le 4 words ++ (le32 code ++ padded words payload)).length = max words 2 * 4 := by
    simp only [List.length_append, le32_length, le_length, body, most]
    omega
  exact ⟨_, ⟨by rw [whole]; exact room, by rw [whole]⟩, reads_record present least fits body⟩

theorem padded_full {words : Nat} {payload : Bytes} (full : payload.length = max words 2 * 4 - 8) :
    padded words payload = payload := by
  rw [padded, full, Nat.sub_self]
  exact List.append_nil _

theorem start_ok {buf : Bytes} {w : TagWriter} (ok : start buf = .ok w) :
    ∃ bytes, Adds ⟨buf, 0⟩ w bytes ∧ Reads bytes (.core none) :=
  record_reads (by decide) (Nat.le_refl 2) ok

theorem pair_reads {w w' : TagWriter} {code first second : UInt32} (present : code ≠ noneCode)
    (ok : w.record code 4 (le32 first ++ le32 second) = .ok w') :
    ∃ bytes, w.Adds w' bytes ∧ Reads bytes (ofPayload code (le32 first ++ le32 second)) := by
  obtain ⟨bytes, adds, reads⟩ := record_reads present (by decide) ok
  rw [padded_full (pair_length first second)] at reads
  exact ⟨bytes, adds, reads⟩

theorem put_ok {w w' : TagWriter} {entry : TagEntry} (ok : w.put entry = .ok w') :
    ∃ bytes, w.Adds w' bytes ∧ Reads bytes entry.tag := by
  cases entry with
  | initrd start size =>
    obtain ⟨bytes, adds, reads⟩ := pair_reads (by decide) ok
    rw [ofPayload_initrd] at reads
    exact ⟨bytes, adds, reads⟩
  | memory start size =>
    obtain ⟨bytes, adds, reads⟩ := pair_reads (by decide) ok
    rw [ofPayload_memory] at reads
    exact ⟨bytes, adds, reads⟩
  | commandLine line =>
    simp only [put] at ok
    split at ok
    · cases ok
    · rename_i plain
      have least : 2 ≤ commandLineWords line.length := Nat.le_add_left 2 _
      obtain ⟨bytes, adds, reads⟩ := record_reads (by decide) least ok
      have noNul : (0 : UInt8) ∉ line := by simpa using plain
      have meaning : ofPayload commandLineCode (padded (commandLineWords line.length) line) =
          .commandLine line := by
        simp only [ofPayload, padded, upToNul_zeros, upToNul_plain noNul]
        simp [coreCode, memoryCode, initrdCode, commandLineCode]
      rw [meaning] at reads
      exact ⟨bytes, adds, reads⟩

theorem putAll_ok {entries : List TagEntry} {w w' : TagWriter} (inside : w.position ≤ w.buf.length)
    (ok : w.putAll entries = (.ok (), w')) :
    ∃ bytes, w.Adds w' bytes ∧ AllRead bytes (entries.map TagEntry.tag) := by
  induction entries generalizing w with
  | nil =>
    cases ok
    refine ⟨[], ⟨inside, by rw [overwrite_nil, List.length_nil, Nat.add_zero]⟩, ?_⟩
    intro offset rest
    rfl
  | cons entry rest ih =>
    rw [putAll] at ok
    cases step : w.put entry with
    | error error =>
      rw [step] at ok
      cases ok
    | ok next =>
      rw [step] at ok
      obtain ⟨first, adds, reads⟩ := put_ok step
      have within : next.position ≤ next.buf.length := by
        obtain ⟨room, rfl⟩ := adds
        rw [overwrite_length _ _ _ room]
        exact room
      obtain ⟨second, addsMore, readsMore⟩ := ih within ok
      exact ⟨first ++ second, adds.append addsMore, reads.all.append readsMore⟩

theorem finish_ok {w w' : TagWriter} (ok : w.finish = .ok w') :
    w.Adds w' (le 4 0 ++ le32 noneCode) := by
  obtain ⟨_, _, room, rfl⟩ := record_ok ok
  exact ⟨room, rfl⟩

end TagWriter

theorem word?_exact {n : Nat} {w : UInt32} (small : word? n = some w) : w.toNat = n := by
  by_cases fits : n < wordLimit
  · rw [word?, if_pos fits] at small
    cases small
    simp only [wordLimit] at fits
    simp only [UInt32.toNat_ofNat']
    omega
  · rw [word?, if_neg fits] at small
    cases small

def bootTags (start size : UInt32) (memory : List MemoryRecord) (line : CommandLine) : List Tag :=
  .core none :: .initrd start size ::
    memory.map (fun r => .memory r.start r.size) ++ [.commandLine line.text]

theorem tagEntries_tags (start size : UInt32) (memory : List MemoryRecord) (line : CommandLine) :
    .core none :: (tagEntries start size memory line).map TagEntry.tag =
      bootTags start size memory line := by
  simp only [tagEntries, bootTags, List.map_append, List.map_cons, List.map_map, List.map_nil,
    List.cons_append, TagEntry.tag]
  rfl

/-- What a list is refused for: a ramdisk that is out of reach, or what the writer says. -/
theorem writeTags_error {buf : Bytes} {ramdisk : AddressRange} {memory : List MemoryRecord}
    {line : CommandLine} {e : LoadError} (failed : (writeTags buf ramdisk memory line).1 = .error e) :
    (∃ what address, e = .invalidAddress what address) ∨ ∃ refusal, e = .tags refusal := by
  unfold writeTags at failed
  split at failed
  · cases failed
    exact .inl ⟨_, _, rfl⟩
  · cases failed
    exact .inl ⟨_, _, rfl⟩
  · split at failed
    · cases failed
      exact .inr ⟨_, rfl⟩
    · split at failed
      · cases failed
        exact .inr ⟨_, rfl⟩
      · split at failed
        · cases failed
          exact .inr ⟨_, rfl⟩
        · cases failed

/-- A list that is written is walked as the records that are asked for, and ends there, whatever lies
    behind it. -/
theorem writeTags_ok {buf final : Bytes} {ramdisk : AddressRange} {memory : List MemoryRecord}
    {line : CommandLine} {length : Nat}
    (ok : writeTags buf ramdisk memory line = (.ok length, final)) :
    final.length = buf.length ∧ length ≤ buf.length ∧
      ∃ start size : UInt32, start.toNat = ramdisk.start ∧ size.toNat = ramdisk.len ∧
        ∀ rest, Tag.walk (final.take length ++ rest) =
          (bootTags start size memory line).map Except.ok := by
  unfold writeTags at ok
  split at ok
  · cases ok
  · cases ok
  · rename_i start size startWord sizeWord
    split at ok
    · cases ok
    · rename_i writer started
      split at ok
      · cases ok
      · rename_i filled put
        split at ok
        · cases ok
        · rename_i last finished
          cases ok
          obtain ⟨core, addsCore, readsCore⟩ := TagWriter.start_ok started
          have within : writer.position ≤ writer.buf.length := by
            obtain ⟨room, rfl⟩ := addsCore
            rw [Bytes.overwrite_length _ _ _ room]
            exact room
          obtain ⟨body, addsBody, readsBody⟩ := TagWriter.putAll_ok within put
          have adds := (addsCore.append addsBody).append (TagWriter.finish_ok finished)
          have reads := readsCore.all.append readsBody
          obtain ⟨room, rfl⟩ := adds
          simp only [Nat.zero_add] at room ⊢
          refine ⟨Bytes.overwrite_length _ _ _ (by rw [Nat.zero_add]; exact room), room, start, size,
            word?_exact startWord, word?_exact sizeWord, fun rest => ?_⟩
          have written : ((Bytes.overwrite buf 0
              (core ++ body ++ (Bytes.le 4 0 ++ Bytes.le32 Tag.noneCode))).take
                (core ++ body ++ (Bytes.le 4 0 ++ Bytes.le32 Tag.noneCode)).length) ++ rest =
              core ++ body ++ (Bytes.le 4 0 ++ (Bytes.le32 Tag.noneCode ++ rest)) := by
            rw [Bytes.overwrite_start, List.take_left' rfl]
            simp only [List.append_assoc]
          rw [written, Tag.walk, reads, Tag.walkFrom_endMark, List.append_nil, List.singleton_append,
            tagEntries_tags]

end KernelBoot
