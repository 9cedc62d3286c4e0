import KernelBoot.Proofs.Calls
import KernelBoot.Proofs.Tags.Lists

/-!
Tag lists that are put together call by call. The header of a record goes into the buffer before
its payload, so a call that were refused in between would leave the header behind. No record has
a payload too long for its words, so none is.
-/
namespace KernelBoot

namespace TagEntry
open Bytes Tag

def code : TagEntry → UInt32
  | .initrd _ _ => initrdCode
  | .memory _ _ => memoryCode
  | .commandLine _ => commandLineCode

def words : TagEntry → Nat
  | .initrd _ _ => 4
  | .memory _ _ => 4
  | .commandLine line => commandLineWords line.length

def payload : TagEntry → Bytes
  | .initrd start size => le32 start ++ le32 size
  | .memory start size => le32 size ++ le32 start
  | .commandLine line => line

def hasNul : TagEntry → Bool
  | .commandLine line => line.contains 0
  | _ => false

/-- A line of so many bytes has a word for the count of its words. -/
def Short : TagEntry → Prop
  | .commandLine line => line.length < 0x200000000
  | _ => True

theorem two_le_words (entry : TagEntry) : 2 ≤ entry.words := by
  cases entry with
  | initrd => exact (by decide : 2 ≤ 4)
  | memory => exact (by decide : 2 ≤ 4)
  | commandLine line => exact Nat.le_add_left 2 _

theorem Short.words_lt {entry : TagEntry} (short : entry.Short) : entry.words < wordLimit := by
  cases entry with
  | initrd => exact (by decide : 4 < wordLimit)
  | memory => exact (by decide : 4 < wordLimit)
  | commandLine line =>
    simp only [Short] at short
    simp only [words, commandLineWords, wordLimit]
    omega

theorem Short.payload_fits {entry : TagEntry} (short : entry.Short) :
    8 + entry.payload.length ≤ entry.words * 4 := by
  cases entry with
  | initrd start size => simp only [payload, pair_length, words]; omega
  | memory start size => simp only [payload, pair_length, words]; omega
  | commandLine line =>
    simp only [Short] at short
    simp only [payload, words, commandLineWords, wordLimit]
    omega

end TagEntry

namespace TagWriter
open Bytes Tag

/-- Header first, then the payload; the position moves with the header. -/
def recordInPlace (w : TagWriter) (tag : UInt32) (words : Nat) (payload : Bytes) :
    Except TagError Unit × TagWriter :=
  let stop := w.position + max words 2 * 4
  let needed := w.position + 8 + payload.length
  if stop > w.buf.length then (.error (.bufferTooSmall stop w.buf.length), w)
  else
    let headed := w.buf.overwrite w.position (le 4 words ++ le32 tag)
    if wordLimit ≤ words ∨ stop < needed then (.error (.bufferTooSmall needed stop), ⟨headed, stop⟩)
    else
      (.ok (), ⟨headed.overwrite (w.position + 8)
        (payload ++ zeros (max words 2 * 4 - 8 - payload.length)), stop⟩)

def putInPlace (w : TagWriter) (entry : TagEntry) : Except TagError Unit × TagWriter :=
  if entry.hasNul then (.error .commandLineContainsNul, w)
  else w.recordInPlace entry.code entry.words entry.payload

def startInPlace (buf : Bytes) : Option CoreTag → Except TagError Unit × TagWriter
  | none => recordInPlace ⟨buf, 0⟩ coreCode 2 []
  | some root => recordInPlace ⟨buf, 0⟩ coreCode 5
      (le32 root.flags ++ le32 root.pageSize ++ le32 root.rootDevice)

def coreWords : Option CoreTag → Nat
  | none => 2
  | some _ => 5

def finishInPlace (w : TagWriter) : Except TagError Nat × TagWriter :=
  let (result, w') := w.recordInPlace noneCode 0 []
  (result.map fun _ => w'.position, w')

variable {w w' : TagWriter} {tag : UInt32} {words : Nat} {payload : Bytes} {entry : TagEntry}

theorem record_eq_inPlace (w : TagWriter) (tag : UInt32) (words : Nat) (payload : Bytes) :
    w.record tag words payload =
      (w.recordInPlace tag words payload).1.map fun _ => (w.recordInPlace tag words payload).2 := by
  unfold record recordInPlace
  simp only
  by_cases full : w.position + max words 2 * 4 > w.buf.length
  · simp only [full, ↓reduceIte, Except.map]
  · have head : (le 4 words ++ le32 tag).length = 8 := by
      rw [List.length_append, le_length, le32_length]
    have joined := overwrite_append w.buf (le 4 words ++ le32 tag)
      (payload ++ zeros (max words 2 * 4 - 8 - payload.length)) w.position (by omega)
    rw [head] at joined
    by_cases unsound : wordLimit ≤ words ∨ w.position + max words 2 * 4 <
        w.position + 8 + payload.length
    · simp only [full, ↓reduceIte, unsound, Except.map]
    · simp only [full, ↓reduceIte, unsound, Except.map, joined, List.append_assoc]

theorem recordInPlace_refused (fits : words < wordLimit)
    (inside : 8 + payload.length ≤ max words 2 * 4) {e : TagError}
    (refused : (w.recordInPlace tag words payload).1 = .error e) :
    (w.recordInPlace tag words payload).2 = w := by
  unfold recordInPlace at refused ⊢
  simp only at refused ⊢
  by_cases full : w.position + max words 2 * 4 > w.buf.length
  · rw [if_pos full]
  · -- the only other refusal comes after the header, for words or payloads out of bounds
    have sound : ¬ (wordLimit ≤ words ∨
        w.position + max words 2 * 4 < w.position + 8 + payload.length) := by omega
    rw [if_neg full, if_neg sound] at refused
    cases refused

theorem record_enough (w : TagWriter) (tag : UInt32) {words : Nat} {payload : Bytes}
    (fits : words < wordLimit) (inside : 8 + payload.length ≤ max words 2 * 4)
    (room : w.position + max words 2 * 4 ≤ w.buf.length) :
    ∃ w', w.record tag words payload = .ok w' := by
  have enough : ¬ w.position + max words 2 * 4 > w.buf.length := by omega
  have sound : ¬ (wordLimit ≤ words ∨
      w.position + max words 2 * 4 < w.position + 8 + payload.length) := by omega
  rw [record]
  simp only [enough, sound, ↓reduceIte]
  exact ⟨_, rfl⟩

theorem put_eq_record (plain : entry.hasNul = false) :
    w.put entry = w.record entry.code entry.words entry.payload := by
  cases entry with
  | initrd => rfl
  | memory => rfl
  | commandLine line =>
    have none : ¬ line.contains 0 = true := by simpa [TagEntry.hasNul] using plain
    rw [put, if_neg none]
    rfl

theorem put_nul (nul : entry.hasNul = true) : w.put entry = .error .commandLineContainsNul := by
  cases entry with
  | initrd => cases nul
  | memory => cases nul
  | commandLine line => exact if_pos nul

theorem record_refused {e : TagError} (refused : w.record tag words payload = .error e) :
    ∃ needed available, e = .bufferTooSmall needed available := by
  simp only [record] at refused
  split at refused
  · cases refused
    exact ⟨_, _, rfl⟩
  · split at refused
    · cases refused
      exact ⟨_, _, rfl⟩
    · cases refused

/-- Without a NUL in its line, an entry is only refused for lack of room. -/
theorem put_refused (plain : entry.hasNul = false) {e : TagError} (refused : w.put entry = .error e) :
    ∃ needed available, e = .bufferTooSmall needed available := by
  rw [put_eq_record plain] at refused
  exact record_refused refused

theorem put_eq_inPlace (w : TagWriter) (entry : TagEntry) :
    w.put entry = (w.putInPlace entry).1.map fun _ => (w.putInPlace entry).2 := by
  rw [putInPlace]
  cases nul : entry.hasNul with
  | true => exact put_nul nul
  | false => rw [put_eq_record nul, record_eq_inPlace]; rfl

theorem start_eq_inPlace (buf : Bytes) (root : Option CoreTag) :
    root.elim (start buf) (startWith buf) =
      (startInPlace buf root).1.map fun _ => (startInPlace buf root).2 := by
  cases root with
  | none => exact record_eq_inPlace ⟨buf, 0⟩ coreCode 2 []
  | some root => exact record_eq_inPlace ⟨buf, 0⟩ coreCode 5 _

theorem finish_eq_inPlace (w : TagWriter) :
    w.finish = w.finishInPlace.1.map fun _ => w.finishInPlace.2 := by
  rw [finish, record_eq_inPlace, finishInPlace]
  rcases w.recordInPlace noneCode 0 [] with ⟨result, w'⟩
  cases result <;> rfl

theorem record_room (ok : w.record tag words payload = .ok w') :
    w'.position = w.position + max words 2 * 4 ∧ w'.position ≤ w'.buf.length ∧
      w'.buf.length = w.buf.length := by
  obtain ⟨_, inside, room, rfl⟩ := record_ok ok
  have whole : (le 4 words ++ (le32 tag ++ padded words payload)).length = max words 2 * 4 := by
    simp only [List.length_append, le_length, le32_length, padded, zeros_length]
    omega
  have length := overwrite_length w.buf (le 4 words ++ (le32 tag ++ padded words payload))
    w.position (whole.symm ▸ room)
  exact ⟨rfl, length.symm ▸ room, length⟩

theorem put_room (ok : w.put entry = .ok w') :
    w'.position = w.position + entry.words * 4 ∧ w'.position ≤ w'.buf.length ∧
      w'.buf.length = w.buf.length := by
  cases nul : entry.hasNul with
  | true =>
    rw [put_nul nul] at ok
    cases ok
  | false =>
    rw [put_eq_record nul] at ok
    have room := record_room ok
    rw [Nat.max_eq_left entry.two_le_words] at room
    exact room

theorem put_enough (short : entry.Short) (plain : entry.hasNul = false)
    (room : w.position + entry.words * 4 ≤ w.buf.length) : ∃ w', w.put entry = .ok w' := by
  have most : max entry.words 2 = entry.words := Nat.max_eq_left entry.two_le_words
  rw [put_eq_record plain]
  refine record_enough w entry.code short.words_lt ?_ ?_
  · rw [most]
    exact short.payload_fits
  · rw [most]
    exact room

def Wrote (w : TagWriter) (entries : List TagEntry) (w' : TagWriter) : Prop :=
  ∃ bytes, w.Adds w' bytes ∧ AllRead bytes (entries.map TagEntry.tag) ∧
    bytes.length = sumOf TagEntry.words entries * 4

theorem accumulates : Accumulates putInPlace TagEntry.Short
    (fun w => w.position ≤ w.buf.length) Wrote where
  nothing := by
    intro w inside
    refine ⟨[], ⟨inside, ?_⟩, ?_, ?_⟩
    · rw [overwrite_nil, List.length_nil, Nat.add_zero]
    · intro offset rest
      rfl
    · rw [sumOf_nil, Nat.zero_mul, List.length_nil]
  success := by
    intro w entry _ w' short inside done
    have ok : w.put entry = .ok w' := by
      rw [put_eq_inPlace, done]
      rfl
    obtain ⟨position, within, _⟩ := put_room ok
    obtain ⟨bytes, adds, reads⟩ := put_ok ok
    refine ⟨within, bytes, adds, reads.all, ?_⟩
    rw [adds.2] at position
    simp only [sumOf_cons, sumOf_nil, Nat.add_zero] at position ⊢
    omega
  failure := by
    intro w entry e w' short _ failed
    rw [putInPlace] at failed
    cases nul : entry.hasNul with
    | true =>
      rw [if_pos nul] at failed
      exact (congrArg Prod.snd failed).symm
    | false =>
      rw [if_neg (by simp [nul])] at failed
      have most : max entry.words 2 = entry.words := Nat.max_eq_left entry.two_le_words
      have kept := recordInPlace_refused short.words_lt (most.symm ▸ short.payload_fits)
        (congrArg Prod.fst failed)
      rw [← kept]
      exact (congrArg Prod.snd failed).symm
  append := by
    intro w entries w' more w'' ⟨first, adds, reads, length⟩ ⟨second, adds', reads', length'⟩
    refine ⟨first ++ second, adds.append adds', ?_, ?_⟩
    · rw [List.map_append]
      exact reads.append reads'
    · rw [List.length_append, length, length', sumOf_append, Nat.add_mul]

theorem triple_length (a b c : UInt32) : (le32 a ++ le32 b ++ le32 c).length = 12 := by
  rw [List.length_append, pair_length, le32_length]

theorem ofPayload_core (root : CoreTag) :
    ofPayload coreCode (le32 root.flags ++ le32 root.pageSize ++ le32 root.rootDevice) =
      .core (some root) := by
  obtain ⟨a, b, c⟩ := root
  have first : word32 (le32 a ++ le32 b ++ le32 c) 0 = a := by
    rw [List.append_assoc, le32, word32_front (le32_lt a), UInt32.ofNat_toNat]
  have second : word32 (le32 a ++ le32 b ++ le32 c) 4 = b := by
    rw [List.append_assoc, word32, slice_behind _ _ 4 (le32_length a),
      slice_front _ _ (le32_length b), le32, ofLe_le 4 _ (le32_lt b), UInt32.ofNat_toNat]
  have third : word32 (le32 a ++ le32 b ++ le32 c) 8 = c := by
    have only := slice_front (le32 c) [] (le32_length c)
    rw [List.append_nil] at only
    rw [word32, slice_behind _ _ 4 (pair_length a b), only, le32, ofLe_le 4 _ (le32_lt c),
      UInt32.ofNat_toNat]
  simp only [ofPayload, first, second, third, triple_length]
  simp

theorem startInPlace_ok {buf : Bytes} {root : Option CoreTag}
    (started : startInPlace buf root = (.ok (), w)) :
    ∃ bytes, Adds ⟨buf, 0⟩ w bytes ∧ Reads bytes (.core root) ∧
      bytes.length = coreWords root * 4 := by
  have ok := start_eq_inPlace buf root
  rw [started] at ok
  cases root with
  | none =>
    obtain ⟨bytes, adds, reads⟩ := record_reads (by decide) (Nat.le_refl 2) ok
    have position := (record_room ok).1
    rw [adds.2] at position
    exact ⟨bytes, adds, reads, by simpa [coreWords] using position⟩
  | some root =>
    obtain ⟨bytes, adds, reads⟩ := record_reads (by decide) (by decide) ok
    have position := (record_room ok).1
    rw [padded_full (triple_length _ _ _), ofPayload_core] at reads
    rw [adds.2] at position
    exact ⟨bytes, adds, reads, by simpa [coreWords] using position⟩

theorem startInPlace_refused {buf : Bytes} {root : Option CoreTag} {e : TagError}
    (refused : (startInPlace buf root).1 = .error e) : (startInPlace buf root).2 = ⟨buf, 0⟩ := by
  cases root with
  | none => exact recordInPlace_refused (by decide) (by decide) refused
  | some root =>
    refine recordInPlace_refused (by decide) ?_ refused
    rw [triple_length]
    decide

theorem finishInPlace_refused {e : TagError} (refused : w.finishInPlace.1 = .error e) :
    w.finishInPlace.2 = w := by
  have kept : ∀ e, (w.recordInPlace noneCode 0 []).1 = .error e →
      (w.recordInPlace noneCode 0 []).2 = w :=
    fun e => recordInPlace_refused (by decide) (by decide)
  rw [finishInPlace] at refused ⊢
  generalize w.recordInPlace noneCode 0 [] = outcome at refused kept ⊢
  obtain ⟨result, w'⟩ := outcome
  cases result with
  | error error => exact kept error rfl
  | ok _ => cases refused

theorem finishInPlace_ok {len : Nat} (done : w.finishInPlace.1 = .ok len) :
    w.Adds w.finishInPlace.2 (le 4 0 ++ le32 noneCode) ∧ len = w.position + 8 := by
  have ok : w.finish = .ok w.finishInPlace.2 := by
    rw [finish_eq_inPlace, done]
    rfl
  have adds := finish_ok ok
  refine ⟨adds, ?_⟩
  have position : w.finishInPlace.2.position = len := by
    rw [finishInPlace] at done ⊢
    generalize w.recordInPlace noneCode 0 [] = outcome at done ⊢
    obtain ⟨result, w'⟩ := outcome
    cases result with
    | error e => cases done
    | ok _ => exact Except.ok.inj done
  rw [← position, adds.2]
  rfl

theorem startInPlace_inside {buf : Bytes} {root : Option CoreTag}
    (started : startInPlace buf root = (.ok (), w)) : w.position ≤ w.buf.length := by
  obtain ⟨bytes, ⟨room, rfl⟩, _⟩ := startInPlace_ok started
  rw [overwrite_length _ _ _ room]
  exact room

theorem Wrote.finished {buf : Bytes} {root : Option CoreTag} {entries : List TagEntry}
    (wrote : w.Wrote entries w') (started : startInPlace buf root = (.ok (), w)) {len : Nat}
    (done : w'.finishInPlace.1 = .ok len) :
    len = 8 + 4 * (coreWords root + sumOf TagEntry.words entries) ∧
      ∀ rest, walk (w'.finishInPlace.2.buf.take len ++ rest) =
        (core root :: entries.map TagEntry.tag).map .ok := by
  obtain ⟨first, addsFirst, readsFirst, firstLength⟩ := startInPlace_ok started
  obtain ⟨body, addsBody, readsBody, bodyLength⟩ := wrote
  obtain ⟨addsLast, stop⟩ := finishInPlace_ok done
  have reads := readsFirst.all.append readsBody
  have before : w'.position = (first ++ body).length := by
    rw [(addsFirst.append addsBody).2, Nat.zero_add]
  obtain ⟨room, final⟩ := (addsFirst.append addsBody).append addsLast
  have whole : len = (first ++ body ++ (le 4 0 ++ le32 noneCode)).length := by
    rw [stop, before]
    simp only [List.length_append, le_length, le32_length]
  constructor
  · rw [stop, before, List.length_append, firstLength, bodyLength]
    omega
  · intro rest
    rw [final, overwrite_start, List.take_left' whole.symm, List.append_assoc _ _ rest,
      List.append_assoc (le 4 0), walk, reads, walkFrom_endMark, List.append_nil,
      List.singleton_append]

theorem putAll_room {entries : List TagEntry} (inside : w.position ≤ w.buf.length)
    (ok : w.putAll entries = (.ok (), w')) :
    w'.position = w.position + sumOf TagEntry.words entries * 4 ∧
      w'.position ≤ w'.buf.length ∧ w'.buf.length = w.buf.length := by
  induction entries generalizing w with
  | nil =>
    cases ok
    exact ⟨by simp, inside, rfl⟩
  | cons entry rest ih =>
    rw [putAll] at ok
    cases step : w.put entry with
    | error e =>
      rw [step] at ok
      cases ok
    | ok next =>
      rw [step] at ok
      obtain ⟨moved, within, same⟩ := put_room step
      obtain ⟨position, bound, length⟩ := ih within ok
      refine ⟨?_, bound, length.trans same⟩
      rw [position, moved, sumOf_cons]
      omega

theorem putAll_length (w : TagWriter) (entries : List TagEntry) :
    (w.putAll entries).2.buf.length = w.buf.length := by
  induction entries generalizing w with
  | nil => rfl
  | cons entry rest ih =>
    rw [putAll]
    split
    · rfl
    · rename_i next step
      rw [ih, (put_room step).2.2]

theorem putAll_enough {entries : List TagEntry} (short : ∀ e ∈ entries, e.Short)
    (plain : ∀ e ∈ entries, e.hasNul = false)
    (room : w.position + sumOf TagEntry.words entries * 4 ≤ w.buf.length) :
    ∃ w', w.putAll entries = (.ok (), w') := by
  induction entries generalizing w with
  | nil => exact ⟨w, rfl⟩
  | cons entry rest ih =>
    rw [sumOf_cons] at room
    obtain ⟨next, step⟩ := put_enough (w := w) (short entry List.mem_cons_self)
      (plain entry List.mem_cons_self) (by omega)
    obtain ⟨moved, within, same⟩ := put_room step
    obtain ⟨last, done⟩ := ih (w := next) (fun e member => short e (List.mem_cons_of_mem _ member))
      (fun e member => plain e (List.mem_cons_of_mem _ member)) (by omega)
    refine ⟨last, ?_⟩
    rw [putAll, step]
    exact done

theorem putAll_refused {entries : List TagEntry} (plain : ∀ e ∈ entries, e.hasNul = false)
    {e : TagError} (refused : (w.putAll entries).1 = .error e) :
    ∃ needed available, e = .bufferTooSmall needed available := by
  induction entries generalizing w with
  | nil => cases refused
  | cons entry rest ih =>
    obtain ⟨first, later⟩ := List.forall_mem_cons.mp plain
    rw [putAll] at refused
    cases step : w.put entry with
    | error e' =>
      rw [step] at refused
      cases refused
      exact put_refused first step
    | ok next =>
      rw [step] at refused
      exact ih later refused

end TagWriter

open TagWriter

theorem tagEntries_words (start size : UInt32) (memory : List MemoryRecord) (line : CommandLine) :
    8 + sumOf TagEntry.words (tagEntries start size memory line) * 4 + 8 =
      tagListLength memory line := by
  have regions : sumOf TagEntry.words (memory.map fun r => TagEntry.memory r.start r.size) =
      memory.length * 4 := by
    induction memory with
    | nil => rfl
    | cons r rest ih =>
      simp only [List.map_cons, sumOf_cons, ih, List.length_cons, TagEntry.words]
      omega
  simp only [tagEntries, List.cons_append, sumOf_cons, sumOf_append, regions, sumOf_nil,
    TagEntry.words, tagListLength, Tag.listLength]
  omega

theorem tagEntries_short {start size : UInt32} {memory : List MemoryRecord} {line : CommandLine}
    (short : line.text.length < 0x200000000) :
    ∀ entry ∈ tagEntries start size memory line, entry.Short := by
  intro entry member
  simp only [tagEntries, List.cons_append, List.mem_cons, List.mem_append, List.mem_map,
    List.not_mem_nil, or_false] at member
  rcases member with rfl | ⟨r, _, rfl⟩ | rfl
  · trivial
  · trivial
  · exact short

theorem tagEntries_plain {start size : UInt32} {memory : List MemoryRecord} {line : CommandLine}
    (plain : (0 : UInt8) ∉ line.text) :
    ∀ entry ∈ tagEntries start size memory line, entry.hasNul = false := by
  intro entry member
  simp only [tagEntries, List.cons_append, List.mem_cons, List.mem_append, List.mem_map,
    List.not_mem_nil, or_false] at member
  rcases member with rfl | ⟨r, _, rfl⟩ | rfl
  · rfl
  · rfl
  · simpa [TagEntry.hasNul] using plain

section BootList
variable {buf : Bytes} {ramdisk : AddressRange} {memory : List MemoryRecord} {line : CommandLine}
  {length : Nat}

theorem writeTags_length (ok : (writeTags buf ramdisk memory line).1 = .ok length) :
    length = tagListLength memory line ∧ length ≤ buf.length := by
  unfold writeTags at ok
  split at ok
  · cases ok
  · cases ok
  · rename_i start size _ _
    split at ok
    · cases ok
    · rename_i w first
      obtain ⟨position, within, same⟩ := record_room first
      split at ok
      · cases ok
      · rename_i next all
        obtain ⟨moved, bound, kept⟩ := putAll_room within all
        split at ok
        · cases ok
        · rename_i w' last
          obtain ⟨stop, inside, sized⟩ := record_room last
          cases ok
          have words := tagEntries_words start size memory line
          simp only [Nat.zero_add, Nat.max_self] at position same
          have final : w'.position = next.position + 8 := stop
          omega

theorem writeTags_buffer (buf : Bytes) (ramdisk : AddressRange) (memory : List MemoryRecord)
    (line : CommandLine) : (writeTags buf ramdisk memory line).2.length = buf.length := by
  unfold writeTags
  split
  · rfl
  · rfl
  · rename_i start size _ _
    split
    · rfl
    · rename_i w first
      have added := (putAll_length w (tagEntries start size memory line)).trans
        (record_room first).2.2
      split
      · rename_i outcome
        rwa [outcome] at added
      · rename_i next outcome
        rw [outcome] at added
        split
        · exact added
        · rename_i last finished
          exact (record_room finished).2.2.trans added

/-- A list whose line has no NUL is refused by nothing but a lack of room. -/
theorem writeTags_refused (plain : (0 : UInt8) ∉ line.text) {e : TagError}
    (refused : (writeTags buf ramdisk memory line).1 = .error (.tags e)) :
    ∃ needed available, e = .bufferTooSmall needed available := by
  unfold writeTags at refused
  split at refused
  · cases refused
  · cases refused
  · rename_i start size _ _
    split at refused
    · rename_i first
      cases refused
      exact record_refused first
    · rename_i w _
      split at refused
      · rename_i all
        cases refused
        exact putAll_refused (tagEntries_plain plain) (congrArg Prod.fst all)
      · split at refused
        · rename_i last
          cases refused
          exact record_refused last
        · cases refused

theorem writeTags_enough (start : ramdisk.start < wordLimit) (size : ramdisk.len < wordLimit)
    (plain : (0 : UInt8) ∉ line.text) (short : line.text.length < 0x200000000)
    (room : tagListLength memory line ≤ buf.length) :
    (writeTags buf ramdisk memory line).1 = .ok (tagListLength memory line) := by
  have words := tagEntries_words (UInt32.ofNat ramdisk.start) (UInt32.ofNat ramdisk.len) memory line
  obtain ⟨w, first⟩ : ∃ w, TagWriter.start buf = .ok w :=
    record_enough ⟨buf, 0⟩ Tag.coreCode (by decide) (by decide) (by simp only; omega)
  obtain ⟨position, within, same⟩ := record_room first
  simp only [Nat.zero_add, Nat.max_self] at position same
  obtain ⟨next, all⟩ : ∃ next, w.putAll
      (tagEntries (UInt32.ofNat ramdisk.start) (UInt32.ofNat ramdisk.len) memory line) =
        (.ok (), next) :=
    putAll_enough (tagEntries_short short) (tagEntries_plain plain) (by omega)
  obtain ⟨moved, _, kept⟩ := putAll_room within all
  obtain ⟨w', last⟩ : ∃ w', next.finish = .ok w' :=
    record_enough next Tag.noneCode (by decide) (by decide) (by omega)
  have stop : w'.position = next.position + 8 := (record_room last).1
  have startWord : word? ramdisk.start = some (UInt32.ofNat ramdisk.start) := if_pos start
  have sizeWord : word? ramdisk.len = some (UInt32.ofNat ramdisk.len) := if_pos size
  simp only [writeTags, startWord, sizeWord, first, all, last, Except.ok.injEq]
  omega

end BootList

/-- Calls on a list that has been started, in any order and failing or not. What is finished is
    walked as the core record and the entries of the calls that succeeded, whatever lies behind. The
    list for a kernel is written just where there is room for the length that is predicted, and is
    walked as all its records. -/
theorem tag_calls_walk (buf : Bytes) (root : Option CoreTag) (calls : List TagEntry)
    (short : ∀ entry ∈ calls, entry.Short) :
    (∀ e, (startInPlace buf root).1 = .error e → (startInPlace buf root).2 = ⟨buf, 0⟩) ∧
    (∀ w, startInPlace buf root = (.ok (), w) →
      KeepsOnFailure (turns putInPlace w calls) ∧
      (∀ e, (stateAfter putInPlace w calls).finishInPlace.1 = .error e →
        (stateAfter putInPlace w calls).finishInPlace.2 = stateAfter putInPlace w calls) ∧
      ∀ len, (stateAfter putInPlace w calls).finishInPlace.1 = .ok len →
        len = 8 + 4 * (coreWords root + sumOf TagEntry.words (accepted (turns putInPlace w calls))) ∧
        ∀ rest, Tag.walk ((stateAfter putInPlace w calls).finishInPlace.2.buf.take len ++ rest) =
          (Tag.core root :: (accepted (turns putInPlace w calls)).map TagEntry.tag).map .ok) ∧
    ∀ (ramdisk : AddressRange) (memory : List MemoryRecord) (line : CommandLine),
      ramdisk.start < wordLimit → ramdisk.len < wordLimit → (0 : UInt8) ∉ line.text →
      line.text.length < 0x200000000 → ∀ length,
        ((writeTags buf ramdisk memory line).1 = .ok length ↔
          tagListLength memory line ≤ buf.length ∧ length = tagListLength memory line) ∧
        ((writeTags buf ramdisk memory line).1 = .ok length → ∀ rest,
          Tag.walk ((writeTags buf ramdisk memory line).2.take length ++ rest) =
            (bootTags (.ofNat ramdisk.start) (.ofNat ramdisk.len) memory line).map .ok) := by
  refine ⟨fun e refused => startInPlace_refused refused, ?_, ?_⟩
  · intro w started
    obtain ⟨_, wrote⟩ := accumulates.run short (startInPlace_inside started)
    refine ⟨accumulates.failed short (startInPlace_inside started),
      fun e refused => finishInPlace_refused refused, ?_⟩
    intro len done
    exact wrote.finished started done
  · intro ramdisk memory line start size plain short length
    refine ⟨⟨?_, ?_⟩, ?_⟩
    · intro ok
      obtain ⟨same, inside⟩ := writeTags_length ok
      exact ⟨same ▸ inside, same⟩
    · rintro ⟨room, rfl⟩
      exact writeTags_enough start size plain short room
    · intro ok
      obtain ⟨_, _, startWord, sizeWord, startEq, sizeEq, walked⟩ := writeTags_ok (Prod.ext ok rfl)
      rw [← startEq, ← sizeEq, UInt32.ofNat_toNat, UInt32.ofNat_toNat]
      exact walked

/-- The second call has a NUL in its line, and the third finds too little room. -/
def fourEntries : List TagEntry :=
  [.initrd 0x11000000 2, .commandLine [0x61, 0, 0x62], .commandLine (List.replicate 24 0x63),
    .commandLine [0x64]]

theorem tag_calls_fourEntries :
    let w := (startInPlace (Bytes.zeros 48) none).2
    (stateAfter putInPlace w fourEntries).finishInPlace.1 = .ok 44 ∧
      KeepsOnFailure (turns putInPlace w fourEntries) ∧
      (∀ rest, Tag.walk ((stateAfter putInPlace w fourEntries).finishInPlace.2.buf.take 44 ++ rest) =
        [.ok (.core none), .ok (.initrd 0x11000000 2), .ok (.commandLine [0x64])]) ∧
      let list := writeTags (Bytes.zeros 48) (.between 0x11000000 0x11000002) [] ⟨[0x64]⟩
      list.1 = .ok 44 ∧ ∀ rest, Tag.walk (list.2.take 44 ++ rest) =
        [.ok (.core none), .ok (.initrd 0x11000000 2), .ok (.commandLine [0x64])] := by
  intro w
  have short : ∀ entry ∈ fourEntries, entry.Short := by
    simp [fourEntries, TagEntry.Short]
  obtain ⟨_, runs, lists⟩ := tag_calls_walk (Bytes.zeros 48) none fourEntries short
  have done : (stateAfter putInPlace w fourEntries).finishInPlace.1 = .ok 44 := by decide +kernel
  have added : accepted (turns putInPlace w fourEntries) =
      [.initrd 0x11000000 2, .commandLine [0x64]] := by
    decide +kernel
  have started : startInPlace (Bytes.zeros 48) none = (.ok (), w) :=
    Prod.ext (by decide +kernel) rfl
  obtain ⟨kept, _, finished⟩ := runs w started
  have walked := (finished 44 done).2
  rw [added] at walked
  obtain ⟨written, read⟩ := lists (.between 0x11000000 0x11000002) [] ⟨[0x64]⟩ (by decide)
    (by decide) (by decide) (by decide) 44
  have ok := written.mpr ⟨by decide, by decide⟩
  exact ⟨done, kept, walked, ok, read ok⟩

end KernelBoot
