import KernelBoot.Proofs.Archive.RoundTrip
import KernelBoot.Proofs.Archive.Stepwise

/-!
Writing a table that cannot be written as a whole. A record goes out complete or not at all, also
when its fields are put into the buffer one by one, so the buffer then holds the records of the
members in front of one of them, and behind these its old bytes. That one has no name, sizes beyond
its header fields, or no room.
-/
namespace KernelBoot

namespace Writer

def recordInPlace (w : Writer) (header : RecordHeader) (name data : Bytes) :
    Except ArchiveError Unit × Writer :=
  let outcome := w.follow (recordSteps header name data)
  (outcome.1.mapError WindowError.archive, outcome.2)

theorem recordInPlace_eq {w : Writer} {header : RecordHeader} {name data : Bytes}
    (aligned : 4 ∣ w.position) (inside : w.position ≤ w.buf.length)
    (fits : header.Fits name data) :
    w.recordInPlace header name data =
      match w.record header name data with
      | .error error => (.error error.archive, w)
      | .ok next => (.ok (), next) := by
  have unchanged := fun {e} => follow_refused (e := e) aligned inside fits
  rw [record_eq_follow, recordInPlace]
  generalize w.follow (recordSteps header name data) = outcome at unchanged ⊢
  obtain ⟨result, next⟩ := outcome
  cases result with
  | error error =>
    obtain rfl : next = w := unchanged rfl
    rfl
  | ok _ => rfl

end Writer

namespace Entry

theorem withSizes_error {header : RecordHeader} {name data : Bytes} {error : ArchiveError}
    (refused : header.withSizes name data = .error error) :
    ∃ value, wordLimit ≤ value ∧ (value = name.length + 1 ∨ value = data.length) ∧
      error = .fieldOverflow value 8 := by
  simp only [RecordHeader.withSizes, RecordHeader.sizeField, bind, Except.bind, pure,
    Except.pure] at refused
  by_cases nameFits : name.length + 1 < wordLimit
  · by_cases dataFits : data.length < wordLimit
    · simp [nameFits, dataFits] at refused
    · simp only [nameFits, dataFits, ↓reduceIte, Except.error.injEq] at refused
      exact ⟨data.length, Nat.not_lt.mp dataFits, .inr rfl, refused.symm⟩
  · simp only [nameFits, ↓reduceIte, Except.error.injEq] at refused
    exact ⟨name.length + 1, Nat.not_lt.mp nameFits, .inl rfl, refused.symm⟩

theorem Writable.encodedLength_lt {e : Entry} (writable : e.Writable) :
    e.encodedLength < 0x400000000 := by
  have name := writable.name_fits
  have data := writable.data_fits
  simp only [nameSize, wordLimit] at name data
  simp only [encodedLength, entrySize, align4, nameSize]
  omega

end Entry

namespace Archive
open RecordHeader

/-- The end of a record, as a refusal names it: cut to 64 bits, which changes nothing in a buffer
    of less than 2^63 bytes, and no larger one fits into memory. -/
structure Told (stop size needed : Nat) : Prop where
  capped : needed = min stop 0xFFFFFFFFFFFFFFFF
  exact : size < 0x8000000000000000 → needed = stop

/-- Why the records of a table end in front of `rest`, in a buffer of `size` bytes and where the
    next record would start at `position`. -/
inductive Stops (size position : Nat) : List Entry → ArchiveError → Prop
  | unnamed {e : Entry} {more : List Entry} (none : e.name = []) :
      Stops size position (e :: more) .emptyName
  | oversized {e : Entry} {more : List Entry} {value : Nat} (named : e.name ≠ [])
      (field : value = e.nameSize ∨ value = e.data.length) (large : wordLimit ≤ value) :
      Stops size position (e :: more) (.fieldOverflow value 8)
  | full {e : Entry} {more : List Entry} {needed : Nat} (writable : e.Writable)
      (short : size < position + e.encodedLength)
      (told : Told (position + e.encodedLength) size needed) :
      Stops size position (e :: more) (.bufferTooSmall needed size)
  | trailer {needed : Nat} (short : size < position + trailerHeader.recordSize)
      (told : Told (position + trailerHeader.recordSize) size needed) :
      Stops size position [] (.bufferTooSmall needed size)

theorem told_of_small {position length size : Nat} (inside : position ≤ size)
    (small : length < 0x400000000) :
    Told (position + length) size (min (position + length) 0xFFFFFFFFFFFFFFFF) where
  capped := rfl
  exact := by omega

theorem stops_of_header {e : Entry} {error : ArchiveError} (refused : e.header = .error error)
    (size position : Nat) (more : List Entry) : Stops size position (e :: more) error := by
  rw [e.header_eq] at refused
  by_cases none : e.name = []
  · rw [none] at refused
    cases refused
    exact .unnamed none
  · rw [if_neg (by simpa using none)] at refused
    obtain ⟨value, large, field, rfl⟩ := Entry.withSizes_error refused
    exact .oversized none field large

/-- A run of records that fails, from any position that is a multiple of four. By induction on the
    members; what stops the run behind the first stops it one record later. -/
theorem writeRecords_stops (entries : List Entry) {w final : Writer} {error : ArchiveError}
    (aligned : 4 ∣ w.position) (inside : w.position ≤ w.buf.length)
    (failed : writeRecords w entries = (.error error, final)) :
    ∃ before rest, entries = before ++ rest ∧ (∀ e ∈ before, e.Writable) ∧
      w.position + (records before).length ≤ w.buf.length ∧
      final = ⟨w.buf.overwrite w.position (records before),
        w.position + (records before).length⟩ ∧
      Stops w.buf.length (w.position + (records before).length) rest error := by
  have here : ∀ w : Writer,
      w = ⟨w.buf.overwrite w.position (records []), w.position + (records []).length⟩ := by
    intro w
    have nothing : records [] = [] := rfl
    rw [nothing, Bytes.overwrite_nil, List.length_nil, Nat.add_zero]
  induction entries generalizing w with
  | nil =>
    rcases writeRecords_nil aligned with ⟨_, run⟩ | ⟨short, run⟩
    · rw [run] at failed
      cases failed
    · rw [run] at failed
      cases failed
      exact ⟨[], [], rfl, by simp, inside, here _,
        .trailer short (told_of_small inside (by decide))⟩
  | cons e rest ih =>
    rcases writeRecords_cons e rest aligned with
      ⟨reason, sealed, run⟩ | ⟨writable, short, run⟩ | ⟨writable, room, run⟩
    · rw [run] at failed
      cases failed
      exact ⟨[], e :: rest, rfl, by simp, inside, here _, stops_of_header sealed _ _ rest⟩
    · rw [run] at failed
      cases failed
      exact ⟨[], e :: rest, rfl, by simp, inside, here _,
        .full writable short (told_of_small inside writable.encodedLength_lt)⟩
    · rw [run] at failed
      obtain ⟨size, next⟩ := record_next aligned room
      obtain ⟨before, after, split, others, fits, reached, stop⟩ :=
        ih next (by simp only [size]; exact room) failed
      have whole : (records (e :: before)).length = e.encodedLength + (records before).length := by
        rw [records_cons, List.length_append, Entry.record_length]
      simp only [size, Nat.add_assoc] at fits reached stop
      rw [← Entry.record_length, Bytes.overwrite_append _ _ _ _ inside, ← records_cons,
        Entry.record_length, ← whole] at reached
      rw [← whole] at fits stop
      exact ⟨e :: before, after, by rw [split, List.cons_append],
        List.forall_mem_cons.mpr ⟨writable, others⟩, fits, reached, stop⟩

/-- Members that can all be written fail for lack of room alone. -/
theorem writeRecords_short {entries : List Entry} {w : Writer} (aligned : 4 ∣ w.position)
    (inside : w.position ≤ w.buf.length) (writable : ∀ e ∈ entries, e.Writable)
    (short : w.buf.length < writtenEnd w.position entries) :
    ∃ needed, (writeRecords w entries).1 = .error (.bufferTooSmall needed w.buf.length) := by
  cases run : writeRecords w entries with
  | mk result final =>
    cases result with
    | ok _ =>
      obtain ⟨_, room, _⟩ := (writeRecords_eq_ok_iff entries w final aligned inside).mp run
      omega
    | error error =>
      obtain ⟨before, rest, split, _, _, _, stop⟩ := writeRecords_stops entries aligned inside run
      cases stop with
      | @unnamed e more none =>
        have named := (writable e (by rw [split]; simp)).named
        exact absurd none named
      | @oversized e more value _ field large =>
        have fits := writable e (by rw [split]; simp)
        have name := fits.name_fits
        have data := fits.data_fits
        omega
      | @full e more needed => exact ⟨needed, rfl⟩
      | @trailer needed => exact ⟨needed, rfl⟩

theorem writeRecords_unnamed {entries : List Entry} {w : Writer} (aligned : 4 ∣ w.position)
    (inside : w.position ≤ w.buf.length)
    (failed : (writeRecords w entries).1 = .error .emptyName) : ∃ e ∈ entries, e.name = [] := by
  obtain ⟨before, rest, split, _, _, _, stop⟩ :=
    writeRecords_stops entries aligned inside (Prod.ext failed rfl)
  cases stop with
  | @unnamed e more none => exact ⟨e, by rw [split]; simp, none⟩

/-- With sizes that fit and room for all, a member without a name is the only reason to fail. -/
theorem writeRecords_refuses {entries : List Entry} {w : Writer} (aligned : 4 ∣ w.position)
    (inside : w.position ≤ w.buf.length) (room : writtenEnd w.position entries ≤ w.buf.length)
    (sized : ∀ e ∈ entries, e.nameSize < wordLimit ∧ e.data.length < wordLimit)
    {e : Entry} (member : e ∈ entries) (none : e.name = []) :
    (writeRecords w entries).1 = .error .emptyName := by
  cases run : writeRecords w entries with
  | mk result final =>
    cases result with
    | ok _ =>
      obtain ⟨writable, _⟩ := (writeRecords_eq_ok_iff entries w final aligned inside).mp run
      exact absurd none (writable e member).named
    | error error =>
      obtain ⟨before, rest, split, _, _, _, stop⟩ := writeRecords_stops entries aligned inside run
      rw [split, writtenEnd, sumOf_append, ← records_length before] at room
      cases stop with
      | unnamed none => rfl
      | @oversized e more value _ field large =>
        have fits := sized e (by rw [split]; simp)
        omega
      | @full e more needed _ short _ =>
        rw [sumOf_cons] at room
        omega
      | @trailer needed short _ =>
        omega

/-- `writeRecords` field by field in the buffer itself. -/
def writeRecordsInPlace (w : Writer) : List Entry → Except ArchiveError Unit × Writer
  | [] => w.recordInPlace trailerHeader RecordHeader.trailerName []
  | e :: rest =>
    match e.header with
    | .error error => (.error error, w)
    | .ok header =>
      match w.recordInPlace header e.name e.data with
      | (.error error, w) => (.error error, w)
      | (.ok (), w) => writeRecordsInPlace w rest

def encodeInPlace (a : Archive) (dest : Bytes) : Except ArchiveError Nat × Bytes :=
  let (result, w) := writeRecordsInPlace ⟨dest, 0⟩ a.live
  (result.map fun _ => w.position, w.buf)

theorem writeRecordsInPlace_eq (entries : List Entry) {w : Writer} (aligned : 4 ∣ w.position)
    (inside : w.position ≤ w.buf.length) :
    writeRecordsInPlace w entries = writeRecords w entries := by
  induction entries generalizing w with
  | nil =>
    exact Writer.recordInPlace_eq aligned inside trailer_fits
  | cons e rest ih =>
    rw [writeRecordsInPlace, writeRecords]
    cases sealed : e.header with
    | error error => rfl
    | ok header =>
      obtain ⟨writable, rfl⟩ := (e.header_eq_ok_iff header).mp sealed
      simp only [Writer.recordInPlace_eq aligned inside writable.fits]
      cases outcome : w.record e.sizedHeader e.name e.data with
      | error error => rfl
      | ok next =>
        -- the next record starts at a multiple of four again, inside the same buffer
        obtain ⟨room, rfl⟩ := (Writer.record_eq_ok_iff aligned writable.fits).mp outcome
        rw [writable.recordSize] at room
        obtain ⟨size, behind⟩ := record_next aligned room
        rw [← writable.recordSize] at room behind
        exact ih behind (size.symm ▸ room)

theorem encodeInPlace_eq (a : Archive) (dest : Bytes) : a.encodeInPlace dest = a.encode dest := by
  have same := writeRecordsInPlace_eq a.live (w := ⟨dest, 0⟩) (Nat.dvd_zero 4) (Nat.zero_le _)
  rw [encodeInPlace, encode, same]

theorem encode_stops {a : Archive} {dest out : Bytes} {error : ArchiveError}
    (failed : a.encode dest = (.error error, out)) :
    ∃ before rest, a.live = before ++ rest ∧ (∀ e ∈ before, e.Writable) ∧
      (records before).length ≤ dest.length ∧
      out = records before ++ dest.drop (records before).length ∧
      Stops dest.length (records before).length rest error := by
  cases run : writeRecords ⟨dest, 0⟩ a.live with
  | mk result final =>
    rw [encode, run] at failed
    cases result with
    | ok _ => cases failed
    | error reason =>
      cases failed
      obtain ⟨before, rest, split, writable, room, same, stop⟩ :=
        writeRecords_stops a.live (Nat.dvd_zero 4) (Nat.zero_le _) run
      simp only [Nat.zero_add, Bytes.overwrite_start] at room same stop
      exact ⟨before, rest, split, writable, room, congrArg Writer.buf same, stop⟩

theorem encode_fails_iff (a : Archive) (dest : Bytes) :
    (∃ error, (a.encode dest).1 = .error error) ↔
      (∃ e ∈ a.live, ¬ e.Writable) ∨ dest.length < a.encodedLength := by
  have succeeds := encode_eq_ok_iff a dest a.encodedLength
  constructor
  · rintro ⟨error, failed⟩
    by_contra neither
    simp only [not_or, not_exists, not_and, not_not, Nat.not_lt] at neither
    have ok := succeeds.mpr ⟨neither.1, rfl, neither.2⟩
    rw [failed] at ok
    cases ok
  · intro wrong
    cases outcome : (a.encode dest).1 with
    | error error => exact ⟨error, rfl⟩
    | ok stop =>
      obtain ⟨writable, same, room⟩ := (encode_eq_ok_iff a dest stop).mp outcome
      rcases wrong with ⟨e, member, unwritable⟩ | short
      · exact absurd (writable e member) unwritable
      · omega

/-- A failed write, field by field or not, leaves the whole records of the first members and behind
    them the old bytes. It stops in front of the first member without a name, or with sizes that
    its header cannot hold, or in front of the first record that does not fit, trailer included. A
    table whose members can all be written fails just in a buffer that is shorter than its encoded
    length. -/
theorem encode_whole_records (a : Archive) (dest : Bytes) :
    a.encodeInPlace dest = a.encode dest ∧
    (∀ error out, a.encode dest = (.error error, out) →
      ∃ before rest, a.live = before ++ rest ∧ (∀ e ∈ before, e.Writable) ∧
        (records before).length ≤ dest.length ∧
        out = records before ++ dest.drop (records before).length ∧
        Stops dest.length (records before).length rest error) ∧
    ((∃ error, (a.encode dest).1 = .error error) ↔
      (∃ e ∈ a.live, ¬ e.Writable) ∨ dest.length < a.encodedLength) := by
  constructor
  · exact encodeInPlace_eq a dest
  · constructor
    · intro error out failed
      exact encode_stops failed
    · exact encode_fails_iff a dest

/-- Two members of 116 bytes each, a skipped one between them. -/
def crowded : Archive :=
  ⟨[.file [0x61] [1, 2, 3], { Entry.file [0x62] [] with skipped := true }, .file [0x63] [4]], 3⟩

theorem encode_whole_records_crowded :
    let dest : Bytes := List.replicate 200 0xEE
    ∃ out, crowded.encodeInPlace dest = (.error (.bufferTooSmall 232 200), out) ∧
      (∃ before rest, crowded.live = before ++ rest ∧ (∀ e ∈ before, e.Writable) ∧
        (records before).length ≤ dest.length ∧
        out = records before ++ dest.drop (records before).length ∧
        Stops dest.length (records before).length rest (.bufferTooSmall 232 200)) ∧
      ((∃ error, (crowded.encode dest).1 = .error error) ↔
        (∃ e ∈ crowded.live, ¬ e.Writable) ∨ dest.length < crowded.encodedLength) := by
  intro dest
  have failed : (crowded.encode dest).1 = .error (.bufferTooSmall 232 200) := by decide +kernel
  obtain ⟨inPlace, stops, fails⟩ := encode_whole_records crowded dest
  cases run : crowded.encode dest with
  | mk result out =>
    rw [run] at failed stops inPlace
    cases failed
    exact ⟨out, inPlace, stops _ out rfl, run ▸ fails⟩

end Archive
end KernelBoot
