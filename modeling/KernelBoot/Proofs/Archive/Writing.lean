import KernelBoot.Archive.Table
import KernelBoot.Proofs.Buffer
import KernelBoot.Proofs.Archive.Reading

/-!
What a writer leaves behind. A record goes out in steps that pad to the absolute position; from a
position that is a multiple of four the steps come to the bytes of the whole record, which end at
such a position again. So a table is written as its records and a trailer, one after the other.
-/
namespace KernelBoot

theorem align4_dvd (n : Nat) : 4 ∣ align4 n := Nat.dvd_mul_left _ _

theorem predictedSize_dvd (nameLength dataLength : Nat) : 4 ∣ predictedSize nameLength dataLength :=
  Nat.dvd_add (align4_dvd _) (align4_dvd _)

theorem pad4_add {base : Nat} (aligned : 4 ∣ base) (n : Nat) : pad4 (base + n) = pad4 n := by
  simp only [pad4]
  omega

namespace Writer

theorem reserve_ok {w : Writer} {len : Nat} (room : w.position + len ≤ w.buf.length) :
    w.reserve len = .ok () := by
  have enough : ¬ len > w.remaining := by
    simp only [remaining]
    omega
  rw [reserve, if_neg enough]

theorem reserve_full {w : Writer} {len : Nat} (some : 0 < len)
    (short : w.buf.length < w.position + len) :
    w.reserve len =
      .error (.bufferTooSmall (min (w.position + len) 0xFFFFFFFFFFFFFFFF) w.buf.length) := by
  have full : len > w.remaining := by
    simp only [remaining]
    omega
  rw [reserve, if_pos full]

/-- No bytes are left beyond the end, and none are enough for a request of none. -/
theorem reserve_nothing (w : Writer) : w.reserve 0 = .ok () := by
  rw [reserve, if_neg (Nat.not_lt_zero _)]

theorem put_ok {w : Writer} {bytes : Bytes} (room : w.position + bytes.length ≤ w.buf.length) :
    w.put bytes = .ok ⟨w.buf.overwrite w.position bytes, w.position + bytes.length⟩ := by
  have inside : ¬ w.position > w.buf.length := by omega
  rw [put, reserve_ok room]
  simp only [inside, ↓reduceIte]

theorem put_full {w : Writer} {bytes : Bytes} (some : 0 < bytes.length)
    (short : w.buf.length < w.position + bytes.length) :
    w.put bytes = .error (.full
      (.bufferTooSmall (min (w.position + bytes.length) 0xFFFFFFFFFFFFFFFF) w.buf.length)) := by
  rw [put, reserve_full some short]

theorem put_beyond {w : Writer} {bytes : Bytes} (none : bytes.length = 0)
    (beyond : w.buf.length < w.position) :
    w.put bytes = .error (.outside w.position w.buf.length) := by
  rw [put, none, reserve_nothing]
  simp only [gt_iff_lt, beyond, ↓reduceIte]

theorem put_eq_ok_iff {w w' : Writer} {bytes : Bytes} :
    w.put bytes = .ok w' ↔ w.position + bytes.length ≤ w.buf.length ∧
      w' = ⟨w.buf.overwrite w.position bytes, w.position + bytes.length⟩ := by
  by_cases room : w.position + bytes.length ≤ w.buf.length
  · rw [put_ok room, Except.ok.injEq]
    simp [room, eq_comm]
  · have refused : ∃ e, w.put bytes = .error e := by
      rcases Nat.eq_zero_or_pos bytes.length with none | some
      · exact ⟨_, put_beyond none (by omega)⟩
      · exact ⟨_, put_full some (by omega)⟩
    obtain ⟨e, refused⟩ := refused
    simp [refused, room]

/-- What is reserved for a slot is reserved once more when it is filled. -/
theorem slot_eq_put (w : Writer) (len : Nat) (byte : UInt8) :
    w.slot len byte = w.put (List.replicate len byte) := by
  rw [slot, put, List.length_replicate]
  cases w.reserve len <;> rfl

theorem pad_ok {w : Writer} (room : w.position + pad4 w.position ≤ w.buf.length) :
    w.pad = .ok ⟨w.buf.overwrite w.position (Bytes.zeros (pad4 w.position)),
      w.position + pad4 w.position⟩ := by
  have zeros : (List.replicate (pad4 w.position) 0 : Bytes).length = pad4 w.position := by simp
  rw [pad, slot_eq_put, put_ok (by rw [zeros]; exact room), zeros]
  rfl

theorem put_next {buf written bytes : Bytes} {position : Nat}
    (room : position + (written ++ bytes).length ≤ buf.length) :
    put ⟨buf.overwrite position written, position + written.length⟩ bytes =
      .ok ⟨buf.overwrite position (written ++ bytes), position + (written ++ bytes).length⟩ := by
  rw [List.length_append] at room
  have size : (buf.overwrite position written).length = buf.length :=
    Bytes.overwrite_length _ _ _ (by omega)
  rw [put_ok (by simp only [size]; omega), Bytes.overwrite_append _ _ _ _ (by omega),
    List.length_append, Nat.add_assoc]

theorem pad_next {buf written : Bytes} {position : Nat} (aligned : 4 ∣ position)
    (room : position + (written ++ Bytes.zeros (pad4 written.length)).length ≤ buf.length) :
    pad ⟨buf.overwrite position written, position + written.length⟩ =
      .ok ⟨buf.overwrite position (written ++ Bytes.zeros (pad4 written.length)),
        position + (written ++ Bytes.zeros (pad4 written.length)).length⟩ := by
  simp only [List.length_append, Bytes.zeros_length] at room ⊢
  have size : (buf.overwrite position written).length = buf.length :=
    Bytes.overwrite_length _ _ _ (by omega)
  have same := pad4_add aligned written.length
  rw [pad_ok (by simp only [size, same]; omega)]
  simp only [same]
  rw [Bytes.overwrite_append _ _ _ _ (by omega), Nat.add_assoc]

/-- A record that does not fit is refused as a whole. The end that it would have had is named in
    64 bits. -/
theorem record_full {w : Writer} {header : RecordHeader}
    (full : w.buf.length < w.position + header.recordSize) (name data : Bytes) :
    w.record header name data = .error (.full
      (.bufferTooSmall (min (w.position + header.recordSize) 0xFFFFFFFFFFFFFFFF) w.buf.length)) := by
  rw [record, reserve_full header.recordSize_pos full]
  rfl

theorem record_ok {w : Writer} {header : RecordHeader} {name data : Bytes}
    (aligned : 4 ∣ w.position) (fits : header.Fits name data)
    (room : w.position + header.recordSize ≤ w.buf.length) :
    w.record header name data =
      .ok ⟨w.buf.overwrite w.position (recordBytes header name data),
        w.position + header.recordSize⟩ := by
  obtain ⟨buf, position⟩ := w
  simp only at aligned room ⊢
  have whole := recordBytes_length header name data
  rw [← fits.recordSize] at whole
  have headerSize := header.encode_length
  let named := header.encode ++ name ++ [0]
  let filled := named ++ Bytes.zeros (pad4 named.length) ++ data
  have namedSize : named.length = RecordHeader.size + name.length + 1 := by
    simp only [named, List.length_append, headerSize, List.length_singleton]
  have filledSize : pad4 filled.length = pad4 data.length := by
    have front : 4 ∣ (named ++ Bytes.zeros (pad4 named.length)).length := by
      rw [List.length_append, Bytes.zeros_length, ← align4_eq]
      exact align4_dvd _
    rw [show filled.length = _ from List.length_append, pad4_add front]
  have assembled : recordBytes header name data =
      filled ++ Bytes.zeros (pad4 filled.length) := by
    rw [filledSize]
    simp only [recordBytes, filled, named, ← namedSize, Bytes.zeros, Nat.add_comm 1,
      List.replicate_succ, List.append_assoc, List.cons_append, List.nil_append]
  rw [assembled] at whole ⊢
  have sizes : (header.encode ++ name ++ [0] ++ Bytes.zeros (pad4 named.length) ++ data ++
      Bytes.zeros (pad4 filled.length)).length = header.recordSize := whole
  simp only [List.length_append] at sizes
  rw [record, reserve_ok room]
  simp only [mapError_ok, bind, Except.bind]
  rw [put_ok (by simp only; omega)]
  simp only
  rw [put_next (by simp only [List.length_append]; omega)]
  simp only
  rw [put_next (by simp only [List.length_append]; omega)]
  simp only
  rw [pad_next aligned (by simp only [List.length_append, named] at sizes ⊢; omega)]
  simp only
  rw [put_next (by simp only [List.length_append, named] at sizes ⊢; omega)]
  simp only
  rw [pad_next aligned (by simp only [List.length_append, named, filled] at sizes ⊢; omega)]
  simp only [← whole, filled, named]

/-! Whatever a writer puts out, its buffer stays as long as it is. -/

theorem put_length {w w' : Writer} {bytes : Bytes} (ok : w.put bytes = .ok w') :
    w'.buf.length = w.buf.length := by
  obtain ⟨room, rfl⟩ := put_eq_ok_iff.mp ok
  exact Bytes.overwrite_length _ _ _ room

theorem pad_length {w w' : Writer} (ok : w.pad = .ok w') : w'.buf.length = w.buf.length := by
  rw [pad, slot_eq_put] at ok
  exact put_length ok

theorem record_length {w w' : Writer} {header : RecordHeader} {name data : Bytes}
    (ok : w.record header name data = .ok w') : w'.buf.length = w.buf.length := by
  simp only [record, bind, Except.bind] at ok
  split at ok
  · cases ok
  split at ok
  · cases ok
  rename_i headed
  split at ok
  · cases ok
  rename_i named
  split at ok
  · cases ok
  rename_i ended
  split at ok
  · cases ok
  rename_i padded
  split at ok
  · cases ok
  rename_i filled
  rw [pad_length ok, put_length filled, pad_length padded, put_length ended, put_length named,
    put_length headed]

end Writer

namespace Entry

/-- The member can be written: it has a name, and both sizes fit into their header fields. -/
structure Writable (e : Entry) : Prop where
  named : e.name ≠ []
  name_fits : e.nameSize < wordLimit
  data_fits : e.data.length < wordLimit

def template (e : Entry) : RecordHeader :=
  match e.origin with
  | .preserved header => header
  | .synthesized mode => .ofMode mode

def sizedHeader (e : Entry) : RecordHeader :=
  { e.template with
    nameSize := UInt32.ofNat e.nameSize
    fileSize := UInt32.ofNat e.data.length }

def record (e : Entry) : Bytes := recordBytes e.sizedHeader e.name e.data

def reread (e : Entry) : Entry := .decoded e.sizedHeader e.name e.data

theorem withSizes_eq_ok_iff (header sized : RecordHeader) (name data : Bytes) :
    header.withSizes name data = .ok sized ↔
      name.length + 1 < wordLimit ∧ data.length < wordLimit ∧
        sized = { header with
          nameSize := UInt32.ofNat (name.length + 1)
          fileSize := UInt32.ofNat data.length } := by
  simp only [RecordHeader.withSizes, RecordHeader.sizeField, bind, Except.bind]
  by_cases nameFits : name.length + 1 < wordLimit
  · by_cases dataFits : data.length < wordLimit
    · simp only [nameFits, dataFits, ↓reduceIte, true_and]
      exact ⟨fun same => (Except.ok.inj same).symm, fun same => congrArg _ same.symm⟩
    · simp [nameFits, dataFits]
  · simp [nameFits]

theorem header_eq (e : Entry) : e.header =
    if e.name.isEmpty then .error .emptyName else e.template.withSizes e.name e.data := by
  cases kind : e.origin <;> simp [Entry.header, template, kind]

theorem header_eq_ok_iff (e : Entry) (header : RecordHeader) :
    e.header = .ok header ↔ e.Writable ∧ header = e.sizedHeader := by
  by_cases empty : e.name = []
  · have unwritable : ¬ e.Writable := fun w => w.named empty
    simp [header_eq, empty, unwritable]
  · have present : ¬ e.name.isEmpty = true := by simp [empty]
    rw [header_eq, if_neg present, withSizes_eq_ok_iff]
    constructor
    · rintro ⟨nameFits, dataFits, same⟩
      exact ⟨⟨empty, nameFits, dataFits⟩, same⟩
    · rintro ⟨writable, same⟩
      exact ⟨writable.name_fits, writable.data_fits, same⟩

theorem header_error {e : Entry} {error : ArchiveError} (sealed : e.header = .error error) :
    ¬ e.Writable := by
  intro writable
  have ok := (e.header_eq_ok_iff e.sizedHeader).mpr ⟨writable, rfl⟩
  rw [sealed] at ok
  cases ok

theorem Writable.fits {e : Entry} (writable : e.Writable) :
    e.sizedHeader.Fits e.name e.data where
  nameSize := by
    have := writable.name_fits
    simp only [wordLimit, nameSize] at this
    simp only [sizedHeader, nameSize, UInt32.toNat_ofNat']
    omega
  fileSize := by
    have := writable.data_fits
    simp only [wordLimit] at this
    simp only [sizedHeader, UInt32.toNat_ofNat']
    omega

theorem Writable.recordSize {e : Entry} (writable : e.Writable) :
    e.sizedHeader.recordSize = e.encodedLength :=
  writable.fits.recordSize

theorem record_length (e : Entry) : e.record.length = e.encodedLength :=
  recordBytes_length _ _ _

end Entry

namespace Archive
open RecordHeader

theorem trailer_fits : trailerHeader.Fits trailerName [] := ⟨by decide, by decide⟩

theorem trailer_sizes : RecordHeader.trailer.withSizes trailerName [] = .ok trailerHeader := rfl

def trailerBytes : Bytes := recordBytes trailerHeader trailerName []

theorem trailerBytes_length : trailerBytes.length = trailerHeader.recordSize := by
  rw [trailerBytes, recordBytes_length, trailer_fits.recordSize]

def writtenEnd (position : Nat) (entries : List Entry) : Nat :=
  position + sumOf Entry.encodedLength entries + trailerHeader.recordSize

def records (entries : List Entry) : Bytes := entries.flatMap Entry.record

theorem records_cons (e : Entry) (rest : List Entry) :
    records (e :: rest) = e.record ++ records rest := by
  simp only [records, List.flatMap_cons]

theorem records_append (first second : List Entry) :
    records (first ++ second) = records first ++ records second := by
  simp only [records, List.flatMap_append]

theorem records_length (entries : List Entry) :
    (records entries).length = sumOf Entry.encodedLength entries := by
  induction entries with
  | nil => rfl
  | cons e rest ih =>
    simp only [records, List.flatMap_cons, List.length_append, Entry.record_length, sumOf_cons]
    exact congrArg _ ih

theorem writtenEnd_cons (position : Nat) (e : Entry) (rest : List Entry) :
    writtenEnd (position + e.encodedLength) rest = writtenEnd position (e :: rest) := by
  simp only [writtenEnd, sumOf_cons]
  omega

theorem le_writtenEnd (position : Nat) (entries : List Entry) :
    position ≤ writtenEnd position entries := by
  simp only [writtenEnd]
  omega

theorem writeRecords_nil {w : Writer} (aligned : 4 ∣ w.position) :
    w.position + trailerHeader.recordSize ≤ w.buf.length ∧
        writeRecords w [] = (.ok (), ⟨w.buf.overwrite w.position trailerBytes,
          w.position + trailerHeader.recordSize⟩) ∨
      w.buf.length < w.position + trailerHeader.recordSize ∧
        writeRecords w [] = (.error (.bufferTooSmall
          (min (w.position + trailerHeader.recordSize) 0xFFFFFFFFFFFFFFFF) w.buf.length), w) := by
  rw [writeRecords]
  by_cases room : w.position + trailerHeader.recordSize ≤ w.buf.length
  · rw [Writer.record_ok aligned trailer_fits room]
    exact .inl ⟨room, rfl⟩
  · rw [Writer.record_full (Nat.not_le.mp room)]
    exact .inr ⟨Nat.not_le.mp room, rfl⟩

/-- What becomes of the first of some members: it has no header, or no room, or it is written and
    the others follow. -/
theorem writeRecords_cons (e : Entry) (rest : List Entry) {w : Writer} (aligned : 4 ∣ w.position) :
    (∃ error, e.header = .error error ∧ writeRecords w (e :: rest) = (.error error, w)) ∨
      (e.Writable ∧ w.buf.length < w.position + e.encodedLength ∧
        writeRecords w (e :: rest) = (.error (.bufferTooSmall
          (min (w.position + e.encodedLength) 0xFFFFFFFFFFFFFFFF) w.buf.length), w)) ∨
      (e.Writable ∧ w.position + e.encodedLength ≤ w.buf.length ∧
        writeRecords w (e :: rest) = writeRecords
          ⟨w.buf.overwrite w.position e.record, w.position + e.encodedLength⟩ rest) := by
  rw [writeRecords]
  cases sealed : e.header with
  | error error => exact .inl ⟨error, rfl, rfl⟩
  | ok header =>
    obtain ⟨writable, rfl⟩ := (e.header_eq_ok_iff header).mp sealed
    simp only
    rw [← writable.recordSize]
    by_cases room : w.position + e.sizedHeader.recordSize ≤ w.buf.length
    · rw [Writer.record_ok aligned writable.fits room]
      exact .inr (.inr ⟨writable, room, rfl⟩)
    · rw [Writer.record_full (Nat.not_le.mp room)]
      exact .inr (.inl ⟨writable, Nat.not_le.mp room, rfl⟩)

theorem record_next {w : Writer} {e : Entry} (aligned : 4 ∣ w.position)
    (room : w.position + e.encodedLength ≤ w.buf.length) :
    (w.buf.overwrite w.position e.record).length = w.buf.length ∧
      4 ∣ w.position + e.encodedLength := by
  constructor
  · exact Bytes.overwrite_length _ _ _ (by rw [Entry.record_length]; exact room)
  · exact Nat.dvd_add aligned (predictedSize_dvd _ _)

theorem writeRecords_eq_ok_iff (entries : List Entry) (w final : Writer)
    (aligned : 4 ∣ w.position) (inside : w.position ≤ w.buf.length) :
    writeRecords w entries = (.ok (), final) ↔
      (∀ e ∈ entries, e.Writable) ∧ writtenEnd w.position entries ≤ w.buf.length ∧
        final = ⟨w.buf.overwrite w.position (records entries ++ trailerBytes),
          writtenEnd w.position entries⟩ := by
  induction entries generalizing w with
  | nil =>
    have only : writtenEnd w.position [] = w.position + trailerHeader.recordSize := rfl
    have none : records [] ++ trailerBytes = trailerBytes := rfl
    rw [only, none]
    rcases writeRecords_nil aligned with ⟨room, run⟩ | ⟨short, run⟩
    · simp [run, room, eq_comm]
    · simp [run, Nat.not_le.mpr short]
  | cons e rest ih =>
    rcases writeRecords_cons e rest aligned with
      ⟨error, sealed, run⟩ | ⟨writable, short, run⟩ | ⟨writable, room, run⟩
    · simp [run, Entry.header_error sealed]
    · have tooFar := le_writtenEnd (w.position + e.encodedLength) rest
      rw [writtenEnd_cons] at tooFar
      have full : ¬ writtenEnd w.position (e :: rest) ≤ w.buf.length := by omega
      simp [run, full]
    · obtain ⟨size, next⟩ := record_next aligned room
      have others := ih ⟨w.buf.overwrite w.position e.record, w.position + e.encodedLength⟩ next
        (by rw [size]; exact room)
      have joined : (w.buf.overwrite w.position e.record).overwrite (w.position + e.encodedLength)
          (records rest ++ trailerBytes) =
            w.buf.overwrite w.position (records (e :: rest) ++ trailerBytes) := by
        rw [← Entry.record_length, Bytes.overwrite_append _ _ _ _ inside, records_cons,
          List.append_assoc]
      simp only [size, joined, writtenEnd_cons] at others
      rw [run, others, List.forall_mem_cons, and_assoc, and_iff_right writable]

theorem writeRecords_length (w : Writer) (entries : List Entry) :
    (writeRecords w entries).2.buf.length = w.buf.length := by
  induction entries generalizing w with
  | nil =>
    simp only [writeRecords]
    split
    · rfl
    · rename_i written
      exact Writer.record_length written
  | cons e rest ih =>
    simp only [writeRecords]
    split
    · rfl
    · split
      · rfl
      · rename_i written
        rw [ih, Writer.record_length written]

theorem encode_length (a : Archive) (dest : Bytes) : (a.encode dest).2.length = dest.length :=
  writeRecords_length ⟨dest, 0⟩ a.live

theorem writtenEnd_live (a : Archive) : writtenEnd 0 a.live = a.encodedLength := by
  simp only [writtenEnd, Nat.zero_add, encodedLength]
  rfl

theorem encode_eq_ok_iff (a : Archive) (dest : Bytes) (stop : Nat) :
    (a.encode dest).1 = .ok stop ↔
      (∀ e ∈ a.live, e.Writable) ∧ stop = a.encodedLength ∧ stop ≤ dest.length := by
  have law := writeRecords_eq_ok_iff a.live ⟨dest, 0⟩
  simp only [writtenEnd_live] at law
  have run : (a.encode dest).1 =
      (writeRecords ⟨dest, 0⟩ a.live).1.map fun _ => (writeRecords ⟨dest, 0⟩ a.live).2.position := rfl
  rw [run]
  generalize writeRecords ⟨dest, 0⟩ a.live = outcome at law
  obtain ⟨result, w⟩ := outcome
  have final := law w (Nat.dvd_zero 4) (Nat.zero_le _)
  cases result with
  | error error =>
    constructor
    · intro failed
      cases failed
    · rintro ⟨writable, stopEq, inside⟩
      have done := (law _ (Nat.dvd_zero 4) (Nat.zero_le _)).mpr ⟨writable, stopEq ▸ inside, rfl⟩
      cases done
  | ok _ =>
    obtain ⟨writable, inside, rfl⟩ := final.mp rfl
    constructor
    · intro reached
      cases reached
      exact ⟨writable, rfl, inside⟩
    · rintro ⟨_, rfl, _⟩
      rfl

theorem written_length (a : Archive) :
    (records a.live ++ trailerBytes).length = a.encodedLength := by
  rw [List.length_append, records_length, trailerBytes_length]
  rfl

theorem encode_written {a : Archive} {dest : Bytes} {stop : Nat}
    (ok : (a.encode dest).1 = .ok stop) :
    (a.encode dest).2 = records a.live ++ trailerBytes ++ dest.drop a.encodedLength := by
  obtain ⟨writable, stopEq, inside⟩ := (encode_eq_ok_iff a dest stop).mp ok
  have run := (writeRecords_eq_ok_iff a.live ⟨dest, 0⟩ _ (Nat.dvd_zero 4) (Nat.zero_le _)).mpr
    ⟨writable, (writtenEnd_live a).symm ▸ stopEq ▸ inside, rfl⟩
  simp only [encode, run, Bytes.overwrite_start, written_length]

end Archive
end KernelBoot
