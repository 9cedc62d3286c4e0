import KernelBoot.Archive.InPlace
import KernelBoot.Proofs.Archive.Writing

/-!
Growing an archive in place. The trailer is found at a multiple of four in front of the end, so
records that are written over it come to their bytes, one after the other.
-/
namespace KernelBoot

namespace RecordHeader

theorem recordSize_dvd (header : RecordHeader) : 4 ∣ header.recordSize :=
  Nat.dvd_add (align4_dvd _) (align4_dvd _)

end RecordHeader

namespace Records

/-- The walk keeps to multiples of four and ends in front of some byte. -/
theorem trailerFrom_ok {r : Reader} {offset : Nat} (found : trailerFrom r = .ok offset)
    (aligned : 4 ∣ r.position) : 4 ∣ offset ∧ offset < r.position + r.remaining := by
  fun_induction trailerFrom r generalizing offset with
  | case1 => cases found
  | case2 => cases found
  | case3 r more _ =>
    cases found
    exact ⟨aligned, by omega⟩
  | case4 => cases found
  | case5 r more _ header _ ih =>
    obtain ⟨multiple, bound⟩ := ih found (Nat.dvd_add aligned header.recordSize_dvd)
    refine ⟨multiple, ?_⟩
    simp only [Reader.forward, Reader.remaining, List.length_drop] at bound more ⊢
    by_cases inside : header.recordSize ≤ r.ahead.length
    · omega
    · have past : (r.forward header.recordSize).remaining = 0 := by
        simp only [Reader.forward, Reader.remaining, List.length_drop]
        omega
      rw [trailerFrom, dif_pos past] at found
      cases found

theorem trailerOffset_ok {buf : Bytes} {offset : Nat} (found : trailerOffset buf = .ok offset) :
    4 ∣ offset ∧ offset < buf.length := by
  have walk := trailerFrom_ok (r := .start buf) found (Nat.dvd_zero 4)
  simpa [Reader.start, Reader.remaining] using walk

end Records

theorem Writer.record_eq_ok_iff {w w' : Writer} {header : RecordHeader} {name data : Bytes}
    (aligned : 4 ∣ w.position) (fits : header.Fits name data) :
    w.record header name data = .ok w' ↔
      w.position + header.recordSize ≤ w.buf.length ∧
        w' = ⟨w.buf.overwrite w.position (recordBytes header name data),
          w.position + header.recordSize⟩ := by
  by_cases room : w.position + header.recordSize ≤ w.buf.length
  · rw [record_ok aligned fits room]
    simp only [Except.ok.injEq, room, true_and]
    exact ⟨Eq.symm, Eq.symm⟩
  · have refused := record_full (Nat.not_le.mp room) name data
    simp [refused, room]

namespace Appender
open Archive RecordHeader

/-- What an appender makes of a record that it writes where it stands. -/
theorem recorded_eq_ok_iff {w w' : Appender} {header : RecordHeader} {name data : Bytes}
    (aligned : 4 ∣ w.position) (fits : header.Fits name data) :
    ((((Writer.seek w.buf w.position).record header name data).mapError WindowError.archive).map
        fun cursor => (⟨cursor.buf, cursor.position⟩ : Appender)) = .ok w' ↔
      w.position + header.recordSize ≤ w.buf.length ∧
        w' = ⟨w.buf.overwrite w.position (recordBytes header name data),
          w.position + header.recordSize⟩ := by
  rw [map_eq_ok]
  constructor
  · rintro ⟨cursor, written, rfl⟩
    obtain ⟨room, rfl⟩ := (Writer.record_eq_ok_iff aligned fits).mp (mapError_eq_ok.mp written)
    exact ⟨room, rfl⟩
  · rintro ⟨room, rfl⟩
    exact ⟨_, mapError_eq_ok.mpr ((Writer.record_eq_ok_iff aligned fits).mpr ⟨room, rfl⟩), rfl⟩

theorem write_eq {w : Appender} {header sized : RecordHeader} {name data : Bytes}
    (sizes : header.withSizes name data = .ok sized) :
    w.write header name data =
      (((Writer.seek w.buf w.position).record sized name data).mapError WindowError.archive).map
        fun cursor => ⟨cursor.buf, cursor.position⟩ := by
  simp only [write, sizes, bind, Except.bind, pure, Except.pure]
  rcases (Writer.seek w.buf w.position).record sized name data with error | cursor <;> rfl

theorem append_eq (w : Appender) (name : Bytes) (mode : Mode) (data : Bytes) :
    w.append name mode data =
      (Entry.new name mode data).header.bind fun sized =>
        (((Writer.seek w.buf w.position).record sized name data).mapError WindowError.archive).map
          fun cursor => ⟨cursor.buf, cursor.position⟩ := by
  unfold append
  by_cases empty : name.isEmpty = true
  · have sealed : (Entry.new name mode data).header = .error .emptyName := if_pos empty
    rw [if_pos empty, sealed]
    rfl
  · have sealed : (Entry.new name mode data).header =
        (RecordHeader.ofMode mode).withSizes name data := if_neg empty
    rw [if_neg empty, sealed]
    cases sizes : (RecordHeader.ofMode mode).withSizes name data with
    | error error => simp only [write, sizes, bind, Except.bind]
    | ok sized => exact write_eq sizes

theorem append_eq_ok_iff {w w' : Appender} (aligned : 4 ∣ w.position) (name : Bytes) (mode : Mode)
    (data : Bytes) :
    w.append name mode data = .ok w' ↔
      (Entry.new name mode data).Writable ∧
        w.position + (Entry.new name mode data).encodedLength ≤ w.buf.length ∧
        w' = ⟨w.buf.overwrite w.position (Entry.new name mode data).record,
          w.position + (Entry.new name mode data).encodedLength⟩ := by
  have header := (Entry.new name mode data).header_eq_ok_iff
  rw [append_eq]
  cases sealed : (Entry.new name mode data).header with
  | error error => simp [Except.bind, Entry.header_error sealed]
  | ok sized =>
    obtain ⟨writable, rfl⟩ := (header sized).mp sealed
    rw [and_iff_right writable, ← writable.recordSize]
    exact recorded_eq_ok_iff aligned writable.fits

theorem finish_eq_ok_iff {w w' : Appender} (aligned : 4 ∣ w.position) :
    w.finish = .ok w' ↔
      w.position + trailerHeader.recordSize ≤ w.buf.length ∧
        w' = ⟨w.buf.overwrite w.position trailerBytes, w.position + trailerHeader.recordSize⟩ := by
  rw [finish, write_eq trailer_sizes]
  exact recorded_eq_ok_iff aligned trailer_fits

theorem write_length {w w' : Appender} {header : RecordHeader} {name data : Bytes}
    (ok : w.write header name data = .ok w') : w'.buf.length = w.buf.length := by
  simp only [write, bind, Except.bind, pure, Except.pure] at ok
  split at ok
  · cases ok
  split at ok
  · cases ok
  rename_i written
  cases ok
  exact Writer.record_length (mapError_eq_ok.mp written)

theorem append_length {w w' : Appender} {name : Bytes} {mode : Mode} {data : Bytes}
    (ok : w.append name mode data = .ok w') : w'.buf.length = w.buf.length := by
  unfold append at ok
  split at ok
  · cases ok
  · exact write_length ok

theorem atTrailer_eq_ok_iff {buf : Bytes} {len : Nat} (inside : len ≤ buf.length) {w : Appender} :
    atTrailer buf len = .ok w ↔
      ∃ offset, Records.trailerOffset (buf.take len) = .ok offset ∧ w = ⟨buf, offset⟩ := by
  rw [atTrailer, if_neg (Nat.not_lt.mpr inside)]
  cases Records.trailerOffset (buf.take len) with
  | error error => simp [Except.map]
  | ok offset =>
    simp only [Except.map, Except.ok.injEq, exists_eq_left']
    exact ⟨Eq.symm, Eq.symm⟩

end Appender
end KernelBoot
