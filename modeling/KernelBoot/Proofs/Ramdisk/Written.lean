import KernelBoot.Boot.Ramdisk
import KernelBoot.Proofs.Archive.Appending

/-!
What a patched ramdisk is written as. A rewrite is its records and a trailer; an append is the
original up to its trailer, then the records of the additions and a trailer. Nothing else of the
buffer matters, so a write that fills it gives the same bytes wherever it goes.
-/
namespace KernelBoot.PatchedRamdisk
open Archive

theorem appendAll_run (additions : List Addition) (w : Appender) :
    writeRecords ⟨w.buf, w.position⟩ (additions.map Addition.toEntry) =
      match appendAll w additions with
      | (.error e, last) => (.error e, ⟨last.buf, last.position⟩)
      | (.ok (), last) =>
        match last.finish with
        | .error e => (.error e, ⟨last.buf, last.position⟩)
        | .ok final => (.ok (), ⟨final.buf, final.position⟩) := by
  induction additions generalizing w with
  | nil =>
    have finish : w.finish = _ := Appender.write_eq (w := w) trailer_sizes
    simp only [List.map_nil, writeRecords, appendAll, finish]
    rw [Writer.seek]
    cases Writer.record ⟨w.buf, w.position⟩ trailerHeader RecordHeader.trailerName [] with
    | error e => rfl
    | ok cursor => rfl
  | cons a rest ih =>
    rw [List.map_cons, writeRecords, appendAll, Appender.append_eq, ← Addition.toEntry]
    cases a.toEntry.header with
    | error e => rfl
    | ok sized =>
      simp only [Except.bind, Writer.seek]
      have same : Writer.record ⟨w.buf, w.position⟩ sized a.toEntry.name a.toEntry.data =
          Writer.record ⟨w.buf, w.position⟩ sized (Bytes.ofString a.name) a.data := rfl
      rw [same]
      cases Writer.record ⟨w.buf, w.position⟩ sized (Bytes.ofString a.name) a.data with
      | error e => rfl
      | ok cursor => exact ih ⟨cursor.buf, cursor.position⟩

theorem appendAll_finish_iff (additions : List Addition) {w last : Appender}
    (aligned : 4 ∣ w.position) (inside : w.position ≤ w.buf.length) :
    (∃ middle, appendAll w additions = (.ok (), middle) ∧ middle.finish = .ok last) ↔
      (∀ a ∈ additions, a.toEntry.Writable) ∧
        w.position + (records (additions.map Addition.toEntry) ++ trailerBytes).length ≤
          w.buf.length ∧
        last = ⟨w.buf.overwrite w.position
            (records (additions.map Addition.toEntry) ++ trailerBytes),
          w.position + (records (additions.map Addition.toEntry) ++ trailerBytes).length⟩ := by
  have stop : writtenEnd w.position (additions.map Addition.toEntry) =
      w.position + (records (additions.map Addition.toEntry) ++ trailerBytes).length := by
    rw [writtenEnd, List.length_append, records_length, trailerBytes_length, Nat.add_assoc]
  have law := writeRecords_eq_ok_iff (additions.map Addition.toEntry) ⟨w.buf, w.position⟩
    ⟨last.buf, last.position⟩ aligned inside
  have steps : (∃ middle, appendAll w additions = (.ok (), middle) ∧ middle.finish = .ok last) ↔
      writeRecords ⟨w.buf, w.position⟩ (additions.map Addition.toEntry) =
        (.ok (), ⟨last.buf, last.position⟩) := by
    rw [appendAll_run]
    rcases appendAll w additions with ⟨result, middle⟩
    cases result with
    | error e => simp
    | ok _ =>
      simp only [Prod.mk.injEq, true_and, exists_eq_left']
      cases middle.finish with
      | error e => simp
      | ok final =>
        obtain ⟨buf, position⟩ := final
        obtain ⟨lastBuf, lastPosition⟩ := last
        simp
  rw [steps, law, List.forall_mem_map, stop]
  obtain ⟨lastBuf, lastPosition⟩ := last
  simp

/-- The original in front of its trailer, and the records that take the trailer's place. -/
def appended (original : Bytes) (offset : Nat) (additions : List Addition) : Bytes :=
  original.take offset ++ (records (additions.map Addition.toEntry) ++ trailerBytes)

def kept (original dest : Bytes) : Nat := min original.length dest.length

def copied (original dest : Bytes) : Bytes := dest.overwrite 0 (original.take (kept original dest))

theorem kept_length (original dest : Bytes) :
    (original.take (kept original dest)).length = kept original dest := by
  simp only [List.length_take, kept]
  omega

theorem copied_length (original dest : Bytes) : (copied original dest).length = dest.length := by
  apply Bytes.overwrite_length
  have inside : kept original dest ≤ dest.length := Nat.min_le_right _ _
  rw [kept_length]
  omega

theorem copied_take {original dest : Bytes} {offset : Nat} (below : offset ≤ kept original dest) :
    (copied original dest).take offset = original.take offset := by
  have front : (copied original dest).take (kept original dest) =
      original.take (kept original dest) := by
    rw [copied, Bytes.overwrite_start, List.take_left' (kept_length original dest)]
  have first := congrArg (List.take offset) front
  rwa [List.take_take, List.take_take, Nat.min_eq_left below] at first

theorem appended_length {original dest : Bytes} {offset : Nat}
    (below : offset ≤ kept original dest) (additions : List Addition) :
    (appended original offset additions).length =
      offset + (records (additions.map Addition.toEntry) ++ trailerBytes).length := by
  have fits : offset ≤ original.length := Nat.le_trans below (Nat.min_le_left _ _)
  rw [appended, List.length_append, List.length_take, Nat.min_eq_left fits]

theorem copied_overwrite {original dest : Bytes} {offset : Nat}
    (below : offset ≤ kept original dest) (additions : List Addition) :
    (copied original dest).overwrite offset
        (records (additions.map Addition.toEntry) ++ trailerBytes) =
      appended original offset additions ++
        (copied original dest).drop (appended original offset additions).length := by
  rw [appended_length below, Bytes.overwrite, copied_take below, appended]

theorem write_append_steps (original : Bytes) (trailer : Nat) (additions : List Addition)
    (dest : Bytes) (length : Nat) (buf : Bytes) :
    (PatchedRamdisk.append original trailer additions).write dest = (.ok length, buf) ↔
      (PatchedRamdisk.append original trailer additions).length ≤ dest.length ∧
      ∃ w last, Appender.atTrailer (copied original dest) (kept original dest) = .ok w ∧
        (∃ middle, appendAll w additions = (.ok (), middle) ∧ middle.finish = .ok last) ∧
        length = last.position ∧ buf = last.buf := by
  have keep : min original.length dest.length = kept original dest := rfl
  have copy : dest.overwrite 0 (original.take (kept original dest)) = copied original dest := rfl
  simp only [write]
  by_cases short : dest.length < (PatchedRamdisk.append original trailer additions).length
  · have missing := Nat.not_le.mpr short
    simp only [short, ↓reduceIte, Prod.mk.injEq, reduceCtorEq, false_and, missing]
  · simp only [short, ↓reduceIte, Nat.not_lt.mp short, true_and]
    rw [keep, copy]
    generalize Appender.atTrailer (copied original dest) (kept original dest) = started
    cases started with
    | error error => simp
    | ok w =>
      simp only [Except.ok.injEq, exists_and_left, exists_eq_left']
      rcases appendAll w additions with ⟨result, middle⟩
      cases result with
      | error error => simp
      | ok _ =>
        simp only [Prod.mk.injEq, true_and, exists_eq_left']
        cases middle.finish with
        | error error => simp
        | ok last =>
          simp only [Prod.mk.injEq, Except.ok.injEq, exists_eq_left']
          constructor
          · rintro ⟨rfl, rfl⟩
            exact ⟨rfl, rfl⟩
          · rintro ⟨rfl, rfl⟩
            exact ⟨rfl, rfl⟩

theorem write_append_eq_ok_iff (original : Bytes) (trailer : Nat) (additions : List Addition)
    (dest : Bytes) (length : Nat) (buf : Bytes) :
    (PatchedRamdisk.append original trailer additions).write dest = (.ok length, buf) ↔
      (PatchedRamdisk.append original trailer additions).length ≤ dest.length ∧
      ∃ offset, Records.trailerOffset (original.take (kept original dest)) = .ok offset ∧
        (∀ a ∈ additions, a.toEntry.Writable) ∧
        length = (appended original offset additions).length ∧ length ≤ dest.length ∧
        buf = appended original offset additions ++ (copied original dest).drop length := by
  have inside : kept original dest ≤ (copied original dest).length := by
    rw [copied_length]
    exact Nat.min_le_right _ _
  rw [write_append_steps]
  apply and_congr_right
  intro _
  constructor
  · rintro ⟨w, last, started, steps, rfl, rfl⟩
    obtain ⟨offset, found, rfl⟩ := (Appender.atTrailer_eq_ok_iff inside).mp started
    rw [copied_take (Nat.le_refl _)] at found
    obtain ⟨aligned, bound⟩ := Records.trailerOffset_ok found
    rw [kept_length] at bound
    have below := Nat.le_of_lt bound
    obtain ⟨writable, room, rfl⟩ :=
      (appendAll_finish_iff additions aligned (Nat.le_trans below inside)).mp steps
    have length := appended_length below additions
    simp only [copied_length, ← length] at room
    exact ⟨offset, found, writable, length.symm, by rw [← length]; exact room, by
      rw [copied_overwrite below, length]⟩
  · rintro ⟨offset, found, writable, rfl, room, rfl⟩
    obtain ⟨aligned, bound⟩ := Records.trailerOffset_ok found
    rw [kept_length] at bound
    have below := Nat.le_of_lt bound
    have length := appended_length below additions
    refine ⟨⟨copied original dest, offset⟩, _, (Appender.atTrailer_eq_ok_iff inside).mpr
      ⟨offset, by rw [copied_take (Nat.le_refl _)]; exact found, rfl⟩,
      (appendAll_finish_iff additions aligned (Nat.le_trans below inside)).mpr
        ⟨writable, by simp only [copied_length, ← length]; exact room, rfl⟩, length, ?_⟩
    exact (copied_overwrite below additions).symm

theorem write_rewrite_eq_ok_iff {archive : Archive} {dest : Bytes} {length : Nat} :
    ((PatchedRamdisk.rewrite archive).write dest).1 = .ok length ↔
      (archive.encode dest).1 = .ok length := by
  have run : ((PatchedRamdisk.rewrite archive).write dest).1 =
      (archive.encode dest).1.mapError PatchError.ofEncoding := rfl
  rw [run]
  exact mapError_eq_ok

theorem appendAll_length (w : Appender) (additions : List Addition) :
    (appendAll w additions).2.buf.length = w.buf.length := by
  induction additions generalizing w with
  | nil => rfl
  | cons a rest ih =>
    rw [appendAll]
    split
    · rfl
    · rename_i next added
      rw [ih, Appender.append_length added]

theorem write_length (p : PatchedRamdisk) (dest : Bytes) :
    (p.write dest).2.length = dest.length := by
  cases p with
  | rewrite archive => exact Archive.encode_length archive dest
  | append original trailer additions =>
    simp only [write]
    by_cases short : dest.length < (PatchedRamdisk.append original trailer additions).length
    · rw [if_pos short]
    rw [if_neg short]
    have copy : (dest.overwrite 0 (original.take (min original.length dest.length))).length =
        dest.length := copied_length original dest
    cases started : Appender.atTrailer
        (dest.overwrite 0 (original.take (min original.length dest.length)))
        (min original.length dest.length) with
    | error e => exact copy
    | ok w =>
      obtain ⟨offset, _, same⟩ := (Appender.atTrailer_eq_ok_iff
        (Nat.le_trans (Nat.min_le_right _ _) (Nat.le_of_eq copy.symm))).mp started
      have added : (appendAll w additions).2.buf.length = dest.length := by
        rw [appendAll_length, same]
        exact copy
      simp only
      split
      · rename_i outcome
        rwa [outcome] at added
      · rename_i last outcome
        rw [outcome] at added
        split
        · exact added
        · rename_i final finished
          exact (Appender.write_length finished).trans added

/-- A write that fills its buffer gives the same bytes in any buffer of that size. -/
theorem write_fills {p : PatchedRamdisk} {dest : Bytes} (full : (p.write dest).1 = .ok dest.length)
    {other : Bytes} (same : other.length = dest.length) : p.write other = p.write dest := by
  cases p with
  | rewrite archive =>
    have encoded := write_rewrite_eq_ok_iff.mp full
    have conditions := (Archive.encode_eq_ok_iff archive dest dest.length).mp encoded
    have again : (archive.encode other).1 = .ok dest.length :=
      (Archive.encode_eq_ok_iff archive other dest.length).mpr
        ⟨conditions.1, conditions.2.1, Nat.le_of_eq same.symm⟩
    have none : ∀ buf : Bytes, buf.length = dest.length → buf.drop archive.encodedLength = [] := by
      intro buf size
      exact List.drop_of_length_le (Nat.le_of_eq (size.trans conditions.2.1))
    have first := Archive.encode_written encoded
    have second := Archive.encode_written again
    rw [none dest rfl, List.append_nil] at first
    rw [none other same, List.append_nil] at second
    simp only [write, encoded, again, first, second]
  | append original trailer additions =>
    obtain ⟨enough, offset, found, writable, length, room, final⟩ :=
      (write_append_eq_ok_iff original trailer additions dest dest.length
        ((PatchedRamdisk.append original trailer additions).write dest).2).mp (Prod.ext full rfl)
    have keptSame : kept original other = kept original dest := by rw [kept, kept, same]
    have none : ∀ buf : Bytes, buf.length = dest.length →
        (copied original buf).drop dest.length = [] := by
      intro buf size
      exact List.drop_of_length_le (Nat.le_of_eq ((copied_length original buf).trans size))
    rw [none dest rfl, List.append_nil] at final
    have second := (write_append_eq_ok_iff original trailer additions other dest.length
      (appended original offset additions)).mpr
      ⟨by rw [same]; exact enough, offset, by rw [keptSame]; exact found, writable, length,
        Nat.le_of_eq same.symm, by rw [none other same, List.append_nil]⟩
    rw [second]
    exact Prod.ext full.symm final.symm

end KernelBoot.PatchedRamdisk
