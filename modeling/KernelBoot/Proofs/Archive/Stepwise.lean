import KernelBoot.Proofs.Archive.Appending

/-!
Writing a record in the buffer itself, one field after the other. A step that is refused ends the
writing and what the steps before it have put into the buffer stays there. A writer that stands at
a multiple of four is refused at the first step or not at all.
-/
namespace KernelBoot

namespace Writer

def follow (w : Writer) :
    List (Writer → Except WindowError Writer) → Except WindowError Unit × Writer
  | [] => (.ok (), w)
  | step :: rest =>
    match step w with
    | .error e => (.error e, w)
    | .ok next => next.follow rest

/-- Only the first step looks at the size of the whole record. -/
def recordSteps (header : RecordHeader) (name data : Bytes) :
    List (Writer → Except WindowError Writer) :=
  [fun w => ((w.reserve header.recordSize).mapError WindowError.full).map fun _ => w,
   fun w => w.put header.encode,
   fun w => w.put name,
   fun w => w.put [0],
   fun w => w.pad,
   fun w => w.put data,
   fun w => w.pad]

/-- A run of steps for a caller that has no use for the buffer of a failed one. -/
def reached (outcome : Except WindowError Unit × Writer) : Except WindowError Writer :=
  outcome.1.map fun _ => outcome.2

theorem reached_follow_cons (w : Writer) (step : Writer → Except WindowError Writer)
    (rest : List (Writer → Except WindowError Writer)) :
    reached (w.follow (step :: rest)) = (step w).bind fun next => reached (next.follow rest) := by
  rw [follow]
  cases step w with
  | error e => rfl
  | ok next => rfl

theorem reached_follow_nil (w : Writer) : reached (w.follow []) = .ok w := rfl

theorem record_eq_follow (w : Writer) (header : RecordHeader) (name data : Bytes) :
    w.record header name data = reached (w.follow (recordSteps header name data)) := by
  simp only [recordSteps, reached_follow_cons, reached_follow_nil, record, bind]
  cases w.reserve header.recordSize with
  | error e => rfl
  | ok _ =>
    have last : ∀ r : Except WindowError Writer, (r.bind fun next => .ok next) = r := by
      intro r
      cases r <;> rfl
    simp only [mapError_ok, Except.map, last]
    rfl

variable {w : Writer} {header : RecordHeader} {name data : Bytes}

theorem follow_refused (aligned : 4 ∣ w.position) (inside : w.position ≤ w.buf.length)
    (fits : header.Fits name data) {e : WindowError}
    (refused : (w.follow (recordSteps header name data)).1 = .error e) :
    (w.follow (recordSteps header name data)).2 = w := by
  by_cases room : w.position + header.recordSize ≤ w.buf.length
  · have written := record_ok aligned fits room
    rw [record_eq_follow, reached, refused] at written
    cases written
  · have short : header.recordSize > w.remaining := by
      simp only [remaining]
      omega
    simp only [recordSteps, follow, reserve, if_pos short]
    rfl

end Writer

namespace RecordHeader

theorem fits_of_withSizes {header sized : RecordHeader} {name data : Bytes}
    (sizes : header.withSizes name data = .ok sized) : sized.Fits name data := by
  obtain ⟨nameFits, dataFits, rfl⟩ := (Entry.withSizes_eq_ok_iff _ _ _ _).mp sizes
  simp only [wordLimit] at nameFits dataFits
  constructor
  · simp only [UInt32.toNat_ofNat']
    omega
  · simp only [UInt32.toNat_ofNat']
    omega

end RecordHeader

namespace Appender

def writeInPlace (w : Appender) (header : RecordHeader) (name data : Bytes) :
    Except ArchiveError Nat × Appender :=
  match header.withSizes name data with
  | .error e => (.error e, w)
  | .ok sized =>
    let outcome := (Writer.seek w.buf w.position).follow (Writer.recordSteps sized name data)
    ((outcome.1.mapError WindowError.archive).map fun _ => outcome.2.position,
      ⟨outcome.2.buf, outcome.2.position⟩)

def appendInPlace (w : Appender) (name : Bytes) (mode : Mode) (data : Bytes) :
    Except ArchiveError Nat × Appender :=
  if name.isEmpty then (.error .emptyName, w) else w.writeInPlace (.ofMode mode) name data

def finishInPlace (w : Appender) : Except ArchiveError Nat × Appender :=
  w.writeInPlace .trailer RecordHeader.trailerName []

variable {w : Appender} {header : RecordHeader} {name data : Bytes} {mode : Mode}

theorem writeInPlace_sized {sized : RecordHeader} (sizes : header.withSizes name data = .ok sized) :
    w.writeInPlace header name data =
      match (Writer.seek w.buf w.position).follow (Writer.recordSteps sized name data) with
      | (.error e, cursor) => (.error e.archive, ⟨cursor.buf, cursor.position⟩)
      | (.ok (), cursor) => (.ok cursor.position, ⟨cursor.buf, cursor.position⟩) := by
  simp only [writeInPlace, sizes]
  rcases (Writer.seek w.buf w.position).follow (Writer.recordSteps sized name data) with
    ⟨result, cursor⟩
  cases result with
  | error e => rfl
  | ok _ => rfl

theorem write_eq_inPlace (w : Appender) (header : RecordHeader) (name data : Bytes) :
    w.write header name data =
      (w.writeInPlace header name data).1.map fun _ => (w.writeInPlace header name data).2 := by
  cases sizes : header.withSizes name data with
  | error e => simp only [write, writeInPlace, sizes, bind, Except.bind, Except.map]
  | ok sized =>
    rw [write_eq sizes, writeInPlace_sized sizes, Writer.record_eq_follow, Writer.reached]
    rcases (Writer.seek w.buf w.position).follow (Writer.recordSteps sized name data) with
      ⟨result, cursor⟩
    cases result with
    | error e => rfl
    | ok _ => rfl

theorem append_eq_inPlace (w : Appender) (name : Bytes) (mode : Mode) (data : Bytes) :
    w.append name mode data =
      (w.appendInPlace name mode data).1.map fun _ => (w.appendInPlace name mode data).2 := by
  unfold append appendInPlace
  by_cases empty : name.isEmpty = true
  · simp only [empty, ↓reduceIte, Except.map]
  · simp only [empty, Bool.false_eq_true, ↓reduceIte, write_eq_inPlace]

theorem finish_eq_inPlace (w : Appender) :
    w.finish = w.finishInPlace.1.map fun _ => w.finishInPlace.2 :=
  write_eq_inPlace w .trailer RecordHeader.trailerName []

theorem writeInPlace_refused (aligned : 4 ∣ w.position) (inside : w.position ≤ w.buf.length)
    {e : ArchiveError} (refused : (w.writeInPlace header name data).1 = .error e) :
    (w.writeInPlace header name data).2 = w := by
  cases sizes : header.withSizes name data with
  | error error => simp only [writeInPlace, sizes]
  | ok sized =>
    let start := Writer.seek w.buf w.position
    have unchanged : ∀ {e}, (start.follow (Writer.recordSteps sized name data)).1 = .error e →
        (start.follow (Writer.recordSteps sized name data)).2 = start :=
      fun refused => Writer.follow_refused aligned inside (RecordHeader.fits_of_withSizes sizes) refused
    rw [writeInPlace_sized sizes] at refused ⊢
    generalize (Writer.seek w.buf w.position).follow (Writer.recordSteps sized name data) = outcome
      at refused unchanged ⊢
    obtain ⟨result, cursor⟩ := outcome
    cases result with
    | error error =>
      obtain rfl : cursor = start := unchanged rfl
      rfl
    | ok _ => cases refused

theorem appendInPlace_refused (aligned : 4 ∣ w.position) (inside : w.position ≤ w.buf.length)
    {e : ArchiveError} (refused : (w.appendInPlace name mode data).1 = .error e) :
    (w.appendInPlace name mode data).2 = w := by
  unfold appendInPlace at refused ⊢
  by_cases empty : name.isEmpty = true
  · rw [if_pos empty]
  · rw [if_neg empty] at refused ⊢
    exact writeInPlace_refused aligned inside refused

theorem writeInPlace_position {total : Nat} (ok : (w.writeInPlace header name data).1 = .ok total) :
    (w.writeInPlace header name data).2.position = total := by
  cases sizes : header.withSizes name data with
  | error error =>
    simp only [writeInPlace, sizes] at ok
    cases ok
  | ok sized =>
    rw [writeInPlace_sized sizes] at ok ⊢
    generalize (Writer.seek w.buf w.position).follow (Writer.recordSteps sized name data) = outcome
      at ok ⊢
    obtain ⟨result, cursor⟩ := outcome
    cases result with
    | error e => cases ok
    | ok _ =>
      cases ok
      rfl

end Appender
end KernelBoot
