import KernelBoot.Archive.InPlace
import KernelBoot.Proofs.Archive.RoundTrip

/-!
The two walks over an archive, the one that reads its members and the one that looks for its
trailer. A whole record is passed by both in the same way wherever it stands and whatever follows
it. The walks part only at a name field that does not end in a NUL: one drops its last byte
whatever that is, the other drops a NUL and nothing else.
-/
namespace KernelBoot

namespace Reader

/-- Between the two positions of one buffer lie just these bytes. -/
structure Passes (r : Reader) (bytes : Bytes) (r' : Reader) : Prop where
  start : r = ⟨r.position, bytes ++ r'.ahead, true⟩
  stop : r' = ⟨r.position + bytes.length, r'.ahead, true⟩

theorem Passes.here {r : Reader} (inside : r.inside = true) : r.Passes [] r := by
  obtain ⟨position, ahead, _⟩ := r
  cases inside
  exact ⟨rfl, rfl⟩

theorem Passes.trans {r r' r'' : Reader} {bytes more : Bytes} (first : r.Passes bytes r')
    (later : r'.Passes more r'') : r.Passes (bytes ++ more) r'' where
  start := by
    have ahead : r'.ahead = more ++ r''.ahead := congrArg Reader.ahead later.start
    rw [List.append_assoc, ← ahead]
    exact first.start
  stop := by
    have position : r'.position = r.position + bytes.length := congrArg Reader.position first.stop
    rw [List.length_append, ← Nat.add_assoc, ← position]
    exact later.stop

theorem take_ok {r r' : Reader} {len : Nat} {bytes : Bytes} (taken : r.take len = .ok (bytes, r')) :
    r.Passes bytes r' ∧ bytes.length = len := by
  obtain ⟨position, ahead, inside⟩ := r
  simp only [take, peek] at taken
  split at taken
  · rename_i enough
    cases taken
    obtain ⟨rfl, length⟩ := enough
    refine ⟨⟨?_, ?_⟩, length⟩
    · rw [List.take_append_drop]
    · rw [length]
  · cases taken

theorem skip_ok {r r' : Reader} {len : Nat} (skipped : r.skip len = .ok r') :
    ∃ bytes, r.Passes bytes r' ∧ bytes.length = len := by
  unfold skip at skipped
  cases taken : r.take len with
  | error e =>
    rw [taken] at skipped
    cases skipped
  | ok step =>
    rw [taken] at skipped
    cases skipped
    exact ⟨step.1, take_ok taken⟩

theorem peek_append (position : Nat) (bytes rest : Bytes) {len : Nat} (exact : bytes.length = len) :
    peek ⟨position, bytes ++ rest, true⟩ len = .ok bytes := by
  subst exact
  simp [peek]

theorem forward_append (position : Nat) (bytes rest : Bytes) {len : Nat}
    (exact : bytes.length = len) :
    forward ⟨position, bytes ++ rest, true⟩ len = ⟨position + len, rest, true⟩ := by
  subst exact
  simp [forward]

end Reader

theorem RecordHeader.parse_anywhere {bytes : Bytes} {offset : Nat} {header : RecordHeader}
    (parsed : parse bytes offset = .ok header) (other : Nat) : parse bytes other = .ok header := by
  simp only [parse] at parsed ⊢
  split at parsed
  · cases parsed
  · rename_i whole
    split at parsed
    · cases parsed
    · rename_i marked
      rw [if_neg whole, if_neg marked]
      exact parsed

namespace Records
open Archive RecordHeader

def fieldAhead (r : Reader) : Except ArchiveError Bytes := do
  let header ← headerAhead r
  let (field, _) ← (r.forward RecordHeader.size).take header.nameSize.toNat
  return field

/-- A walk from `r` comes to the record at the second reader, be it a member or the trailer. -/
inductive Visits : Reader → Reader → Prop
  | here (r : Reader) : Visits r r
  | later {r r' : Reader} {header : RecordHeader} (member : memberAhead r = .ok true)
      (described : headerAhead r = .ok header) (rest : Visits (r.forward header.recordSize) r') :
      Visits r r'

def EndedFrom (r : Reader) : Prop :=
  ∀ r' field, Visits r r' → fieldAhead r' = .ok field → field.getLast? = some 0

/-- Every name field that a walk over the archive comes to ends in a NUL. -/
def NamesEnded (buf : Bytes) : Prop := EndedFrom (.start buf)

theorem memberAhead_of_field {r : Reader} {field : Bytes} (there : fieldAhead r = .ok field)
    (ended : field.getLast? = some 0) : memberAhead r = .ok (field.dropLast != trailerName) := by
  simp only [fieldAhead, memberAhead, bind, Except.bind, pure, Except.pure] at there ⊢
  split at there
  · cases there
  · split at there
    · cases there
    · rename_i header described step taken
      cases there
      simp only [ended, ↓reduceIte]

/-- The bytes are one record, wherever it stands and whatever follows. -/
structure Whole (bytes : Bytes) (header : RecordHeader) (field data : Bytes) : Prop where
  length : bytes.length = header.recordSize
  described : ∀ position rest, headerAhead ⟨position, bytes ++ rest, true⟩ = .ok header
  named : ∀ position rest, fieldAhead ⟨position, bytes ++ rest, true⟩ = .ok field
  read : ∀ position rest, field.dropLast ≠ trailerName →
    readMember ⟨position, bytes ++ rest, true⟩ =
      .ok (some (.decoded header field.dropLast data), ⟨position + bytes.length, rest, true⟩)

section Assembled
variable {raw field gap data tail : Bytes} {header : RecordHeader}

theorem headerAhead_append (parsed : RecordHeader.parse raw 0 = .ok header)
    (rawLength : raw.length = size) (position : Nat) (rest : Bytes) :
    headerAhead ⟨position, raw ++ rest, true⟩ = .ok header := by
  simp only [headerAhead, bind, Except.bind, Reader.peek_append position raw rest rawLength,
    parse_anywhere parsed]

theorem fieldAhead_append (parsed : RecordHeader.parse raw 0 = .ok header)
    (rawLength : raw.length = size) (fieldLength : field.length = header.nameSize.toNat)
    (position : Nat) (rest : Bytes) :
    fieldAhead ⟨position, raw ++ (field ++ rest), true⟩ = .ok field := by
  simp only [fieldAhead, bind, Except.bind, pure, Except.pure,
    headerAhead_append parsed rawLength position, Reader.forward_append position raw _ rawLength,
    Reader.take_append _ field rest fieldLength]

theorem whole_of_parts (parsed : RecordHeader.parse raw 0 = .ok header)
    (rawLength : raw.length = size) (fieldLength : field.length = header.nameSize.toNat)
    (least : ¬ header.nameSize.toNat < 2)
    (gapLength : gap.length =
      align4 (size + header.nameSize.toNat) - size - header.nameSize.toNat)
    (dataLength : data.length = header.fileSize.toNat)
    (tailLength : tail.length = align4 header.fileSize.toNat - header.fileSize.toNat) :
    Whole (raw ++ (field ++ (gap ++ (data ++ tail)))) header field data := by
  have whole : (raw ++ (field ++ (gap ++ (data ++ tail)))).length = header.recordSize := by
    simp only [List.length_append, rawLength, fieldLength, gapLength, dataLength, tailLength,
      recordSize, entrySize, align4, size]
    omega
  refine ⟨whole, ?_, ?_, ?_⟩
  · intro position rest
    simp only [List.append_assoc]
    exact headerAhead_append parsed rawLength position _
  · intro position rest
    simp only [List.append_assoc]
    exact fieldAhead_append parsed rawLength fieldLength position _
  · intro position rest differs
    have other : (field.dropLast == trailerName) = false := by simpa using differs
    have name : field.take (header.nameSize.toNat - 1) = field.dropLast := by
      rw [List.dropLast_eq_take, fieldLength]
    have stop : position + size + header.nameSize.toNat +
        (align4 (size + header.nameSize.toNat) - size - header.nameSize.toNat) +
        header.fileSize.toNat + (align4 header.fileSize.toNat - header.fileSize.toNat) =
        position + header.recordSize := by
      simp only [recordSize, entrySize, align4, size]
      omega
    rw [whole]
    simp only [List.append_assoc, readMember, bind, Except.bind, pure, Except.pure,
      Reader.take_append _ raw _ rawLength, parse_anywhere parsed, least, ↓reduceIte,
      Reader.take_append _ field _ fieldLength, Reader.skip_append _ gap _ gapLength, name, other,
      Bool.false_eq_true, Reader.take_append _ data _ dataLength,
      Reader.skip_append _ tail _ tailLength, stop]

end Assembled

/-- Reading stops where the trailer's name stands in the field ahead, or it passes one whole
    record of another name. -/
theorem readMember_cases {r r' : Reader} {found : Option Entry}
    (ok : readMember r = .ok (found, r')) :
    (∃ field, found = none ∧ r.inside = true ∧ fieldAhead r = .ok field ∧
      field.dropLast = trailerName) ∨
    (∃ bytes header field data, found = some (.decoded header field.dropLast data) ∧
      Whole bytes header field data ∧ r.Passes bytes r' ∧ field.dropLast ≠ trailerName) := by
  unfold readMember at ok
  simp only [bind, Except.bind, pure, Except.pure, throw, throwThe, MonadExceptOf.throw] at ok
  split at ok
  · cases ok
  rename_i taken
  split at ok
  · cases ok
  rename_i header parsed
  split at ok
  · cases ok
  rename_i least
  split at ok
  · cases ok
  rename_i named
  obtain ⟨overRaw, rawLength⟩ := Reader.take_ok taken
  obtain ⟨overField, fieldLength⟩ := Reader.take_ok named
  rw [← fieldLength, ← List.dropLast_eq_take, fieldLength] at ok
  split at ok
  · cases ok
  rename_i skipped
  split at ok
  · rename_i same
    cases ok
    refine .inl ⟨_, rfl, congrArg Reader.inside overRaw.start, ?_, beq_iff_eq.mp same⟩
    rw [overRaw.start, congrArg Reader.ahead overField.start]
    exact fieldAhead_append (parse_anywhere parsed 0) rawLength fieldLength _ _
  rename_i differs
  split at ok
  · cases ok
  rename_i loaded
  split at ok
  · cases ok
  rename_i padded
  cases ok
  obtain ⟨gap, overGap, gapLength⟩ := Reader.skip_ok skipped
  obtain ⟨overData, dataLength⟩ := Reader.take_ok loaded
  obtain ⟨tail, overTail, tailLength⟩ := Reader.skip_ok padded
  have whole := whole_of_parts (parse_anywhere parsed 0) rawLength fieldLength least gapLength
    dataLength tailLength
  have path := overRaw.trans (overField.trans (overGap.trans (overData.trans overTail)))
  exact .inr ⟨_, header, _, _, rfl, whole, path, fun same => differs (beq_iff_eq.mpr same)⟩

end Records
end KernelBoot
