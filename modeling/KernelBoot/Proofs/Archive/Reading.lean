import KernelBoot.Archive.Table
import KernelBoot.Proofs.Archive.Fields
import KernelBoot.Proofs.Buffer

/-!
A record that lies at the reader is read as the member it was written for, whatever follows it.
The writer pads from sizes of its own; both sides arrive at the same multiple of four.
-/
namespace KernelBoot

theorem align4_eq (n : Nat) : align4 n = n + pad4 n := by
  simp only [align4, pad4]
  omega

theorem recordBytes_length (header : RecordHeader) (name data : Bytes) :
    (recordBytes header name data).length = predictedSize name.length data.length := by
  simp only [recordBytes, List.length_append, RecordHeader.encode_length, Bytes.zeros_length,
    predictedSize, entrySize, RecordHeader.size, align4_eq, ← Nat.add_assoc]

namespace Reader

theorem peek_length {r : Reader} {len : Nat} {bytes : Bytes} (ok : r.peek len = .ok bytes) :
    bytes.length = len := by
  unfold peek at ok
  split at ok
  · rename_i enough
    cases ok
    exact enough.2
  · cases ok

theorem take_length {r r' : Reader} {len : Nat} {bytes : Bytes}
    (taken : r.take len = .ok (bytes, r')) : bytes.length = len := by
  unfold take at taken
  cases ahead : r.peek len with
  | error e =>
    rw [ahead] at taken
    cases taken
  | ok bytes =>
    rw [ahead] at taken
    cases taken
    exact peek_length ahead

theorem take_append (position : Nat) (bytes rest : Bytes) {len : Nat} (exact : bytes.length = len) :
    take ⟨position, bytes ++ rest, true⟩ len = .ok (bytes, ⟨position + len, rest, true⟩) := by
  subst exact
  simp [take, peek, Except.map]

theorem skip_append (position : Nat) (bytes rest : Bytes) {len : Nat} (exact : bytes.length = len) :
    skip ⟨position, bytes ++ rest, true⟩ len = .ok ⟨position + len, rest, true⟩ := by
  simp only [skip, take_append position bytes rest exact, Except.map]

end Reader

/-- The header belongs to the name and the data: its sizes are theirs. -/
structure RecordHeader.Fits (header : RecordHeader) (name data : Bytes) : Prop where
  nameSize : header.nameSize.toNat = name.length + 1
  fileSize : header.fileSize.toNat = data.length

namespace RecordHeader

theorem Fits.recordSize {header : RecordHeader} {name data : Bytes} (fits : header.Fits name data) :
    header.recordSize = predictedSize name.length data.length := by
  rw [RecordHeader.recordSize, fits.nameSize, fits.fileSize, predictedSize]

end RecordHeader

/-- A member as it is read: not skipped, not the trailer, and under a header with its own sizes. -/
inductive Entry.Found : Entry → Prop
  | member {header : RecordHeader} {name data : Bytes} (fits : header.Fits name data)
      (named : name ≠ []) (differs : name ≠ RecordHeader.trailerName) :
      Found (.decoded header name data)

theorem Entry.Found.differs {e : Entry} (found : e.Found) : e.name ≠ RecordHeader.trailerName := by
  cases found
  assumption

namespace Archive
open RecordHeader

theorem name_padding (n : Nat) : align4 (size + n) - size - n = pad4 (size + n) := by
  rw [align4_eq]
  omega

theorem data_padding (n : Nat) : align4 n - n = pad4 n := by
  rw [align4_eq]
  omega

theorem recordBytes_append (header : RecordHeader) (name data rest : Bytes) :
    recordBytes header name data ++ rest =
      header.encode ++ ((name ++ [0]) ++ (Bytes.zeros (pad4 (size + (name.length + 1))) ++
        (data ++ (Bytes.zeros (pad4 data.length) ++ rest)))) := by
  simp only [recordBytes, Bytes.zeros, Nat.add_comm 1, List.replicate_succ, List.append_assoc,
    List.cons_append, List.nil_append, Nat.add_assoc]

theorem readMember_recordBytes {header : RecordHeader} {name data : Bytes}
    (fits : header.Fits name data) (named : name ≠ []) (position : Nat) (rest : Bytes) :
    readMember ⟨position, recordBytes header name data ++ rest, true⟩ =
      if name == trailerName then
        .ok (none, ⟨position + align4 (size + (name.length + 1)),
          data ++ (Bytes.zeros (pad4 data.length) ++ rest), true⟩)
      else .ok (some (.decoded header name data),
        ⟨position + predictedSize name.length data.length, rest, true⟩) := by
  have long : ¬ name.length + 1 < 2 := by
    have := List.length_pos_iff.mpr named
    omega
  have nul : (name ++ [0] : Bytes).length = name.length + 1 := by simp
  have field : (name ++ [0] : Bytes).take (name.length + 1 - 1) = name := by simp
  have dataStart : position + size + (name.length + 1) + pad4 (size + (name.length + 1)) =
      position + align4 (size + (name.length + 1)) := by
    rw [align4_eq]
    omega
  have recordEnd : position + align4 (size + (name.length + 1)) + data.length + pad4 data.length =
      position + predictedSize name.length data.length := by
    simp only [predictedSize, entrySize, align4_eq data.length, size]
    omega
  rw [recordBytes_append]
  simp only [readMember, bind, Except.bind, pure, Except.pure,
    Reader.take_append _ _ _ (encode_length header), parse_encode, fits.nameSize, long, ↓reduceIte,
    Reader.take_append _ _ _ nul, field, name_padding,
    Reader.skip_append _ _ _ (Bytes.zeros_length (pad4 (size + (name.length + 1)))), dataStart]
  split
  · rfl
  · simp only [fits.fileSize, Reader.take_append _ data _ rfl, data_padding,
      Reader.skip_append _ _ _ (Bytes.zeros_length (pad4 data.length)), recordEnd]

theorem record_ahead (position : Nat) (header : RecordHeader) (name data rest : Bytes) :
    Reader.isAtEnd ⟨position, recordBytes header name data ++ rest, true⟩ = false := by
  rw [recordBytes_append]
  rfl

/-! One step of reading a table. -/

theorem readMembers_none {r r' : Reader} (more : r.isAtEnd = false)
    (step : readMember r = .ok (none, r')) (room capacity : Nat) :
    readMembers r room capacity = .ok [] := by
  rw [readMembers, more]
  simp only [Bool.false_eq_true, ↓reduceIte]
  split
  · rename_i failed
    rw [step] at failed
    cases failed
  · rfl
  · rename_i found
    rw [step] at found
    cases found

theorem readMembers_some {r r' : Reader} {e : Entry} (more : r.isAtEnd = false)
    (step : readMember r = .ok (some e, r')) (room capacity : Nat) :
    readMembers r (room + 1) capacity = (readMembers r' room capacity).map (e :: ·) := by
  rw [readMembers, more]
  simp only [Bool.false_eq_true, ↓reduceIte]
  split
  · rename_i failed
    rw [step] at failed
    cases failed
  · rename_i ended
    rw [step] at ended
    cases ended
  · rename_i found
    rw [step] at found
    cases found
    rfl

theorem readMembers_error {r : Reader} {e : ArchiveError} (more : r.isAtEnd = false)
    (failed : readMember r = .error e) (room capacity : Nat) :
    readMembers r room capacity = .error e := by
  rw [readMembers, more]
  simp only [Bool.false_eq_true, ↓reduceIte]
  split
  · rename_i other
    rw [failed] at other
    cases other
    rfl
  · rename_i ended
    rw [failed] at ended
    cases ended
  · rename_i found
    rw [failed] at found
    cases found

/-- What a reading finds is a member under its own header, and not the trailer. -/
theorem readMember_found {r r' : Reader} {e : Entry} (found : readMember r = .ok (some e, r')) :
    e.Found := by
  unfold readMember at found
  simp only [bind, Except.bind, pure, Except.pure, throw, throwThe, MonadExceptOf.throw] at found
  split at found
  · cases found
  split at found
  · cases found
  rename_i header _
  split at found
  · cases found
  rename_i least
  split at found
  · cases found
  rename_i field taken
  have nameLength : (field.1.take (header.nameSize.toNat - 1)).length + 1 =
      header.nameSize.toNat := by
    rw [List.length_take, Reader.take_length taken]
    omega
  split at found
  · cases found
  split at found
  · cases found
  rename_i differs
  split at found
  · cases found
  rename_i loaded
  split at found
  · cases found
  cases found
  refine .member ⟨nameLength.symm, (Reader.take_length loaded).symm⟩ ?_ (by simpa using differs)
  refine List.length_pos_iff.mp ?_
  omega

theorem readMembers_ok {r : Reader} {room capacity : Nat} {entries : List Entry}
    (ok : readMembers r room capacity = .ok entries) :
    entries.length ≤ room ∧ ∀ e ∈ entries, e.Found := by
  fun_induction readMembers r room capacity generalizing entries with
  | case1 => cases ok; simp
  | case2 => cases ok
  | case3 => cases ok; simp
  | case4 => cases ok
  | case5 r atRecord e r' found room ih =>
    cases tail : readMembers r' room capacity with
    | error error => simp [tail, Except.map] at ok
    | ok rest =>
      rw [tail] at ok
      cases ok
      obtain ⟨fits, others⟩ := ih tail
      exact ⟨Nat.succ_le_succ fits, List.forall_mem_cons.mpr ⟨readMember_found found, others⟩⟩

theorem decode_ok {buf : Bytes} {capacity : Nat} {a : Archive} (ok : decode buf capacity = .ok a) :
    a.capacity = capacity ∧ a.entries.length ≤ capacity ∧ a.live = a.entries ∧
      ∀ e ∈ a.entries, e.Found := by
  unfold decode at ok
  cases read : readMembers (.start buf) capacity capacity with
  | error error => simp [read, Except.map] at ok
  | ok entries =>
    rw [read] at ok
    cases ok
    obtain ⟨fits, each⟩ := readMembers_ok read
    refine ⟨rfl, fits, ?_, each⟩
    rw [live, List.filter_eq_self]
    intro e member
    cases each e member
    rfl

end Archive
end KernelBoot
