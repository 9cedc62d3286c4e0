import KernelBoot.Proofs.Archive.Members

/-!
Reading the front of a written archive. A cut between two records is not seen, and reading gives
the members in front of it. A cut anywhere inside a record falls into one of the five advances
that read it, and that one reports it.
-/
namespace KernelBoot

/-- The bytes up to `stop` end too early: the request that says so reaches beyond them. -/
def EndsEarly (stop : Nat) (result : Except ArchiveError α) : Prop :=
  ∃ offset needed, offset ≤ stop ∧ stop < offset + needed ∧
    result = .error (.prematureEnd offset needed)

theorem EndsEarly.map {stop : Nat} {result : Except ArchiveError α} (early : EndsEarly stop result)
    (f : α → β) : EndsEarly stop (result.map f) := by
  obtain ⟨offset, needed, reached, beyond, failed⟩ := early
  exact ⟨offset, needed, reached, beyond, by rw [failed]; rfl⟩

namespace Reader
variable {bytes rest : Bytes} {position len n : Nat}

theorem take_cut_short (short : n < len) :
    take ⟨position, (bytes ++ rest).take n, true⟩ len = .error (.prematureEnd position len) := by
  have missing : ¬ (((bytes ++ rest).take n).take len).length = len := by
    simp only [List.length_take]
    omega
  simp only [take, peek, missing, and_false, ↓reduceIte, Except.map]

theorem take_cut (exact : bytes.length = len) (more : Nat) :
    take ⟨position, (bytes ++ rest).take (len + more), true⟩ len =
      .ok (bytes, ⟨position + len, rest.take more, true⟩) := by
  have apart : (bytes ++ rest).take (len + more) = bytes ++ rest.take more := by
    rw [← exact, List.take_length_add_append]
  rw [apart, take_append position bytes _ exact]

/-- A chain of advances is cut in its first one, or behind it. -/
theorem take_bind_cut (exact : bytes.length = len) {next : Bytes × Reader → Except ArchiveError α}
    (later : ∀ more, n = len + more →
      EndsEarly (position + len + more) (next (bytes, ⟨position + len, rest.take more, true⟩))) :
    EndsEarly (position + n) (take ⟨position, (bytes ++ rest).take n, true⟩ len >>= next) := by
  by_cases short : n < len
  · rw [take_cut_short short]
    exact ⟨position, len, by omega, by omega, rfl⟩
  · obtain ⟨more, rfl⟩ := Nat.exists_eq_add_of_le (Nat.not_lt.mp short)
    rw [take_cut exact, ← Nat.add_assoc]
    exact later more rfl

theorem skip_bind_cut (exact : bytes.length = len) {next : Reader → Except ArchiveError α}
    (later : ∀ more, n = len + more →
      EndsEarly (position + len + more) (next ⟨position + len, rest.take more, true⟩)) :
    EndsEarly (position + n) (skip ⟨position, (bytes ++ rest).take n, true⟩ len >>= next) := by
  have chain : EndsEarly (position + n)
      (take ⟨position, (bytes ++ rest).take n, true⟩ len >>= fun step => next step.2) :=
    take_bind_cut exact later
  rw [skip]
  cases taken : take ⟨position, (bytes ++ rest).take n, true⟩ len with
  | error e => rw [taken] at chain; exact chain
  | ok step => rw [taken] at chain; exact chain

end Reader

namespace Archive
open RecordHeader

/-- No proper front of a record is read as one. The trailer is a record without data. -/
theorem readMember_cut {header : RecordHeader} {name data : Bytes} (fits : header.Fits name data)
    (named : name ≠ []) (bare : name = trailerName → data = []) (position : Nat) {n : Nat}
    (short : n < (recordBytes header name data).length) :
    EndsEarly (position + n)
      (readMember ⟨position, (recordBytes header name data).take n, true⟩) := by
  have long : ¬ name.length + 1 < 2 := by
    have := List.length_pos_iff.mpr named
    omega
  have nul : (name ++ [0] : Bytes).length = name.length + 1 := by simp
  have field : (name ++ [0] : Bytes).take (name.length + 1 - 1) = name := by simp
  have whole : (recordBytes header name data).length =
      size + ((name.length + 1) + (pad4 (size + (name.length + 1)) +
        (data.length + pad4 data.length))) := by
    rw [recordBytes_length]
    simp only [predictedSize, entrySize, align4_eq, size]
    omega
  rw [whole] at short
  have parts := recordBytes_append header name data []
  rw [List.append_nil, List.append_nil] at parts
  rw [parts, readMember]
  refine Reader.take_bind_cut (RecordHeader.encode_length header) ?_
  intro behindHeader first
  simp only [parse_encode, ok_bind, fits.nameSize, long, ↓reduceIte]
  refine Reader.take_bind_cut nul ?_
  intro behindName second
  simp only [field, name_padding]
  refine Reader.skip_bind_cut (Bytes.zeros_length _) ?_
  intro behindGap third
  by_cases last : name = trailerName
  · have empty : data.length + pad4 data.length = 0 := by rw [bare last]; rfl
    omega
  · simp only [beq_iff_eq, last, ↓reduceIte, fits.fileSize, data_padding]
    refine Reader.take_bind_cut rfl ?_
    intro behindData fourth
    have tail : Bytes.zeros (pad4 data.length) = Bytes.zeros (pad4 data.length) ++ [] :=
      (List.append_nil _).symm
    rw [tail]
    refine Reader.skip_bind_cut (Bytes.zeros_length _) ?_
    intro behindAll fifth
    omega

/-- The trailer, as the member that it would be. -/
def closing : Entry := .decoded trailerHeader trailerName []

theorem closing_record : closing.record = trailerBytes := rfl

theorem records_cut (entries : List Entry) {n : Nat} (inside : n ≤ (records entries).length) :
    ∃ before after, entries = before ++ after ∧
      (n = (records before).length ∨ ∃ e more k, after = e :: more ∧ 0 < k ∧ k < e.record.length ∧
        n = (records before).length + k) := by
  induction entries generalizing n with
  | nil => exact ⟨[], [], rfl, .inl (Nat.le_zero.mp inside)⟩
  | cons e rest ih =>
    rw [records_cons, List.length_append] at inside
    by_cases first : n < e.record.length
    · by_cases start : n = 0
      · exact ⟨[], e :: rest, rfl, .inl start⟩
      · refine ⟨[], e :: rest, rfl, .inr ⟨e, rest, n, rfl, by omega, first, ?_⟩⟩
        simp [records]
    · obtain ⟨before, after, split, place⟩ := ih (n := n - e.record.length) (by omega)
      refine ⟨e :: before, after, by rw [split, List.cons_append], ?_⟩
      rw [records_cons, List.length_append]
      rcases place with between | ⟨e', more, k, same, some, within, reached⟩
      · exact .inl (by omega)
      · exact .inr ⟨e', more, k, same, some, within, by omega⟩

def recordEnd (entries : List Entry) (j : Nat) : Nat := sumOf Entry.encodedLength (entries.take j)

theorem records_take (entries : List Entry) (rest : Bytes) (j : Nat) :
    (records entries ++ rest).take (recordEnd entries j) = records (entries.take j) := by
  have apart : records entries = records (entries.take j) ++ records (entries.drop j) := by
    rw [← records_append, List.take_append_drop]
  have stop : (records (entries.take j)).length = recordEnd entries j := records_length _
  rw [apart, List.append_assoc, List.take_left' stop]

section Written
variable {entries : List Entry} {capacity : Nat}

theorem decode_between (writable : ∀ e ∈ entries, e.Writable)
    (differ : ∀ e ∈ entries, e.name ≠ trailerName) (enough : entries.length ≤ capacity) :
    decode (records entries) capacity = .ok ⟨entries.map Entry.reread, capacity⟩ := by
  obtain ⟨spare, exact⟩ := Nat.exists_eq_add_of_le enough
  have members := Records.members_records writable differ
  have collected := members.readMembers 0 spare capacity []
  have none : readMembers ⟨0 + (records entries).length, [], true⟩ spare capacity = .ok [] := by
    rw [readMembers]
    rfl
  rw [List.append_nil, List.length_map, ← exact, none] at collected
  rw [decode, Reader.start, collected]
  simp only [Except.map, List.append_nil]

theorem decode_within (writable : ∀ e ∈ entries, e.Writable)
    (differ : ∀ e ∈ entries, e.name ≠ trailerName) (enough : entries.length ≤ capacity)
    {e : Entry} (next : e.Writable) (bare : e.name = trailerName → e.data = []) {k : Nat}
    (some : 0 < k) (short : k < e.record.length) :
    EndsEarly ((records entries).length + k)
      (decode (records entries ++ e.record.take k) capacity) := by
  obtain ⟨spare, exact⟩ := Nat.exists_eq_add_of_le enough
  have members := Records.members_records writable differ
  have collected := members.readMembers 0 spare capacity (e.record.take k)
  rw [List.length_map, ← exact, Nat.zero_add] at collected
  have more : Reader.isAtEnd ⟨(records entries).length, e.record.take k, true⟩ = false := by
    have length : (e.record.take k).length ≠ 0 := by
      rw [List.length_take]
      omega
    simpa [Reader.isAtEnd] using length
  obtain ⟨offset, needed, reached, beyond, failed⟩ :=
    readMember_cut next.fits next.named bare (records entries).length short
  rw [← Entry.record] at failed
  refine EndsEarly.map ⟨offset, needed, reached, beyond, ?_⟩ _
  rw [Reader.start, collected, readMembers_error more failed]
  rfl

theorem closing_writable : closing.Writable := ⟨by decide, by decide, by decide⟩

/-- A front of the members and the trailer that is not all of them has members only. -/
theorem front_members {before after : List Entry} {e : Entry}
    (split : entries ++ [closing] = before ++ e :: after) :
    before = entries.take before.length ∧ before.length ≤ entries.length := by
  have count := congrArg List.length split
  simp only [List.length_append, List.length_cons, List.length_nil] at count
  have within : before.length ≤ entries.length := by omega
  have front : (entries ++ [closing]).take before.length = entries.take before.length :=
    List.take_append_of_le_length within
  rw [split, List.take_left' rfl] at front
  exact ⟨front, within⟩

/-- A cut that is neither at the end of the archive nor behind the record of a member is found. -/
theorem decode_front (writable : ∀ e ∈ entries, e.Writable)
    (differ : ∀ e ∈ entries, e.name ≠ trailerName) (enough : entries.length ≤ capacity) {k : Nat}
    (inside : k < (records entries ++ trailerBytes).length)
    (apart : ∀ j ≤ entries.length, k ≠ recordEnd entries j) :
    EndsEarly k (decode ((records entries ++ trailerBytes).take k) capacity) := by
  have whole : records entries ++ trailerBytes = records (entries ++ [closing]) := by
    rw [records_append, ← closing_record]
    simp [records]
  rw [whole] at inside ⊢
  obtain ⟨before, after, split, place⟩ := records_cut (entries ++ [closing]) (Nat.le_of_lt inside)
  rw [split] at inside ⊢
  rcases place with between | ⟨e, more, part, rfl, some, short, reached⟩
  · cases after with
    | nil =>
      rw [List.append_nil] at inside
      omega
    | cons e more =>
      obtain ⟨front, within⟩ := front_members split
      have stop : (records before).length = recordEnd entries before.length := by
        rw [records_length, recordEnd, ← front]
      exact absurd (between.trans stop) (apart before.length within)
  · obtain ⟨front, within⟩ := front_members split
    have member : ∀ e ∈ before, e ∈ entries := by
      rw [front]
      exact fun e => List.mem_of_mem_take
    have next : e ∈ entries ∨ e = closing := by
      have among : e ∈ entries ++ [closing] := by
        rw [split]
        exact List.mem_append_right _ List.mem_cons_self
      simpa using among
    have sound : e.Writable ∧ (e.name = trailerName → e.data = []) := by
      rcases next with old | rfl
      · exact ⟨writable e old, fun same => absurd same (differ e old)⟩
      · exact ⟨closing_writable, fun _ => rfl⟩
    have cut : (records (before ++ e :: more)).take k = records before ++ e.record.take part := by
      rw [records_append, records_cons, reached, List.take_length_add_append,
        List.take_append_of_le_length (Nat.le_of_lt short)]
    rw [cut, reached]
    exact decode_within (fun e old => writable e (member e old))
      (fun e old => differ e (member e old)) (Nat.le_trans within enough) sound.1 sound.2 some short

end Written

/-- A cut never goes unseen. Of the first bytes of a written archive, those up to the end of a
    record are read as the members so far, all of them as all members, and every other number of
    bytes is reported to end too early. -/
theorem truncation_detected (a : Archive) (dest : Bytes) (capacity : Nat)
    (named : ∀ e ∈ a.live, e.name ≠ [] ∧ e.name ≠ RecordHeader.trailerName)
    (sized : ∀ e ∈ a.live, e.nameSize < wordLimit ∧ e.data.length < wordLimit)
    (room : a.encodedLength ≤ dest.length) (limit : a.live.length ≤ capacity) :
    (a.encode dest).1 = .ok a.encodedLength ∧
      ∃ members, List.Forall₂ Entry.ReadAs a.live members ∧
        ∀ k ≤ a.encodedLength,
          (∀ j ≤ a.live.length, k = recordEnd a.live j →
            decode ((a.encode dest).2.take k) capacity = .ok ⟨members.take j, capacity⟩) ∧
          (k = a.encodedLength →
            decode ((a.encode dest).2.take k) capacity = .ok ⟨members, capacity⟩) ∧
          ((∀ j ≤ a.live.length, k ≠ recordEnd a.live j) → k ≠ a.encodedLength →
            EndsEarly k (decode ((a.encode dest).2.take k) capacity)) := by
  have writable : ∀ e ∈ a.live, e.Writable := fun e member =>
    ⟨(named e member).1, (sized e member).1, (sized e member).2⟩
  have differ : ∀ e ∈ a.live, e.name ≠ trailerName := fun e member => (named e member).2
  have ok : (a.encode dest).1 = .ok a.encodedLength :=
    (encode_eq_ok_iff a dest _).mpr ⟨writable, rfl, room⟩
  have length := written_length a
  have members := Records.members_records writable differ
  refine ⟨ok, a.live.map Entry.reread, ?_, ?_⟩
  · rw [List.forall₂_map_right_iff, List.forall₂_same]
    exact fun e member => (writable e member).readAs
  · intro k inside
    have front : (a.encode dest).2.take k = (records a.live ++ trailerBytes).take k := by
      rw [encode_written ok, List.take_append_of_le_length (by rw [length]; exact inside)]
    rw [front]
    refine ⟨?_, ?_, ?_⟩
    · rintro j _ rfl
      have some : ∀ e ∈ a.live.take j, e ∈ a.live := fun e => List.mem_of_mem_take
      have fewer : (a.live.take j).length ≤ capacity := by
        rw [List.length_take]
        omega
      rw [records_take, decode_between (fun e member => writable e (some e member))
        (fun e member => differ e (some e member)) fewer, List.map_take]
    · rintro rfl
      have fits : (a.live.map Entry.reread).length ≤ capacity := by
        rw [List.length_map]
        exact limit
      have read := members.decode [] fits
      rw [List.append_nil] at read
      rw [List.take_of_length_le (Nat.le_of_eq length), read]
    · intro apart notAll
      exact decode_front writable differ limit (by omega) apart

/-- Cut behind the first member, behind the last byte of its data, and in front of the last byte
    of all. -/
theorem truncation_detected_oddMembers :
    let bytes := (oddMembers.encode (Bytes.zeros 512)).2
    (oddMembers.encode (Bytes.zeros 512)).1 = .ok 364 ∧
      ∃ members, List.Forall₂ Entry.ReadAs oddMembers.live members ∧
        decode (bytes.take 364) 2 = .ok ⟨members, 2⟩ ∧
        decode (bytes.take 124) 2 = .ok ⟨members.take 1, 2⟩ ∧
        EndsEarly 121 (decode (bytes.take 121) 2) ∧ EndsEarly 363 (decode (bytes.take 363) 2) := by
  intro bytes
  have length : oddMembers.encodedLength = 364 := by decide
  obtain ⟨ok, members, same, cut⟩ := truncation_detected oddMembers (Bytes.zeros 512) 2 (by decide)
    (by decide) (by rw [Bytes.zeros_length]; decide) (by decide)
  rw [length] at ok cut
  refine ⟨ok, members, same, ?_, ?_, ?_, ?_⟩
  · exact (cut 364 (by decide)).2.1 rfl
  · exact (cut 124 (by decide)).1 1 (by decide) (by decide)
  · exact (cut 121 (by decide)).2.2 (by decide) (by decide)
  · exact (cut 363 (by decide)).2.2 (by decide) (by decide)

end Archive
end KernelBoot
