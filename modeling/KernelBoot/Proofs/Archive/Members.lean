import KernelBoot.Proofs.Archive.Walking

/-!
Members that lie one after the other in front of something else. Both walks come past all of
them, wherever they stand: one collects them, the other leaves them for the trailer. Where the one
walk succeeds and every name it meets ends in a NUL, the other one finds the end of just the
members that the first has collected.
-/
namespace KernelBoot

namespace Records
open Archive RecordHeader

theorem trailerFrom_here {r : Reader} (more : r.remaining ≠ 0)
    (last : memberAhead r = .ok false) : trailerFrom r = .ok r.position := by
  rw [trailerFrom, dif_neg more, last]

theorem trailerFrom_past {r : Reader} {header : RecordHeader} (more : r.remaining ≠ 0)
    (member : memberAhead r = .ok true) (described : headerAhead r = .ok header) :
    trailerFrom r = trailerFrom (r.forward header.recordSize) := by
  rw [trailerFrom, dif_neg more, member, described]

section OneRecord
variable {bytes field data : Bytes} {header : RecordHeader}

theorem Whole.remaining (whole : Whole bytes header field data) (position : Nat) (rest : Bytes) :
    Reader.remaining ⟨position, bytes ++ rest, true⟩ ≠ 0 := by
  have positive := header.recordSize_pos
  simp only [Reader.remaining, List.length_append, whole.length]
  omega

theorem Whole.isAtEnd (whole : Whole bytes header field data) (position : Nat) (rest : Bytes) :
    Reader.isAtEnd ⟨position, bytes ++ rest, true⟩ = false := by
  have more := whole.remaining position rest
  simp only [Reader.remaining, ne_eq, List.length_eq_zero_iff] at more
  simp only [Reader.isAtEnd, List.isEmpty_eq_false_iff]
  exact more

theorem Whole.trailerFrom_past (whole : Whole bytes header field data)
    (ended : field.getLast? = some 0) (differs : field.dropLast ≠ trailerName)
    (position : Nat) (rest : Bytes) :
    trailerFrom ⟨position, bytes ++ rest, true⟩ =
      trailerFrom ⟨position + bytes.length, rest, true⟩ := by
  have member := memberAhead_of_field (whole.named position rest) ended
  have other : (field.dropLast != trailerName) = true := by simpa using differs
  rw [other] at member
  rw [Records.trailerFrom_past (whole.remaining position rest) member
    (whole.described position rest), ← whole.length, Reader.forward_append position bytes rest rfl]

theorem Whole.trailerFrom_here (whole : Whole bytes header field data)
    (ended : field.getLast? = some 0) (same : field.dropLast = trailerName)
    (position : Nat) (rest : Bytes) :
    trailerFrom ⟨position, bytes ++ rest, true⟩ = .ok position := by
  have last := memberAhead_of_field (whole.named position rest) ended
  have equal : (field.dropLast != trailerName) = false := by simpa using same
  rw [equal] at last
  rw [Records.trailerFrom_here (whole.remaining position rest) last]

end OneRecord

theorem whole_recordBytes {header : RecordHeader} {name data : Bytes}
    (fits : header.Fits name data) (named : name ≠ []) :
    Whole (recordBytes header name data) header (name ++ [0]) data := by
  have parts := recordBytes_append header name data []
  rw [List.append_nil, List.append_nil] at parts
  rw [parts]
  have least : ¬ header.nameSize.toNat < 2 := by
    have positive := List.length_pos_iff.mpr named
    rw [fits.nameSize]
    omega
  refine whole_of_parts (parse_encode header 0) (encode_length header) ?_ least ?_
    fits.fileSize.symm ?_
  · rw [fits.nameSize, List.length_append, List.length_singleton]
  · rw [fits.nameSize, name_padding, Bytes.zeros_length]
  · rw [fits.fileSize, data_padding, Bytes.zeros_length]

theorem trailerFrom_trailerBytes (position : Nat) (rest : Bytes) :
    trailerFrom ⟨position, trailerBytes ++ rest, true⟩ = .ok position := by
  have whole : Whole trailerBytes _ _ _ := whole_recordBytes trailer_fits (by decide)
  exact whole.trailerFrom_here List.getLast?_concat List.dropLast_concat position rest

/-- The records of these members, one after the other, as both walks read them. -/
inductive Members : Bytes → List Entry → Prop
  | nil : Members [] []
  | cons {bytes field data rest : Bytes} {header : RecordHeader} {es : List Entry}
      (first : Whole bytes header field data) (ended : field.getLast? = some 0)
      (differs : field.dropLast ≠ trailerName) (others : Members rest es) :
      Members (bytes ++ rest) (.decoded header field.dropLast data :: es)

theorem Members.append {front behind : Bytes} {es es' : List Entry} (first : Members front es)
    (later : Members behind es') : Members (front ++ behind) (es ++ es') := by
  induction first with
  | nil => exact later
  | cons whole ended differs _ ih =>
    rw [List.append_assoc]
    exact .cons whole ended differs ih

theorem Members.trailerFrom {front : Bytes} {es : List Entry} (members : Members front es)
    (position : Nat) (rest : Bytes) :
    trailerFrom ⟨position, front ++ rest, true⟩ =
      Records.trailerFrom ⟨position + front.length, rest, true⟩ := by
  induction members generalizing position with
  | nil => rfl
  | cons whole ended differs _ ih =>
    rw [List.append_assoc, whole.trailerFrom_past ended differs, ih, List.length_append,
      Nat.add_assoc]

theorem Members.readMembers {front : Bytes} {es : List Entry} (members : Members front es)
    (position room capacity : Nat) (rest : Bytes) :
    readMembers ⟨position, front ++ rest, true⟩ (es.length + room) capacity =
      (Archive.readMembers ⟨position + front.length, rest, true⟩ room capacity).map (es ++ ·) := by
  induction members generalizing position with
  | nil =>
    simp only [List.length_nil, Nat.zero_add, Nat.add_zero, List.nil_append]
    cases Archive.readMembers ⟨position, rest, true⟩ room capacity <;> rfl
  | @cons bytes _ _ behind _ es whole _ differs _ ih =>
    have count : (es.length + 1) + room = (es.length + room) + 1 := by omega
    rw [List.append_assoc, List.length_cons, count,
      readMembers_some (whole.isAtEnd _ _) (whole.read _ _ differs), ih, List.length_append,
      ← Nat.add_assoc]
    cases Archive.readMembers ⟨position + bytes.length + behind.length, rest, true⟩ room capacity
      <;> rfl

theorem Members.decode {front : Bytes} {es : List Entry} (members : Members front es)
    (rest : Bytes) {capacity : Nat} (enough : es.length ≤ capacity) :
    decode (front ++ (trailerBytes ++ rest)) capacity = .ok ⟨es, capacity⟩ := by
  obtain ⟨spare, exact⟩ := Nat.exists_eq_add_of_le enough
  have collected := members.readMembers 0 spare capacity (trailerBytes ++ rest)
  rw [← exact, readMembers_trailer] at collected
  rw [Archive.decode, Reader.start, collected]
  simp only [Except.map, List.append_nil]

theorem members_records {entries : List Entry} (writable : ∀ e ∈ entries, e.Writable)
    (differ : ∀ e ∈ entries, e.name ≠ trailerName) :
    Members (records entries) (entries.map Entry.reread) := by
  induction entries with
  | nil => exact .nil
  | cons e rest ih =>
    have first := writable e List.mem_cons_self
    have others := ih (fun e' member => writable e' (List.mem_cons_of_mem e member))
      (fun e' member => differ e' (List.mem_cons_of_mem e member))
    have whole := whole_recordBytes first.fits first.named
    have cons := Members.cons whole List.getLast?_concat
      (by rw [List.dropLast_concat]; exact differ e List.mem_cons_self) others
    rw [List.dropLast_concat] at cons
    exact cons

theorem Whole.endedFrom {bytes field data : Bytes} {header : RecordHeader}
    (whole : Whole bytes header field data) (ended : field.getLast? = some 0) {position : Nat}
    {rest : Bytes} (later : field.dropLast ≠ trailerName →
      EndedFrom ⟨position + bytes.length, rest, true⟩) :
    EndedFrom ⟨position, bytes ++ rest, true⟩ := by
  intro r' field' path there
  cases path with
  | here =>
    rw [whole.named position rest] at there
    cases there
    exact ended
  | later member described path =>
    rw [memberAhead_of_field (whole.named position rest) ended] at member
    rw [whole.described position rest] at described
    cases described
    rw [← whole.length, Reader.forward_append position bytes rest rfl] at path
    exact later (by simpa using member) r' field' path there

theorem Members.endedFrom {front : Bytes} {es : List Entry} (members : Members front es)
    {position : Nat} {rest : Bytes} (later : EndedFrom ⟨position + front.length, rest, true⟩) :
    EndedFrom ⟨position, front ++ rest, true⟩ := by
  induction members generalizing position with
  | nil => exact later
  | cons whole ended _ _ ih =>
    rw [List.length_append, ← Nat.add_assoc] at later
    rw [List.append_assoc]
    exact whole.endedFrom ended fun _ => ih later

/-- The names of a written archive end in NULs, and its trailer is found behind its members. -/
theorem written_walk {entries : List Entry} (writable : ∀ e ∈ entries, e.Writable)
    (differ : ∀ e ∈ entries, e.name ≠ trailerName) (rest : Bytes) :
    NamesEnded (records entries ++ (trailerBytes ++ rest)) ∧
      trailerOffset (records entries ++ (trailerBytes ++ rest)) =
        .ok (sumOf Entry.encodedLength entries) := by
  have members := members_records writable differ
  have last : Whole trailerBytes _ _ _ := whole_recordBytes trailer_fits (by decide)
  constructor
  · refine members.endedFrom (last.endedFrom List.getLast?_concat ?_)
    intro other
    exact absurd List.dropLast_concat other
  · rw [trailerOffset, Reader.start, members.trailerFrom, trailerFrom_trailerBytes, Nat.zero_add,
      Archive.records_length]

/-- A member that is read, under a name field with its NUL, is one to the other walk too, which
    goes on from the same place. -/
theorem readMember_walked {r r' : Reader} {e : Entry} (read : readMember r = .ok (some e, r'))
    (ended : ∀ field, fieldAhead r = .ok field → field.getLast? = some 0) :
    memberAhead r = .ok true ∧
      ∃ header, headerAhead r = .ok header ∧ r.forward header.recordSize = r' := by
  rcases readMember_cases read with
    ⟨_, absurd, _⟩ | ⟨bytes, header, field, data, _, whole, passes, differs⟩
  · cases absurd
  obtain ⟨position, ahead, inside⟩ := r
  cases passes.start
  have there := whole.named position r'.ahead
  have member := memberAhead_of_field there (ended field there)
  have other : (field.dropLast != trailerName) = true := by simpa using differs
  constructor
  · rw [member, other]
  · refine ⟨header, whole.described position r'.ahead, ?_⟩
    rw [Reader.forward_append position bytes _ whole.length, ← whole.length]
    exact passes.stop.symm

theorem readMember_stopped {r r' : Reader} (read : readMember r = .ok (none, r'))
    (ended : ∀ field, fieldAhead r = .ok field → field.getLast? = some 0) :
    memberAhead r = .ok false := by
  rcases readMember_cases read with ⟨field, _, _, there, same⟩ | ⟨_, _, _, _, absurd, _⟩
  · have equal : (field.dropLast != trailerName) = false := by simpa using same
    rw [memberAhead_of_field there (ended field there), equal]
  · cases absurd

/-- Both walks from one reader. What the one collects is what the other passes, and where the one
    stops in front of anything at all the other finds the trailer. -/
theorem members_ahead {r : Reader} {room capacity : Nat} {es : List Entry}
    (inside : r.inside = true) (read : readMembers r room capacity = .ok es) (ended : EndedFrom r) :
    ∃ front last, r.Passes front last ∧ Members front es ∧
      trailerFrom r = if last.remaining = 0 then .error .missingTrailer else .ok last.position := by
  -- along the walk that reads; wherever it goes on, the other one passes the same record
  fun_induction Archive.readMembers r room capacity generalizing es with
  | case1 r _ atEnd =>
    cases read
    have none : r.remaining = 0 := by simpa [Reader.isAtEnd, Reader.remaining] using atEnd
    refine ⟨[], r, .here inside, .nil, ?_⟩
    rw [trailerFrom, dif_pos none, if_pos none]
  | case2 => cases read
  | case3 r _ more _ step =>
    cases read
    have some : r.remaining ≠ 0 := by simpa [Reader.isAtEnd, Reader.remaining] using more
    refine ⟨[], r, .here inside, .nil, ?_⟩
    rw [trailerFrom_here some (readMember_stopped step fun field => ended r field (.here r)),
      if_neg some]
  | case4 => cases read
  | case5 r more e r' step room ih =>
    cases tail : Archive.readMembers r' room capacity with
    | error error =>
      rw [tail] at read
      cases read
    | ok es' =>
      rw [tail] at read
      cases read
      have some : r.remaining ≠ 0 := by simpa [Reader.isAtEnd, Reader.remaining] using more
      obtain ⟨member, header, described, next⟩ :=
        readMember_walked step fun field => ended r field (.here r)
      have later : EndedFrom r' := fun r'' field path =>
        ended r'' field (.later member described (next.symm ▸ path))
      rcases readMember_cases step with
        ⟨_, absurd, _⟩ | ⟨bytes, _, field, data, same, whole, passes, differs⟩
      · cases absurd
      cases same
      have nul : field.getLast? = .some 0 := by
        apply ended r field (.here r)
        rw [passes.start]
        exact whole.named r.position r'.ahead
      obtain ⟨front, last, path, members, stop⟩ :=
        ih (congrArg Reader.inside passes.stop) tail later
      refine ⟨bytes ++ front, last, passes.trans path, .cons whole nul differs members, ?_⟩
      rw [trailerFrom_past some member described, next, stop]

/-- Both walks over a buffer. The members that the one reads are the front of the buffer, and the
    other finds the trailer behind them if anything follows. -/
theorem members_of_decode {buf : Bytes} {capacity : Nat} {a : Archive}
    (read : decode buf capacity = .ok a) (ended : NamesEnded buf) :
    ∃ front rest, buf = front ++ rest ∧ Members front a.entries ∧
      trailerOffset buf = if rest = [] then .error .missingTrailer else .ok front.length := by
  unfold decode at read
  cases collected : Archive.readMembers (.start buf) capacity capacity with
  | error e =>
    rw [collected] at read
    cases read
  | ok es =>
    rw [collected] at read
    cases read
    obtain ⟨front, last, passed, members, stop⟩ := members_ahead rfl collected ended
    have position : last.position = 0 + front.length := congrArg Reader.position passed.stop
    refine ⟨front, last.ahead, congrArg Reader.ahead passed.start, members, ?_⟩
    rw [trailerOffset, stop, position, Nat.zero_add]
    simp only [Reader.remaining, List.length_eq_zero_iff]

end Records
end KernelBoot
