import KernelBoot.Proofs.Archive.Members

/-!
Where new records go. Reading a table checks every size and drops the last byte of a name unseen;
looking for the trailer checks headers and names only and drops a NUL. On a buffer that can be read
and whose names end in NUL they come to the same records, so the sizes of the members that the one
has read add up to the offset that the other finds.
-/
namespace KernelBoot

theorem Entry.Found.recorded {e : Entry} (found : e.Found) :
    ∃ header, e.origin = .preserved header ∧ header.recordSize = e.encodedLength := by
  cases found with
  | @member header _ _ fits _ _ => exact ⟨header, rfl, fits.recordSize⟩

theorem Records.Members.length {front : Bytes} {es : List Entry} (members : Members front es)
    (found : ∀ e ∈ es, e.Found) : front.length = sumOf Entry.encodedLength es := by
  induction members with
  | nil => rfl
  | cons whole _ _ _ ih =>
    obtain ⟨header, same, size⟩ := (found _ List.mem_cons_self).recorded
    cases same
    have others := ih fun e member => found e (List.mem_cons_of_mem _ member)
    rw [List.length_append, whole.length, size, others, sumOf_cons]

namespace Archive

/-- Reading a table from the first reader comes to the record at the second, be it a member or the
    trailer. -/
inductive Reads : Reader → Reader → Prop
  | here (r : Reader) : Reads r r
  | later {r r' r'' : Reader} {e : Entry} (member : readMember r = .ok (some e, r'))
      (rest : Reads r' r'') : Reads r r''

def ReadsEndedFrom (r : Reader) : Prop :=
  ∀ r' field, Reads r r' → Records.fieldAhead r' = .ok field → field.getLast? = some 0

/-- Every name field that reading the archive comes to ends in a NUL. -/
def ReadsEnded (buf : Bytes) : Prop := ReadsEndedFrom (.start buf)

theorem Reads.visits {r r' : Reader} (path : Reads r r') (ended : Records.EndedFrom r) :
    Records.Visits r r' := by
  induction path with
  | here r => exact .here r
  | later read _ ih =>
    obtain ⟨member, header, described, next⟩ :=
      Records.readMember_walked read fun field => ended _ field (.here _)
    apply Records.Visits.later member described
    rw [next]
    apply ih
    intro r'' field path
    exact ended r'' field (.later member described (next.symm ▸ path))

theorem headerAhead_more {r : Reader} {header : RecordHeader}
    (described : Records.headerAhead r = .ok header) : r.isAtEnd ≠ true := by
  intro atEnd
  have none : r.ahead = [] := by simpa [Reader.isAtEnd] using atEnd
  simp only [Records.headerAhead, Reader.peek, none, bind, Except.bind] at described
  simp [RecordHeader.size] at described

/-- The other walk goes on only where the reading has a member, and then both do so alike. -/
theorem visits_reads {r r' : Reader} {room capacity : Nat} {es : List Entry}
    (path : Records.Visits r r') (read : readMembers r room capacity = .ok es)
    (ended : ReadsEndedFrom r) : Reads r r' := by
  induction path generalizing room es with
  | here r => exact .here r
  | @later r _ header member described _ ih =>
    have here : ∀ field, Records.fieldAhead r = .ok field → field.getLast? = some 0 :=
      fun field => ended r field (.here r)
    rw [readMembers, if_neg (headerAhead_more described)] at read
    split at read
    · cases read
    · rename_i step
      rw [Records.readMember_stopped step here] at member
      cases member
    · rename_i e next step
      obtain ⟨_, header', described', stop⟩ := Records.readMember_walked step here
      rw [described] at described'
      cases described'
      cases room with
      | zero => cases read
      | succ room =>
        cases tail : readMembers next room capacity with
        | error error =>
          simp only [tail] at read
          cases read
        | ok others =>
          rw [stop] at ih
          apply Reads.later step
          apply ih tail
          intro r'' field path
          exact ended r'' field (.later step path)

/-- On an archive that can be read, both walks come to the same names. -/
theorem readsEnded_iff {buf : Bytes} {capacity : Nat} {a : Archive}
    (read : decode buf capacity = .ok a) : ReadsEnded buf ↔ Records.NamesEnded buf := by
  unfold decode at read
  cases collected : readMembers (.start buf) capacity capacity with
  | error e =>
    rw [collected] at read
    cases read
  | ok es =>
    constructor
    · intro ended r' field path
      exact ended r' field (visits_reads path collected ended)
    · intro ended r' field path
      exact ended r' field (path.visits ended)

/-- The sizes in the headers that reading finds add up to the offset of the trailer. Where they
    reach the end of the buffer there is none. -/
theorem trailer_behind_members {buf : Bytes} {capacity : Nat} {a : Archive}
    (read : decode buf capacity = .ok a) (ended : ReadsEnded buf) :
    (∀ e ∈ a.entries, ∃ header, e.origin = .preserved header ∧
      header.recordSize = e.encodedLength) ∧
    Records.trailerOffset buf =
      if sumOf Entry.encodedLength a.entries < buf.length then
        .ok (sumOf Entry.encodedLength a.entries)
      else .error .missingTrailer := by
  obtain ⟨_, _, _, found⟩ := decode_ok read
  obtain ⟨front, rest, rfl, members, stop⟩ :=
    Records.members_of_decode read ((readsEnded_iff read).mp ended)
  have size := members.length found
  constructor
  · intro e member
    exact (found e member).recorded
  · rw [stop, List.length_append, ← size]
    cases rest with
    | nil => simp
    | cons first others => simp

def twoMembers : Bytes :=
  records [.file [0x61] [1, 2, 3], .directory [0x62]] ++ (trailerBytes ++ [7, 7])

theorem twoMembers_read {capacity : Nat} (enough : 2 ≤ capacity) :
    decode twoMembers capacity =
        .ok ⟨[Entry.reread (.file [0x61] [1, 2, 3]), Entry.reread (.directory [0x62])], capacity⟩ ∧
      ReadsEnded twoMembers ∧ Records.trailerOffset twoMembers = .ok 228 := by
  have writable : ∀ e ∈ [Entry.file [0x61] [1, 2, 3], .directory [0x62]], e.Writable := by
    intro e member
    simp only [List.mem_cons, List.not_mem_nil, or_false] at member
    rcases member with rfl | rfl
    · exact ⟨by decide, by decide, by decide⟩
    · exact ⟨by decide, by decide, by decide⟩
  obtain ⟨ended, offset⟩ := Records.written_walk writable (by decide) [7, 7]
  have read := (Records.members_records writable (by decide)).decode [7, 7] enough
  exact ⟨read, (readsEnded_iff read).mpr ended, offset⟩

theorem trailer_behind_twoMembers :
    ∃ a : Archive, decode twoMembers 2 = .ok a ∧ ReadsEnded twoMembers ∧
      (∀ e ∈ a.entries, ∃ header, e.origin = .preserved header ∧
        header.recordSize = e.encodedLength) ∧
      Records.trailerOffset twoMembers =
        if sumOf Entry.encodedLength a.entries < twoMembers.length then
          .ok (sumOf Entry.encodedLength a.entries)
        else .error .missingTrailer := by
  obtain ⟨read, ended, _⟩ := twoMembers_read (Nat.le_refl 2)
  exact ⟨_, read, ended, trailer_behind_members read ended⟩

end Archive
end KernelBoot
