import KernelBoot.Proofs.Archive.Members
import KernelBoot.Proofs.Archive.Stepwise
import KernelBoot.Proofs.Calls

/-!
An archive that grows where it lies. Whatever calls are made and whichever of them fail, the buffer
comes to hold the old members, the records of the calls that succeeded and a new trailer, and
reading finds just these.
-/
namespace KernelBoot

structure AppendCall where
  name : Bytes
  mode : Mode
  data : Bytes
deriving DecidableEq

namespace AppendCall

def entry (c : AppendCall) : Entry := .new c.name c.mode c.data

def size (c : AppendCall) : Nat := predictedSize c.name.length c.data.length

def header (c : AppendCall) : RecordHeader :=
  { RecordHeader.ofMode c.mode with
    nameSize := UInt32.ofNat (c.name.length + 1)
    fileSize := UInt32.ofNat c.data.length }

def member (c : AppendCall) : Entry := .decoded c.header c.name c.data

theorem entry_length (c : AppendCall) : c.entry.encodedLength = c.size := rfl

theorem records_length (calls : List AppendCall) :
    (Archive.records (calls.map entry)).length = sumOf size calls := by
  induction calls with
  | nil => rfl
  | cons c rest ih =>
    simp only [List.map_cons, Archive.records, List.flatMap_cons, List.length_append,
      Entry.record_length, entry_length, sumOf_cons] at ih ⊢
    rw [ih]

end AppendCall

namespace Appender
open Archive RecordHeader

def perform (w : Appender) (c : AppendCall) : Except ArchiveError Nat × Appender :=
  w.appendInPlace c.name c.mode c.data

/-- A place where records can be written: the end of a record, inside the buffer. -/
structure Ready (w : Appender) : Prop where
  aligned : 4 ∣ w.position
  inside : w.position ≤ w.buf.length

structure Wrote (w : Appender) (calls : List AppendCall) (w' : Appender) : Prop where
  writable : ∀ c ∈ calls, c.entry.Writable
  room : w.position + sumOf AppendCall.size calls ≤ w.buf.length
  written : w' = ⟨w.buf.overwrite w.position (records (calls.map AppendCall.entry)),
    w.position + sumOf AppendCall.size calls⟩

variable {w w' w'' : Appender} {calls later : List AppendCall} {c : AppendCall}

theorem Wrote.length (wrote : w.Wrote calls w') : w'.buf.length = w.buf.length := by
  rw [wrote.written]
  exact Bytes.overwrite_length _ _ _ (by
    rw [AppendCall.records_length]
    exact wrote.room)

theorem Wrote.append (first : w.Wrote calls w') (second : w'.Wrote later w'') :
    w.Wrote (calls ++ later) w'' := by
  have inside : w.position ≤ w.buf.length := Nat.le_of_add_right_le first.room
  have position : w'.position = w.position + sumOf AppendCall.size calls := by rw [first.written]
  refine ⟨?_, ?_, ?_⟩
  · intro c member
    rcases List.mem_append.mp member with earlier | after
    · exact first.writable c earlier
    · exact second.writable c after
  · have room := second.room
    rw [first.length, position] at room
    rw [sumOf_append, ← Nat.add_assoc]
    exact room
  · have joined : w'.buf.overwrite w'.position (records (later.map AppendCall.entry)) =
        w.buf.overwrite w.position (records ((calls ++ later).map AppendCall.entry)) := by
      rw [first.written, ← AppendCall.records_length, Bytes.overwrite_append _ _ _ _ inside]
      simp only [records, List.map_append, List.flatMap_append]
    rw [second.written, joined, position, sumOf_append, ← Nat.add_assoc]

theorem perform_ok (ready : w.Ready) {total : Nat} (done : w.perform c = (.ok total, w')) :
    w'.Ready ∧ w.Wrote [c] w' := by
  have ok : w.append c.name c.mode c.data = .ok w' := by
    rw [append_eq_inPlace]
    rw [perform] at done
    rw [done]
    rfl
  obtain ⟨writable, room, written⟩ := (append_eq_ok_iff ready.aligned _ _ _).mp ok
  have wrote : w.Wrote [c] w' := by
    refine ⟨?_, room, ?_⟩
    · intro c' only
      rw [List.mem_singleton.mp only]
      exact writable
    · simpa [records, AppendCall.size, AppendCall.entry, Entry.encodedLength, Entry.nameSize,
        Entry.new, predictedSize] using written
  refine ⟨⟨?_, ?_⟩, wrote⟩
  · rw [written]
    exact Nat.dvd_add ready.aligned (predictedSize_dvd _ _)
  · rw [wrote.length, written]
    exact room

theorem perform_isOk_iff (ready : w.Ready) :
    (w.perform c).1.isOk ↔ c.entry.Writable ∧ w.position + c.size ≤ w.buf.length := by
  have law := fun w' => @append_eq_ok_iff w w' ready.aligned c.name c.mode c.data
  rw [append_eq_inPlace] at law
  rw [perform]
  generalize w.appendInPlace c.name c.mode c.data = outcome at law ⊢
  obtain ⟨result, next⟩ := outcome
  cases result with
  | error e =>
    simp only [Except.isOk, Except.toBool, Bool.false_eq_true, false_iff]
    rintro ⟨writable, room⟩
    cases (law _).mpr ⟨writable, room, rfl⟩
  | ok total =>
    simp only [Except.isOk, Except.toBool, true_iff]
    obtain ⟨writable, room, _⟩ := (law next).mp rfl
    exact ⟨writable, room⟩

theorem accumulates : Accumulates perform (fun _ => True) Ready Wrote where
  nothing := by
    intro w ready
    refine ⟨nofun, ready.inside, ?_⟩
    simp only [List.map_nil, records, List.flatMap_nil, Bytes.overwrite_nil, sumOf_nil, Nat.add_zero]
  success := fun _ ready done => perform_ok ready done
  failure := by
    intro w c e w' _ ready failed
    have kept := appendInPlace_refused ready.aligned ready.inside (congrArg Prod.fst failed)
    rw [← kept]
    exact (congrArg Prod.snd failed).symm
  append := fun first second => first.append second

theorem finishInPlace_ok (ready : w.Ready) {total : Nat} (done : w.finishInPlace.1 = .ok total) :
    total = w.position + 124 ∧ total ≤ w.buf.length ∧
      w.finishInPlace.2 = ⟨w.buf.overwrite w.position trailerBytes, total⟩ := by
  have position : w.finishInPlace.2.position = total := writeInPlace_position done
  have ok : w.finish = .ok w.finishInPlace.2 := by
    rw [finish_eq_inPlace, done]
    rfl
  obtain ⟨room, written⟩ := (finish_eq_ok_iff ready.aligned).mp ok
  have size : trailerHeader.recordSize = 124 := by decide
  rw [size] at room written
  rw [written] at position ⊢
  simp only at position
  subst position
  exact ⟨rfl, room, rfl⟩

theorem Wrote.finished (wrote : w.Wrote calls w') (ready : w'.Ready) {total : Nat}
    (done : w'.finishInPlace.1 = .ok total) :
    total = w.position + sumOf AppendCall.size calls + 124 ∧ total ≤ w.buf.length ∧
      w'.finishInPlace.2.buf = w.buf.take w.position ++
        (records (calls.map AppendCall.entry) ++ trailerBytes) ++ w.buf.drop total := by
  obtain ⟨stop, room, final⟩ := finishInPlace_ok ready done
  have inside : w.position ≤ w.buf.length := Nat.le_of_add_right_le wrote.room
  have trailerLength : trailerBytes.length = 124 := by
    rw [trailerBytes_length]
    decide
  have position : w'.position = w.position + sumOf AppendCall.size calls := by rw [wrote.written]
  rw [wrote.length] at room
  rw [position] at stop
  refine ⟨stop, room, ?_⟩
  have joined : w'.finishInPlace.2.buf =
      w.buf.overwrite w.position (records (calls.map AppendCall.entry) ++ trailerBytes) := by
    rw [final, wrote.written, ← AppendCall.records_length, Bytes.overwrite_append _ _ _ _ inside]
  rw [joined, Bytes.overwrite, List.length_append, AppendCall.records_length, trailerLength,
    ← Nat.add_assoc, ← stop]

/-- An appender that starts on the trailer stands behind the members that reading finds. -/
theorem atTrailer_members {buf : Bytes} {len limit : Nat} {a : Archive}
    (read : decode (buf.take len) limit = .ok a) (ended : Records.NamesEnded (buf.take len))
    (start : atTrailer buf len = .ok w) :
    w.buf = buf ∧ w.Ready ∧ Records.Members (buf.take w.position) a.entries := by
  have inside : len ≤ buf.length := by
    by_cases past : len > buf.length
    · rw [atTrailer, if_pos past] at start
      cases start
    · omega
  obtain ⟨offset, found, rfl⟩ := (atTrailer_eq_ok_iff inside).mp start
  obtain ⟨aligned, before⟩ := Records.trailerOffset_ok found
  rw [List.length_take] at before
  obtain ⟨front, rest, whole, members, stop⟩ := Records.members_of_decode read ended
  rw [found] at stop
  split at stop
  · cases stop
  cases stop
  have same : buf.take front.length = front := by
    have short : front.length ≤ len := by omega
    rw [← Nat.min_eq_left short, ← List.take_take, whole, List.take_left]
  exact ⟨rfl, ⟨aligned, by simp only; omega⟩, same.symm ▸ members⟩

/-- The buffer's archive, whose trailer stood at `offset`, has come to hold the added members. -/
structure Grown (buf : Bytes) (offset : Nat) (old : List Entry) (added : List AppendCall)
    (final : Bytes) (total : Nat) : Prop where
  total_eq : total = offset + sumOf AppendCall.size added + 124
  length_eq : final.length = buf.length
  in_front : final.take offset = buf.take offset
  behind : final.drop total = buf.drop total
  trailer_found : Records.trailerOffset (final.take total) = .ok (total - 124)
  sizes : ∀ c ∈ added, c.header.nameSize.toNat = c.name.length + 1 ∧
    c.header.fileSize.toNat = c.data.length
  read_back : ∀ capacity, old.length + added.length ≤ capacity →
    decode (final.take total) capacity = .ok ⟨old ++ added.map AppendCall.member, capacity⟩

theorem Wrote.members (wrote : w.Wrote calls w') (differ : ∀ c ∈ calls, c.name ≠ trailerName) :
    Records.Members (records (calls.map AppendCall.entry)) (calls.map AppendCall.member) := by
  have fresh : Records.Members (records (calls.map AppendCall.entry)) _ :=
    Records.members_records (List.forall_mem_map.mpr wrote.writable)
      (List.forall_mem_map.mpr differ)
  rw [List.map_map] at fresh
  exact fresh

theorem Wrote.grown {old : List Entry} (wrote : w.Wrote calls w') (ready : w'.Ready)
    (members : Records.Members (w.buf.take w.position) old)
    (differ : ∀ c ∈ calls, c.name ≠ trailerName) {total : Nat}
    (done : w'.finishInPlace.1 = .ok total) :
    Grown w.buf w.position old calls w'.finishInPlace.2.buf total := by
  obtain ⟨stop, room, bytes⟩ := wrote.finished ready done
  have front : (w.buf.take w.position).length = w.position :=
    List.length_take_of_le (Nat.le_of_add_right_le wrote.room)
  have all := members.append (wrote.members differ)
  have size : (w.buf.take w.position ++ records (calls.map AppendCall.entry)).length =
      total - 124 := by
    rw [List.length_append, front, AppendCall.records_length]
    omega
  have whole : (w.buf.take w.position ++
      (records (calls.map AppendCall.entry) ++ trailerBytes)).length = total := by
    have last : trailerHeader.recordSize = 124 := by decide
    rw [← List.append_assoc, List.length_append, size, trailerBytes_length]
    omega
  have archive : w'.finishInPlace.2.buf.take total = (w.buf.take w.position ++
      records (calls.map AppendCall.entry)) ++ (trailerBytes ++ []) := by
    rw [bytes, List.take_left' whole, List.append_nil, List.append_assoc]
  refine ⟨stop, ?_, ?_, ?_, ?_, ?_, ?_⟩
  · rw [bytes, List.length_append, whole, List.length_drop]
    omega
  · rw [bytes, List.append_assoc, List.take_left' front]
  · rw [bytes, List.drop_left' whole]
  · rw [archive, Records.trailerOffset, Reader.start, all.trailerFrom,
      Records.trailerFrom_trailerBytes, Nat.zero_add, size]
  · intro c member
    have fits := (wrote.writable c member).fits
    exact ⟨fits.nameSize, fits.fileSize⟩
  · intro capacity enough
    have count : (calls.map AppendCall.member).length = calls.length := List.length_map _
    rw [← count, ← List.length_append] at enough
    rw [archive]
    exact all.decode [] enough

/-- Calls on an archive whose names end in NUL, in any order and failing or not: the old members
    stay and those of the successful calls follow. -/
theorem grows_in_place {buf : Bytes} {len limit : Nat} {a : Archive} {w : Appender}
    (read : decode (buf.take len) limit = .ok a) (ended : Records.NamesEnded (buf.take len))
    (start : atTrailer buf len = .ok w) (calls : List AppendCall)
    (differ : ∀ c ∈ calls, c.name ≠ trailerName) :
    KeepsOnFailure (turns perform w calls) ∧
    (∀ turn ∈ turns perform w calls, turn.result.isOk ↔ turn.call.entry.Writable ∧
      turn.before.position + turn.call.size ≤ turn.before.buf.length) ∧
    ∀ total, (stateAfter perform w calls).finishInPlace.1 = .ok total →
      Grown buf w.position a.entries (accepted (turns perform w calls))
        (stateAfter perform w calls).finishInPlace.2.buf total := by
  obtain ⟨rfl, ready, members⟩ := atTrailer_members read ended start
  obtain ⟨stopped, wrote⟩ := accumulates.run (fun c (_ : c ∈ calls) => trivial) ready
  refine ⟨accumulates.failed (fun _ _ => trivial) ready, ?_, ?_⟩
  · refine turns_of_step Ready _ ?_ ready
    intro c _ w ready
    exact ⟨perform_isOk_iff ready, accumulates.keeps trivial ready⟩
  · intro total done
    refine wrote.grown stopped members ?_ done
    exact fun c member => differ c (accepted_subset perform w calls member)

def oneFile : Bytes :=
  records [.file [0x61] [1, 2, 3]] ++ (trailerBytes ++ []) ++ Bytes.zeros 240

/-- The second call has no name, and the third has too much data for the room that is left. -/
def fourCalls : List AppendCall :=
  [⟨[0x62], .file, [7]⟩, ⟨[], .file, [8]⟩, ⟨[0x63], .file, Bytes.zeros 140⟩, ⟨[0x64], .directory, []⟩]

theorem grows_oneFile :
    (stateAfter perform ⟨oneFile, 116⟩ fourCalls).finishInPlace.1 = .ok 468 ∧
      KeepsOnFailure (turns perform ⟨oneFile, 116⟩ fourCalls) ∧
      Grown oneFile 116 [Entry.reread (.file [0x61] [1, 2, 3])]
        [⟨[0x62], .file, [7]⟩, ⟨[0x64], .directory, []⟩]
        (stateAfter perform ⟨oneFile, 116⟩ fourCalls).finishInPlace.2.buf 468 := by
  have writable : ∀ e ∈ [Entry.file [0x61] [1, 2, 3]], e.Writable := by
    intro e member
    rw [List.mem_singleton.mp member]
    exact ⟨by decide, by decide, by decide⟩
  have differ : ∀ e ∈ [Entry.file [0x61] [1, 2, 3]], e.name ≠ trailerName := by decide
  obtain ⟨ended, offset⟩ := Records.written_walk writable differ []
  have archive : oneFile.take 240 = records [.file [0x61] [1, 2, 3]] ++ (trailerBytes ++ []) :=
    List.take_left' (by decide +kernel)
  have read : decode (oneFile.take 240) 1 = .ok ⟨[Entry.reread (.file [0x61] [1, 2, 3])], 1⟩ := by
    rw [archive, ← List.append_assoc]
    exact decode_records _ writable [] 1 (by decide)
  have start : atTrailer oneFile 240 = .ok ⟨oneFile, 116⟩ :=
    (atTrailer_eq_ok_iff (by decide +kernel)).mpr ⟨116, by rw [archive]; exact offset, rfl⟩
  have done : (stateAfter perform ⟨oneFile, 116⟩ fourCalls).finishInPlace.1 = .ok 468 := by
    decide +kernel
  have added : accepted (turns perform ⟨oneFile, 116⟩ fourCalls) =
      [⟨[0x62], .file, [7]⟩, ⟨[0x64], .directory, []⟩] := by
    decide +kernel
  obtain ⟨kept, _, grown⟩ := grows_in_place read (archive ▸ ended) start fourCalls (by decide)
  rw [added] at grown
  exact ⟨done, kept, grown 468 done⟩

end Appender
end KernelBoot
