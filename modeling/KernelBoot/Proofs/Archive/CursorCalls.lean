import KernelBoot.Proofs.Archive.WordCursors
import KernelBoot.Proofs.Calls

/-!
Calls at a cursor, one after the other. Every call gives just the bytes between the position and
where it moves on to, or changes just these, and a refused one leaves all as it was. A cursor that
has moved stands inside its buffer, and one beyond the end stays there. Beyond the end a reader
refuses everything; a writer that is asked for no bytes there grants the reservation, but has no
window to hand out.
-/
namespace KernelBoot

namespace WordReader

/-- One call at a reader. It succeeds just where all the bytes it asks for are in the buffer. -/
structure Answered (turn : Turn WordReader Call ArchiveError Bytes) : Prop where
  succeeds_iff : (∃ bytes, turn.result = .ok bytes) ↔
    turn.before.position.toNat + turn.call.length.toNat ≤ turn.before.buf.bytes.length
  gives : ∀ bytes, turn.result = .ok bytes → bytes = turn.call.given turn.before ∧
    turn.after.position.toNat = turn.before.position.toNat + turn.call.passed.toNat
  takes : ∀ len bytes, turn.call = .take len → turn.result = .ok bytes →
    turn.after.position.toNat = turn.before.position.toNat + bytes.length
  refuses : ∀ e, turn.result = .error e →
    e = .prematureEnd turn.before.position.toNat turn.call.length.toNat ∧ turn.after = turn.before
  buf_eq : turn.after.buf = turn.before.buf
  agrees : turn.call.ask turn.before.reader =
    turn.result.map fun bytes => (bytes, turn.after.reader)

theorem call_answered (r : WordReader) (c : Call) :
    Answered ⟨r, c, (r.call c).1, (r.call c).2⟩ := by
  have agrees := r.ask_reader c
  rw [call_eq] at agrees ⊢
  by_cases inside : r.position.toNat + c.length.toNat ≤ r.buf.bytes.length
  · rw [if_pos inside] at agrees ⊢
    refine ⟨⟨fun _ => inside, fun _ => ⟨_, rfl⟩⟩, ?_, ?_, nofun, rfl, agrees⟩
    · intro bytes ok
      cases ok
      exact ⟨rfl, passed_toNat inside⟩
    · rintro len bytes rfl ok
      cases ok
      have given : (Bytes.slice r.buf.bytes r.position.toNat len.toNat).length = len.toNat :=
        Bytes.slice_length inside
      rw [Call.given, given]
      exact passed_toNat inside
  · rw [if_neg inside] at agrees ⊢
    refine ⟨⟨?_, fun fits => absurd fits inside⟩, nofun, ?_, ?_, rfl, agrees⟩
    · rintro ⟨_, ok⟩
      cases ok
    · rintro _ _ rfl ok
      cases ok
    · intro e refused
      cases refused
      exact ⟨rfl, rfl⟩

/-- What calls can have made of a reader: it stands further on in its buffer, or where it stood. -/
structure Reaches (r r' : WordReader) : Prop where
  buf_eq : r'.buf = r.buf
  inside : r'.position = r.position ∨
    r.position.toNat ≤ r'.position.toNat ∧ r'.position.toNat ≤ r.buf.bytes.length

theorem Reaches.refl (r : WordReader) : r.Reaches r := ⟨rfl, .inl rfl⟩

theorem Reaches.call {r r' : WordReader} (reached : r.Reaches r') (c : Call) :
    r.Reaches (r'.call c).2 := by
  have same := reached.buf_eq
  rw [call_eq]
  by_cases fits : r'.position.toNat + c.length.toNat ≤ r'.buf.bytes.length
  · rw [if_pos fits]
    -- bytes that are passed were asked for, so they have been inside
    have near := c.passed_le
    have sum := passed_toNat fits
    rw [same] at fits
    refine ⟨same, .inr ?_⟩
    simp only [sum]
    rcases reached.inside with still | moved
    · rw [still] at fits ⊢
      omega
    · omega
  · rw [if_neg fits]
    exact reached

theorem turns_answered (r : WordReader) (calls : List Call) :
    ∀ turn ∈ turns call r calls, Answered turn ∧ r.Reaches turn.after := by
  refine turns_of_step r.Reaches (fun turn => Answered turn ∧ r.Reaches turn.after) ?_ (.refl r)
  intro c _ s reached
  exact ⟨⟨s.call_answered c, reached.call c⟩, reached.call c⟩

end WordReader

namespace WordWriter

abbrev CallTurn := Turn WordWriter Call WindowError Unit

def asked (turn : CallTurn) : Nat := (turn.call.length turn.before.position).toNat

def handed (turn : CallTurn) : Nat := turn.call.passed turn.before.position

/-- One call at a writer. It changes the window that it hands out and nothing else. -/
structure Answered (turn : CallTurn) : Prop where
  refuses : ∀ e, turn.result = .error e → turn.after = turn.before
  reports : ∀ e, turn.result = .error (.full e) →
    turn.before.buf.bytes.length < turn.before.position.toNat + asked turn ∧
      e = .bufferTooSmall (min (turn.before.position.toNat + asked turn) 0xFFFFFFFFFFFFFFFF)
        turn.before.buf.bytes.length
  moves : turn.result = .ok () →
    turn.after.position.toNat = turn.before.position.toNat + handed turn
  fills : turn.result = .ok () → ∀ edit, turn.call.edit = some edit →
    Bytes.slice turn.after.buf.bytes turn.before.position.toNat (handed turn) =
      edit.apply (Bytes.slice turn.before.buf.bytes turn.before.position.toNat (handed turn))
  beside : ∀ i, i < turn.before.position.toNat ∨
      turn.before.position.toNat + handed turn ≤ i →
    turn.after.buf.bytes[i]? = turn.before.buf.bytes[i]?
  length_eq : turn.after.buf.bytes.length = turn.before.buf.bytes.length

/-- The bounds of the buffer decide alone: a call looks at nothing outside it, and succeeds just
    where all the bytes it asks for are inside. -/
structure Bounded (turn : CallTurn) : Prop where
  inside : ∀ position size, turn.result ≠ .error (.outside position size)
  succeeds_iff : turn.result = .ok () ↔
    turn.before.position.toNat + asked turn ≤ turn.before.buf.bytes.length

/-- A call that leaves the writer as it was has handed out nothing. -/
theorem Answered.kept {w : WordWriter} {c : Call} {result : Except WindowError Unit}
    (still : result = .ok () → c.edit = none)
    (reports : ∀ e, result = .error (.full e) →
      w.buf.bytes.length < w.position.toNat + (c.length w.position).toNat ∧
        e = .bufferTooSmall
          (min (w.position.toNat + (c.length w.position).toNat) 0xFFFFFFFFFFFFFFFF)
          w.buf.bytes.length) : Answered ⟨w, c, result, w⟩ where
  refuses _ _ := rfl
  reports := reports
  moves ok := by
    have none : c.passed w.position = 0 := by simp [Call.passed, still ok]
    simp only [handed, none, Nat.add_zero]
  fills ok edit some := by
    rw [still ok] at some
    cases some
  beside _ _ := rfl
  length_eq := rfl

namespace Outcome
variable {w after : WordWriter} {c : Call} {result : Except WindowError Unit}

theorem answered (o : Outcome w (c.length w.position).toNat c.edit (result, after)) :
    Answered ⟨w, c, result, after⟩ := by
  generalize change : c.edit = edit at o
  cases o with
  | reserved enough => exact .kept (fun _ => change) nofun
  | full some short =>
    refine .kept nofun fun e refused => ?_
    cases refused
    exact ⟨short, rfl⟩
  | beyond none past => exact .kept nofun nofun
  | @changed edit _ fits bytes position =>
    have passed : c.passed w.position = (c.length w.position).toNat := by
      simp [Call.passed, change]
    -- what is written has the length of its window, so it lies inside as that does
    have length := edit.slice_length fits
    have room := fits
    rw [← length] at room
    exact {
      refuses := nofun
      reports := nofun
      moves := fun _ => by simp only [handed, passed, position]
      fills := fun _ other some => by
        obtain rfl : edit = other := Option.some.inj (change.symm.trans some)
        have window := @Bytes.slice_overwrite w.buf.bytes (edit.apply (Bytes.slice w.buf.bytes
          w.position.toNat (c.length w.position).toNat)) _ (Nat.le_of_add_right_le room)
        rw [length, ← bytes] at window
        simp only [handed, passed, window]
      beside := fun i outside => by
        simp only [handed, passed] at outside
        rw [← length] at outside
        rw [bytes]
        exact Bytes.overwrite_outside room outside
      length_eq := by
        rw [bytes]
        exact Bytes.overwrite_length _ _ _ room }

/-- Just a request for no bytes beyond the end escapes the bounds. -/
theorem bounded_iff (o : Outcome w (c.length w.position).toNat c.edit (result, after)) :
    Bounded ⟨w, c, result, after⟩ ↔
      w.position.toNat ≤ w.buf.bytes.length ∨ 0 < (c.length w.position).toNat := by
  generalize c.edit = edit at o
  cases o with
  | reserved enough =>
    constructor
    · intro bounded
      have fits := bounded.succeeds_iff.mp rfl
      exact .inl (Nat.le_of_add_right_le fits)
    · intro sound
      refine ⟨nofun, fun _ => ?_, fun _ => rfl⟩
      simp only [asked]
      omega
  | changed fits bytes position =>
    constructor
    · exact fun _ => .inl (Nat.le_of_add_right_le fits)
    · exact fun _ => ⟨nofun, fun _ => fits, fun _ => rfl⟩
  | full some short =>
    constructor
    · exact fun _ => .inr some
    · exact fun _ => ⟨nofun, nofun, fun fits => absurd fits (Nat.not_le.mpr short)⟩
  | beyond none past =>
    constructor
    · exact fun bounded => absurd rfl (bounded.inside _ _)
    · omega

end Outcome

/-- What calls can have made of a writer: one window from its position on has been written, and it
    stands behind that. -/
structure Reaches (w w' : WordWriter) : Prop where
  length_eq : w'.buf.bytes.length = w.buf.bytes.length
  written : ∃ bytes, w'.buf.bytes = Bytes.overwrite w.buf.bytes w.position.toNat bytes ∧
    w'.position.toNat = w.position.toNat + bytes.length
  inside : w'.position = w.position ∨ w'.position.toNat ≤ w.buf.bytes.length

theorem Reaches.refl (w : WordWriter) : w.Reaches w where
  length_eq := rfl
  written := ⟨[], (Bytes.overwrite_nil _ _).symm, rfl⟩
  inside := .inl rfl

theorem Reaches.outcome {w w' after : WordWriter} {len : Nat} {edit : Option Edit}
    {result : Except WindowError Unit} (reached : w.Reaches w')
    (o : Outcome w' len edit (result, after)) : w.Reaches after := by
  cases o with
  | reserved => exact reached
  | full => exact reached
  | beyond => exact reached
  | @changed edit _ fits bytes position =>
    obtain ⟨front, written, stop⟩ := reached.written
    have length := edit.slice_length fits
    have size : after.buf.bytes.length = w'.buf.bytes.length := by
      rw [bytes]
      exact Bytes.overwrite_length _ _ _ (length.symm ▸ fits)
    have same := reached.length_eq
    refine ⟨size.trans same, ⟨front ++ edit.apply (Bytes.slice w'.buf.bytes w'.position.toNat len),
      ?_, ?_⟩, .inr (by omega)⟩
    · -- the new window starts where the one before it has stopped
      rw [bytes, stop, written]
      exact Bytes.overwrite_append _ _ _ _ (by omega)
    · rw [position, List.length_append, length]
      omega

theorem Reaches.stays {w w' : WordWriter} (reached : w.Reaches w')
    (start : w.position.toNat ≤ w.buf.bytes.length) :
    w'.position.toNat ≤ w'.buf.bytes.length := by
  rw [reached.length_eq]
  rcases reached.inside with still | inside
  · rw [still]
    exact start
  · exact inside

theorem turns_answered (w : WordWriter) (calls : List Call) :
    ∀ turn ∈ turns call w calls, Answered turn ∧ w.Reaches turn.before ∧ w.Reaches turn.after ∧
      (Bounded turn ↔
        turn.before.position.toNat ≤ turn.before.buf.bytes.length ∨ 0 < asked turn) := by
  refine turns_of_step w.Reaches _ ?_ (.refl w)
  intro c _ s reached
  have o := s.call_outcome c
  have next := reached.outcome o
  exact ⟨⟨o.answered, reached, next, o.bounded_iff⟩, next⟩

/-- The calls of a `Writer`. -/
structure Agrees (w : WordWriter) : Prop where
  reserve : ∀ len, answer (w.call (.reserve len)) =
    ((w.writer.reserve len.toNat).mapError WindowError.full).map fun _ => w.writer
  slot : ∀ len byte, answer (w.call (.slot len (.fill byte))) = w.writer.slot len.toNat byte
  put : ∀ bytes, answer (w.call (.put bytes)) = w.writer.put bytes.bytes
  pad : answer (w.call .pad) = w.writer.pad

theorem agrees (w : WordWriter) : w.Agrees where
  reserve := w.answer_reserve
  slot := w.answer_slot
  put := w.answer_put
  pad := w.answer_pad

end WordWriter

/-- Cursors anywhere, also beyond the end of their buffer, and any calls at them. Each call moves
    the cursor by the bytes that it gives or hands out and changes nothing but these, or is refused
    and changes nothing. A reader answers by the bounds of its buffer alone. A writer does too from
    a start inside its buffer; beyond the end it fails to just where it is asked for no bytes. -/
theorem cursor_calls_bounded (buf : HeldBytes) (start : UInt64) (reads : List WordReader.Call)
    (writes : List WordWriter.Call) :
    (∀ turn ∈ turns WordReader.call ⟨buf, start⟩ reads,
      WordReader.Answered turn ∧ WordReader.Reaches ⟨buf, start⟩ turn.after) ∧
    (∀ turn ∈ turns WordWriter.call ⟨buf, start⟩ writes,
      WordWriter.Answered turn ∧ WordWriter.Reaches ⟨buf, start⟩ turn.after ∧
      (start.toNat ≤ buf.bytes.length → WordWriter.Bounded turn) ∧
      (WordWriter.Bounded turn ↔
        turn.before.position.toNat ≤ turn.before.buf.bytes.length ∨ 0 < WordWriter.asked turn)) ∧
    WordWriter.Agrees ⟨buf, start⟩ := by
  refine ⟨WordReader.turns_answered _ reads, fun turn member => ?_, WordWriter.agrees _⟩
  obtain ⟨answered, before, after, bounded⟩ := WordWriter.turns_answered _ writes turn member
  exact ⟨answered, after, fun inside => bounded.mpr (.inl (before.stays inside)), bounded⟩

def fourBytes : HeldBytes := ⟨[0xEE, 0xEE, 0xEE, 0xEE], by decide⟩

def beyondReader : WordReader := ⟨fourBytes, 5⟩

def beyondWriter : WordWriter := ⟨fourBytes, 5⟩

theorem cursor_calls_bounded_beyond :
    let peeked : Turn WordReader WordReader.Call ArchiveError Bytes :=
      ⟨beyondReader, .peek 0, .error (.prematureEnd 5 0), beyondReader⟩
    let reserved : WordWriter.CallTurn := ⟨beyondWriter, .reserve 0, .ok (), beyondWriter⟩
    let handed : WordWriter.CallTurn :=
      ⟨beyondWriter, .slot 0 (.fill 9), .error (.outside 5 4), beyondWriter⟩
    let padded : WordWriter.CallTurn :=
      ⟨beyondWriter, .pad, .error (.full (.bufferTooSmall 8 4)), beyondWriter⟩
    turns WordReader.call beyondReader [.peek 0] = [peeked] ∧ WordReader.Answered peeked ∧
      turns WordWriter.call beyondWriter [.reserve 0, .slot 0 (.fill 9), .pad] =
        [reserved, handed, padded] ∧
      ¬ WordWriter.Bounded reserved ∧ ¬ WordWriter.Bounded handed ∧
      WordWriter.Bounded padded ∧ WordWriter.Answered padded ∧
      ∀ turn ∈ turns WordWriter.call ⟨fourBytes, 3⟩ [.slot 1 (.fill 9), .pad, .reserve 1],
        WordWriter.Bounded turn := by
  intro peeked reserved handed padded
  have read : turns WordReader.call beyondReader [.peek 0] = [peeked] := rfl
  have written : turns WordWriter.call beyondWriter [.reserve 0, .slot 0 (.fill 9), .pad] =
      [reserved, handed, padded] := rfl
  obtain ⟨reader, writer, _⟩ := cursor_calls_bounded fourBytes 5 [.peek 0]
    [.reserve 0, .slot 0 (.fill 9), .pad]
  rw [show turns WordReader.call ⟨fourBytes, 5⟩ _ = _ from read] at reader
  rw [show turns WordWriter.call ⟨fourBytes, 5⟩ _ = _ from written] at writer
  obtain ⟨answered, _⟩ := reader peeked (by simp)
  obtain ⟨_, _, _, first⟩ := writer reserved (by simp)
  obtain ⟨_, _, _, second⟩ := writer handed (by simp)
  obtain ⟨refused, _, _, third⟩ := writer padded (by simp)
  refine ⟨read, answered, written, ?_, ?_, third.mpr (.inr (by decide)), refused, ?_⟩
  · rw [first]
    decide
  · rw [second]
    decide
  · intro turn member
    have inside : (3 : UInt64).toNat ≤ fourBytes.bytes.length := by decide
    exact ((cursor_calls_bounded fourBytes 3 [] _).2.1 turn member).2.2.1 inside

end KernelBoot
