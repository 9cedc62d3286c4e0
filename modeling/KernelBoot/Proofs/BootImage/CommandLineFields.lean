import KernelBoot.Proofs.BootImage.HeaderCodec
import KernelBoot.Proofs.Calls

/-!
A command line in the two fields of a header. The front of the line is in the first field, what is
too long for it in the extra one, and zeros fill the rest of both, whatever lines they held before.
-/
namespace KernelBoot

namespace BootHeader
open Bytes

/-- Both fields hold the line and nothing else. The extra field may be missing where the first has
    room for all of it. -/
structure Stores (h : BootHeader) (line : Bytes) : Prop where
  short : line.length ≤ commandLineRoom
  front : h.commandLine.toList =
    line.take headRoom ++ zeros (512 - (line.take headRoom).length)
  back : ∀ extra, h.extraCommandLine = some extra →
    extra.toList = line.drop headRoom ++ zeros (1024 - (line.drop headRoom).length)
  spills : headRoom < line.length → h.extraCommandLine.isSome = true

def SameBeside (h h' : BootHeader) : Prop :=
  h' = { h with commandLine := h'.commandLine, extraCommandLine := h'.extraCommandLine }

theorem SameBeside.refl (h : BootHeader) : h.SameBeside h := rfl

theorem SameBeside.trans {h h' h'' : BootHeader} (first : h.SameBeside h')
    (second : h'.SameBeside h'') : h.SameBeside h'' := by
  rw [SameBeside] at *
  rw [second, first]

/-- A command line does not decide whether a header can be written. -/
theorem SameBeside.fits {h h' : BootHeader} (same : h.SameBeside h') (fits : h.Fits) : h'.Fits := by
  rw [same]
  exact ⟨fits.kernel, fits.ramdisk, fits.second, fits.tags, fits.page⟩

variable {h set : BootHeader} {line : Bytes}

theorem drop_isEmpty : (line.drop headRoom).isEmpty = true ↔ ¬ headRoom < line.length := by
  rw [List.isEmpty_iff, List.drop_eq_nil_iff, Nat.not_lt]

theorem take_short (line : Bytes) : (line.take headRoom).length ≤ 512 :=
  Nat.le_trans (List.length_take_le headRoom line) (by decide)

theorem drop_short (short : line.length ≤ commandLineRoom) : (line.drop headRoom).length ≤ 1023 := by
  rw [List.length_drop]
  simp only [commandLineRoom, headRoom] at short ⊢
  omega

theorem setCommandLine_eq_ok_iff : (∃ set, h.setCommandLine line = .ok set) ↔
    line.length ≤ commandLineRoom := by
  rw [setCommandLine]
  by_cases long : line.length > commandLineRoom
  · rw [if_pos long]
    simpa using long
  · rw [if_neg long]
    simpa using long

theorem setCommandLine_stores (ok : h.setCommandLine line = .ok set) :
    set.Stores line ∧ h.SameBeside set ∧
      (set.extraCommandLine.isSome ↔ h.extraCommandLine.isSome ∨ headRoom < line.length) := by
  have short := setCommandLine_eq_ok_iff.mp ⟨set, ok⟩
  have tail := drop_short short
  rw [setCommandLine, if_neg (Nat.not_lt.mpr short)] at ok
  cases ok
  refine ⟨⟨short, field_toList (take_short line), ?_, ?_⟩, rfl, ?_⟩
  · intro extra present
    by_cases spills : headRoom < line.length
    · rw [if_neg (mt drop_isEmpty.mp (not_not.mpr spills))] at present
      cases present
      exact field_toList (Nat.le_succ_of_le tail)
    · rw [if_pos (drop_isEmpty.mpr spills)] at present
      obtain ⟨_, _, rfl⟩ := Option.map_eq_some_iff.mp present
      rw [List.isEmpty_iff.mp (drop_isEmpty.mpr spills)]
      rfl
  · intro spills
    rw [if_neg (mt drop_isEmpty.mp (not_not.mpr spills))]
    rfl
  · by_cases spills : headRoom < line.length
    · rw [if_neg (mt drop_isEmpty.mp (not_not.mpr spills))]
      simp [spills]
    · rw [if_pos (drop_isEmpty.mpr spills)]
      simp [spills]

theorem zeros_end (bytes : Bytes) {room : Nat} (short : bytes.length < room) :
    (bytes ++ zeros (room - bytes.length)).getLast? = some 0 := by
  have filled : room - bytes.length ≠ 0 := by omega
  rw [zeros, List.getLast?_append, List.getLast?_replicate, if_neg filled]
  rfl

namespace Stores

theorem text (stores : h.Stores line) (plain : (0 : UInt8) ∉ line) :
    h.commandLineText ++ h.extraText = line := by
  have front : h.commandLineText = line.take headRoom := by
    rw [commandLineText, stores.front, upToNul_zeros]
    exact upToNul_plain fun member => plain (List.mem_of_mem_take member)
  have back : h.extraText = line.drop headRoom := by
    rw [extraText]
    cases extra : h.extraCommandLine with
    | none =>
      have whole : ¬ headRoom < line.length := fun spills => by simpa [extra] using stores.spills spills
      exact (List.isEmpty_iff.mp (drop_isEmpty.mpr whole)).symm
    | some field =>
      simp only [stores.back field extra, upToNul_zeros]
      exact upToNul_plain fun member => plain (List.mem_of_mem_drop member)
  rw [front, back, List.take_append_drop]

theorem ended (stores : h.Stores line) : h.commandLine.toList.getLast? = some 0 := by
  rw [stores.front]
  exact zeros_end _ (Nat.lt_of_le_of_lt (List.length_take_le headRoom line) (by decide))

theorem extra_ended (stores : h.Stores line) {extra : Fixed UInt8 1024}
    (present : h.extraCommandLine = some extra) : extra.toList.getLast? = some 0 := by
  rw [stores.back extra present]
  exact zeros_end _ (Nat.lt_succ_of_le (drop_short stores.short))

end Stores

/-! Lines stored in place, one after the other. -/

theorem front_length_eq {n : Nat} (field : Fixed UInt8 n) (bytes : Bytes) :
    ((overwrite field.toList 0 bytes).take n).length = n := by
  have whole := field.length_eq
  simp only [overwrite, List.length_take, List.length_append, List.length_drop]
  omega

def putFront {n : Nat} (field : Fixed UInt8 n) (bytes : Bytes) : Fixed UInt8 n :=
  ⟨(overwrite field.toList 0 bytes).take n, front_length_eq field bytes⟩

/-- Stores a line in a header that is changed step by step. Nothing is changed before the length of
    the line is found to be good. -/
def storeCommandLine (line : Bytes) : ExceptT BootImageError (StateM BootHeader) Unit := do
  if line.length > commandLineRoom then
    throw (.commandLineTooLong line.length commandLineRoom)
  modify fun h => { h with commandLine := .replicate 512 0 }
  modify fun h => { h with commandLine := putFront h.commandLine (line.take headRoom) }
  if (line.drop headRoom).isEmpty then
    modify fun h => { h with extraCommandLine := h.extraCommandLine.map fun _ => .replicate 1024 0 }
  else
    modify fun h =>
      { h with extraCommandLine := some (putFront (.replicate 1024 0) (line.drop headRoom)) }

def commandLineCall (h : BootHeader) (line : Bytes) : Except BootImageError Unit × BootHeader :=
  (storeCommandLine line).run.run h

theorem putFront_blank (n : Nat) (bytes : Bytes) :
    putFront (.replicate n 0) bytes = .ofList n 0 bytes := by
  have rest : (List.replicate n (0 : UInt8)).drop bytes.length = List.replicate (n - bytes.length) 0 :=
    List.drop_replicate
  simp only [putFront, Fixed.replicate, Fixed.ofList, overwrite_start, rest, List.take_append,
    List.take_replicate, Nat.min_self]

/-- Step by step a header becomes what it is set to at once, or stays as it is. -/
theorem commandLineCall_eq (h : BootHeader) (line : Bytes) :
    commandLineCall h line =
      ((h.setCommandLine line).map fun _ => (), (h.setCommandLine line).toOption.getD h) := by
  rw [commandLineCall, storeCommandLine, setCommandLine]
  by_cases long : line.length > commandLineRoom
  · rw [if_pos long, if_pos long]
    rfl
  · rw [if_neg long, if_neg long]
    simp only [← putFront_blank]
    cases (line.drop headRoom).isEmpty <;> rfl

theorem commandLineCall_ok (ok : commandLineCall h line = (.ok (), set)) :
    h.setCommandLine line = .ok set := by
  rw [commandLineCall_eq] at ok
  cases outcome : h.setCommandLine line with
  | error e =>
    rw [outcome] at ok
    cases ok
  | ok result =>
    rw [outcome] at ok
    exact congrArg Except.ok (congrArg Prod.snd ok)

theorem commandLineCall_error {e : BootImageError} (failed : commandLineCall h line = (.error e, set)) :
    e = .commandLineTooLong line.length commandLineRoom ∧ set = h := by
  rw [commandLineCall_eq, setCommandLine] at failed
  split at failed
  · cases failed
    exact ⟨rfl, rfl⟩
  · cases failed

structure Recorded (h : BootHeader) (lines : List Bytes) (h' : BootHeader) : Prop where
  nothing : lines = [] → h' = h
  last : ∀ line, lines.getLast? = some line → h'.Stores line
  extra : h'.extraCommandLine.isSome ↔
    h.extraCommandLine.isSome ∨ ∃ line ∈ lines, headRoom < line.length
  beside : h.SameBeside h'

theorem Recorded.nil (h : BootHeader) : h.Recorded [] h where
  nothing _ := rfl
  last _ missing := by cases missing
  extra := by simp
  beside := .refl h

theorem Recorded.single (ok : h.setCommandLine line = .ok set) : h.Recorded [line] set where
  nothing empty := by cases empty
  last _ only := by
    cases only
    exact (setCommandLine_stores ok).1
  extra := by simpa using (setCommandLine_stores ok).2.2
  beside := (setCommandLine_stores ok).2.1

theorem Recorded.append {h h' h'' : BootHeader} {first second : List Bytes}
    (before : h.Recorded first h') (after : h'.Recorded second h'') :
    h.Recorded (first ++ second) h'' where
  nothing empty := by
    obtain ⟨noFirst, noSecond⟩ := List.append_eq_nil_iff.mp empty
    rw [after.nothing noSecond, before.nothing noFirst]
  last line final := by
    rw [List.getLast?_append] at final
    cases last : second.getLast? with
    | none =>
      rw [last, Option.none_or] at final
      rw [after.nothing (List.getLast?_eq_none_iff.mp last)]
      exact before.last line final
    | some line =>
      rw [last, Option.some_or] at final
      cases final
      exact after.last line last
  extra := by
    simp only [after.extra, before.extra, or_assoc, List.mem_append, or_and_right, exists_or]
  beside := before.beside.trans after.beside

/-- A stored line replaces the one before it, a refused line changes nothing. -/
theorem commandLineCall_accumulates :
    Accumulates commandLineCall (fun _ => True) (fun _ => True) Recorded where
  nothing _ := .nil _
  success _ _ ok := ⟨trivial, .single (commandLineCall_ok ok)⟩
  failure _ _ failed := (commandLineCall_error failed).2
  append := .append

/-- A header that holds a line: its texts read the line, also when it is read back from its bytes,
    both fields end in a NUL, and nothing else is in them. -/
structure Holds (h : BootHeader) (line : Bytes) : Prop where
  text : h.commandLineText ++ h.extraText = line
  reread : ∀ bytes, h.encode = .ok bytes →
    ∃ h', parse bytes = .ok h' ∧ h'.commandLineText ++ h'.extraText = line
  ended : h.commandLine.toList.getLast? = some 0
  extra_ended : ∀ extra, h.extraCommandLine = some extra → extra.toList.getLast? = some 0
  stores : h.Stores line

theorem Stores.holds (stores : h.Stores line) (plain : (0 : UInt8) ∉ line) : h.Holds line where
  text := stores.text plain
  reread bytes ok := ⟨h, header_codec.2.1 h bytes ok, stores.text plain⟩
  ended := stores.ended
  extra_ended _ := stores.extra_ended
  stores := stores

/-- One call: just lines of at most 1534 bytes are stored, and what else is in the header stays. -/
structure Answered (turn : Turn BootHeader Bytes BootImageError Unit) : Prop where
  accepts : turn.result = .ok () ↔ turn.call.length ≤ 1534
  refuses : ∀ e, turn.result = .error e →
    e = .commandLineTooLong turn.call.length 1534 ∧ turn.after = turn.before
  holds : turn.result = .ok () → turn.after.Holds turn.call
  beside : turn.before.SameBeside turn.after

theorem commandLineCall_answered (h : BootHeader) (plain : (0 : UInt8) ∉ line) :
    Answered ⟨h, line, (commandLineCall h line).1, (commandLineCall h line).2⟩ := by
  rcases outcome : commandLineCall h line with ⟨result, after⟩
  cases result with
  | error e =>
    obtain ⟨why, same⟩ := commandLineCall_error outcome
    have long : ¬ line.length ≤ 1534 := by
      intro short
      obtain ⟨set, ok⟩ := (setCommandLine_eq_ok_iff (h := h)).mpr short
      rw [commandLineCall_eq, ok] at outcome
      cases outcome
    constructor
    · simp [long]
    · intro e' failed
      cases failed
      exact ⟨why, same⟩
    · intro ok
      cases ok
    · rw [same]
      exact .refl h
  | ok u =>
    have stored := commandLineCall_ok outcome
    obtain ⟨stores, beside, _⟩ := setCommandLine_stores stored
    constructor
    · exact ⟨fun _ => stores.short, fun _ => rfl⟩
    · intro e failed
      cases failed
    · exact fun _ => stores.holds plain
    · exact beside

/-- Lines stored one after the other, in any header: each call stores its line as a whole or
    changes nothing, and after the last the header holds the last line that was stored. -/
theorem command_line_calls (h : BootHeader) {lines : List Bytes}
    (plain : ∀ line ∈ lines, (0 : UInt8) ∉ line) :
    (∀ before line, commandLineCall before line =
      ((before.setCommandLine line).map fun _ => (),
        (before.setCommandLine line).toOption.getD before)) ∧
      (∀ turn ∈ turns commandLineCall h lines, Answered turn) ∧
      (accepted (turns commandLineCall h lines) = [] → stateAfter commandLineCall h lines = h) ∧
      (∀ line, (accepted (turns commandLineCall h lines)).getLast? = some line →
        (stateAfter commandLineCall h lines).Holds line) ∧
      ((stateAfter commandLineCall h lines).extraCommandLine.isSome ↔
        h.extraCommandLine.isSome ∨
          ∃ line ∈ accepted (turns commandLineCall h lines), 511 < line.length) ∧
      h.SameBeside (stateAfter commandLineCall h lines) := by
  have recorded : Recorded h (accepted (turns commandLineCall h lines))
      (stateAfter commandLineCall h lines) :=
    (commandLineCall_accumulates.run (fun _ _ => trivial) trivial).2
  refine ⟨commandLineCall_eq, ?_, recorded.nothing, fun line last => ?_, recorded.extra,
    recorded.beside⟩
  · refine turns_of_step (fun _ => True) Answered ?_ trivial
    exact fun line member s _ => ⟨commandLineCall_answered s (plain line member), trivial⟩
  · have stored := accepted_subset commandLineCall h lines (List.mem_of_getLast? last)
    exact (recorded.last line last).holds (plain line stored)

/-- A line that fills both fields, one that is a byte too long, and a short one. -/
def shrinkingLines : List Bytes := [List.replicate 1534 0x78, List.replicate 1535 0x79, [0x71]]

theorem command_line_calls_shrinking :
    let last := stateAfter commandLineCall (new .customary) shrinkingLines
    (∀ line ∈ shrinkingLines, (0 : UInt8) ∉ line) ∧ last.Holds [0x71] ∧
      last.extraCommandLine = some (.replicate 1024 0) ∧
      ∃ bytes h, last.encode = .ok bytes ∧ parse bytes = .ok h ∧
        h.commandLineText ++ h.extraText = [0x71] := by
  intro last
  have plain : ∀ line ∈ shrinkingLines, (0 : UInt8) ∉ line := by decide +kernel
  have stored : accepted (turns commandLineCall (new .customary) shrinkingLines) =
      [List.replicate 1534 0x78, [0x71]] := by decide +kernel
  obtain ⟨_, _, _, holds, _, beside⟩ := command_line_calls (new .customary) plain
  have final := holds [0x71] (by rw [stored]; rfl)
  have fits : (new .customary).Fits := ⟨by decide, by decide, by decide, by decide, by decide⟩
  obtain ⟨bytes, written⟩ := (header_codec.1 last).mpr (beside.fits fits)
  obtain ⟨h, read, text⟩ := final.reread bytes written
  exact ⟨plain, final, by decide +kernel, bytes, h, written, read, text⟩

end BootHeader
end KernelBoot
