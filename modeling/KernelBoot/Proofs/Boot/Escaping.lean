import KernelBoot.Boot.CommandLine
import KernelBoot.Proofs.Text.CharacterBytes

/-!
Arguments as they stand in a command line. Escaping acts on each byte of an argument, and a reader
that follows quotes and backslashes finds every argument again, empty ones included.
-/
namespace KernelBoot

namespace Argument
open Bytes

def isMark (b : UInt8) : Bool := b == 0x5C || b == 0x27 || b == 0x22

def escapeByte (b : UInt8) : Bytes := if isMark b then [0x5C, b] else [b]

def escapeBytes (argument : Bytes) : Bytes :=
  if argument.contains 0x20 then 0x22 :: argument.flatMap escapeByte ++ [0x22]
  else argument.flatMap escapeByte

/-- A character that needs an escape is one mark, and no other has a mark among its bytes. -/
theorem encodeChar_marks (c : Char) :
    (needsEscape c = true ∧ ∃ b, String.utf8EncodeChar c = [b] ∧ isMark b = true) ∨
      (needsEscape c = false ∧ ∀ b ∈ String.utf8EncodeChar c, isMark b = false) := by
  cases needs : needsEscape c with
  | true =>
    simp only [needsEscape, Bool.or_eq_true, beq_iff_eq] at needs
    rcases needs with (rfl | rfl) | rfl
    all_goals exact .inl ⟨rfl, _, rfl, rfl⟩
  | false =>
    simp only [needsEscape, Bool.or_eq_false_iff, beq_eq_false_iff_ne] at needs
    obtain ⟨⟨backslash, quote⟩, doubleQuote⟩ := needs
    refine .inr ⟨rfl, fun b member => ?_⟩
    simp only [isMark, Bool.or_eq_false_iff, beq_eq_false_iff_ne]
    refine ⟨⟨?_, ?_⟩, ?_⟩
    · rintro rfl
      exact backslash ((mem_encodeChar (c := '\\') (by decide) c).mp member).symm
    · rintro rfl
      exact quote ((mem_encodeChar (c := '\'') (by decide) c).mp member).symm
    · rintro rfl
      exact doubleQuote ((mem_encodeChar (c := '"') (by decide) c).mp member).symm

theorem escapeByte_plain {bytes : Bytes} (plain : ∀ b ∈ bytes, isMark b = false) :
    bytes.flatMap escapeByte = bytes := by
  induction bytes with
  | nil => rfl
  | cons b rest ih =>
    obtain ⟨first, later⟩ := List.forall_mem_cons.mp plain
    rw [List.flatMap_cons, ih later, escapeByte, first]
    rfl

theorem ofChars_escapeChar (c : Char) :
    ofChars (escapeChar c) = (String.utf8EncodeChar c).flatMap escapeByte := by
  rcases encodeChar_marks c with ⟨needs, b, encoded, mark⟩ | ⟨plain, unmarked⟩
  · rw [escapeChar, if_pos needs, ofChars_cons, ofChars_cons, encoded, List.flatMap_singleton,
      escapeByte, if_pos mark]
    rfl
  · rw [escapeChar, plain, escapeByte_plain unmarked]
    exact List.append_nil _

theorem ofChars_escapeChars (cs : List Char) :
    ofChars (cs.flatMap escapeChar) = (ofChars cs).flatMap escapeByte := by
  induction cs with
  | nil => rfl
  | cons c rest ih =>
    rw [List.flatMap_cons, ofChars_append, ofChars_escapeChar, ih, ofChars_cons, List.flatMap_append]

theorem countP_isMark (cs : List Char) : (ofChars cs).countP isMark = cs.countP needsEscape := by
  induction cs with
  | nil => rfl
  | cons c rest ih =>
    rw [ofChars_cons, List.countP_append, ih, List.countP_cons, Nat.add_comm]
    rcases encodeChar_marks c with ⟨needs, b, encoded, mark⟩ | ⟨plain, unmarked⟩
    · rw [encoded, needs, List.countP_cons_of_pos mark]
      rfl
    · have none : (String.utf8EncodeChar c).countP isMark = 0 :=
        List.countP_eq_zero.mpr (by simpa using unmarked)
      rw [plain, none]
      rfl

theorem contains_space (cs : List Char) : (ofChars cs).contains 0x20 = cs.contains ' ' := by
  rw [Bool.eq_iff_iff, List.contains_iff_mem, List.contains_iff_mem]
  exact mem_ofChars (c := ' ') (by decide)

theorem ofChars_escape (cs : List Char) : ofChars (escape cs) = escapeBytes (ofChars cs) := by
  rw [escape, escapeBytes, contains_space]
  split
  · rw [← ofChars_escapeChars]
    rw [ofChars_append]
    rfl
  · exact ofChars_escapeChars cs

theorem escapeBytes_length (argument : Bytes) :
    (escapeBytes argument).length = argument.length + argument.countP isMark +
      if argument.contains 0x20 then 2 else 0 := by
  have flat : (argument.flatMap escapeByte).length = argument.length + argument.countP isMark := by
    induction argument with
    | nil => rfl
    | cons b rest ih =>
      rw [List.flatMap_cons, List.length_append, ih, List.length_cons, List.countP_cons, escapeByte]
      cases isMark b
      · simp only [Bool.false_eq_true, ↓reduceIte, List.length_singleton]
        omega
      · simp only [↓reduceIte, List.length_cons, List.length_nil]
        omega
  rw [escapeBytes]
  split
  · rw [List.length_append, List.length_cons, flat]
    rfl
  · exact flat

/-! Reading escaped arguments. -/

def prepend (bytes : Bytes) : List Bytes → List Bytes
  | [] => [bytes]
  | word :: more => (bytes ++ word) :: more

/-- Splits a text at the spaces that no double quotes enclose. The quotes are dropped, and so is
    each backslash in front of a byte, which then stands for itself. -/
def words : (escaped quoted : Bool) → Bytes → List Bytes
  | _, _, [] => [[]]
  | true, quoted, b :: rest => prepend [b] (words false quoted rest)
  | false, quoted, b :: rest =>
    if b = 0x5C then words true quoted rest
    else if b = 0x22 then words false (!quoted) rest
    else if b = 0x20 ∧ quoted = false then [] :: words false quoted rest
    else prepend [b] (words false quoted rest)

theorem prepend_append (front back : Bytes) (ws : List Bytes) :
    prepend front (prepend back ws) = prepend (front ++ back) ws := by
  cases ws with
  | nil => rfl
  | cons word more => rw [prepend, prepend, prepend, List.append_assoc]

theorem prepend_cons (bytes word : Bytes) (more : List Bytes) :
    prepend bytes (word :: more) = (bytes ++ word) :: more := rfl

theorem prepend_ne_nil (bytes : Bytes) (ws : List Bytes) : prepend bytes ws ≠ [] := by
  cases ws with
  | nil => exact List.cons_ne_nil _ _
  | cons word more => exact List.cons_ne_nil _ _

theorem prepend_nil {ws : List Bytes} (nonempty : ws ≠ []) : prepend [] ws = ws := by
  cases ws with
  | nil => exact absurd rfl nonempty
  | cons word more => rfl

theorem words_ne_nil (escaped quoted : Bool) (bytes : Bytes) : words escaped quoted bytes ≠ [] := by
  fun_induction words escaped quoted bytes with
  | case1 => exact List.cons_ne_nil _ _
  | case2 => exact prepend_ne_nil _ _
  | case3 quoted rest ih => exact ih
  | case4 quoted rest backslash ih => exact ih
  | case5 => exact List.cons_ne_nil _ _
  | case6 => exact prepend_ne_nil _ _

/-- An escaped byte is read as itself; a space must stand in quotes. -/
theorem words_escapeByte {b : UInt8} {quoted : Bool} (kept : b = 0x20 → quoted = true) (rest : Bytes) :
    words false quoted (escapeByte b ++ rest) = prepend [b] (words false quoted rest) := by
  cases mark : isMark b with
  | true =>
    rw [escapeByte, if_pos mark]
    rfl
  | false =>
    have notMark := mark
    simp only [isMark, Bool.or_eq_false_iff, beq_eq_false_iff_ne] at notMark
    obtain ⟨⟨backslash, _⟩, doubleQuote⟩ := notMark
    have inWord : ¬ (b = 0x20 ∧ quoted = false) := by
      rintro ⟨space, outside⟩
      rw [kept space] at outside
      cases outside
    rw [escapeByte, mark]
    show words false quoted (b :: rest) = _
    rw [words, if_neg backslash, if_neg doubleQuote, if_neg inWord]

theorem words_escaped {argument : Bytes} {quoted : Bool}
    (kept : 0x20 ∈ argument → quoted = true) (rest : Bytes) :
    words false quoted (argument.flatMap escapeByte ++ rest) =
      prepend argument (words false quoted rest) := by
  induction argument with
  | nil => exact (prepend_nil (words_ne_nil false quoted rest)).symm
  | cons b more ih =>
    have first : b = 0x20 → quoted = true := fun space => kept (space ▸ List.mem_cons_self)
    have later : 0x20 ∈ more → quoted = true := fun member => kept (List.mem_cons_of_mem b member)
    rw [List.flatMap_cons, List.append_assoc, words_escapeByte first, ih later, prepend_append]
    rfl

theorem words_escapeBytes (argument rest : Bytes) :
    words false false (escapeBytes argument ++ rest) = prepend argument (words false false rest) := by
  rw [escapeBytes]
  by_cases space : argument.contains 0x20
  · rw [if_pos space]
    have inside : words false true (argument.flatMap escapeByte ++ 0x22 :: rest) =
        prepend argument (words false true (0x22 :: rest)) :=
      words_escaped (fun _ => rfl) (0x22 :: rest)
    have opened : words false false (0x22 :: argument.flatMap escapeByte ++ [0x22] ++ rest) =
        words false true (argument.flatMap escapeByte ++ 0x22 :: rest) := by
      rw [List.append_assoc]
      rfl
    rw [opened, inside]
    rfl
  · rw [if_neg space]
    exact words_escaped (fun member => absurd (List.contains_iff_mem.mpr member) space) rest

def joined (arguments : List Bytes) : Bytes := [0x20].intercalate (arguments.map escapeBytes)

theorem joined_single (argument : Bytes) : joined [argument] = escapeBytes argument :=
  List.intercalate_singleton

theorem joined_cons (argument next : Bytes) (more : List Bytes) :
    joined (argument :: next :: more) = escapeBytes argument ++ 0x20 :: joined (next :: more) := by
  simp only [joined, List.map_cons, List.intercalate_cons_cons, List.append_assoc,
    List.singleton_append]

/-- A reader finds all arguments again, empty ones included. -/
theorem words_joined {arguments : List Bytes} (nonempty : arguments ≠ []) :
    words false false (joined arguments) = arguments := by
  induction arguments with
  | nil => exact absurd rfl nonempty
  | cons argument rest ih =>
    cases rest with
    | nil =>
      have whole := words_escapeBytes argument []
      rw [List.append_nil] at whole
      rw [joined_single, whole, words, prepend_cons, List.append_nil]
    | cons next more =>
      have behind : words false false (0x20 :: joined (next :: more)) =
          [] :: words false false (joined (next :: more)) := rfl
      rw [joined_cons, words_escapeBytes, behind, ih (List.cons_ne_nil _ _), prepend_cons,
        List.append_nil]

theorem ofChars_escapeArguments (arguments : List String) :
    ofChars (escapeArguments arguments) = joined (arguments.map ofString) := by
  induction arguments with
  | nil => rfl
  | cons argument rest ih =>
    cases rest with
    | nil =>
      rw [escapeArguments, List.map_singleton, List.intercalate_singleton, List.map_singleton,
        joined_single, ofChars_escape]
      rfl
    | cons next more =>
      have split : escapeArguments (argument :: next :: more) =
          escape argument.toList ++ ' ' :: escapeArguments (next :: more) := by
        simp only [escapeArguments, List.map_cons, List.intercalate_cons_cons, List.append_assoc,
          List.singleton_append]
      rw [split, ofChars_append, ofChars_escape, ofChars_cons, ih, List.map_cons, List.map_cons,
        List.map_cons, joined_cons]
      rfl

/-- Escaping loses nothing: the arguments can be read back, so different ones have different
    texts. -/
theorem escaping_lossless :
    (∀ arguments : List String, arguments ≠ [] →
      words false false (ofChars (escapeArguments arguments)) = arguments.map ofString) ∧
    ∀ arguments others : List String, arguments ≠ [] → others ≠ [] → arguments ≠ others →
      ofChars (escapeArguments arguments) ≠ ofChars (escapeArguments others) := by
  have readBack : ∀ arguments : List String, arguments ≠ [] →
      words false false (ofChars (escapeArguments arguments)) = arguments.map ofString := by
    intro arguments nonempty
    rw [ofChars_escapeArguments]
    exact words_joined (by rwa [ne_eq, List.map_eq_nil_iff])
  refine ⟨readBack, ?_⟩
  intro arguments others nonempty nonempty' apart same
  have words := readBack arguments nonempty
  rw [same, readBack others nonempty'] at words
  exact apart ((List.map_inj_right fun _ _ => ofString_injective).mp words).symm

/-- With spaces, quotes, backslashes, and empty arguments at both ends. In the other list, the
    backslash belongs to the argument before it. -/
theorem escaping_lossless_marks :
    let arguments := ["", "a \"b\"", "\\", "it's", "é ü", " ", ""]
    let others := ["", "a \"b\" \\", "it's", "é ü", " ", ""]
    (arguments ≠ [] ∧ others ≠ [] ∧ arguments ≠ others) ∧
      words false false (ofChars (escapeArguments arguments)) = arguments.map ofString ∧
      ofChars (escapeArguments arguments) ≠ ofChars (escapeArguments others) := by
  intro arguments others
  have nonempty : arguments ≠ [] := List.cons_ne_nil _ _
  have nonempty' : others ≠ [] := List.cons_ne_nil _ _
  have apart : arguments ≠ others := by decide
  exact ⟨⟨nonempty, nonempty', apart⟩, escaping_lossless.1 arguments nonempty,
    escaping_lossless.2 arguments others nonempty nonempty' apart⟩

end Argument
end KernelBoot
