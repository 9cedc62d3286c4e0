import KernelBoot.Uefi.Options

/-!
The words of a text. A blank outside quotes ends a word, and the text behind it is split as if it
stood alone. Each word comes back as it is spelled: bare, or in double quotes, which may hold blanks
or nothing at all.
-/
namespace KernelBoot.LaunchOptions
open Text

variable {quoted : Bool} {word : Option (List Char)}

/-- Whether a quote is open behind a text. -/
def quotedBehind (quoted : Bool) : List Char → Bool
  | [] => quoted
  | c :: rest => quotedBehind (if c = '"' then !quoted else quoted) rest

theorem quotedBehind_append (front behind : List Char) :
    quotedBehind quoted (front ++ behind) = quotedBehind (quotedBehind quoted front) behind := by
  induction front generalizing quoted with
  | nil => rfl
  | cons c rest ih => exact ih

theorem quotedBehind_plain {text : List Char} (plain : '"' ∉ text) :
    quotedBehind quoted text = quoted := by
  induction text with
  | nil => rfl
  | cons c rest ih =>
    obtain ⟨first, later⟩ := not_or.mp (mt List.mem_cons.mpr plain)
    rw [quotedBehind, if_neg (Ne.symm first), ih later]

theorem blank_not_quote {c : Char} (blank : isBlank c = true) : c ≠ '"' := by
  rintro rfl
  cases blank

/-- By induction on the text in front, whatever word and quotes it begins in. -/
theorem wordsFrom_cut {front : List Char} (closed : quotedBehind quoted front = false) {c : Char}
    (blank : isBlank c = true) (behind : List Char) :
    wordsFrom word quoted (front ++ c :: behind) =
      wordsFrom word quoted front ++ wordsFrom none false behind := by
  induction front generalizing word quoted with
  | nil =>
    have outside : quoted = false := closed
    simp [wordsFrom, blank_not_quote blank, blank, outside]
  | cons d rest ih =>
    rw [quotedBehind] at closed
    simp only [List.cons_append, wordsFrom]
    by_cases quote : d = '"'
    · rw [if_pos quote] at closed
      rw [if_pos quote, if_pos quote, ih closed]
    · rw [if_neg quote] at closed
      rw [if_neg quote, if_neg quote]
      by_cases ends : (isBlank d && !quoted) = true
      · have outside : quoted = false := by simp_all
        subst outside
        rw [if_pos ends, if_pos ends, ih closed, List.append_assoc]
      · rw [if_neg ends, if_neg ends, ih closed]

theorem wordsFrom_blanks {gap : List Char} (blank : ∀ c ∈ gap, isBlank c = true)
    (behind : List Char) : wordsFrom none false (gap ++ behind) = wordsFrom none false behind := by
  induction gap with
  | nil => rfl
  | cons c rest ih =>
    obtain ⟨first, later⟩ := List.forall_mem_cons.mp blank
    have ended : wordsFrom none false (c :: (rest ++ behind)) =
        wordsFrom none false (rest ++ behind) := by
      simp [wordsFrom, blank_not_quote first, first]
    rw [List.cons_append, ended, ih later]

theorem wordsFrom_kept {text passed : List Char} (plain : '"' ∉ text)
    (kept : ∀ c ∈ text, isBlank c = true → quoted = true) (behind : List Char) :
    wordsFrom (some passed) quoted (text ++ behind) =
      wordsFrom (some (text.reverse ++ passed)) quoted behind := by
  induction text generalizing passed with
  | nil => rfl
  | cons c rest ih =>
    obtain ⟨notQuote, plainRest⟩ := not_or.mp (mt List.mem_cons.mpr plain)
    obtain ⟨first, later⟩ := List.forall_mem_cons.mp kept
    have inside : ¬ (isBlank c && !quoted) = true := by
      intro ends
      rw [Bool.and_eq_true, Bool.not_eq_true'] at ends
      rw [first ends.1] at ends
      cases ends.2
    have joins : wordsFrom (some passed) quoted (c :: (rest ++ behind)) =
        wordsFrom (some (c :: passed)) quoted (rest ++ behind) := by
      rw [wordsFrom, if_neg (Ne.symm notQuote), if_neg inside]
      rfl
    rw [List.cons_append, joins, ih plainRest later]
    simp

/-- A word as it stands in a text. Without quotes there is something in it, and no blank. -/
structure Spelling where
  word : String
  quoted : Bool
  plain : '"' ∉ word.toList := by decide
  bare : quoted = false → word.toList ≠ [] ∧ word.toList.any isBlank = false := by decide

structure Gap where
  blanks : List Char
  present : blanks ≠ [] := by decide
  blank : blanks.all isBlank = true := by decide

def enquote (text : List Char) : List Char := '"' :: text ++ ['"']

def Spelling.text (s : Spelling) : List Char :=
  if s.quoted then enquote s.word.toList else s.word.toList

def spelled (first : Spelling) : List (Gap × Spelling) → List Char
  | [] => first.text
  | (gap, next) :: rest => first.text ++ gap.blanks ++ spelled next rest

theorem enquote_closed {text : List Char} (plain : '"' ∉ text) :
    quotedBehind false (enquote text) = false := by
  show quotedBehind true (text ++ ['"']) = false
  rw [quotedBehind_append, quotedBehind_plain plain]
  rfl

theorem wordsFrom_enquote {text : List Char} (plain : '"' ∉ text) :
    wordsFrom none false (enquote text) = [text] := by
  show wordsFrom (some []) true (text ++ ['"']) = [text]
  rw [wordsFrom_kept plain fun _ _ _ => rfl]
  simp [wordsFrom]

theorem wordsFrom_bare {text : List Char} (plain : '"' ∉ text) (present : text ≠ [])
    (joined : ∀ c ∈ text, isBlank c = false) : wordsFrom none false text = [text] := by
  cases text with
  | nil => exact absurd rfl present
  | cons c rest =>
    obtain ⟨notQuote, plainRest⟩ := not_or.mp (mt List.mem_cons.mpr plain)
    obtain ⟨first, later⟩ := List.forall_mem_cons.mp joined
    have begins : wordsFrom none false (c :: rest) = wordsFrom (some [c]) false (rest ++ []) := by
      simp [wordsFrom, Ne.symm notQuote, first]
    have kept : ∀ d ∈ rest, isBlank d = true → false = true := by
      intro d member blank
      rw [later d member] at blank
      exact blank
    rw [begins, wordsFrom_kept plainRest kept]
    simp [wordsFrom]

theorem Spelling.text_closed (s : Spelling) : quotedBehind false s.text = false := by
  rw [Spelling.text]
  split
  · exact enquote_closed s.plain
  · exact quotedBehind_plain s.plain

theorem Spelling.wordsFrom_text (s : Spelling) : wordsFrom none false s.text = [s.word.toList] := by
  rw [Spelling.text]
  split
  · exact wordsFrom_enquote s.plain
  · rename_i unquoted
    obtain ⟨present, joined⟩ := s.bare (Bool.not_eq_true _ ▸ unquoted)
    exact wordsFrom_bare s.plain present (by simpa using joined)

theorem wordsFrom_spelled (first : Spelling) (rest : List (Gap × Spelling)) :
    wordsFrom none false (spelled first rest) =
      first.word.toList :: rest.map fun next => next.2.word.toList := by
  induction rest generalizing first with
  | nil => exact first.wordsFrom_text
  | cons pair more ih =>
    obtain ⟨gap, next⟩ := pair
    obtain ⟨c, blanks, begins⟩ := List.exists_cons_of_ne_nil gap.present
    have blank := List.all_eq_true.mp gap.blank
    rw [begins] at blank
    obtain ⟨ends, further⟩ := List.forall_mem_cons.mp blank
    have regroup : spelled first ((gap, next) :: more) =
        first.text ++ c :: (blanks ++ spelled next more) := by
      rw [spelled, begins, List.append_assoc, List.cons_append]
    rw [regroup, wordsFrom_cut first.text_closed ends, first.wordsFrom_text,
      wordsFrom_blanks further, ih next]
    rfl

/-- Words that are spelled out are found again, whatever blanks set them apart. -/
theorem split_spelled (first : Spelling) (rest : List (Gap × Spelling)) :
    split (String.ofList (spelled first rest)) =
      first.word :: rest.map fun next => next.2.word := by
  rw [split, String.toList_ofList, wordsFrom_spelled, List.map_cons, List.map_map,
    String.ofList_toList]
  congr 2
  funext next
  exact String.ofList_toList

end KernelBoot.LaunchOptions
