import KernelBoot.Boot.CommandLine
import KernelBoot.Proofs.Uefi.Words
import Mathlib.Algebra.Order.BigOperators.Group.List
import Mathlib.Algebra.Order.Group.Nat

/-!
Escaped arguments, split like load options. An argument with a space stands in quotes and comes back
whole. Any other stands bare, and the other blanks in it, such as a tab, tear it apart: then the
arguments that come back have lost characters, so they are not the ones that went in.
-/
namespace KernelBoot

namespace Text

theorem components_flatten (separator : α → Bool) (text : List α) :
    (components separator text).flatten = text.filter fun c => !separator c := by
  induction text with
  | nil => rfl
  | cons c rest ih =>
    simp only [components, pieces] at ih ⊢
    by_cases hit : separator c = true
    · simp [hit, ih]
    · rw [if_neg hit, List.filter_cons_of_pos (by simp [hit]), ← ih]
      cases pieces separator rest with
      | nil => rfl
      | cons piece more =>
        cases piece with
        | nil => simp
        | cons d tail => simp

end Text

namespace LaunchOptions
open Text

/-- By induction on the text: what it is split into between words, and behind a part of a word. -/
theorem wordsFrom_pieces {text : List Char} (plain : '"' ∉ text) :
    ∃ piece more, pieces isBlank text = piece :: more ∧
      wordsFrom none false text = (piece :: more).filter (fun p => !p.isEmpty) ∧
      ∀ passed, wordsFrom (some passed) false text =
        (passed.reverse ++ piece) :: more.filter fun p => !p.isEmpty := by
  induction text with
  | nil => exact ⟨[], [], rfl, rfl, fun passed => by simp [wordsFrom]⟩
  | cons c rest ih =>
    obtain ⟨notQuote, plainRest⟩ := not_or.mp (mt List.mem_cons.mpr plain)
    obtain ⟨piece, more, cut, between, within⟩ := ih plainRest
    by_cases blank : isBlank c = true
    · refine ⟨[], piece :: more, by simp [pieces, blank, cut], ?_, ?_⟩
      · simp [wordsFrom, Ne.symm notQuote, blank, between]
      · intro passed
        simp [wordsFrom, Ne.symm notQuote, blank, between]
    · refine ⟨c :: piece, more, by simp [pieces, blank, cut], ?_, ?_⟩
      · simp [wordsFrom, Ne.symm notQuote, blank, within]
      · intro passed
        simp [wordsFrom, Ne.symm notQuote, blank, within]

theorem wordsFrom_plain {text : List Char} (plain : '"' ∉ text) :
    wordsFrom none false text = components isBlank text := by
  obtain ⟨piece, more, cut, between, _⟩ := wordsFrom_pieces plain
  rw [between, components, cut]

end LaunchOptions

namespace Argument
open Text LaunchOptions

/-- No quote of either kind and no backslash, and not empty. -/
def Plain (argument : String) : Prop :=
  argument ≠ "" ∧ '"' ∉ argument.toList ∧ '\'' ∉ argument.toList ∧ '\\' ∉ argument.toList

instance (argument : String) : Decidable (Plain argument) :=
  inferInstanceAs (Decidable (_ ∧ _ ∧ _ ∧ _))

def returned (argument : List Char) : List (List Char) :=
  if argument.contains ' ' then [argument] else components isBlank argument

/-- An argument that comes back whole: if it has blanks, one of them is a space. -/
def Guarded (argument : String) : Prop :=
  (∃ c ∈ argument.toList, isBlank c = true) → ' ' ∈ argument.toList

instance (argument : String) : Decidable (Guarded argument) :=
  decidable_of_iff (argument.toList.any isBlank = true → ' ' ∈ argument.toList) (by simp [Guarded])

variable {argument : String} {arguments : List String}

theorem Plain.escape_eq (plain : Plain argument) :
    escape argument.toList =
      if argument.toList.contains ' ' then enquote argument.toList else argument.toList := by
  obtain ⟨_, quote, apostrophe, backslash⟩ := plain
  have unescaped : argument.toList.flatMap escapeChar = argument.toList := by
    have single : ∀ c ∈ argument.toList, escapeChar c = [c] := by
      intro c member
      have harmless : needsEscape c = false := by
        simp only [needsEscape, Bool.or_eq_false_iff, beq_eq_false_iff_ne]
        refine ⟨⟨?_, ?_⟩, ?_⟩
        · exact fun same => backslash (same ▸ member)
        · exact fun same => apostrophe (same ▸ member)
        · exact fun same => quote (same ▸ member)
      rw [escapeChar, harmless]
      rfl
    rw [List.flatMap_congr single, List.flatMap_singleton']
  rw [escape, unescaped]
  rfl

theorem Plain.escape_closed (plain : Plain argument) :
    quotedBehind false (escape argument.toList) = false := by
  rw [plain.escape_eq]
  split
  · exact enquote_closed plain.2.1
  · exact quotedBehind_plain plain.2.1

theorem Plain.wordsFrom_escape (plain : Plain argument) :
    wordsFrom none false (escape argument.toList) = returned argument.toList := by
  rw [plain.escape_eq, returned]
  split
  · exact wordsFrom_enquote plain.2.1
  · exact wordsFrom_plain plain.2.1

/-- Each argument is split on its own, as the space behind it is outside of quotes. -/
theorem wordsFrom_escapeArguments (plain : ∀ a ∈ arguments, Plain a) :
    wordsFrom none false (escapeArguments arguments) =
      arguments.flatMap fun a => returned a.toList := by
  induction arguments with
  | nil => rfl
  | cons a rest ih =>
    obtain ⟨first, later⟩ := List.forall_mem_cons.mp plain
    cases rest with
    | nil =>
      rw [escapeArguments, List.map_singleton, List.intercalate_singleton, first.wordsFrom_escape,
        List.flatMap_singleton]
    | cons next more =>
      have joined : escapeArguments (a :: next :: more) =
          escape a.toList ++ ' ' :: escapeArguments (next :: more) := by
        simp [escapeArguments, List.intercalate_cons_cons]
      rw [joined, wordsFrom_cut first.escape_closed rfl, first.wordsFrom_escape, ih later]
      rfl

/-! What is lost on the way. -/

theorem returned_guarded (plain : Plain argument) (guarded : Guarded argument) :
    returned argument.toList = [argument.toList] := by
  rw [returned]
  split
  · rfl
  · rename_i bare
    rw [List.contains_iff_mem] at bare
    have present : argument.toList ≠ [] := mt String.toList_eq_nil_iff.mp plain.1
    have joined : ∀ c ∈ argument.toList, isBlank c = false := by
      intro c member
      by_contra blank
      exact bare (guarded ⟨c, member, Bool.not_eq_false _ ▸ blank⟩)
    rw [← wordsFrom_plain plain.2.1, wordsFrom_bare plain.2.1 present joined]

theorem returned_length_le (text : List Char) : (returned text).flatten.length ≤ text.length := by
  rw [returned]
  split
  · simp
  · rw [components_flatten]
    exact List.length_filter_le _ _

theorem returned_length_lt (torn : ¬ Guarded argument) :
    (returned argument.toList).flatten.length < argument.toList.length := by
  rw [Guarded, Classical.not_imp] at torn
  obtain ⟨⟨c, member, blank⟩, bare⟩ := torn
  rw [returned, if_neg (mt List.contains_iff_mem.mp bare), components_flatten,
    List.length_filter_lt_length_iff_exists]
  exact ⟨c, member, by simp [blank]⟩

/-- Where one argument is torn apart, there are fewer characters in all. -/
theorem guarded_of_returned
    (same : (arguments.flatMap fun a => returned a.toList) = arguments.map String.toList) :
    ∀ a ∈ arguments, Guarded a := by
  intro a member
  by_contra torn
  have fewer := List.sum_lt_sum (l := arguments)
    (fun a => (returned a.toList).flatten.length) (fun a => a.toList.length)
    (fun a _ => returned_length_le a.toList) ⟨a, member, returned_length_lt torn⟩
  have total : (arguments.flatMap fun a => (returned a.toList).flatten) =
      arguments.flatMap String.toList := by
    have joined := congrArg (List.flatMap id) same
    rw [List.flatMap_assoc, List.flatMap_map] at joined
    simpa only [List.flatMap_id, id] using joined
  rw [← List.length_flatMap, ← List.length_flatMap, total] at fewer
  exact Nat.lt_irrefl _ fewer

/-- What comes back of escaped arguments. They come back as they are just if each of them that has
    a blank has a space. -/
theorem split_escaped (plain : ∀ a ∈ arguments, Plain a) :
    split (String.ofList (escapeArguments arguments)) =
        arguments.flatMap (fun a => (returned a.toList).map String.ofList) ∧
      (split (String.ofList (escapeArguments arguments)) = arguments ↔
        ∀ a ∈ arguments, Guarded a) := by
  have pieces : split (String.ofList (escapeArguments arguments)) =
      (arguments.flatMap fun a => returned a.toList).map String.ofList := by
    rw [LaunchOptions.split, String.toList_ofList, wordsFrom_escapeArguments plain]
  refine ⟨by rw [pieces, List.map_flatMap], ?_⟩
  rw [pieces]
  constructor
  · intro same
    apply guarded_of_returned
    have chars := congrArg (List.map String.toList) same
    simpa [Function.comp_def] using chars
  · intro guarded
    have whole : ∀ a ∈ arguments, returned a.toList = [a.toList] := by
      intro a member
      exact returned_guarded (plain a member) (guarded a member)
    rw [List.flatMap_congr whole, List.map_flatMap]
    simp

/-- A tab next to a space is safe in the quotes that the space asks for. Alone, it tears an argument
    in two. -/
theorem split_escaped_tabs :
    let arguments := ["a b\tc", "mode=x\ty"]
    (∀ a ∈ arguments, Plain a) ∧
      split (String.ofList (escapeArguments arguments)) = ["a b\tc", "mode=x", "y"] ∧
      split (String.ofList (escapeArguments arguments)) ≠ arguments := by
  intro arguments
  have plain : ∀ a ∈ arguments, Plain a := by decide
  refine ⟨plain, (split_escaped plain).1.trans (by decide), ?_⟩
  rw [ne_eq, (split_escaped plain).2]
  decide

end Argument
end KernelBoot
