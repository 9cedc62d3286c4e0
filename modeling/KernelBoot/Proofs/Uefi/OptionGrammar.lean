import KernelBoot.Proofs.Uefi.Words
import Mathlib.Data.List.Induction

/-!
The grammar of load options: a program name that may be missing, settings in any order, the image,
and arguments that are the kernel's whatever they look like. Of settings of one kind the last one
counts, and one that is not there has its default.
-/
namespace KernelBoot.LaunchOptions
open Text

inductive Setting where
  | rootDevice (device : String)
  | searchPrefix (dir : String)
  | loaderPath (dir : String)
  | noMultiboot
  | append
deriving DecidableEq

namespace Setting

def word : Setting → String
  | .rootDevice device => "--root=" ++ device
  | .searchPrefix dir => "--prefix=" ++ dir
  | .loaderPath dir => "--loader-path=" ++ dir
  | .noMultiboot => "--no-multiboot"
  | .append => "--append"

def apply (seen : LaunchOptions) : Setting → LaunchOptions
  | .rootDevice device => { seen with rootDevice := some device }
  | .searchPrefix dir => { seen with searchPrefix := dir }
  | .loaderPath dir => { seen with loaderPath := dir }
  | .noMultiboot => { seen with multiboot := false }
  | .append => { seen with append := true }

def rootDevice? : Setting → Option String
  | .rootDevice device => some device
  | _ => none

def searchPrefix? : Setting → Option String
  | .searchPrefix dir => some dir
  | _ => none

def loaderPath? : Setting → Option String
  | .loaderPath dir => some dir
  | _ => none

end Setting

def lastValue (value? : Setting → Option String) (settings : List Setting) : Option String :=
  (settings.filterMap value?).getLast?

/-- What settings come to, with an image and arguments behind them. -/
def settled (ownDir : String) (settings : List Setting) (image : String)
    (arguments : List String) : LaunchOptions where
  image := image
  rootDevice := lastValue Setting.rootDevice? settings
  searchPrefix := (lastValue Setting.searchPrefix? settings).getD defaultPrefix
  loaderPath := (lastValue Setting.loaderPath? settings).getD ownDir
  multiboot := decide (.noMultiboot ∉ settings)
  append := decide (.append ∈ settings)
  kernelArguments := arguments

/-- The word ends in `.efi`, in upper or lower case. -/
def NamesProgram (word : String) : Prop := ['.', 'e', 'f', 'i'] <:+ word.toList.map Char.toLower

instance (word : String) : Decidable (NamesProgram word) :=
  inferInstanceAs (Decidable (_ <:+ _))

def Dashed (word : String) : Prop := ['-', '-'] <+: word.toList

instance (word : String) : Decidable (Dashed word) := inferInstanceAs (Decidable (_ <+: _))

theorem isProgram_iff (word : String) : isProgram word = true ↔ NamesProgram word := by
  rw [isProgram, NamesProgram, beq_iff_eq, ← List.reverse_prefix, List.prefix_iff_eq_take,
    ← List.reverse_inj, List.reverse_reverse]
  exact eq_comm

theorem after?_append (lead value : String) : after? lead (lead ++ value) = some value := by
  simp [after?, String.toList_append]

theorem after?_eq_none {lead word : String} (differs : ¬ lead.toList <+: word.toList) :
    after? lead word = none := by
  rw [List.prefix_iff_eq_take] at differs
  rw [after?, if_neg]
  intro same
  exact differs (beq_iff_eq.mp same).symm

theorem parseWords_setting (seen : LaunchOptions) (s : Setting) (rest : List String) :
    parseWords seen (s.word :: rest) = parseWords (s.apply seen) rest := by
  cases s with
  | rootDevice device =>
    have value := after?_append "--root=" device
    simp only [Setting.word, parseWords, value, Setting.apply]
  | searchPrefix dir =>
    have root : after? "--root=" ("--prefix=" ++ dir) = none := after?_eq_none (by simp)
    have value := after?_append "--prefix=" dir
    simp only [Setting.word, parseWords, root, value, Setting.apply]
  | loaderPath dir =>
    have root : after? "--root=" ("--loader-path=" ++ dir) = none := after?_eq_none (by simp)
    have front : after? "--prefix=" ("--loader-path=" ++ dir) = none := after?_eq_none (by simp)
    have value := after?_append "--loader-path=" dir
    simp only [Setting.word, parseWords, root, front, value, Setting.apply]
  | noMultiboot => rfl
  | append => rfl

theorem parseWords_settings (seen : LaunchOptions) (settings : List Setting) (rest : List String) :
    parseWords seen (settings.map Setting.word ++ rest) =
      parseWords (settings.foldl Setting.apply seen) rest := by
  induction settings generalizing seen with
  | nil => rfl
  | cons s more ih =>
    rw [List.map_cons, List.cons_append, parseWords_setting, ih, List.foldl_cons]

theorem parseWords_image (seen : LaunchOptions) {image : String} (plain : ¬ Dashed image)
    (arguments : List String) :
    parseWords seen (image :: arguments) =
      .ok { seen with image := image, kernelArguments := arguments } := by
  have none : ∀ lead : String, Dashed lead → after? lead image = none := by
    intro lead dashed
    exact after?_eq_none fun begins => plain (dashed.trans begins)
  have other : ∀ word : String, Dashed word → image ≠ word := by
    rintro word dashed rfl
    exact plain dashed
  rw [parseWords, none "--root=" (by decide), none "--prefix=" (by decide),
    none "--loader-path=" (by decide)]
  simp only [other "--no-multiboot" (by decide), other "--append" (by decide),
    none "--" (by decide), ↓reduceIte, Option.isSome_none, Bool.false_eq_true]

theorem lastValue_concat (value? : Setting → Option String) (settings : List Setting)
    (s : Setting) :
    lastValue value? (settings ++ [s]) = (value? s).or (lastValue value? settings) := by
  cases given : value? s with
  | none => simp [lastValue, given]
  | some value => simp [lastValue, given]

theorem settled_concat (ownDir : String) (settings : List Setting) (s : Setting) (image : String)
    (arguments : List String) :
    settled ownDir (settings ++ [s]) image arguments =
      s.apply (settled ownDir settings image arguments) := by
  simp only [settled, lastValue_concat]
  cases s <;> simp [Setting.apply, Setting.rootDevice?, Setting.searchPrefix?, Setting.loaderPath?]

theorem foldl_apply (ownDir : String) (settings : List Setting) (image : String)
    (arguments : List String) :
    settings.foldl Setting.apply (settled ownDir [] image arguments) =
      settled ownDir settings image arguments := by
  induction settings using List.reverseRecOn with
  | nil => rfl
  | append_singleton front s ih =>
    rw [List.foldl_append, ih, settled_concat]
    rfl

theorem dropProgram_words {program : Option String} {words : List String} {first : String}
    {more : List String} (begins : program.toList ++ words = first :: more)
    (named : ∀ p ∈ program, NamesProgram p) (unnamed : program = none → ¬ NamesProgram first) :
    dropProgram (first :: more) = words := by
  cases program with
  | none =>
    have other : ¬ isProgram first = true := mt (isProgram_iff first).mp (unnamed rfl)
    rw [dropProgram, if_neg other]
    exact begins.symm
  | some p =>
    obtain ⟨rfl, rfl⟩ := List.cons.inj begins
    rw [dropProgram, if_pos ((isProgram_iff p).mpr (named p rfl))]
    rfl

/-- Load options are read as they are meant, however their words are spelled and set apart. -/
theorem parse_grammar {program : Option String} {settings : List Setting} {image : String}
    {arguments : List String} {first : Spelling} {rest : List (Gap × Spelling)}
    (words : first.word :: rest.map (fun next => next.2.word) =
      program.toList ++ (settings.map Setting.word ++ image :: arguments))
    (named : ∀ p ∈ program, NamesProgram p) (unnamed : program = none → ¬ NamesProgram first.word)
    (plain : ¬ Dashed image) (ownDir : String) :
    parse (String.ofList (spelled first rest)) ownDir =
      .ok (settled ownDir settings image arguments) := by
  have start : (⟨"", none, defaultPrefix, ownDir, true, false, []⟩ : LaunchOptions) =
      settled ownDir [] "" [] := rfl
  rw [parse, split_spelled, dropProgram_words words.symm named unnamed, start, parseWords_settings,
    foldl_apply, parseWords_image _ plain]
  rfl

/-- A quoted program name, settings that are given twice or hold blanks, and arguments that look
    like settings, like a program, or like nothing. -/
theorem parse_grammar_mixed :
    let first : Spelling := { word := "Android Tool.EFI", quoted := true }
    let rest : List (Gap × Spelling) :=
      [({ blanks := [' '] }, { word := "--root=hd0", quoted := false }),
       ({ blanks := ['\t', '\n'] }, { word := "--append", quoted := true }),
       ({ blanks := ['\u3000'] }, { word := "--prefix=/my dir", quoted := true }),
       ({ blanks := [' ', ' '] }, { word := "--root=", quoted := false }),
       ({ blanks := ['\u00A0'] }, { word := "(disk1)", quoted := false }),
       ({ blanks := [' '] }, { word := "", quoted := true }),
       ({ blanks := [' '] }, { word := "--no-multiboot", quoted := false }),
       ({ blanks := ['\r'] }, { word := "a\tb.efi", quoted := true })]
    let settings := [Setting.rootDevice "hd0", .append, .searchPrefix "/my dir", .rootDevice ""]
    let arguments := ["", "--no-multiboot", "a\tb.efi"]
    first.word :: rest.map (fun next => next.2.word) =
        (some "Android Tool.EFI").toList ++ (settings.map Setting.word ++ "(disk1)" :: arguments) ∧
      (∀ p ∈ some "Android Tool.EFI", NamesProgram p) ∧ ¬ Dashed "(disk1)" ∧
      parse (String.ofList (spelled first rest)) "/EFI/BOOT" =
        .ok ⟨"(disk1)", some "", "/my dir", "/EFI/BOOT", true, true, arguments⟩ := by
  intro first rest settings arguments
  have words : first.word :: rest.map (fun next => next.2.word) =
      (some "Android Tool.EFI").toList ++
        (settings.map Setting.word ++ "(disk1)" :: arguments) := by
    decide
  have named : ∀ p ∈ some "Android Tool.EFI", NamesProgram p := by
    rintro p ⟨⟩
    decide
  have plain : ¬ Dashed "(disk1)" := by decide
  exact ⟨words, named, plain, parse_grammar words named nofun plain "/EFI/BOOT"⟩

end KernelBoot.LaunchOptions
