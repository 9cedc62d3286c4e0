import KernelBoot.Boot.Error
import KernelBoot.Text.Blank
import KernelBoot.Text.Split

/-!
The load options of the application: a program name that may be missing, options, the image, and
the arguments for the kernel. Words are separated by blanks; double quotes keep blanks inside a
word and are removed.
-/
namespace KernelBoot

structure LaunchOptions where
  image : String
  rootDevice : Option String
  searchPrefix : String
  loaderPath : String
  multiboot : Bool
  append : Bool
  kernelArguments : List String
deriving DecidableEq

namespace LaunchOptions

def defaultPrefix : String := "/EFI/android"

/-- Words with a state: the characters of the word at hand, last first, and whether a quote is
    open. There is no word at hand between words; a pair of quotes is an empty one. -/
def wordsFrom (word : Option (List Char)) (quoted : Bool) : List Char → List (List Char)
  | [] => (word.map List.reverse).toList
  | c :: rest =>
    if c = '"' then wordsFrom (some (word.getD [])) (!quoted) rest
    else if Text.isBlank c && !quoted then
      (word.map List.reverse).toList ++ wordsFrom none false rest
    else wordsFrom (some (c :: word.getD [])) quoted rest

def split (options : String) : List String :=
  (wordsFrom none false options.toList).map String.ofList

def after? (lead word : String) : Option String :=
  if word.toList.take lead.toList.length == lead.toList then
    some (String.ofList (word.toList.drop lead.toList.length))
  else none

def isProgram (word : String) : Bool :=
  ((word.toList.map Char.toLower).reverse.take 4).reverse == ['.', 'e', 'f', 'i']

/-- Reads options up to the first word that is none; that word is the image and all after it
    belongs to the kernel. A later value of an option replaces an earlier one. -/
def parseWords (seen : LaunchOptions) : List String → Except LoadError LaunchOptions
  | [] => .error (.badArgument "filename expected")
  | word :: rest =>
    match after? "--root=" word, after? "--prefix=" word, after? "--loader-path=" word with
    | some device, _, _ => parseWords { seen with rootDevice := some device } rest
    | _, some dir, _ => parseWords { seen with searchPrefix := dir } rest
    | _, _, some dir => parseWords { seen with loaderPath := dir } rest
    | none, none, none =>
      if word = "--no-multiboot" then parseWords { seen with multiboot := false } rest
      else if word = "--append" then parseWords { seen with append := true } rest
      else if (after? "--" word).isSome then .error (.badArgument "unknown option")
      else .ok { seen with image := word, kernelArguments := rest }

/-- The first word is skipped if it names the application. -/
def dropProgram : List String → List String
  | word :: rest => if isProgram word then rest else word :: rest
  | [] => []

def parse (options ownDir : String) : Except LoadError LaunchOptions :=
  parseWords ⟨"", none, defaultPrefix, ownDir, true, false, []⟩ (dropProgram (split options))

def location (o : LaunchOptions) : Except LoadError ImageLocation :=
  match ImageLocation.parse o.image with
  | some location => .ok location
  | none => .error (.badArgument "empty image name")

/-- The directory of an application, from the text of its device path. A device node in front of
    the file is dropped; both kinds of slashes separate. -/
def loaderDir (imagePath : String) : String :=
  let file := (imagePath.toList.reverse.takeWhile (· != ')')).reverse
  let parts := Text.components (fun c => c == '\\' || c == '/') file
  match parts.dropLast with
  | [] => "/"
  | dirs => String.ofList (dirs.flatMap fun dir => '/' :: dir)

end LaunchOptions
end KernelBoot
