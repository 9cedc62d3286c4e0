import KernelBoot.Address
import KernelBoot.Bytes
import KernelBoot.Text.Split

/-!
The command line of the image builder. Every option takes one value, as the next word or behind an
equals sign; a next word that looks like an option is not taken as a value. No option may be given
twice, and there are no other words.
-/
namespace KernelBoot

inductive OptionName where
  | kernel
  | ramdisk
  | ramdiskDir
  | second
  | commandLine
  | board
  | pageSize
  | base
  | kernelOffset
  | ramdiskOffset
  | secondOffset
  | tagsOffset
  | output
deriving DecidableEq

namespace OptionName

def word : OptionName → String
  | .kernel => "kernel"
  | .ramdisk => "ramdisk"
  | .ramdiskDir => "ramdisk-dir"
  | .second => "second"
  | .commandLine => "cmdline"
  | .board => "board"
  | .pageSize => "pagesize"
  | .base => "base"
  | .kernelOffset => "kernel-offset"
  | .ramdiskOffset => "ramdisk-offset"
  | .secondOffset => "second-offset"
  | .tagsOffset => "tags-offset"
  | .output => "output"

def all : List OptionName :=
  [.kernel, .ramdisk, .ramdiskDir, .second, .commandLine, .board, .pageSize, .base, .kernelOffset,
    .ramdiskOffset, .secondOffset, .tagsOffset, .output]

def ofWord? (word : List Char) : Option OptionName := all.find? fun o => o.word.toList == word

end OptionName

inductive UsageError where
  | unexpected (word : String)
  | missingValue (option : OptionName)
  | repeated (option : OptionName)
  | invalidValue (option : OptionName) (value : String)
  | missing (option : OptionName)
  | twoRamdisks
deriving DecidableEq

def UsageError.message : UsageError → String
  | .unexpected word => s!"unexpected argument {word}"
  | .missingValue option => s!"a value is required for --{option.word}"
  | .repeated option => s!"--{option.word} cannot be used more than once"
  | .invalidValue option value => s!"invalid value {value} for --{option.word}"
  | .missing option => s!"--{option.word} is required"
  | .twoRamdisks => "--ramdisk cannot be used with --ramdisk-dir"

namespace NumberWord

def digit? (base : Nat) (c : Char) : Option Nat :=
  let value :=
    if c.isDigit then c.toNat - '0'.toNat
    else if 'a' ≤ c ∧ c ≤ 'f' then c.toNat - 'a'.toNat + 10
    else if 'A' ≤ c ∧ c ≤ 'F' then c.toNat - 'A'.toNat + 10
    else base
  if value < base then some value else none

def digits? (base : Nat) (cs : List Char) : Option Nat :=
  if cs.isEmpty then none
  else cs.foldlM (fun n c => (digit? base c).map fun d => n * base + d) 0

/-- A plus sign may stand in front of the digits. -/
def unsigned? (base : Nat) : List Char → Option Nat
  | '+' :: rest => digits? base rest
  | cs => digits? base cs

def parse (text : String) : Option UInt32 :=
  let value := match text.toList with
    | '0' :: 'x' :: rest => unsigned? 16 rest
    | '0' :: 'X' :: rest => unsigned? 16 rest
    | cs => unsigned? 10 cs
  value.bind word?

end NumberWord

inductive RamdiskInput where
  | none
  | file (path : String)
  | directory (path : String)
deriving DecidableEq

structure ImageOptions where
  kernel : String
  ramdisk : RamdiskInput
  second : Option String
  commandLine : String
  board : String
  pageSize : PageSize
  base : UInt32
  kernelOffset : UInt32
  ramdiskOffset : UInt32
  secondOffset : UInt32
  tagsOffset : UInt32
  output : String
deriving DecidableEq

inductive ImageRequest where
  | help
  | build (options : ImageOptions)
deriving DecidableEq

namespace ImageRequest

def pageSize? (text : String) : Option PageSize :=
  (NumberWord.parse text).bind fun size => PageSize.ofBytes? size.toNat

/-- Whether an option takes a value: paths must not be empty, numbers must be numbers. -/
def accepts : OptionName → String → Bool
  | .commandLine, _ | .board, _ => true
  | .pageSize, value => (pageSize? value).isSome
  | .base, value | .kernelOffset, value | .ramdiskOffset, value | .secondOffset, value
  | .tagsOffset, value => (NumberWord.parse value).isSome
  | _, value => !value.isEmpty

inductive Word where
  | option (name : OptionName) (attached : Option (List Char))
  | help
  | plain
  | stop
  | unknown

def attached : List Char → Option (List Char)
  | '=' :: value => some value
  | _ => none

def longWord (rest : List Char) : Word :=
  let name := rest.takeWhile (· != '=')
  let value := attached (rest.dropWhile (· != '='))
  match OptionName.ofWord? name, value with
  | some option, value => .option option value
  | none, none => if name == "help".toList then .help else .unknown
  | none, some _ => .unknown

/-- One dash introduces letters; `o` takes what follows it as its value. -/
def shortWord : List Char → Word
  | [] => .plain
  | 'h' :: _ => .help
  | 'o' :: [] => .option .output none
  | 'o' :: '=' :: value => .option .output (some value)
  | 'o' :: value => .option .output (some value)
  | _ => .unknown

def classify (word : String) : Word :=
  match word.toList with
  | '-' :: '-' :: [] => .stop
  | '-' :: '-' :: rest => longWord rest
  | '-' :: rest => shortWord rest
  | _ => .plain

abbrev Given := List (OptionName × String)

def assign (given : Given) (option : OptionName) (value : String) : Except UsageError Given :=
  if (given.lookup option).isSome then .error (.repeated option)
  else if !accepts option value then .error (.invalidValue option value)
  else .ok (given ++ [(option, value)])

/-- All values that are given, or none where help is asked for. `pending` waits for its value. -/
def collect (given : Given) :
    (pending : Option OptionName) → List String → Except UsageError (Option Given)
  | some option, [] => .error (.missingValue option)
  | none, [] => .ok (some given)
  | pending, word :: rest =>
    match classify word, pending with
    | .plain, none => .error (.unexpected word)
    | .plain, some option => do collect (← assign given option word) none rest
    | _, some option => .error (.missingValue option)
    | .unknown, none => .error (.unexpected word)
    | .help, none => .ok none
    | .stop, none =>
      match rest with
      | [] => .ok (some given)
      | next :: _ => .error (.unexpected next)
    | .option option none, none => collect given (some option) rest
    | .option option (some value), none => do
      collect (← assign given option (String.ofList value)) none rest

def number (given : Given) (option : OptionName) (fallback : UInt32) : UInt32 :=
  ((given.lookup option).bind NumberWord.parse).getD fallback

def ramdisk (given : Given) : Except UsageError RamdiskInput :=
  match given.lookup .ramdisk, given.lookup .ramdiskDir with
  | none, none => .ok .none
  | some path, none => .ok (.file path)
  | none, some path => .ok (.directory path)
  | some _, some _ => .error .twoRamdisks

def complete (given : Given) : Except UsageError ImageOptions := do
  let ramdisk ← ramdisk given
  let some kernel := given.lookup .kernel | throw (.missing .kernel)
  let some output := given.lookup .output | throw (.missing .output)
  return {
    kernel
    ramdisk
    second := given.lookup .second
    commandLine := (given.lookup .commandLine).getD ""
    board := (given.lookup .board).getD ""
    pageSize := ((given.lookup .pageSize).bind pageSize?).getD .customary
    base := number given .base 0x10000000
    kernelOffset := number given .kernelOffset 0x00008000
    ramdiskOffset := number given .ramdiskOffset 0x01000000
    secondOffset := number given .secondOffset 0x00F00000
    tagsOffset := number given .tagsOffset 0x00000100
    output }

def parse (words : List String) : Except UsageError ImageRequest := do
  match ← collect [] none words with
  | none => return .help
  | some given => return .build (← complete given)

end ImageRequest
end KernelBoot
