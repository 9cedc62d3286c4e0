import KernelBoot.Bytes

/-!
The command line that a kernel is started with: the image's own line, a fragment from the
platform, the loader's arguments, the init of a patched ramdisk, and the loader's directory. The
parts after the image's own are set apart by one space each.
-/
namespace KernelBoot

namespace Argument

def needsEscape (c : Char) : Bool := c == '\\' || c == '\'' || c == '"'

def escapeChar (c : Char) : List Char := if needsEscape c then ['\\', c] else [c]

/-- Quotes and backslashes get a backslash; an argument with a space stands in double quotes. -/
def escape (argument : List Char) : List Char :=
  if argument.contains ' ' then '"' :: argument.flatMap escapeChar ++ ['"']
  else argument.flatMap escapeChar

def escapedLength (argument : String) : Nat :=
  (Bytes.ofString argument).length + argument.toList.countP needsEscape +
    if argument.toList.contains ' ' then 2 else 0

end Argument

def escapeArguments (arguments : List String) : List Char :=
  [' '].intercalate (arguments.map fun a => Argument.escape a.toList)

def escapedArgumentsLength (arguments : List String) : Nat :=
  sumOf Argument.escapedLength arguments + (arguments.length - 1)

/-- A line ends with a NUL of its own, which is not part of its text. -/
structure CommandLine where
  text : Bytes
deriving DecidableEq

def CommandLine.withNul (line : CommandLine) : Bytes := line.text ++ [0]

structure CommandLineParts where
  header : Bytes
  headerExtra : Bytes
  fragment : Bytes
  arguments : List String
  init : Option String
  key : String
  loaderPath : String

namespace CommandLineParts

def ofHeader (header headerExtra : Bytes) : CommandLineParts :=
  ⟨header, headerExtra, [], [], none, "", ""⟩

def spaced (present : Bool) (part : Bytes) : Bytes := if present then 0x20 :: part else []

def initPart : Option String → Bytes
  | none => []
  | some init => Bytes.ofString " rdinit=/" ++ Bytes.ofString init

def build (p : CommandLineParts) : CommandLine :=
  ⟨p.header ++ p.headerExtra ++
    spaced (!p.fragment.isEmpty) p.fragment ++
    spaced (!p.arguments.isEmpty) (Bytes.ofChars (escapeArguments p.arguments)) ++
    initPart p.init ++
    spaced (!p.key.isEmpty) (Bytes.ofString p.key ++ Bytes.ofString "=" ++ Bytes.ofString p.loaderPath)⟩

/-- The length of the line to be built, its NUL not counted. -/
def predictedLength (p : CommandLineParts) : Nat :=
  p.header.length + p.headerExtra.length +
    (if p.fragment.isEmpty then 0 else 1 + p.fragment.length) +
    (if p.arguments.isEmpty then 0 else 1 + escapedArgumentsLength p.arguments) +
    (match p.init with
      | none => 0
      | some init => 9 + (Bytes.ofString init).length) +
    (if p.key.isEmpty then 0
      else 1 + (Bytes.ofString p.key).length + 1 + (Bytes.ofString p.loaderPath).length)

end CommandLineParts
end KernelBoot
