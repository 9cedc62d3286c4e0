import KernelBoot.Bytes

/-!
The tagged list that tells a kernel its memory, ramdisk and command line. A record starts with
its size in words, these two included, and its tag; a size of zero with the tag zero ends the
list. All words are little-endian.
-/
namespace KernelBoot

inductive TagError where
  | bufferTooSmall (needed available : Nat)
  | unterminated (offset : Nat)
  | badSize (offset : Nat) (size : UInt32)
  | commandLineContainsNul
deriving DecidableEq

def TagError.message : TagError → String
  | .bufferTooSmall needed available =>
    s!"Tag area too small: {needed} bytes needed, {available} available"
  | .unterminated offset => s!"Tag list ends at offset {offset} without an ATAG_NONE record"
  | .badSize offset size => s!"Tag at offset {offset} has an invalid size of {size} words"
  | .commandLineContainsNul => "Command line must not contain NUL bytes"

/-- What a full core record says; bit 0 of the flags asks for a read-only root. -/
structure CoreTag where
  flags : UInt32
  pageSize : UInt32
  rootDevice : UInt32
deriving DecidableEq

def CoreTag.isReadOnly (c : CoreTag) : Bool := c.flags % 2 == 1

inductive Tag where
  | core (root : Option CoreTag)
  | memory (start size : UInt32)
  | initrd (start size : UInt32)
  | commandLine (line : Bytes)
  | unknown (tag : UInt32) (payload : Bytes)
deriving DecidableEq

namespace Tag

def noneCode : UInt32 := 0

def coreCode : UInt32 := 0x54410001

def memoryCode : UInt32 := 0x54410002

def initrdCode : UInt32 := 0x54420005

def commandLineCode : UInt32 := 0x54410009

/-- Words of a command line record: the line with its NUL in whole words, and the header. The
    count of words is a 32-bit number. -/
def commandLineWords (length : Nat) : Nat := (length + 4) / 4 % wordLimit + 2

/-- Bytes of a list with a short core record, a ramdisk, `regions` memory records, a command
    line and the end mark. -/
def listLength (regions lineLength : Nat) : Nat :=
  (2 + 4 + regions * 4 + commandLineWords lineLength + 2) * 4

end Tag
end KernelBoot
