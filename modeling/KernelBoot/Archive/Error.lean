import KernelBoot.Text.Number

/-!
Why an archive cannot be read or written. Offsets and lengths count bytes of the archive.
-/
namespace KernelBoot

inductive ArchiveError where
  | malformed (offset : Nat) (reason : String)
  | prematureEnd (offset needed : Nat)
  | bufferTooSmall (needed available : Nat)
  | fieldOverflow (value width : Nat)
  | tooManyEntries (limit : Nat)
  | missingTrailer
  | emptyName
deriving DecidableEq

def ArchiveError.message : ArchiveError → String
  | .malformed offset reason => s!"Malformed archive at offset {offset}: {reason}"
  | .prematureEnd offset needed =>
    s!"Archive ends at offset {offset}, {needed} more bytes were expected"
  | .bufferTooSmall needed available =>
    s!"Destination too small: {needed} bytes needed, {available} available"
  | .fieldOverflow value width =>
    s!"Value {Text.hex value} does not fit into a {width} digit header field"
  | .tooManyEntries limit => s!"Archive has more than {limit} entries"
  | .missingTrailer => "Archive has no trailer record"
  | .emptyName => "Entry names must not be empty"

end KernelBoot
