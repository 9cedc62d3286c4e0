import KernelBoot.Archive.Error
import KernelBoot.BootImage.Header
import KernelBoot.Boot.Source
import KernelBoot.Tags.Record

/-!
Why a boot image cannot be placed, patched, loaded or started, and what a failure of one part
means for the whole.
-/
namespace KernelBoot

inductive PlanError where
  | allocationFailure (what : String) (address len : Nat) (error : FirmwareError)
  | invalidRamdiskAddress (address minimum : Nat)
  | addressOverflow (what : String) (address len : Nat)
deriving DecidableEq

def PlanError.message : PlanError → String
  | .allocationFailure what address len _ =>
    s!"Unable to allocate {Text.hex len} bytes at {Address.text address} for the {what}"
  | .invalidRamdiskAddress address minimum =>
    s!"Invalid ramdisk address {Address.text address}, must not be below {Address.text minimum}"
  | .addressOverflow what address len =>
    s!"The {what} at {Address.text address} with {Text.hex len} bytes exceeds the address space"

inductive PatchError where
  | invalidFormat (error : ArchiveError)
  | bufferTooSmall (needed available : Nat)
  | archive (error : ArchiveError)
  | prematureEnd (expected actual : Nat)
  | decompress (error : FirmwareError)
  | unsupported (what : String)
deriving DecidableEq

namespace PatchError

def message : PatchError → String
  | .invalidFormat _ => "The ramdisk is not a cpio archive"
  | .bufferTooSmall needed available =>
    s!"The patched ramdisk needs {needed} bytes, only {available} are available"
  | .archive _ => "Unable to assemble the patched archive"
  | .prematureEnd expected actual =>
    s!"Premature end of compressed ramdisk: got {actual} of {expected} bytes"
  | .decompress _ => "Unable to inflate the ramdisk"
  | .unsupported what => s!"{what} is not supported"

def ofEncoding : ArchiveError → PatchError
  | .bufferTooSmall needed available => .bufferTooSmall needed available
  | e => .archive e

end PatchError

inductive LoadError where
  | badArgument (what : String)
  | invalidMagic
  | invalidHeader (error : BootImageError)
  | badArchive (error : ArchiveError)
  | prematureEnd (what : String) (error : SourceError)
  | read (what : String) (error : SourceError)
  | bufferTooSmall (needed available : Nat)
  | allocationFailure (what : String) (error : FirmwareError)
  | invalidRamdiskAddress (address minimum : Nat)
  | invalidAddress (what : String) (address : Nat)
  | invalidRamdiskFormat (error : ArchiveError)
  | unsupported (what : String)
  | tags (error : TagError)
  | firmware (error : FirmwareError)
  | kernelReturned
  | bug (what : String)
deriving DecidableEq

namespace LoadError

def message : LoadError → String
  | .badArgument what => s!"Bad argument: {what}"
  | .invalidMagic => "Invalid magic in boot image header"
  | .invalidHeader _ => "Invalid boot image header"
  | .badArchive _ => "Malformed cpio archive"
  | .prematureEnd what _ => s!"Premature end of {what}"
  | .read what _ => s!"Unable to read the {what}"
  | .bufferTooSmall needed available =>
    s!"Buffer too small: {needed} bytes needed, {available} available"
  | .allocationFailure what _ => s!"Allocation of the {what} failed"
  | .invalidRamdiskAddress address minimum =>
    s!"Invalid ramdisk address {Address.text address}, must not be below {Address.text minimum}"
  | .invalidAddress what address => s!"Invalid address {Address.text address} for the {what}"
  | .invalidRamdiskFormat _ => "Invalid ramdisk format"
  | .unsupported what => s!"Unsupported: {what}"
  | .tags _ => "Unable to build the boot tags"
  | .firmware _ => "Firmware failure"
  | .kernelReturned => "Linux call returned"
  | .bug what => s!"Internal error: {what}"

/-- A read that leaves the source means that the image ends early. -/
def ofRead (what : String) : SourceError → LoadError
  | .prematureEnd offset len size => .prematureEnd what (.prematureEnd offset len size)
  | .storage e => .read what (.storage e)

def ofImage : BootImageError → LoadError
  | .invalidMagic => .invalidMagic
  | e => .invalidHeader e

def ofArchive : ArchiveError → LoadError
  | .bufferTooSmall needed available => .bufferTooSmall needed available
  | e => .badArchive e

def ofPlan : PlanError → LoadError
  | .allocationFailure what _ _ e => .allocationFailure what e
  | .invalidRamdiskAddress address minimum => .invalidRamdiskAddress address minimum
  | .addressOverflow what address _ => .invalidAddress what address

def ofPatch : PatchError → LoadError
  | .invalidFormat e => .invalidRamdiskFormat e
  | .bufferTooSmall needed available => .bufferTooSmall needed available
  | .archive e => ofArchive e
  | .prematureEnd expected actual =>
    .prematureEnd "compressed ramdisk" (.prematureEnd actual (expected - actual) actual)
  | .decompress e => .firmware e
  | .unsupported what => .unsupported what

end LoadError
end KernelBoot
