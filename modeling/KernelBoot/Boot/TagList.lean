import KernelBoot.Boot.CommandLine
import KernelBoot.Boot.Error
import KernelBoot.Tags.Writer

/-!
The tag list of a boot: the ramdisk, the memory that the firmware reports, and the command line.
Memory regions that touch are merged, and only memory below 4 GiB is reported.
-/
namespace KernelBoot

namespace MemoryRegions

/-- Joins each region to the one before it if they touch; the regions come by start. -/
def merge : List AddressRange → List AddressRange
  | [] => []
  | [r] => [r]
  | r :: s :: rest =>
    if s.start ≤ r.stop then merge (.between r.start (max r.stop s.stop) :: rest)
    else r :: merge (s :: rest)
termination_by regions => regions.length

/-- Sorted by start, merged where they touch or overlap, without empty regions. -/
def coalesce (regions : List AddressRange) : List AddressRange :=
  merge ((regions.filter fun r => !r.isEmpty).mergeSort fun a b => a.start ≤ b.start)

end MemoryRegions

structure MemoryRecord where
  start : UInt32
  size : UInt32
deriving DecidableEq

namespace MemoryRecord

/-- The part of a region below 4 GiB. The size field holds at most 4 GiB less one page. -/
def ofRegion (region : AddressRange) : Option MemoryRecord :=
  if region.start ≥ wordLimit then none
  else
    let size := min (min region.stop wordLimit - region.start) (wordLimit - 4096)
    some ⟨UInt32.ofNat region.start, UInt32.ofNat size⟩

def ofRegions (regions : List AddressRange) : List MemoryRecord := regions.filterMap ofRegion

def warning (region : AddressRange) : Option LogLine :=
  if region.start ≥ wordLimit then
    some (LogTarget.tags.line .warn s!"Memory region {region.text} is above 4 GiB, not reported")
  else if wordLimit < region.stop then
    some (LogTarget.tags.line .warn s!"Memory region {region.text} is cut at 4 GiB")
  else none

def warnings (regions : List AddressRange) : List LogLine := regions.filterMap warning

end MemoryRecord

def tagListLength (memory : List MemoryRecord) (line : CommandLine) : Nat :=
  Tag.listLength memory.length line.text.length

def tagEntries (start size : UInt32) (memory : List MemoryRecord) (line : CommandLine) :
    List TagEntry :=
  .initrd start size :: memory.map (fun r => .memory r.start r.size) ++ [.commandLine line.text]

def writeTags (buf : Bytes) (ramdisk : AddressRange) (memory : List MemoryRecord)
    (line : CommandLine) : Except LoadError Nat × Bytes :=
  match word? ramdisk.start, word? ramdisk.len with
  | none, _ => (.error (.invalidAddress "ramdisk" ramdisk.start), buf)
  | some _, none => (.error (.invalidAddress "ramdisk end" ramdisk.stop), buf)
  | some start, some size =>
    match TagWriter.start buf with
    | .error e => (.error (.tags e), buf)
    | .ok writer =>
      match writer.putAll (tagEntries start size memory line) with
      | (.error e, writer) => (.error (.tags e), writer.buf)
      | (.ok (), writer) =>
        match writer.finish with
        | .error e => (.error (.tags e), writer.buf)
        | .ok writer => (.ok writer.position, writer.buf)

def tagListLine (length : Nat) (ramdisk : AddressRange) (memory : List MemoryRecord) : LogLine :=
  LogTarget.tags.line .debug
    s!"Wrote {length} bytes of tags: initrd {Text.hex ramdisk.start}+{Text.hex ramdisk.len}, {memory.length} memory regions"

end KernelBoot
