import KernelBoot.Tags.Record

/-!
Writing a tag list into a buffer. The core record comes first and the end mark last; a record
that does not fit changes nothing.
-/
namespace KernelBoot

inductive TagEntry where
  | initrd (start size : UInt32)
  | memory (start size : UInt32)
  | commandLine (line : Bytes)
deriving DecidableEq

structure TagWriter where
  buf : Bytes
  position : Nat

namespace TagWriter
open Bytes

/-- A record of `words` words, but never less than its header; the payload is completed with
    zeros. A payload that is longer than that, or a size that is no word, is refused. -/
def record (w : TagWriter) (tag : UInt32) (words : Nat) (payload : Bytes) :
    Except TagError TagWriter :=
  let stop := w.position + max words 2 * 4
  let needed := w.position + 8 + payload.length
  if stop > w.buf.length then .error (.bufferTooSmall stop w.buf.length)
  else if wordLimit ≤ words ∨ stop < needed then .error (.bufferTooSmall needed stop)
  else
    let bytes := le 4 words ++ le32 tag ++ payload ++ zeros (max words 2 * 4 - 8 - payload.length)
    .ok ⟨w.buf.overwrite w.position bytes, stop⟩

def start (buf : Bytes) : Except TagError TagWriter := record ⟨buf, 0⟩ Tag.coreCode 2 []

def startWith (buf : Bytes) (core : CoreTag) : Except TagError TagWriter :=
  record ⟨buf, 0⟩ Tag.coreCode 5 (le32 core.flags ++ le32 core.pageSize ++ le32 core.rootDevice)

def put (w : TagWriter) : TagEntry → Except TagError TagWriter
  | .initrd start size => w.record Tag.initrdCode 4 (le32 start ++ le32 size)
  | .memory start size => w.record Tag.memoryCode 4 (le32 size ++ le32 start)
  | .commandLine line =>
    if line.contains 0 then .error .commandLineContainsNul
    else w.record Tag.commandLineCode (Tag.commandLineWords line.length) line

/-- Writes entries up to the first that is refused; the writer then stands in front of it. -/
def putAll (w : TagWriter) : List TagEntry → Except TagError Unit × TagWriter
  | [] => (.ok (), w)
  | entry :: rest =>
    match w.put entry with
    | .error e => (.error e, w)
    | .ok w => w.putAll rest

def finish (w : TagWriter) : Except TagError TagWriter := w.record Tag.noneCode 0 []

end TagWriter
end KernelBoot
