import KernelBoot.Archive.Error
import KernelBoot.BootImage.Layout
import KernelBoot.Text.Utf8

/-!
Boot images from their parts. The header goes first, with the sizes of the parts filled in; each
part follows at its place in the layout, and everything else is zero.
-/
namespace KernelBoot

inductive ToolError where
  | io (reason : String)
  | archive (error : ArchiveError)
  | header (error : BootImageError)
  | tooLarge (what : String)
  | nonUtf8Name (path : Bytes)
  | pageTooSmall (pageSize needed : Nat)
deriving DecidableEq

def ToolError.message : ToolError → String
  | .io reason => reason
  | .archive error => s!"ramdisk archive: {error.message}"
  | .header error => s!"boot image header: {error.message}"
  | .tooLarge what => s!"{what} exceeds 4 GiB"
  | .nonUtf8Name path => s!"file name is not UTF-8: {Text.lossy path}"
  | .pageTooSmall pageSize needed => s!"page size {pageSize} cannot hold the {needed} byte header"

structure Payload where
  kernel : Bytes
  ramdisk : Bytes
  second : Bytes
deriving DecidableEq

namespace Payload

def sizeField (what : String) (part : Bytes) : Except ToolError UInt32 :=
  if part.length < wordLimit then .ok (UInt32.ofNat part.length) else .error (.tooLarge what)

/-- The header with the sizes of the parts; an image that is built has no device tree. -/
def fillSizes (p : Payload) (h : BootHeader) : Except ToolError BootHeader := do
  let kernel ← sizeField "kernel" p.kernel
  let ramdisk ← sizeField "ramdisk" p.ramdisk
  let second ← sizeField "second stage" p.second
  return { h with
    kernel := { h.kernel with size := kernel }
    ramdisk := { h.ramdisk with size := ramdisk }
    second := { h.second with size := second }
    deviceTreeSize := 0 }

end Payload

/-- With pages smaller than the header, the kernel covers the end of the header. -/
def assemble (h : BootHeader) (p : Payload) : Except ToolError Bytes := do
  let h ← p.fillSizes h
  let layout ← (ImageLayout.of h).mapError ToolError.header
  let (written, image) := h.write (Bytes.zeros layout.imageLength)
  let _ ← written.mapError ToolError.header
  return ((image.overwrite layout.kernel.offset p.kernel).overwrite
    layout.ramdisk.offset p.ramdisk).overwrite layout.second.offset p.second

end KernelBoot
