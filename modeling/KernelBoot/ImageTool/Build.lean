import KernelBoot.ImageTool.Options
import KernelBoot.ImageTool.Pack

/-!
A run of the image builder on any file system. What is wrong with the options is found before any
file is read; the ramdisk is read first, then the kernel, then the second stage.
-/
namespace KernelBoot

/-- Reasons for a failure are texts of the system. -/
structure FileSystem (m : Type → Type) where
  read : String → m (Except String Bytes)
  list : String → m (Except String (List (Bytes × FileNode)))
  write : String → Bytes → m (Except String Unit)

namespace ImageOptions

/-- The header without the sizes of the parts. Addresses wrap around at 4 GiB. -/
def header (o : ImageOptions) : Except ToolError BootHeader := do
  let at4G (offset : UInt32) : Segment := ⟨0, (o.base + offset).toNat⟩
  let plain := { BootHeader.new o.pageSize with
    kernel := at4G o.kernelOffset
    ramdisk := at4G o.ramdiskOffset
    second := at4G o.secondOffset
    tagsAddress := (o.base + o.tagsOffset).toNat }
  let named := plain.setName (Bytes.ofString o.board)
  let header ← (named.setCommandLine (Bytes.ofString o.commandLine)).mapError ToolError.header
  if o.pageSize.bytes < header.encodedLength then
    throw (.pageTooSmall o.pageSize.bytes header.encodedLength)
  return header

variable {m : Type → Type} [Monad m]

def readFile (fs : FileSystem m) (path : String) : ExceptT ToolError m Bytes :=
  ExceptT.mk do return (← fs.read path).mapError ToolError.io

def readRamdisk (fs : FileSystem m) : RamdiskInput → ExceptT ToolError m Bytes
  | .none => return []
  | .file path => readFile fs path
  | .directory path => ExceptT.mk do
    match ← fs.list path with
    | .error reason => return .error (.io reason)
    | .ok children => return packDirectory (Bytes.ofString path) children

def payload (fs : FileSystem m) (o : ImageOptions) : ExceptT ToolError m Payload := do
  let ramdisk ← readRamdisk fs o.ramdisk
  let kernel ← readFile fs o.kernel
  let second ← match o.second with
    | none => pure []
    | some path => readFile fs path
  return ⟨kernel, ramdisk, second⟩

def build (fs : FileSystem m) (o : ImageOptions) : ExceptT ToolError m Nat := do
  let header ← ExceptT.mk (pure o.header)
  let payload ← o.payload fs
  let image ← ExceptT.mk (pure (assemble header payload))
  ExceptT.mk do return (← fs.write o.output image).mapError ToolError.io
  return image.length

end ImageOptions

structure ToolReport where
  exitCode : UInt8
  said : String
  printed : String
deriving DecidableEq

namespace ToolReport

def usage : String :=
  "Create an Android boot image\n\nUsage: mkbootimg [OPTIONS] --kernel <KERNEL> --output <OUTPUT>\n\nOptions:\n" ++
    String.join (OptionName.all.map fun o => s!"      --{o.word} <{o.word.toUpper}>\n") ++
    "  -h, --help\n"

def ofUsage (e : UsageError) : ToolReport := ⟨2, s!"error: {e.message}\n", ""⟩

def ofBuild (output : String) : Except ToolError Nat → ToolReport
  | .ok length => ⟨0, s!"wrote {length} bytes to {output}\n", ""⟩
  | .error e => ⟨1, s!"mkbootimg: {e.message}\n", ""⟩

end ToolReport

def runImageTool {m : Type → Type} [Monad m] (fs : FileSystem m) (words : List String) :
    m ToolReport :=
  match ImageRequest.parse words with
  | .error e => return .ofUsage e
  | .ok .help => return ⟨0, "", ToolReport.usage⟩
  | .ok (.build o) => do return .ofBuild o.output (← (o.build fs).run)

end KernelBoot
