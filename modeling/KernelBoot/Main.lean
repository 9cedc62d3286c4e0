import KernelBoot.ImageTool.Build

/-!
The image builder as a program on the files of the system it runs on. The system does not tell this
program who may execute a file, so the files it packs are not executable.
-/
namespace KernelBoot.HostFiles

def reason : IO.Error → String
  | .alreadyExists _ code text | .interrupted _ code text | .noFileOrDirectory _ code text
  | .invalidArgument _ code text | .permissionDenied _ code text | .resourceExhausted _ code text
  | .inappropriateType _ code text | .noSuchThing _ code text | .otherError code text
  | .resourceBusy code text | .resourceVanished code text | .unsupportedOperation code text
  | .hardwareFault code text | .unsatisfiedConstraints code text | .illegalOperation code text
  | .protocolError code text | .timeExpired code text => s!"{text} (os error {code})"
  | .unexpectedEof => "unexpected end of file"
  | .userError text => text

def attempt (action : IO α) : IO (Except String α) := do
  match ← action.toBaseIO with
  | .ok value => return .ok value
  | .error e => return .error (reason e)

def contents (path : String) : IO Bytes := do
  let handle ← IO.FS.Handle.mk path .read
  return (← handle.readBinToEnd).toList

def read (path : String) : IO (Except String Bytes) := attempt (contents path)

def write (path : String) (bytes : Bytes) : IO (Except String Unit) :=
  attempt (IO.FS.writeBinFile path ⟨bytes.toArray⟩)

/-- No path of a system is longer, so no directory lies deeper. -/
def longestPath : Nat := 4096

def node : (depth : Nat) → (path : String) → IO FileNode
  | 0, _ => return .other
  | depth + 1, path => do
    let found ← attempt do
      let place := (← IO.currentDir) / path
      match (← place.symlinkMetadata).type with
      | .file => return FileNode.file false (← contents path)
      | .dir =>
        let children ← (← place.readDir).toList.mapM fun entry => do
          return (Bytes.ofString entry.fileName, ← node depth s!"{path}/{entry.fileName}")
        return .directory children
      | _ => return .other
    match found with
    | .ok there => return there
    | .error why => return .unreadable why

def list (path : String) : IO (Except String (List (Bytes × FileNode))) :=
  attempt do
    let entries ← ((← IO.currentDir) / path).readDir
    entries.toList.mapM fun entry => do
      return (Bytes.ofString entry.fileName, ← node longestPath s!"{path}/{entry.fileName}")

def fileSystem : FileSystem IO where
  read := read
  list := list
  write := write

end KernelBoot.HostFiles

def main (words : List String) : IO UInt32 := do
  let report ← KernelBoot.runImageTool KernelBoot.HostFiles.fileSystem words
  IO.print report.printed
  IO.eprint report.said
  return report.exitCode.toUInt32
