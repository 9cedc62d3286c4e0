import KernelBoot.Archive.Table
import KernelBoot.ImageTool.Assemble

/-!
A ramdisk archive from a directory. Directories come before what they hold, and what one directory
holds is in the order of its names as bytes. Only directories and regular files are packed.
-/
namespace KernelBoot

/-- What lies at a place of a file system. A part that cannot be read is known by its reason. -/
inductive FileNode where
  | file (executable : Bool) (content : Bytes)
  | directory (children : List (Bytes × FileNode))
  | other
  | unreadable (reason : String)

namespace FileNode

/-- A name behind its directory; no slash is added to an empty path or behind another slash. -/
def childPath (dir name : Bytes) : Bytes :=
  if dir.isEmpty || dir.getLast? == some 0x2F then dir ++ name else dir ++ 0x2F :: name

def sortByName (children : List (Bytes × FileNode)) : List (Bytes × FileNode) :=
  children.mergeSort fun a b => decide (a.1 ≤ b.1)

/-! A tree with the children of every directory in order. -/

mutual

def sorted : FileNode → FileNode
  | .directory children => .directory (sortByName (sortedEach children))
  | node => node

def sortedEach : List (Bytes × FileNode) → List (Bytes × FileNode)
  | [] => []
  | (name, node) :: rest => (name, node.sorted) :: sortedEach rest

end

/-! The entries of a tree: `shown` is the path that messages name, `path` the one in the archive. -/

mutual

def entries (shown path : Bytes) : FileNode → Except ToolError (List Entry)
  | .file executable content =>
    .ok [if executable then .executable path content else .file path content]
  | .directory children => (entriesBelow shown path children).map (.directory path :: ·)
  | .other => .ok []
  | .unreadable reason => .error (.io reason)

def entriesBelow (shown path : Bytes) : List (Bytes × FileNode) → Except ToolError (List Entry)
  | [] => .ok []
  | (name, node) :: rest =>
    if (Text.strict? name).isNone then .error (.nonUtf8Name (childPath shown name))
    else
      match node.entries (childPath shown name) (childPath path name) with
      | .error e => .error e
      | .ok first => (entriesBelow shown path rest).map (first ++ ·)

end

end FileNode

def archiveOf (entries : List Entry) : Except ToolError Bytes := do
  let table ← (entries.foldlM Archive.push (.empty entries.length)).mapError ToolError.archive
  let (length, bytes) := table.encode (Bytes.zeros table.encodedLength)
  let length ← length.mapError ToolError.archive
  return bytes.take length

def packDirectory (shown : Bytes) (children : List (Bytes × FileNode)) : Except ToolError Bytes := do
  let entries ← FileNode.entriesBelow shown [] (FileNode.sortByName (FileNode.sortedEach children))
  archiveOf entries

end KernelBoot
