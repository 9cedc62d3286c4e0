import KernelBoot.Text.Split
import KernelBoot.Uefi.CallScript
import KernelBoot.Uefi.Services
import KernelBoot.Uefi.WideText

/-!
A volume of the firmware: a tree of files and directories, and the handles through which a file is
read. A handle counts the calls made through it, so that a script can let the later ones fail.
-/
namespace KernelBoot

structure NodeScript where
  openFailure : Option UefiStatus
  read : CallScript
  seek : CallScript
  tell : CallScript
  /-- How far the end of the file lies behind its contents. -/
  extra : Nat
  chunk : Option Nat

def NodeScript.plain : NodeScript := ⟨none, .reliable, .reliable, .reliable, 0, none⟩

structure VolumeNode where
  content : Option Bytes
  script : NodeScript
  /-- Whether a listing begins with the directory itself and the one above. -/
  listsParents : Bool
  children : List (String × VolumeNode)

namespace VolumeNode

def emptyRoot : VolumeNode := ⟨none, .plain, false, []⟩

def emptyDirectory : VolumeNode := ⟨none, .plain, true, []⟩

def isDirectory (n : VolumeNode) : Bool := n.content.isNone

def child? (n : VolumeNode) (name : String) : Option VolumeNode := n.children.lookup name

def withChild (n : VolumeNode) (name : String) (child : VolumeNode) : VolumeNode :=
  if (n.child? name).isSome then
    { n with children := n.children.map fun c => if c.1 == name then (name, child) else c }
  else { n with children := n.children ++ [(name, child)] }

/-- Puts contents at a path, with directories for the parts that are missing. What is there
    already is overwritten and keeps its children. -/
def create (content : Option Bytes) (script : NodeScript) (n : VolumeNode) :
    List String → VolumeNode
  | [] => { n with content, script }
  | name :: rest =>
    n.withChild name (create content script ((n.child? name).getD emptyDirectory) rest)

def find? (n : VolumeNode) : List String → Option VolumeNode
  | [] => some n
  | name :: rest =>
    if n.isDirectory then
      match n.child? name with
      | none => none
      | some child => child.find? rest
    else none

def opened (n : VolumeNode) (path : List String) : Except UefiStatus VolumeNode :=
  match n.find? path with
  | none => .error .notFound
  | some found => (UefiStatus.outcome found.script.openFailure).map fun _ => found

def size : VolumeNode → Nat
  | ⟨_, _, _, children⟩ => sizeAmong children + 1
where
  sizeAmong : List (String × VolumeNode) → Nat
    | [] => 0
    | (_, child) :: rest => child.size + sizeAmong rest

end VolumeNode

namespace VolumeNode

def pathParts (path : String) : List String :=
  (Text.components (· == '\\') path.toList).map String.ofList

/-- Opens what a path leads to. One that begins with a backslash begins at the root. -/
def openFrom (root here : VolumeNode) (path : String) : Except UefiStatus VolumeNode :=
  (if path.toList.head? = some '\\' then root else here).opened (pathParts path)

/-- The entries of a directory, with a name up to its first NUL. Those for the directory itself and
    for the one above come first. -/
def listing (n : VolumeNode) : List DirectoryEntry :=
  (if n.listsParents then [⟨".", true⟩, ⟨"..", true⟩] else []) ++
    n.children.map fun (name, child) => ⟨WideText.upToNul name, child.isDirectory⟩

end VolumeNode

/-- The position of a directory is the number of entries that have been read. -/
structure FileHandle where
  node : VolumeNode
  position : Nat
  tells : Nat
  seeks : Nat
  reads : Nat

namespace FileHandle

def new (node : VolumeNode) : FileHandle := ⟨node, 0, 0, 0, 0⟩

def contents (h : FileHandle) : Bytes := h.node.content.getD []

def tell (h : FileHandle) : Except UefiStatus Nat × FileHandle :=
  let position := (h.node.script.tell.outcome h.tells).bind fun _ =>
    if h.node.isDirectory then .error .unsupported else .ok h.position
  (position, { h with tells := h.tells + 1 })

def seek (position : Nat) (h : FileHandle) : Except UefiStatus Unit × FileHandle :=
  let position := if position = FileServices.endOfFile then
    h.contents.length + h.node.script.extra else position
  (h.node.script.seek.outcome h.seeks, { h with seeks := h.seeks + 1, position })

/-- At most `room` bytes from the position on, none behind the contents. -/
def readPiece (room : Nat) : Attempt FileHandle UefiStatus Bytes :=
  .ofEffect <| Effect.step fun h =>
    let bytes := h.contents.slice h.position (min room (h.node.script.chunk.getD room))
    ((h.node.script.read.outcome h.reads).map fun _ => bytes,
      { h with reads := h.reads + 1, position := h.position + bytes.length })

/-- The most that the firmware is asked for at once. -/
def largestPiece : Nat := 0x100000

/-- At most `room` bytes in pieces, up to one that comes short. Where there is no room, nothing is
    asked for. -/
def read (room : Nat) : Attempt FileHandle UefiStatus Bytes := do
  if room = 0 then return []
  else
    let piece ← readPiece (min room largestPiece)
    if piece.length < min room largestPiece then return piece
    else return piece ++ (← read (room - min room largestPiece))
termination_by room
decreasing_by
  simp only [largestPiece]
  omega

/-- The calls that one entry takes. The end of a directory takes one. -/
def readsPerEntry : Nat := 3

def readEntry (h : FileHandle) : Except UefiStatus (Option DirectoryEntry) × FileHandle :=
  match h.node.listing[h.position]? with
  | none => ((h.node.script.read.outcome h.reads).map fun _ => none, { h with reads := h.reads + 1 })
  | some entry =>
    let lastRead := h.reads + (readsPerEntry - 1)
    ((h.node.script.read.outcome lastRead).map fun _ => some entry,
      { h with reads := h.reads + readsPerEntry, position := h.position + 1 })

end FileHandle

structure BootVolume where
  locateFailure : Option UefiStatus
  openFailure : Option UefiStatus
  root : VolumeNode

end KernelBoot
