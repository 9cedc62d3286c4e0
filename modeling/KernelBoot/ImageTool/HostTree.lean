import KernelBoot.ImageTool.Build

/-!
A file system as a table of paths, for runs of the image builder without a host. Paths are found
as a POSIX system finds them: part by part, through links, with a limit on the links of one path.
-/
namespace KernelBoot

inductive HostItem where
  | file (content : Bytes) (mode : Nat)
  | directory
  | link (target : Bytes)
deriving DecidableEq

inductive HostError where
  | notFound
  | notDirectory
  | isDirectory
  | nameTooLong
  | tooManyLinks
deriving DecidableEq

def HostError.message : HostError → String
  | .notFound => "No such file or directory (os error 2)"
  | .notDirectory => "Not a directory (os error 20)"
  | .isDirectory => "Is a directory (os error 21)"
  | .nameTooLong => "File name too long (os error 36)"
  | .tooManyLinks => "Too many levels of symbolic links (os error 40)"

/-- The root itself is not in the table. Relative paths start at `home`. -/
structure HostTree where
  items : List (List Bytes × HostItem)
  home : List Bytes
deriving DecidableEq

namespace HostTree

def slash : UInt8 := 0x2F

def components (path : Bytes) : List Bytes := Text.components (· == slash) path

def longestName : Nat := 255

def longestPath : Nat := 4095

def mostLinks : Nat := 40

def lookup (t : HostTree) (path : List Bytes) : Option HostItem :=
  if path.isEmpty then some .directory else t.items.lookup path

def isSlashed (path : Bytes) : Bool := path.getLast? == some slash

/-- The place that `names` lead to from a directory, and what lies there. Nothing may lie there
    only at the last name. With `slashed` a slash follows the last name, or the target of a link in
    its place: it is no file then, and nothing that could be written (`writing`). -/
def walk (t : HostTree) (writing slashed : Bool) (links : Nat) (dir : List Bytes)
    (names : List Bytes) : Except HostError (List Bytes × Option HostItem) :=
  match names with
  | [] => .ok (dir, some .directory)
  | name :: rest =>
    if name == [0x2E] then t.walk writing slashed links dir rest
    else if name == [0x2E, 0x2E] then t.walk writing slashed links dir.dropLast rest
    else if writing && slashed && rest.isEmpty then .error .isDirectory
    else if name.length > longestName then .error .nameTooLong
    else
      match t.lookup (dir ++ [name]) with
      | none => if rest.isEmpty then .ok (dir ++ [name], none) else .error .notFound
      | some .directory => t.walk writing slashed links (dir ++ [name]) rest
      | some (.file content mode) =>
        if rest.isEmpty && !slashed then .ok (dir ++ [name], some (.file content mode))
        else .error .notDirectory
      | some (.link target) =>
        match links with
        | 0 => .error .tooManyLinks
        | links + 1 =>
          let start := if target.head? == some slash then [] else dir
          let slashed := slashed || (rest.isEmpty && isSlashed target)
          t.walk writing slashed links start (components target ++ rest)
termination_by (links, names.length)

def startOf (t : HostTree) (path : Bytes) : List Bytes :=
  if path.head? == some slash then [] else t.home

def find (t : HostTree) (writing : Bool) (path : Bytes) :
    Except HostError (List Bytes × Option HostItem) :=
  if path.isEmpty then .error .notFound
  else if path.length > longestPath then .error .nameTooLong
  else t.walk writing (isSlashed path) mostLinks (t.startOf path) (components path)

def read (t : HostTree) (path : Bytes) : Except HostError Bytes := do
  match ← t.find false path with
  | (_, some (.file content _)) => return content
  | (_, some _) => throw .isDirectory
  | (_, none) => throw .notFound

def children (t : HostTree) (dir : List Bytes) : List (Bytes × HostItem) :=
  t.items.filterMap fun (path, item) =>
    match path.getLast? with
    | none => none
    | some name => if path.dropLast == dir then some (name, item) else none

def isExecutable (mode : Nat) : Bool := mode &&& 0o111 != 0

/-- What lies below a directory, as far as `depth` levels down. Everything is reached by its whole
    path, which begins with `shown` and may be too long. -/
def below (t : HostTree) : (depth : Nat) → (shown : Bytes) → (dir : List Bytes) →
    List (Bytes × FileNode)
  | 0, _, _ => []
  | depth + 1, shown, dir => (t.children dir).map fun (name, item) =>
    let shown := FileNode.childPath shown name
    let reached (node : FileNode) : FileNode :=
      if shown.length > longestPath then .unreadable HostError.nameTooLong.message else node
    (name, match item with
      | .file content mode => reached (.file (isExecutable mode) content)
      | .directory => reached (.directory (t.below depth shown (dir ++ [name])))
      | .link _ => .other)

def depth (t : HostTree) : Nat := (t.items.map fun (path, _) => path.length).foldl max 0

def list (t : HostTree) (path : Bytes) : Except HostError (List (Bytes × FileNode)) := do
  match ← t.find false path with
  | (place, some .directory) => return t.below t.depth path place
  | (_, some _) => throw .notDirectory
  | (_, none) => throw .notFound

def put (t : HostTree) (place : List Bytes) (item : HostItem) : HostTree :=
  { t with items := t.items.filter (fun i => i.1 != place) ++ [(place, item)] }

/-- Writes a whole file; a new one can be read by all and written by its owner. -/
def write (t : HostTree) (path content : Bytes) : Except HostError HostTree := do
  match ← t.find true path with
  | (place, some (.file _ mode)) => return t.put place (.file content mode)
  | (_, some _) => throw .isDirectory
  | (place, none) => return t.put place (.file content 0o644)

def makeDirectories (t : HostTree) (dir : List Bytes) : List Bytes → HostTree × List Bytes
  | [] => (t, dir)
  | name :: rest =>
    match t.walk false false mostLinks dir [name] with
    | .ok (place, some .directory) => t.makeDirectories place rest
    | _ => (t.put (dir ++ [name]) .directory).makeDirectories (dir ++ [name]) rest

/-- Puts an item below the working directory, with the directories on the way to it. What is put
    where a link lies goes to the place that the link leads to. -/
def create (t : HostTree) (path : Bytes) (item : HostItem) : HostTree :=
  let names := components path
  match names.getLast? with
  | none => t
  | some name =>
    let (t, dir) := t.makeDirectories t.home names.dropLast
    let place := match t.walk false false mostLinks dir [name] with
      | .ok (place, _) => place
      | .error _ => dir ++ [name]
    if item = .directory && t.lookup place = some .directory then t else t.put place item

def empty : HostTree := ⟨[([Bytes.ofString "work"], .directory)], [Bytes.ofString "work"]⟩

def fileSystem : FileSystem (StateM HostTree) where
  read path := return ((← get).read (Bytes.ofString path)).mapError HostError.message
  list path := return ((← get).list (Bytes.ofString path)).mapError HostError.message
  write path content := do
    match (← get).write (Bytes.ofString path) content with
    | .error e => return .error e.message
    | .ok t => set t; return .ok ()

end HostTree
end KernelBoot
