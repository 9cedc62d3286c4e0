import KernelBoot.Archive.InPlace
import KernelBoot.Boot.Config
import KernelBoot.Boot.Error
import KernelBoot.Boot.Gzip
import KernelBoot.Boot.Path
import KernelBoot.Text.Utf8

/-!
Adding files to the ramdisk of an image. What is added comes from the storage: the files below
the multiboot directory, one of them also as init, and the ramdisk of the root device. A rewrite
rebuilds the archive, replaces members of the same name and merges the nested ramdisk below its
own directory; an append adds records at the trailer and the nested ramdisk as one file.
-/
namespace KernelBoot

def isRamdiskDevice (device : String) : Bool :=
  device.toList.take 2 == ['c', 'd'] && !device.toList.contains ','

structure Injection where
  /-- Paths relative to the injection root with their contents, sorted by path. -/
  files : List (String × Bytes)
  init : Option Bytes
  nested : Option Bytes
deriving DecidableEq

namespace Injection

def isEmpty (i : Injection) : Bool := i.files.isEmpty && i.init.isNone && i.nested.isNone

/-- The files that can be read, in the order of `names`; the others are named in the log. -/
def readFiles (storage : Storage σ) (dir : String) : List String → Effect σ (List (String × Bytes))
  | [] => return []
  | name :: rest => do
    let path := Path.join dir name
    match ← (storage.readFile path).run with
    | .ok data => return (name, data) :: (← readFiles storage dir rest)
    | .error e =>
      Effect.log (LogTarget.ramdisk.line .warn s!"Skipping {path}: {e.message}")
      readFiles storage dir rest

def listFiles (storage : Storage σ) (dir : String) : Effect σ (List (String × Bytes)) := do
  match ← (storage.list dir).run with
  | .ok names => readFiles storage dir names
  | .error e =>
    Effect.log (LogTarget.ramdisk.line .warn s!"No multiboot files in {dir}: {e.message}")
    return []

def readNested (storage : Storage σ) : Option String → Effect σ (Option Bytes)
  | none => return none
  | some device =>
    if isRamdiskDevice device then do
      match ← (storage.readDevice device).run with
      | .ok data => return some data
      | .error e =>
        Effect.log
          (LogTarget.ramdisk.line .warn s!"Skipping ramdisk device {device}: {e.message}")
        return none
    else return none

/-- A name that is listed twice gives the contents of its last reading. -/
def contentsOf (name : String) (files : List (String × Bytes)) : Option Bytes :=
  ((files.filter fun f => f.1 == name).getLast?).map (·.2)

def sortByName (files : List (String × Bytes)) : List (String × Bytes) :=
  files.mergeSort fun a b => decide (a.1 ≤ b.1)

def summary (i : Injection) : LogLine :=
  let nested := ((i.nested.map List.length).getD 0)
  LogTarget.ramdisk.line .debug
    s!"Injecting {i.files.length} files, init: {i.init.isSome}, nested ramdisk: {nested}"

def gather (storage : Storage σ) (searchPrefix : String) (rootDevice : Option String)
    (config : LoaderConfig) : Effect σ Injection := do
  let files ← listFiles storage (Path.join searchPrefix config.multibootDir)
  let nested ← readNested storage rootDevice
  let injection : Injection := ⟨sortByName files, contentsOf config.initSource files, nested⟩
  Effect.log injection.summary
  return injection

end Injection

structure Addition where
  name : String
  mode : Mode
  data : Bytes
deriving DecidableEq

namespace Addition

def toEntry (a : Addition) : Entry := .new (Bytes.ofString a.name) a.mode a.data

/-- The directories that injected files need, each once and in order of their names: those on the
    way to the root, and those on the way to each file. -/
def directories (root : String) (names : List String) : List String :=
  let needed := Path.chain root ++ names.flatMap fun name => Path.ancestors (Path.join root name)
  needed.eraseDups.mergeSort fun a b => decide (a ≤ b)

def ofFiles (root : String) (files : List (String × Bytes)) : List Addition :=
  if files.isEmpty then []
  else
    (directories root (files.map (·.1))).map (fun name => ⟨name, .directory, []⟩) ++
      files.map fun (name, data) => ⟨Path.join root name, .executable, data⟩

def ofInjection (injection : Injection) (config : LoaderConfig) : List Addition :=
  ofFiles config.injectRoot injection.files ++
    match injection.init with
    | none => []
    | some data => [⟨config.initName, .executable, data⟩]

end Addition

namespace Archive

def replace (a : Archive) (e : Entry) : Except ArchiveError Archive := (a.skip e.name).push e

def replacedLine (a : Archive) (e : Entry) : List LogLine :=
  if a.count e.name = 0 then []
  else [LogTarget.ramdisk.line .debug
    s!"Replacing {a.count e.name} existing entries called {Text.lossy e.name}"]

def replaceAll (a : Archive) : List Entry → Except ArchiveError Archive × List LogLine
  | [] => (.ok a, [])
  | e :: rest =>
    match a.replace e with
    | .error error => (.error error, a.replacedLine e)
    | .ok next =>
      let (result, lines) := next.replaceAll rest
      (result, a.replacedLine e ++ lines)

end Archive

/-- The members of a nested ramdisk below a directory of their own; its root is left out. -/
def nestedEntries (nested : Bytes) (config : LoaderConfig) : Except ArchiveError (List Entry) :=
  let home := Bytes.ofString config.nestedName
  (Archive.decode nested config.maxEntries).map fun inner =>
    .directory home :: (inner.entries.filter fun e => e.name != [0x2E]).map fun e =>
      e.rename (home ++ 0x2F :: e.name)

inductive PatchedRamdisk where
  | rewrite (archive : Archive)
  | append (original : Bytes) (trailer : Nat) (additions : List Addition)
deriving DecidableEq

namespace PatchedRamdisk

def length : PatchedRamdisk → Nat
  | .rewrite archive => archive.encodedLength
  | .append _ trailer additions =>
    trailer +
      sumOf (fun a => predictedSize (Bytes.ofString a.name).length a.data.length) additions +
      predictedSize RecordHeader.trailerName.length 0

def appendAll (w : Appender) : List Addition → Except ArchiveError Unit × Appender
  | [] => (.ok (), w)
  | a :: rest =>
    match w.append (Bytes.ofString a.name) a.mode a.data with
    | .error e => (.error e, w)
    | .ok w => appendAll w rest

def write (p : PatchedRamdisk) (dest : Bytes) : Except PatchError Nat × Bytes :=
  match p with
  | .rewrite archive =>
    let (result, dest) := archive.encode dest
    (result.mapError PatchError.ofEncoding, dest)
  | .append original _ additions =>
    if dest.length < p.length then (.error (.bufferTooSmall p.length dest.length), dest)
    else
      let keep := min original.length dest.length
      let dest := dest.overwrite 0 (original.take keep)
      match Appender.atTrailer dest keep with
      | .error e => (.error (.invalidFormat e), dest)
      | .ok w =>
        match appendAll w additions with
        | (.error e, w) => (.error (.ofEncoding e), w.buf)
        | (.ok (), w) =>
          match w.finish with
          | .error e => (.error (.ofEncoding e), w.buf)
          | .ok w => (.ok w.position, w.buf)

end PatchedRamdisk

/-- Rebuilds the archive with the additions, then with the nested ramdisk. One that cannot be
    read is left out. -/
def rewriteRamdisk (original : Bytes) (injection : Injection) (config : LoaderConfig) :
    Except PatchError PatchedRamdisk × List LogLine :=
  match Archive.decode original config.maxEntries with
  | .error e => (.error (.invalidFormat e), [])
  | .ok archive =>
    match archive.replaceAll ((Addition.ofInjection injection config).map Addition.toEntry) with
    | (.error e, lines) => (.error (.archive e), lines)
    | (.ok archive, lines) =>
      match injection.nested with
      | none => (.ok (.rewrite archive), lines)
      | some nested =>
        match nestedEntries nested config with
        | .error e => (.ok (.rewrite archive), lines ++ [LogTarget.ramdisk.line .warn
            s!"Nested ramdisk is not a cpio archive, skipping it: {e.message}"])
        | .ok entries =>
          let (result, more) := archive.replaceAll entries
          ((result.mapError PatchError.archive).map PatchedRamdisk.rewrite, lines ++ more)

def appendRamdisk (original : Bytes) (injection : Injection) (config : LoaderConfig) :
    Except PatchError PatchedRamdisk :=
  match Records.trailerOffset original with
  | .error e => .error (.invalidFormat e)
  | .ok trailer =>
    let nested := match injection.nested with
      | none => []
      | some data => [⟨config.nestedName, .file, data⟩]
    .ok (.append original trailer (Addition.ofInjection injection config ++ nested))

/-- A patched ramdisk within the configured size, and what is logged on the way to it. -/
def patch (original : Bytes) (injection : Injection) (config : LoaderConfig) :
    Except PatchError PatchedRamdisk × List LogLine :=
  let (patched, lines) := match config.strategy with
    | .rewrite => rewriteRamdisk original injection config
    | .append => (appendRamdisk original injection config, [])
  match patched with
  | .error e => (.error e, lines)
  | .ok patched =>
    if patched.length > config.maxRamdiskSize then
      (.error (.bufferTooSmall patched.length config.maxRamdiskSize), lines)
    else
      (.ok patched, lines ++ [LogTarget.ramdisk.line .info
        s!"Ramdisk grows from {original.length} to {patched.length} bytes"])

/-- Inflates a compressed ramdisk to the size that its last bytes announce. What the platform counts
    but does not write is zero. -/
def inflateRamdisk (firmware : Firmware σ) (compressed : Bytes) (config : LoaderConfig) :
    Attempt σ PatchError Bytes := do
  match Gzip.uncompressedSize? compressed with
  | none => throw (.decompress .decompression)
  | some size =>
    let expected := size.toNat
    if expected > config.maxRamdiskSize then
      throw (.bufferTooSmall expected config.maxRamdiskSize)
    let (actual, written) ←
      (firmware.decompress compressed expected).mapError PatchError.decompress
    if actual ≠ expected then throw (.prematureEnd expected actual)
    Attempt.log (LogTarget.ramdisk.line .debug
      s!"Inflated ramdisk from {compressed.length} to {expected} bytes")
    return (Bytes.zeros expected).overwrite 0 written

end KernelBoot
