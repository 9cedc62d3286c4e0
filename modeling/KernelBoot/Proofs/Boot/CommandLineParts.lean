import KernelBoot.Proofs.Boot.Escaping
import KernelBoot.Proofs.Boot.InternalErrors
import KernelBoot.Proofs.Tags.Calls

/-!
The command line that a load puts together: its parts, its length, which is foretold without
building it, and the NUL behind it. What comes from the image and from the platform is cut at its
first NUL, so the line has one only if the caller's texts do.
-/
namespace KernelBoot
open Bytes Attempt

namespace Argument

theorem escapedLength_eq (argument : String) :
    (escapeBytes (ofString argument)).length = escapedLength argument := by
  rw [escapeBytes_length, ofString, countP_isMark, contains_space]
  rfl

theorem escapedArgumentsLength_eq (arguments : List String) :
    (joined (arguments.map ofString)).length = escapedArgumentsLength arguments := by
  induction arguments with
  | nil => rfl
  | cons argument rest ih =>
    cases rest with
    | nil =>
      rw [List.map_singleton, joined_single, escapedLength_eq]
      rfl
    | cons next more =>
      rw [List.map_cons, List.map_cons, joined_cons, List.length_append, List.length_cons,
        escapedLength_eq, ← List.map_cons, ih]
      simp only [escapedArgumentsLength, sumOf_cons, List.length_cons]
      omega

theorem nul_escapeBytes {argument : Bytes} (plain : (0 : UInt8) ∉ argument) :
    (0 : UInt8) ∉ escapeBytes argument := by
  have flat : (0 : UInt8) ∉ argument.flatMap escapeByte := by
    rw [List.mem_flatMap]
    rintro ⟨b, member, escaped⟩
    have differs : (0 : UInt8) ≠ b := fun same => plain (same ▸ member)
    rw [escapeByte] at escaped
    split at escaped <;> simp [differs] at escaped
  rw [escapeBytes]
  split
  · simpa using flat
  · exact flat

theorem nul_joined {arguments : List Bytes} (plain : ∀ a ∈ arguments, (0 : UInt8) ∉ a) :
    (0 : UInt8) ∉ joined arguments := by
  induction arguments with
  | nil => exact List.not_mem_nil
  | cons argument rest ih =>
    obtain ⟨first, later⟩ := List.forall_mem_cons.mp plain
    cases rest with
    | nil =>
      rw [joined_single]
      exact nul_escapeBytes first
    | cons next more =>
      rw [joined_cons, List.mem_append, List.mem_cons, not_or, not_or]
      exact ⟨nul_escapeBytes first, by decide, ih later⟩

end Argument

namespace CommandLineParts
open Argument

/-- The parts behind the image's own line; the arguments are escaped byte by byte. -/
def presentParts (p : CommandLineParts) : List Bytes :=
  (if p.fragment.isEmpty then [] else [p.fragment]) ++
  (if p.arguments.isEmpty then [] else [joined (p.arguments.map ofString)]) ++
  p.init.toList.map (fun init => ofString "rdinit=/" ++ ofString init) ++
  (if p.key.isEmpty then [] else [ofString p.key ++ ofString "=" ++ ofString p.loaderPath])

theorem spaced_eq (missing : Bool) (part : Bytes) :
    spaced (!missing) part = (if missing then [] else [part]).flatMap (0x20 :: ·) := by
  cases missing with
  | true => rfl
  | false => exact (List.flatMap_singleton _ _).symm

theorem build_text (p : CommandLineParts) :
    p.build.text = p.header ++ p.headerExtra ++ p.presentParts.flatMap (0x20 :: ·) := by
  have init : initPart p.init =
      (p.init.toList.map fun init => ofString "rdinit=/" ++ ofString init).flatMap (0x20 :: ·) := by
    cases p.init with
    | none => rfl
    | some init => exact (List.flatMap_singleton _ _).symm
  simp only [build, ofChars_escapeArguments, spaced_eq, init, presentParts, List.flatMap_append,
    List.append_assoc]

theorem spaced_length (missing : Bool) (part : Bytes) :
    (spaced (!missing) part).length = if missing then 0 else 1 + part.length := by
  cases missing with
  | true => rfl
  | false => exact Nat.add_comm _ _

theorem initPart_length (init : Option String) :
    (initPart init).length = init.elim 0 fun init => 9 + (ofString init).length := by
  cases init with
  | none => rfl
  | some init => exact List.length_append

theorem build_length (p : CommandLineParts) : p.build.text.length = p.predictedLength := by
  have path : (ofString p.key ++ ofString "=" ++ ofString p.loaderPath).length =
      (ofString p.key).length + 1 + (ofString p.loaderPath).length := by
    rw [List.length_append, List.length_append]
    rfl
  have foretold : p.predictedLength = p.header.length + p.headerExtra.length +
      (if p.fragment.isEmpty then 0 else 1 + p.fragment.length) +
      (if p.arguments.isEmpty then 0 else 1 + escapedArgumentsLength p.arguments) +
      (p.init.elim 0 fun init => 9 + (ofString init).length) +
      (if p.key.isEmpty then 0
        else 1 + (ofString p.key).length + 1 + (ofString p.loaderPath).length) := by
    rw [predictedLength]
    cases p.init <;> rfl
  simp only [foretold, build, List.length_append, spaced_length, initPart_length,
    ofChars_escapeArguments, escapedArgumentsLength_eq, path, ← Nat.add_assoc]

structure Plain (p : CommandLineParts) : Prop where
  header : (0 : UInt8) ∉ p.header
  headerExtra : (0 : UInt8) ∉ p.headerExtra
  fragment : (0 : UInt8) ∉ p.fragment
  arguments : ∀ a ∈ p.arguments, (0 : UInt8) ∉ ofString a
  init : ∀ i ∈ p.init, (0 : UInt8) ∉ ofString i
  key : (0 : UInt8) ∉ ofString p.key
  loaderPath : (0 : UInt8) ∉ ofString p.loaderPath

theorem Plain.presentParts {p : CommandLineParts} (plain : p.Plain) :
    ∀ part ∈ p.presentParts, (0 : UInt8) ∉ part := by
  have arguments : (0 : UInt8) ∉ joined (p.arguments.map ofString) :=
    nul_joined (List.forall_mem_map.mpr plain.arguments)
  have equals : (0 : UInt8) ∉ ofString "=" := by decide
  have rdinit : (0 : UInt8) ∉ ofString "rdinit=/" := by decide
  intro part member
  simp only [CommandLineParts.presentParts, List.mem_append, List.mem_map, Option.mem_toList,
    List.mem_ite_nil_left, List.mem_singleton] at member
  rcases member with ((⟨_, rfl⟩ | ⟨_, rfl⟩) | ⟨init, given, rfl⟩) | ⟨_, rfl⟩
  · exact plain.fragment
  · exact arguments
  · simp only [List.mem_append, rdinit, plain.init init given, or_self, not_false_eq_true]
  · simp only [List.mem_append, plain.key, equals, plain.loaderPath, or_self, not_false_eq_true]

theorem Plain.build {p : CommandLineParts} (plain : p.Plain) : (0 : UInt8) ∉ p.build.text := by
  have behind : (0 : UInt8) ∉ p.presentParts.flatMap (0x20 :: ·) := by
    rw [List.mem_flatMap]
    rintro ⟨part, member, spaced⟩
    rcases List.mem_cons.mp spaced with space | inside
    · cases space
    · exact plain.presentParts part member inside
  rw [build_text, List.mem_append, List.mem_append, not_or, not_or]
  exact ⟨⟨plain.header, plain.headerExtra⟩, behind⟩

end CommandLineParts

def withoutNul (bytes : Bytes) : Bytes := if bytes.getLast? = some 0 then bytes.dropLast else bytes

theorem withoutNul_withNul (line : CommandLine) : withoutNul line.withNul = line.text := by
  rw [withoutNul, CommandLine.withNul, if_pos List.getLast?_concat, List.dropLast_concat]

/-- The caller's texts that go into a command line have no NUL. -/
structure NulFree (request : LoadRequest) (config : LoaderConfig) : Prop where
  arguments : ∀ a ∈ request.arguments, '\x00' ∉ a.toList
  loaderPath : '\x00' ∉ request.loaderPath.toList
  initName : '\x00' ∉ config.initName.toList
  loaderPathKey : '\x00' ∉ config.loaderPathKey.toList

variable {source : Source σ} {f : Firmware σ} {storage : Storage σ} {s t : Session σ}
  {request : LoadRequest} {config : LoaderConfig}

theorem nul_ofString {text : String} (plain : '\x00' ∉ text.toList) : (0 : UInt8) ∉ ofString text :=
  fun member => plain ((mem_ofChars (c := '\x00') (by decide)).mp member)

theorem NulFree.parts (free : NulFree request config) (h : BootHeader) (fragment : Option Bytes) :
    (commandLineParts h fragment request config).Plain where
  header := nul_notMem_upToNul _
  headerExtra := by
    simp only [commandLineParts, BootHeader.extraText]
    split
    · exact List.not_mem_nil
    · exact nul_notMem_upToNul _
  fragment := nul_notMem_upToNul _
  arguments a member := nul_ofString (free.arguments a member)
  init i given := by
    simp only [commandLineParts] at given
    split at given
    · cases given
      exact nul_ofString free.initName
    · cases given
  key := nul_ofString free.loaderPathKey
  loaderPath := nul_ofString free.loaderPath

theorem buildCommandLine_plain (free : NulFree request config) {h : BootHeader} {line : CommandLine}
    (run : (buildCommandLine f h request config).Ends s line t) : (0 : UInt8) ∉ line.text := by
  obtain ⟨fragment, s₁, _, built⟩ := Effect.ends_bind.mp run
  cases built
  exact (free.parts h fragment).build

theorem writeTagList_accepts {area ramdisk : AddressRange} {line : CommandLine}
    (plain : (0 : UInt8) ∉ line.text) :
    (writeTagList f area ramdisk line).Avoids (· = .tags .commandLineContainsNul) := by
  refine writeTagList_avoids (by simp) (by simp) (by simp) ?_
  intro memory records e refused
  obtain ⟨needed, available, rfl⟩ := writeTags_refused plain refused
  simp

theorem load_accepts (free : NulFree request config) :
    (load source f storage request config).Avoids (· = .tags .commandLineContainsNul) := by
  have parts : NoPartFails (· = .tags .commandLineContainsNul) :=
    .of_own fun e refused => refused ▸ trivial
  have checks : (∀ what, LoadError.bug what ≠ .tags .commandLineContainsNul) ∨ f.ExactMemory :=
    .inl fun _ => by simp
  refine avoids_bind (parts.placeImage checks) fun _ placed _ placing => ?_
  obtain ⟨small, fits⟩ := placeImage_ramdisk placing
  refine avoids_bind (parts.finalRamdisk checks small fits) fun _ ramdisk _ _ => ?_
  refine avoids_bind (avoids_lift _) fun _ line _ building => ?_
  have plain := buildCommandLine_plain free (gives_lift.mp building)
  refine avoids_bind (writeTagList_accepts plain) fun _ length _ _ => ?_
  refine avoids_bind (avoids_ofExcept fun e failed => ?_) fun _ header _ _ => ?_
  · rw [finalHeader] at failed
    split at failed
    · cases failed
      simp
    · cases failed
  · exact avoids_bind (avoids_lift _) fun _ _ _ _ => avoids_pure _

/-- A line is that of the image, then each part that is present behind one space, then a NUL, and
    without the NUL it is as long as foretold. The line of a load has no other NUL if the caller's
    texts have none, so the tag list never refuses it for one. -/
theorem command_line_exact :
    (∀ p : CommandLineParts,
      p.build.withNul = p.header ++ p.headerExtra ++ p.presentParts.flatMap (0x20 :: ·) ++ [0] ∧
      withoutNul p.build.withNul = p.build.text ∧ p.build.text.length = p.predictedLength) ∧
    ∀ (request : LoadRequest) (config : LoaderConfig), NulFree request config →
      (∀ h fragment, (0 : UInt8) ∉ (commandLineParts h fragment request config).build.text) ∧
      ∀ (source : Source σ) (f : Firmware σ) (storage : Storage σ) (s t : Session σ),
        (∀ p, (load source f storage request config).Gives s p t → ∃ h fragment,
          p.commandLine = (commandLineParts h fragment request config).build) ∧
        ¬ (load source f storage request config).Fails s (.tags .commandLineContainsNul) t := by
  constructor
  · intro p
    refine ⟨?_, withoutNul_withNul p.build, p.build_length⟩
    rw [CommandLine.withNul, p.build_text]
  · intro request config free
    refine ⟨fun h fragment => (free.parts h fragment).build, ?_⟩
    intro source f storage s t
    refine ⟨?_, fun failed => load_accepts free s _ t failed rfl⟩
    intro p run
    obtain ⟨placed, s₁, s₂, s₃, steps, _⟩ := load_steps run
    obtain ⟨fragment, s₄, _, built⟩ := Effect.ends_bind.mp steps.building
    exact ⟨placed.facts.header, fragment, (congrArg Prod.fst built).symm⟩

/-- The header and the platform's variable both go on behind a NUL. -/
theorem command_line_exact_cut :
    let header := { BootHeader.new ⟨10, by decide⟩ with
      kernel := ⟨4, 0x10008000⟩
      ramdisk := ⟨0, 0x10100000⟩
      tagsAddress := 0x10000100
      commandLine := .ofList 512 0 (ofString "console=tty\x00panic=5") }
    let image := (header.encode.toOption.getD []) ++ zeros 416 ++ [1, 2, 3, 4]
    let table := [(Variable.additionalCommandLine, ofString "loglevel=8\x00quiet")]
    let board := { bareBoard with script := { bareBoard.script with variableTable := table } }
    let request := ⟨["a b", "", "say=\"hi\""], true, some "cd", "/boot", "/boot/é"⟩
    let line := "console=tty loglevel=8 \"a b\"  say=\\\"hi\\\"" ++
      " rdinit=/init.multiboot multiboot.grubdir=/boot/é"
    NulFree request smallTags ∧
      ∃ p t, (load (.ofMemory image) Board.firmware oneDevice.storage request smallTags).Gives
        ⟨board, .new 0⟩ p t ∧ p.commandLine.text = ofString line ∧
        (0 : UInt8) ∉ p.commandLine.text ∧ withoutNul p.commandLine.withNul = ofString line := by
  intro header image table board request line
  have free : NulFree request smallTags := ⟨by decide, by decide, by decide, by decide⟩
  obtain ⟨p, t, run, text⟩ := exists_gives_that (s := ⟨board, .new 0⟩)
    (x := load (.ofMemory image) Board.firmware oneDevice.storage request smallTags)
    (fun p => decide (p.commandLine.text = ofString line)) (by decide +kernel)
  have written := of_decide_eq_true text
  obtain ⟨build, accepted⟩ := command_line_exact
  obtain ⟨plain, loads⟩ := accepted request smallTags free
  obtain ⟨h, fragment, same⟩ := (loads (.ofMemory image) Board.firmware oneDevice.storage _ t).1 p run
  have stripped := (build (commandLineParts h fragment request smallTags)).2.1
  rw [← same, written] at stripped
  refine ⟨free, p, t, run, written, ?_, stripped⟩
  rw [same]
  exact plain h fragment

end KernelBoot
