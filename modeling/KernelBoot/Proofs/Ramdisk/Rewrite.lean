import KernelBoot.Proofs.Archive.RoundTrip
import KernelBoot.Proofs.Ramdisk.Directories
import KernelBoot.Proofs.Ramdisk.Replacement

/-!
The closed form of a rewrite: what the original keeps, then the additions of which none later has
the same name. Only the number of members can make a rewrite of a readable ramdisk fail before its
size is known, and a nested ramdisk that cannot be read counts for nothing.
-/
namespace KernelBoot

def rewriteAdditions (injection : Injection) (config : LoaderConfig) : List Entry :=
  (Addition.ofInjection injection config).map Addition.toEntry ++
    match injection.nested.map fun nested => Archive.decode nested config.maxEntries with
    | some (.ok inner) =>
      let home := Bytes.ofString config.nestedName
      .directory home :: (inner.entries.filter fun e => e.name != [0x2E]).map fun e =>
        e.rename (home ++ 0x2F :: e.name)
    | _ => []

/-- A member that the loader makes up, with the bits of its mode. -/
def madeUp (bits : UInt32) (name : String) (data : Bytes) : Entry :=
  ⟨Bytes.ofString name, data, .synthesized ⟨bits⟩, false⟩

/-- The members that a rewrite adds, written out: these directories, the files below the root, the
    init, and the members of a nested ramdisk below a directory of their own. -/
def addedMembers (dirs : List String) (injection : Injection) (config : LoaderConfig) :
    List Entry :=
  dirs.map (fun path => madeUp 0o40755 path []) ++
    injection.files.map (fun f => madeUp 0o100755 (Path.join config.injectRoot f.1) f.2) ++
    (injection.init.map fun data => madeUp 0o100755 config.initName data).toList ++
    match injection.nested.map fun nested => Archive.decode nested config.maxEntries with
    | some (.ok inner) =>
      madeUp 0o40755 config.nestedName [] ::
        (inner.entries.filter fun e => e.name ≠ [0x2E]).map fun e =>
          { e with name := Bytes.ofString config.nestedName ++ 0x2F :: e.name }
    | _ => []

theorem ofInjection_entries (injection : Injection) (config : LoaderConfig) :
    ∃ dirs, Addition.MadeFor config.injectRoot (injection.files.map (·.1)) dirs ∧
      (Addition.ofInjection injection config).map Addition.toEntry =
        dirs.map (fun path => madeUp 0o40755 path []) ++
          injection.files.map (fun f => madeUp 0o100755 (Path.join config.injectRoot f.1) f.2) ++
          (injection.init.map fun data => madeUp 0o100755 config.initName data).toList := by
  have directory : ∀ path, (Addition.ofDirectory path).toEntry = madeUp 0o40755 path [] :=
    fun _ => rfl
  have file : ∀ f : String × Bytes,
      Addition.toEntry ⟨Path.join config.injectRoot f.1, .executable, f.2⟩ =
        madeUp 0o100755 (Path.join config.injectRoot f.1) f.2 := fun _ => rfl
  have init : (Addition.ofInit injection config).map Addition.toEntry =
      (injection.init.map fun data => madeUp 0o100755 config.initName data).toList := by
    unfold Addition.ofInit
    cases injection.init with
    | none => rfl
    | some data => rfl
  have split : Addition.ofInjection injection config =
      Addition.ofFiles config.injectRoot injection.files ++ Addition.ofInit injection config := rfl
  rw [split, List.map_append, init]
  by_cases none : injection.files = []
  · rw [none]
    exact ⟨[], Addition.nothing_madeFor _, rfl⟩
  · refine ⟨_, Addition.directories_madeFor (by simpa using none) _, ?_⟩
    rw [Addition.ofFiles_eq none, List.map_append, List.map_map, Addition.ofContents, List.map_map]
    simp only [Function.comp_def, directory, file]

theorem rewriteAdditions_eq (injection : Injection) (config : LoaderConfig) :
    ∃ dirs, Addition.MadeFor config.injectRoot (injection.files.map (·.1)) dirs ∧
      rewriteAdditions injection config = addedMembers dirs injection config := by
  obtain ⟨dirs, made, same⟩ := ofInjection_entries injection config
  refine ⟨dirs, made, ?_⟩
  rw [rewriteAdditions, same, addedMembers]
  congr 1
  cases injection.nested with
  | none => rfl
  | some nested =>
    cases readable : Archive.decode nested config.maxEntries with
    | error error => simp only [Option.map_some, readable]
    | ok inner =>
      simp only [Option.map_some, readable]
      congr 2
      exact List.filter_congr fun e _ => by simp [bne, Bool.beq_eq_decide_eq]

theorem rewriteAdditions_plain {injection : Injection} {config : LoaderConfig}
    (plain : injection.nested = none) :
    rewriteAdditions injection config =
      (Addition.ofInjection injection config).map Addition.toEntry := by
  rw [rewriteAdditions, plain]
  exact List.append_nil _

theorem rewriteAdditions_fresh (injection : Injection) (config : LoaderConfig) :
    ∀ e ∈ rewriteAdditions injection config, e.skipped = false := by
  intro e member
  rcases List.mem_append.mp member with made | nested
  · obtain ⟨a, _, rfl⟩ := List.mem_map.mp made
    rfl
  · split at nested
    · rename_i inner read
      obtain ⟨bytes, _, readable⟩ := Option.map_eq_some_iff.mp read
      rcases List.mem_cons.mp nested with first | below
      · subst e
        rfl
      · obtain ⟨x, kept, rfl⟩ := List.mem_map.mp below
        have present := (List.mem_filter.mp kept).1
        rw [← (Archive.decode_ok readable).2.2.1] at present
        change x.skipped = false
        simpa [Archive.live] using (List.mem_filter.mp present).2
    · simp at nested

theorem rewriteRamdisk_eq {original : Bytes} {config : LoaderConfig} {decoded : Archive}
    (readable : Archive.decode original config.maxEntries = .ok decoded) (injection : Injection) :
    (rewriteRamdisk original injection config).1 =
      ((decoded.replaceAll (rewriteAdditions injection config)).1.mapError
        PatchError.archive).map PatchedRamdisk.rewrite := by
  rw [rewriteAdditions, Archive.replaceAll_append, rewriteRamdisk, readable]
  simp only
  generalize decoded.replaceAll ((Addition.ofInjection injection config).map Addition.toEntry) =
    outcome
  obtain ⟨result, lines⟩ := outcome
  cases result with
  | error error => rfl
  | ok grown =>
    cases injection.nested with
    | none => rfl
    | some nested =>
      cases inner : Archive.decode nested config.maxEntries with
      | error error => simp [nestedEntries, inner]; rfl
      | ok archive => simp [nestedEntries, inner]; rfl

/-- The table that a rewrite of a readable original arrives at, or why there is none. -/
theorem rewriteRamdisk_outcome {original : Bytes} {config : LoaderConfig} {decoded : Archive}
    (readable : Archive.decode original config.maxEntries = .ok decoded) (injection : Injection) :
    if decoded.entries.length + (rewriteAdditions injection config).length ≤ config.maxEntries then
      ∃ archive, (rewriteRamdisk original injection config).1 = .ok (.rewrite archive) ∧
        archive.live =
          (decoded.entries.filter fun e => !e.isNamedIn (rewriteAdditions injection config)) ++
            lastOfNames (rewriteAdditions injection config)
    else
      (rewriteRamdisk original injection config).1 =
        .error (.archive (.tooManyEntries config.maxEntries)) := by
  obtain ⟨limit, within, allLive, _⟩ := Archive.decode_ok readable
  have fresh := rewriteAdditions_fresh injection config
  rw [rewriteRamdisk_eq readable]
  split
  · rename_i room
    obtain ⟨archive, run, _, _, live⟩ :=
      Archive.replaceAll_ok _ fresh decoded (by rw [limit]; exact room)
    exact ⟨archive, by rw [run]; rfl, by rw [live, allLive]⟩
  · rename_i full
    have full := Archive.replaceAll_full _ fresh decoded (by rw [limit]; exact within) (by omega)
    rw [full, limit]
    rfl

theorem patch_rewrite_eq {config : LoaderConfig} (rewrite : config.strategy = .rewrite)
    (original : Bytes) (injection : Injection) :
    (patch original injection config).1 =
      (rewriteRamdisk original injection config).1.bind fun patched =>
        if patched.length > config.maxRamdiskSize then
          .error (.bufferTooSmall patched.length config.maxRamdiskSize)
        else .ok patched := by
  unfold patch
  simp only [rewrite]
  generalize rewriteRamdisk original injection config = outcome
  obtain ⟨result, lines⟩ := outcome
  cases result with
  | error error => rfl
  | ok patched =>
    simp only [Except.bind]
    split <;> rfl

theorem patch_rewrite_ok {original : Bytes} {injection : Injection} {config : LoaderConfig}
    {patched : PatchedRamdisk} (rewrite : config.strategy = .rewrite)
    (ok : (patch original injection config).1 = .ok patched) :
    ∃ decoded archive, Archive.decode original config.maxEntries = .ok decoded ∧
      decoded.entries.length + (rewriteAdditions injection config).length ≤ config.maxEntries ∧
      patched = .rewrite archive ∧
      archive.live =
        (decoded.entries.filter fun e => !e.isNamedIn (rewriteAdditions injection config)) ++
          lastOfNames (rewriteAdditions injection config) := by
  rw [patch_rewrite_eq rewrite] at ok
  cases readable : Archive.decode original config.maxEntries with
  | error error =>
    have refused : (rewriteRamdisk original injection config).1 = .error (.invalidFormat error) := by
      rw [rewriteRamdisk, readable]
    rw [refused] at ok
    cases ok
  | ok decoded =>
    have outcome := rewriteRamdisk_outcome readable injection
    split at outcome
    · rename_i room
      obtain ⟨archive, run, live⟩ := outcome
      rw [run] at ok
      simp only [Except.bind] at ok
      split at ok
      · cases ok
      · cases ok
        exact ⟨decoded, archive, rfl, room, rfl, live⟩
    · rw [outcome] at ok
      cases ok

theorem patch_rewrite_small (injection : Injection) {original : Bytes} {config : LoaderConfig}
    {decoded : Archive} (rewrite : config.strategy = .rewrite)
    (readable : Archive.decode original config.maxEntries = .ok decoded)
    (room : decoded.entries.length + (rewriteAdditions injection config).length ≤ config.maxEntries)
    (small : Archive.writtenEnd 0
      ((decoded.entries.filter fun e => !e.isNamedIn (rewriteAdditions injection config)) ++
        lastOfNames (rewriteAdditions injection config)) ≤ config.maxRamdiskSize) :
    ∃ archive, (patch original injection config).1 = .ok (.rewrite archive) ∧
      archive.live =
        (decoded.entries.filter fun e => !e.isNamedIn (rewriteAdditions injection config)) ++
          lastOfNames (rewriteAdditions injection config) := by
  have outcome := rewriteRamdisk_outcome readable injection
  rw [if_pos room] at outcome
  obtain ⟨archive, run, live⟩ := outcome
  have within : ¬ (PatchedRamdisk.rewrite archive).length > config.maxRamdiskSize := by
    rw [← live, Archive.writtenEnd_live] at small
    exact Nat.not_lt.mpr small
  refine ⟨archive, ?_, live⟩
  rw [patch_rewrite_eq rewrite, run]
  simp only [Except.bind, within, ↓reduceIte]

theorem rewriteAdditions_unreadable {injection : Injection} {config : LoaderConfig}
    {nested : Bytes} {error : ArchiveError} (given : injection.nested = some nested)
    (unreadable : Archive.decode nested config.maxEntries = .error error) :
    rewriteAdditions injection config = rewriteAdditions { injection with nested := none } config := by
  simp only [rewriteAdditions, given, Option.map_some, unreadable, Option.map_none]
  rfl

/-- A rewritten ramdisk holds the members of the original whose names no addition has, as they
    were and in their order, then the additions that no later addition has the name of. Added are
    the directories, the files, the init and the members of the nested ramdisk. A nested ramdisk
    that cannot be read changes nothing. The table overflows exactly when the members of the
    original and all additions together are more than it holds. -/
theorem rewrite_closed_form (original : Bytes) (injection : Injection) (config : LoaderConfig)
    (rewrite : config.strategy = .rewrite) :
    ∃ dirs, Addition.MadeFor config.injectRoot (injection.files.map (·.1)) dirs ∧
      let adds := addedMembers dirs injection config
      (∀ patched, (patch original injection config).1 = .ok patched →
        ∃ decoded archive, Archive.decode original config.maxEntries = .ok decoded ∧
          patched = .rewrite archive ∧
          archive.live =
            (decoded.entries.filter fun e => !e.isNamedIn adds) ++ lastOfNames adds) ∧
      (∀ nested error, injection.nested = some nested →
        Archive.decode nested config.maxEntries = .error error →
        (patch original injection config).1 =
          (patch original { injection with nested := none } config).1) ∧
      (∀ decoded, Archive.decode original config.maxEntries = .ok decoded →
        ((patch original injection config).1 =
            .error (.archive (.tooManyEntries config.maxEntries)) ↔
          config.maxEntries < decoded.entries.length + adds.length)) := by
  obtain ⟨dirs, made, same⟩ := rewriteAdditions_eq injection config
  refine ⟨dirs, made, ?_⟩
  rw [← same]
  refine ⟨?_, ?_, ?_⟩
  · intro patched ok
    obtain ⟨decoded, archive, readable, _, same, live⟩ := patch_rewrite_ok rewrite ok
    exact ⟨decoded, archive, readable, same, live⟩
  · intro nested error given unreadable
    rw [patch_rewrite_eq rewrite, patch_rewrite_eq rewrite]
    congr 1
    cases readable : Archive.decode original config.maxEntries with
    | error error => rw [rewriteRamdisk, rewriteRamdisk, readable]
    | ok decoded =>
      rw [rewriteRamdisk_eq readable, rewriteRamdisk_eq readable,
        rewriteAdditions_unreadable given unreadable]
  · intro decoded readable
    have outcome := rewriteRamdisk_outcome readable injection
    rw [patch_rewrite_eq rewrite]
    split at outcome
    · rename_i room
      obtain ⟨archive, run, _⟩ := outcome
      rw [run]
      constructor
      · intro failed
        simp only [Except.bind] at failed
        split at failed <;> cases failed
      · omega
    · rename_i full
      rw [outcome]
      exact ⟨fun _ => Nat.not_le.mp full, fun _ => rfl⟩

/-- A ramdisk with a tool and an init that an injection replaces, and a file that it keeps. -/
def oldMembers : List Entry :=
  [.file (Bytes.ofString "init.multiboot") [1], .file (Bytes.ofString "etc") [2],
    .file (Bytes.ofString "multiboot/tool") [3]]

def innerMembers : List Entry := [.directory [0x2E], .file (Bytes.ofString "menu") [4]]

def fullInjection : Injection where
  files := [("tool", [5])]
  init := some [6]
  nested := some (Archive.records innerMembers ++ Archive.trailerBytes ++ [])

/-- All members that the injection adds. The one of the nested ramdisk keeps its header. -/
def fullAdditions : List Entry :=
  [madeUp 0o40755 "multiboot" [], madeUp 0o100755 "multiboot/tool" [5],
    madeUp 0o100755 "init.multiboot" [6], madeUp 0o40755 "grub_ramdisk" [],
    .decoded (Entry.file (Bytes.ofString "menu") [4]).sizedHeader
      (Bytes.ofString "grub_ramdisk/menu") [4]]

theorem toolDirectory_madeFor : Addition.MadeFor "multiboot" ["tool"] ["multiboot"] := by
  have needed : (Path.chain "multiboot" ++ ["tool"].flatMap fun name =>
      Path.ancestors (Path.join "multiboot" name)).eraseDups = ["multiboot"] := by decide
  have made := Addition.directories_madeFor (by simp : ["tool"] ≠ []) "multiboot"
  rwa [Addition.directories, needed, List.mergeSort_singleton] at made

theorem innerMembers_read :
    Archive.decode (Archive.records innerMembers ++ Archive.trailerBytes ++ [])
        LoaderConfig.default.maxEntries =
      .ok ⟨innerMembers.map Entry.reread, LoaderConfig.default.maxEntries⟩ := by
  have writable : ∀ e ∈ innerMembers, e.Writable := by
    refine List.forall_mem_cons.mpr ⟨⟨by decide, by decide, by decide⟩, ?_⟩
    exact List.forall_mem_singleton.mpr ⟨by decide, by decide, by decide⟩
  exact Archive.decode_records innerMembers writable [] _ (by decide)

theorem addedMembers_full : addedMembers ["multiboot"] fullInjection .default = fullAdditions := by
  simp only [addedMembers, fullInjection, Option.map_some, innerMembers_read]
  decide

theorem rewriteAdditions_full : rewriteAdditions fullInjection .default = fullAdditions := by
  obtain ⟨dirs, made, same⟩ := rewriteAdditions_eq fullInjection .default
  rw [same, made.unique toolDirectory_madeFor, addedMembers_full]

theorem oldMembers_read :
    Archive.decode (Archive.records oldMembers ++ Archive.trailerBytes ++ [])
        LoaderConfig.default.maxEntries =
      .ok ⟨oldMembers.map Entry.reread, LoaderConfig.default.maxEntries⟩ := by
  have writable : ∀ e ∈ oldMembers, e.Writable := by
    refine List.forall_mem_cons.mpr ⟨⟨by decide, by decide, by decide⟩, ?_⟩
    refine List.forall_mem_cons.mpr ⟨⟨by decide, by decide, by decide⟩, ?_⟩
    exact List.forall_mem_singleton.mpr ⟨by decide, by decide, by decide⟩
  exact Archive.decode_records oldMembers writable [] _ (by decide)

theorem rewrite_fullInjection :
    let original := Archive.records oldMembers ++ Archive.trailerBytes ++ []
    LoaderConfig.default.strategy = .rewrite ∧
      ∃ archive, (patch original fullInjection .default).1 = .ok (.rewrite archive) ∧
        archive.live = (Entry.file (Bytes.ofString "etc") [2]).reread :: fullAdditions := by
  intro original
  have readable : Archive.decode original LoaderConfig.default.maxEntries = .ok _ := oldMembers_read
  obtain ⟨archive, ok, _⟩ := patch_rewrite_small fullInjection rfl readable
    (by rw [rewriteAdditions_full]; decide) (by rw [rewriteAdditions_full]; decide)
  obtain ⟨dirs, made, closed, _⟩ := rewrite_closed_form original fullInjection .default rfl
  obtain ⟨decoded, again, read, same, live⟩ := closed _ ok
  cases same
  cases readable.symm.trans read
  rw [made.unique toolDirectory_madeFor, addedMembers_full] at live
  refine ⟨rfl, archive, ok, live.trans ?_⟩
  decide

end KernelBoot
