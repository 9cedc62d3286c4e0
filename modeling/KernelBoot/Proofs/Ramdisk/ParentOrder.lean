import KernelBoot.Proofs.Ramdisk.Directories
import KernelBoot.Proofs.Ramdisk.Rewrite
import KernelBoot.Proofs.Ramdisk.Written

/-!
Whether members of a rewritten ramdisk come behind the directories they lie in. What is added is in
that order by itself. But a directory of the original that is added again moves behind the members
that stay, and an init that has the name of a needed directory takes it away.
-/
namespace KernelBoot

/-- The name in front of the last slash of a member's name. -/
def Entry.parent? (e : Entry) : Option Bytes := beforeLast Bytes.isSlash e.name

/-- Each member with a slash in its name comes behind a directory with the name in front of it. -/
def ParentsFirst (entries : List Entry) : Prop :=
  ∀ before e after, entries = before ++ e :: after → ∀ parent, e.parent? = some parent →
    ∃ d ∈ before, d.name = parent ∧ d.mode.isDirectory = true

theorem parentsFirst_append {first second : List Entry} :
    ParentsFirst (first ++ second) ↔ ParentsFirst first ∧
      ∀ before e after, second = before ++ e :: after → ∀ parent, e.parent? = some parent →
        ∃ d ∈ first ++ before, d.name = parent ∧ d.mode.isDirectory = true := by
  constructor
  · intro ordered
    constructor
    · intro before e after split
      exact ordered before e (after ++ second) (by rw [split]; simp)
    · intro before e after split
      exact ordered (first ++ before) e after (by rw [split]; simp)
  · rintro ⟨inFirst, inSecond⟩ before e after split
    rcases List.append_eq_append_iff.mp split with ⟨more, rfl, rest⟩ | ⟨more, same, rest⟩
    · exact inSecond more e after rest
    · cases more with
      | nil =>
        rw [List.append_nil] at same
        subst same
        have here := inSecond [] e after rest.symm
        rwa [List.append_nil] at here
      | cons x more =>
        rw [List.cons_append, List.cons.injEq] at rest
        obtain ⟨rfl, rfl⟩ := rest
        exact inFirst before e more same

theorem parentsFirst_map {f : Entry → Entry} (name : ∀ e, (f e).name = e.name)
    (mode : ∀ e, (f e).mode = e.mode) (entries : List Entry) :
    ParentsFirst (entries.map f) ↔ ParentsFirst entries := by
  have parent : ∀ e, (f e).parent? = e.parent? := fun e => by rw [Entry.parent?, name]; rfl
  constructor
  · intro ordered before e after split p hasParent
    obtain ⟨d, member, named, kind⟩ := ordered (before.map f) (f e) (after.map f)
      (by rw [split]; simp) p (by rw [parent]; exact hasParent)
    obtain ⟨x, among, rfl⟩ := List.mem_map.mp member
    exact ⟨x, among, by rw [← name]; exact named, by rw [← mode]; exact kind⟩
  · intro ordered before e after split p hasParent
    obtain ⟨front, back, rfl, rfl, rest⟩ := List.map_eq_append_iff.mp split
    obtain ⟨x, tail, rfl, rfl, rfl⟩ := List.map_eq_cons_iff.mp rest
    obtain ⟨d, among, named, kind⟩ := ordered front x tail rfl p (by rw [← parent]; exact hasParent)
    exact ⟨f d, List.mem_map_of_mem among, by rw [name]; exact named, by rw [mode]; exact kind⟩

theorem Entry.reread_mode (e : Entry) : e.reread.mode = e.mode := by
  cases kind : e.origin <;>
    simp [Entry.mode, Entry.reread, Entry.decoded, Entry.sizedHeader, Entry.template, kind,
      RecordHeader.ofMode]

theorem parentsFirst_survivors {members additions : List Entry} (ordered : ParentsFirst members) :
    ParentsFirst (members.filter fun e => !e.isNamedIn additions) ↔
      ∀ e ∈ members, e.isNamedIn additions = false → ∀ parent, e.parent? = some parent →
        ∀ a ∈ additions, a.name ≠ parent := by
  constructor
  · intro kept e member stays parent hasParent a added same
    have among : e ∈ members.filter fun x => !x.isNamedIn additions :=
      List.mem_filter.mpr ⟨member, by simp [stays]⟩
    obtain ⟨before, after, split⟩ := List.append_of_mem among
    obtain ⟨d, earlier, named, _⟩ := kept before e after split parent hasParent
    have stayed : d ∈ members.filter fun x => !x.isNamedIn additions := by
      rw [split]
      exact List.mem_append_left _ earlier
    have replaced : d.isNamedIn additions = true :=
      List.any_eq_true.mpr ⟨a, added, by simp [same, named]⟩
    simp [replaced] at stayed
  · intro apart before e after split parent hasParent
    obtain ⟨front, back, rfl, frontEq, backEq⟩ := List.filter_eq_append_iff.mp split
    obtain ⟨skipped, rest, rfl, gone, stays, restEq⟩ := List.filter_eq_cons_iff.mp backEq
    have untouched : e.isNamedIn additions = false := by simpa using stays
    obtain ⟨d, earlier, named, kind⟩ := ordered (front ++ skipped) e rest (by simp) parent hasParent
    have lasting : (!d.isNamedIn additions) = true := by
      have free := apart e (by simp) untouched parent hasParent
      simp only [Entry.isNamedIn, Bool.not_eq_true', List.any_eq_false, beq_iff_eq, named]
      exact free
    rcases List.mem_append.mp earlier with ahead | between
    · exact ⟨d, by rw [← frontEq]; exact List.mem_filter.mpr ⟨ahead, lasting⟩, named, kind⟩
    · exact absurd lasting (gone d between)

/-- A member whose name comes only once from there on is in front of all that come behind it. -/
theorem ahead_in_lastOfNames {before after front back : List Entry} {d a : Entry}
    (split : lastOfNames (before ++ d :: after) = front ++ a :: back)
    (single : ∀ x ∈ after, x.name ≠ d.name) (behind : a ∈ after) : d ∈ front := by
  have lasting : d.isNamedIn after = false := by
    simp only [Entry.isNamedIn, List.any_eq_false, beq_iff_eq]
    exact single
  have differs : a ≠ d := by
    intro same
    exact single a behind (by rw [same])
  rw [lastOfNames_append, lastOfNames, lasting, if_neg (by decide)] at split
  rcases List.append_eq_append_iff.mp split with ⟨more, same, rest⟩ | ⟨more, same, rest⟩
  · cases more with
    | nil =>
      rw [List.nil_append, List.cons.injEq] at rest
      exact absurd rest.1.symm differs
    | cons x more =>
      rw [List.cons_append, List.cons.injEq] at rest
      rw [same, rest.1]
      simp
  · cases more with
    | nil =>
      rw [List.nil_append, List.cons.injEq] at rest
      exact absurd rest.1 differs
    | cons x more =>
      rw [List.cons_append, List.cons.injEq] at rest
      have early : a ∈ front ++ x :: more := by
        rw [← rest.1]
        simp
      rw [← same] at early
      have replaced : a.isNamedIn (d :: after) = true :=
        List.any_eq_true.mpr ⟨a, List.mem_cons_of_mem d behind, by simp⟩
      have kept := (List.mem_filter.mp early).2
      simp [replaced] at kept

section Additions
variable {injection : Injection} {config : LoaderConfig}

theorem toEntry_parent {a : Addition} {parent : Bytes} (hasParent : a.toEntry.parent? = some parent) :
    ∃ front, beforeLast Path.isSlash a.name.toList = some front ∧
      parent = Bytes.ofString (String.ofList front) := by
  have bytes : a.toEntry.parent? = (beforeLast Path.isSlash a.name.toList).map Bytes.ofChars :=
    Bytes.beforeLast_ofChars _
  rw [bytes] at hasParent
  obtain ⟨front, cut, rfl⟩ := Option.map_eq_some_iff.mp hasParent
  exact ⟨front, cut, by rw [Bytes.ofString, String.toList_ofList]⟩

/-- Among the additions the parent of each has its only record in front of it. -/
theorem parent_ahead (flat : '/' ∉ config.initName.toList)
    (apart : ∀ f ∈ injection.files, Path.join config.injectRoot f.1 ∉
      Addition.directories config.injectRoot (injection.files.map (·.1)))
    {a : Addition} (added : a ∈ Addition.ofInjection injection config) {parent : Bytes}
    (hasParent : a.toEntry.parent? = some parent)
    (free : injection.init.isSome → Bytes.ofString config.initName ≠ parent) :
    ∃ before d after, (Addition.ofInjection injection config).map Addition.toEntry =
        before ++ d :: after ∧
      a.toEntry ∈ after ∧ d.name = parent ∧ d.mode.isDirectory = true ∧
      ∀ x ∈ after, x.name ≠ parent := by
  obtain ⟨front, cut, rfl⟩ := toEntry_parent hasParent
  have inFiles : a ∈ Addition.ofFiles config.injectRoot injection.files := by
    rcases List.mem_append.mp added with file | init
    · exact file
    · obtain ⟨named, _⟩ := Addition.mem_ofInit init
      have whole : beforeLast Path.isSlash a.name.toList = none := by
        apply beforeLast_eq_none
        intro c among
        have other : c ≠ '/' := fun same => flat (by rw [← named, ← same]; exact among)
        simpa [Path.isSlash] using other
      rw [whole] at cut
      cases cut
  obtain ⟨before, after, split, behind, single⟩ := Addition.ofFiles_split apart inFiles cut
  let init := Addition.ofInit injection config
  have whole : Addition.ofInjection injection config =
      before ++ Addition.ofDirectory (String.ofList front) :: (after ++ init) := by
    rw [Addition.ofInjection, split, List.append_assoc, List.cons_append]
    rfl
  have kind : Mode.directory.isDirectory = true := by decide
  refine ⟨before.map Addition.toEntry, (Addition.ofDirectory (String.ofList front)).toEntry,
    (after ++ init).map Addition.toEntry, ?_, ?_, rfl, kind, ?_⟩
  · rw [whole, List.map_append, List.map_cons]
  · exact List.mem_map_of_mem (List.mem_append_left init behind)
  · intro x member same
    obtain ⟨y, among, rfl⟩ := List.mem_map.mp member
    have name : y.name = String.ofList front := Bytes.ofString_injective same
    rcases List.mem_append.mp among with later | last
    · exact single y later name
    · obtain ⟨named, given⟩ := Addition.mem_ofInit last
      exact free given (by rw [← named, name])

/-- The last record named like the init is the init, which is no directory. -/
theorem init_is_file (plain : injection.nested = none) (given : injection.init.isSome) {d : Entry}
    (kept : d ∈ lastOfNames (rewriteAdditions injection config))
    (named : d.name = Bytes.ofString config.initName) : d.mode.isDirectory = false := by
  obtain ⟨data, init⟩ := Option.isSome_iff_exists.mp given
  have last : rewriteAdditions injection config =
      (Addition.ofFiles config.injectRoot injection.files).map Addition.toEntry ++
        [.executable (Bytes.ofString config.initName) data] := by
    rw [rewriteAdditions_plain plain, Addition.ofInjection, init, List.map_append]
    rfl
  rw [last, lastOfNames_append] at kept
  rcases List.mem_append.mp kept with earlier | final
  · have other := (List.mem_filter.mp earlier).2
    simp [Entry.isNamedIn, Entry.executable, Entry.new, named] at other
  · have only : d = .executable (Bytes.ofString config.initName) data := by
      simpa [lastOfNames, Entry.isNamedIn] using final
    have kind : Mode.executable.isDirectory = false := by decide
    rw [only]
    exact kind

theorem decode_rewritten (rewrite : config.strategy = .rewrite) {original : Bytes}
    {decoded : Archive} (readable : Archive.decode original config.maxEntries = .ok decoded)
    {patched : PatchedRamdisk} (patchOk : (patch original injection config).1 = .ok patched)
    {dest : Bytes} {length : Nat} (writeOk : (patched.write dest).1 = .ok length)
    {capacity : Nat} (limit : config.maxEntries ≤ capacity) :
    Archive.decode ((patched.write dest).2.take length) capacity =
      .ok ⟨((decoded.entries.filter fun e => !e.isNamedIn (rewriteAdditions injection config)) ++
        Archive.beforeTrailer (lastOfNames (rewriteAdditions injection config))).map Entry.reread,
        capacity⟩ := by
  obtain ⟨found, archive, again, room, rfl, live⟩ := patch_rewrite_ok rewrite patchOk
  rw [readable] at again
  cases again
  let kept := decoded.entries.filter fun e => !e.isNamedIn (rewriteAdditions injection config)
  let added := lastOfNames (rewriteAdditions injection config)
  have encodeOk := PatchedRamdisk.write_rewrite_eq_ok_iff.mp writeOk
  have written : ((PatchedRamdisk.rewrite archive).write dest).2 =
      Archive.records archive.live ++ Archive.trailerBytes ++ dest.drop archive.encodedLength :=
    Archive.encode_written encodeOk
  obtain ⟨writable, lengthEq, _⟩ := (Archive.encode_eq_ok_iff archive dest length).mp encodeOk
  have named : ∀ e ∈ kept, (e.name != RecordHeader.trailerName) = true := by
    intro e member
    have differs := ((Archive.decode_ok readable).2.2.2 e (List.mem_filter.mp member).1).differs
    simpa using differs
  have cut : Archive.beforeTrailer archive.live = kept ++ Archive.beforeTrailer added := by
    rw [live, Archive.beforeTrailer, List.takeWhile_append_of_pos named]
    rfl
  have enough : (Archive.beforeTrailer archive.live).length ≤ capacity := by
    have first : kept.length ≤ decoded.entries.length := List.length_filter_le _ _
    have second : (Archive.beforeTrailer added).length ≤ added.length :=
      (List.takeWhile_sublist _).length_le
    have third : added.length ≤ (rewriteAdditions injection config).length :=
      (lastOfNames_sublist _).length_le
    rw [cut, List.length_append]
    omega
  have whole := Archive.decode_records archive.live writable [] capacity enough
  rw [List.append_nil] at whole
  rw [written, List.take_left' ((Archive.written_length archive).trans lengthEq.symm), whole, cut]

theorem additions_parents_first (flat : '/' ∉ config.initName.toList)
    (plain : injection.nested = none)
    (apart : ∀ f ∈ injection.files, Path.join config.injectRoot f.1 ∉
      Addition.directories config.injectRoot (injection.files.map (·.1)))
    {kept : List Entry}
    (untouched : ∀ d ∈ kept, d.isNamedIn (rewriteAdditions injection config) = false) :
    (∀ before e after, Archive.beforeTrailer (lastOfNames (rewriteAdditions injection config)) =
        before ++ e :: after → ∀ parent, e.parent? = some parent →
          ∃ d ∈ kept ++ before, d.name = parent ∧ d.mode.isDirectory = true) ↔
      (injection.init.isSome →
        ∀ a ∈ Archive.beforeTrailer (lastOfNames (rewriteAdditions injection config)),
          a.parent? ≠ some (Bytes.ofString config.initName)) := by
  constructor
  · intro inOrder given a member hasParent
    obtain ⟨before, after, split⟩ := List.append_of_mem member
    obtain ⟨d, earlier, named, kind⟩ := inOrder before a after split _ hasParent
    rcases List.mem_append.mp earlier with stayed | added
    · obtain ⟨data, init⟩ := Option.isSome_iff_exists.mp given
      have last : (⟨config.initName, .executable, data⟩ : Addition) ∈
          Addition.ofInjection injection config :=
        List.mem_append_right _ (by simp [init])
      have replaced : d.isNamedIn (rewriteAdditions injection config) = true := by
        rw [rewriteAdditions_plain plain]
        exact List.any_eq_true.mpr
          ⟨_, List.mem_map_of_mem last, by simp [named, Addition.toEntry, Entry.new]⟩
      rw [untouched d stayed] at replaced
      cases replaced
    · have among : d ∈ Archive.beforeTrailer (lastOfNames (rewriteAdditions injection config)) := by
        rw [split]
        exact List.mem_append_left _ added
      have file := init_is_file plain given ((List.takeWhile_sublist _).mem among) named
      rw [kind] at file
      cases file
  · intro free before a after split parent hasParent
    obtain ⟨cut, rest⟩ : ∃ cut, lastOfNames (rewriteAdditions injection config) =
        before ++ a :: (after ++ cut) := by
      refine ⟨(lastOfNames (rewriteAdditions injection config)).dropWhile
        fun e => e.name != RecordHeader.trailerName, ?_⟩
      rw [← List.cons_append, ← List.append_assoc, ← split]
      exact List.takeWhile_append_dropWhile.symm
    have member : a ∈ Archive.beforeTrailer (lastOfNames (rewriteAdditions injection config)) := by
      rw [split]
      simp
    have added : a ∈ rewriteAdditions injection config :=
      (lastOfNames_sublist _).mem ((List.takeWhile_sublist _).mem member)
    rw [rewriteAdditions_plain plain] at added
    obtain ⟨addition, given, rfl⟩ := List.mem_map.mp added
    obtain ⟨front, d, back, whole, behind, named, kind, single⟩ :=
      parent_ahead flat apart given hasParent (by
        intro init same
        exact free init _ member (by rw [hasParent, same]))
    rw [rewriteAdditions_plain plain, whole] at rest
    have ahead := ahead_in_lastOfNames rest (by rw [named]; exact single) behind
    exact ⟨d, List.mem_append_right _ ahead, named, kind⟩

/-- Where the original has every member behind its directory and no injected file has the name of
    a needed directory, the written rewrite has them so exactly when no member that stays lies
    directly in something that is added, and no addition in something with the init's name. -/
theorem rewrite_parents_first (original : Bytes) (rewrite : config.strategy = .rewrite)
    (flat : '/' ∉ config.initName.toList) (plain : injection.nested = none)
    (apart : ∀ f ∈ injection.files, Path.join config.injectRoot f.1 ∉
      Addition.directories config.injectRoot (injection.files.map (·.1)))
    {decoded : Archive} (readable : Archive.decode original config.maxEntries = .ok decoded)
    (ordered : ParentsFirst decoded.entries)
    {patched : PatchedRamdisk} (patchOk : (patch original injection config).1 = .ok patched)
    {dest : Bytes} {length : Nat} (writeOk : (patched.write dest).1 = .ok length)
    {capacity : Nat} (limit : config.maxEntries ≤ capacity) :
    ∃ result, Archive.decode ((patched.write dest).2.take length) capacity = .ok result ∧
      (ParentsFirst result.entries ↔
        (∀ e ∈ decoded.entries, e.isNamedIn (rewriteAdditions injection config) = false →
          ∀ parent, e.parent? = some parent →
            ∀ a ∈ rewriteAdditions injection config, a.name ≠ parent) ∧
        (injection.init.isSome →
          ∀ a ∈ Archive.beforeTrailer (lastOfNames (rewriteAdditions injection config)),
            a.parent? ≠ some (Bytes.ofString config.initName))) := by
  refine ⟨_, decode_rewritten rewrite readable patchOk writeOk limit, ?_⟩
  have untouched : ∀ d ∈ decoded.entries.filter fun e =>
      !e.isNamedIn (rewriteAdditions injection config),
      d.isNamedIn (rewriteAdditions injection config) = false := by
    intro d member
    simpa using (List.mem_filter.mp member).2
  simp only
  rw [parentsFirst_map (f := Entry.reread) (fun _ => rfl) Entry.reread_mode, parentsFirst_append,
    parentsFirst_survivors ordered, additions_parents_first flat plain apart untouched]

end Additions

/-! The directory of the injected files moves behind a file that the original has in it. -/

def keptBelow : List Entry :=
  [.directory (Bytes.ofString "multiboot"), .file (Bytes.ofString "multiboot/keep") [1]]

def toolOnly : Injection := ⟨[("tool", [0x54])], none, none⟩

theorem directories_tool : Addition.directories "multiboot" ["tool"] = ["multiboot"] := by
  have needed : (Path.chain "multiboot" ++ ["tool"].flatMap fun name =>
      Path.ancestors (Path.join "multiboot" name)).eraseDups = ["multiboot"] := by decide
  rw [Addition.directories, needed, List.mergeSort_singleton]

theorem rewriteAdditions_tool : rewriteAdditions toolOnly .default =
    [.directory (Bytes.ofString "multiboot"),
      .executable (Bytes.ofString "multiboot/tool") [0x54]] := by
  have joined : Path.join "multiboot" "tool" = "multiboot/tool" := by decide
  have root : LoaderConfig.default.injectRoot = "multiboot" := rfl
  have made : Addition.ofInjection toolOnly .default =
      [⟨"multiboot", .directory, []⟩, ⟨"multiboot/tool", .executable, [0x54]⟩] := by
    simp only [Addition.ofInjection, Addition.ofFiles, toolOnly, root, List.isEmpty_cons,
      Bool.false_eq_true, ↓reduceIte, List.map_cons, List.map_nil, directories_tool, joined,
      List.cons_append, List.nil_append]
  rw [rewriteAdditions_plain rfl, made]
  rfl

theorem keptBelow_parents_first : ParentsFirst (keptBelow.map Entry.reread) := by
  have top : (Entry.directory (Bytes.ofString "multiboot")).reread.parent? = none := by decide
  have below : (Entry.file (Bytes.ofString "multiboot/keep") [1]).reread.parent? =
      some (Bytes.ofString "multiboot") := by decide
  intro before e after split parent hasParent
  simp only [keptBelow, List.map_cons, List.map_nil] at split
  cases before with
  | nil =>
    rw [List.nil_append, List.cons.injEq] at split
    rw [← split.1, top] at hasParent
    cases hasParent
  | cons first before =>
    rw [List.cons_append, List.cons.injEq] at split
    cases before with
    | nil =>
      rw [List.nil_append, List.cons.injEq] at split
      rw [← split.2.1, below, Option.some.injEq] at hasParent
      refine ⟨first, List.mem_cons_self, ?_⟩
      rw [← split.1, ← hasParent]
      decide
    | cons second before => simp at split

theorem moved_directory :
    LoaderConfig.default.strategy = .rewrite ∧ '/' ∉ LoaderConfig.default.initName.toList ∧
      toolOnly.nested = none ∧
      ∃ decoded patched result,
        Archive.decode (Archive.records keptBelow ++ Archive.trailerBytes ++ []) 4096 =
          .ok decoded ∧
        ParentsFirst decoded.entries ∧
        (patch (Archive.records keptBelow ++ Archive.trailerBytes ++ []) toolOnly .default).1 =
          .ok patched ∧
        (patched.write (Bytes.zeros 508)).1 = .ok 508 ∧
        Archive.decode ((patched.write (Bytes.zeros 508)).2.take 508) 4096 = .ok result ∧
        ¬ ParentsFirst result.entries := by
  have writable : ∀ e ∈ keptBelow, e.Writable := by
    intro e member
    simp only [keptBelow, List.mem_cons, List.not_mem_nil, or_false] at member
    rcases member with rfl | rfl
    · exact ⟨by decide, by decide, by decide⟩
    · exact ⟨by decide, by decide, by decide⟩
  have all : Archive.beforeTrailer keptBelow = keptBelow := by decide
  have readable := Archive.decode_records keptBelow writable [] LoaderConfig.default.maxEntries
    (by decide)
  rw [all] at readable
  obtain ⟨archive, patchOk, live⟩ := patch_rewrite_small toolOnly rfl readable
    (by rw [rewriteAdditions_tool]; decide) (by rw [rewriteAdditions_tool]; decide)
  have members : archive.live = [(Entry.file (Bytes.ofString "multiboot/keep") [1]).reread,
      .directory (Bytes.ofString "multiboot"),
      .executable (Bytes.ofString "multiboot/tool") [0x54]] := by
    rw [live, rewriteAdditions_tool]
    decide
  have encodeOk : (archive.encode (Bytes.zeros 508)).1 = .ok 508 := by
    rw [Archive.encode_eq_ok_iff, Bytes.zeros_length, Archive.encodedLength, members]
    refine ⟨?_, by decide, by decide⟩
    intro e member
    simp only [List.mem_cons, List.not_mem_nil, or_false] at member
    rcases member with rfl | rfl | rfl
    · exact ⟨by decide, by decide, by decide⟩
    · exact ⟨by decide, by decide, by decide⟩
    · exact ⟨by decide, by decide, by decide⟩
  have writeOk := PatchedRamdisk.write_rewrite_eq_ok_iff.mpr encodeOk
  have apart : ∀ f ∈ toolOnly.files, Path.join LoaderConfig.default.injectRoot f.1 ∉
      Addition.directories LoaderConfig.default.injectRoot (toolOnly.files.map (·.1)) := by
    intro f member
    simp only [toolOnly, List.mem_singleton] at member
    subst member
    have only : Addition.directories LoaderConfig.default.injectRoot
        (toolOnly.files.map (·.1)) = ["multiboot"] := directories_tool
    rw [only]
    decide
  obtain ⟨result, read, law⟩ := rewrite_parents_first _ rfl (by decide) rfl apart readable
    keptBelow_parents_first patchOk writeOk (Nat.le_refl LoaderConfig.default.maxEntries)
  refine ⟨rfl, by decide, rfl, _, _, result, readable, keptBelow_parents_first, patchOk, writeOk,
    read, ?_⟩
  intro inOrder
  rw [rewriteAdditions_tool] at law
  exact (law.mp inOrder).1 (Entry.file (Bytes.ofString "multiboot/keep") [1]).reread (by decide)
    (by decide) (Bytes.ofString "multiboot") (by decide)
    (.directory (Bytes.ofString "multiboot")) (by decide) rfl

end KernelBoot
