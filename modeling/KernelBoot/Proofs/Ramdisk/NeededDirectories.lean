import KernelBoot.Proofs.Archive.Settling
import KernelBoot.Proofs.Ramdisk.ParentOrder
import KernelBoot.Proofs.Ramdisk.Predicted
import Mathlib.Data.List.DropRight

/-!
Which directories are made for injected files. Each part of the root that is not empty gives one,
and so does each slash of a file's path. The two agree where the root has no empty parts. A slash in
front of the root gives a directory without a name, which no archive can hold.
-/
namespace KernelBoot

namespace Path
open Text

/-- The root as it stands in the paths of files, without the slashes at its end. -/
def trimmed (root : List Char) : List Char := root.rdropWhile isSlash

theorem trimmed_closed (root : List Char) : Closed (trimmed root) := by
  simp only [Closed, trimmed, List.rdropWhile, List.reverse_reverse, List.dropWhile_idempotent]

theorem Closed.not_slash {path front : List Char} (closed : Closed path) :
    path ≠ front ++ ['/'] := by
  rintro rfl
  rw [Closed, List.reverse_append, List.reverse_singleton, List.singleton_append,
    List.dropWhile_cons_of_pos rfl] at closed
  have shorter := (List.dropWhile_sublist (l := front.reverse) isSlash).length_le
  rw [closed, List.length_cons] at shorter
  omega

theorem Closed.last_part {path part : List Char} {given : List (List Char)} (closed : Closed path)
    (split : parts path = given ++ [part]) (nonempty : given ≠ []) : part ≠ [] := by
  rintro rfl
  have plain : ∀ p ∈ given, ∀ c ∈ p, isSlash c = false := by
    intro p member
    have among : p ∈ parts path := by
      rw [split]
      exact List.mem_append_left _ member
    exact parts_plain among
  have slash : path = ofParts given ++ ['/'] := by
    apply parts_injective
    rw [parts_append, parts_ofParts plain nonempty, split]
    rfl
  exact closed.not_slash slash

theorem components_append (front behind : List Char) :
    components isSlash (front ++ '/' :: behind) =
      components isSlash front ++ components isSlash behind :=
  components_cut rfl front behind

theorem components_trimmed (root : List Char) :
    components isSlash (trimmed root) = components isSlash root := by
  induction root using List.reverseRecOn with
  | nil => rfl
  | append_singleton front c ih =>
    rw [trimmed, List.rdropWhile_concat]
    by_cases slash : isSlash c = true
    · rw [if_pos slash, ← trimmed, ih, isSlash_eq slash, components_append]
      exact (List.append_nil _).symm
    · rw [if_neg slash]

theorem trimmed_started {root : List Char} (started : components isSlash root ≠ []) :
    trimmed root ≠ [] := by
  intro none
  rw [← components_trimmed, none] at started
  exact started rfl

theorem Whole.components_eq {path : List Char} (whole : Whole path) :
    components isSlash path = parts path := by
  refine List.filter_eq_self.mpr ?_
  intro part member
  simp [whole part member]

theorem empty_behind {path : List Char} {rest : List (List Char)}
    (split : parts path = components isSlash path ++ rest) : ∀ part ∈ rest, part = [] := by
  have kept : ((components isSlash path).filter fun part => !part.isEmpty) =
      components isSlash path := by
    refine List.filter_eq_self.mpr ?_
    intro part member
    simp [(component_plain member).1]
  have filtered : components isSlash path = (parts path).filter fun part => !part.isEmpty := rfl
  rw [split, List.filter_append, kept, List.self_eq_append_right,
    List.filter_eq_nil_iff] at filtered
  intro part member
  simpa using filtered part member

theorem joinChars_whole {root name : List Char} (started : components isSlash root ≠ [])
    (whole : Whole name) : joinChars root name = trimmed root ++ '/' :: name := by
  have first : name ≠ [] := by
    rintro rfl
    exact whole [] List.mem_cons_self rfl
  have kept : name.dropWhile isSlash = name := by
    cases name with
    | nil => rfl
    | cons c rest =>
      apply List.dropWhile_cons_of_neg
      intro slash
      have empty : ([] : List Char) ∈ parts (c :: rest) := by
        rw [isSlash_eq slash]
        exact List.mem_cons_self
      exact whole [] empty rfl
  have base : (root.reverse.dropWhile isSlash).reverse = trimmed root := rfl
  simp only [joinChars, base, kept, List.isEmpty_iff, trimmed_started started, first, ↓reduceIte]

theorem above_of_whole {root path : List Char} (whole : Whole (trimmed root))
    (front : parts path <+: components isSlash root) (name : List Char) :
    Above path (trimmed root ++ '/' :: name) := by
  rw [← components_trimmed, whole.components_eq] at front
  obtain ⟨behind, split⟩ := front
  refine above_iff.mpr ⟨behind ++ parts name, ?_, ?_⟩
  · simp [parts_ne_nil]
  · rw [parts_append, ← split, List.append_assoc]

/-- The last directory on the way to a root lies above a file only where no part was left out. -/
theorem whole_of_above {root path name : List Char} (started : components isSlash root ≠ [])
    (last : parts path = components isSlash root)
    (above : Above path (trimmed root ++ '/' :: name)) :
    Whole (trimmed root) := by
  have filtered : components isSlash root =
      (parts (trimmed root)).filter fun part => !part.isEmpty := (components_trimmed root).symm
  have whole_of_same : components isSlash root = parts (trimmed root) → Whole (trimmed root) := by
    intro same part member
    rw [← same] at member
    exact (component_plain member).1
  obtain ⟨rest, _, split⟩ := above_iff.mp above
  rw [parts_append, last] at split
  -- Two fronts of the file's parts: the parts that are kept, of which there are no more than
  -- there are parts, and all parts of the root, of which the last is not empty.
  rcases List.append_eq_append_iff.mp split with ⟨more, longer, _⟩ | ⟨empties, shorter, _⟩
  · apply whole_of_same
    have bound := List.length_filter_le (fun part => !part.isEmpty) (parts (trimmed root))
    rw [← filtered, longer, List.length_append] at bound
    rw [longer, List.length_eq_zero_iff.mp (by omega : more.length = 0), List.append_nil]
  · rcases List.eq_nil_or_concat empties with rfl | ⟨front, final, rfl⟩
    · apply whole_of_same
      rw [shorter, List.append_nil]
    · have none : final = [] := by
        rw [← components_trimmed] at shorter
        exact empty_behind shorter final (by simp)
      have given : parts (trimmed root) = (components isSlash root ++ front) ++ [final] := by
        rw [shorter, List.concat_eq_append, List.append_assoc]
      exact absurd none ((trimmed_closed root).last_part given (by simp [started]))

end Path

namespace Addition
open KernelBoot.Path

def directoryNames (injection : Injection) (config : LoaderConfig) : List String :=
  ((ofInjection injection config).filter fun a => a.mode.isDirectory).map (·.name)

theorem ofInjection_eq {injection : Injection} (nonempty : injection.files ≠ [])
    (config : LoaderConfig) :
    ofInjection injection config =
      (directories config.injectRoot (injection.files.map (·.1))).map ofDirectory ++
        (ofContents config.injectRoot injection.files ++ ofInit injection config) := by
  rw [ofInjection, ofFiles_eq nonempty, List.append_assoc]
  rfl

theorem directoryNames_eq {injection : Injection} (nonempty : injection.files ≠ [])
    (config : LoaderConfig) :
    directoryNames injection config =
      directories config.injectRoot (injection.files.map (·.1)) := by
  have directory : Mode.directory.isDirectory = true := by decide
  have executable : Mode.executable.isDirectory = false := by decide
  have made : ∀ names : List String, ((names.map ofDirectory).filter fun a => a.mode.isDirectory) =
      names.map ofDirectory := by
    intro names
    rw [List.filter_eq_self, List.forall_mem_map]
    exact fun _ _ => directory
  have others : ((ofContents config.injectRoot injection.files ++ ofInit injection config).filter
      fun a => a.mode.isDirectory) = [] := by
    rw [List.filter_eq_nil_iff, List.forall_mem_append]
    constructor
    · rw [ofContents, List.forall_mem_map]
      simp [executable]
    · intro a member
      cases given : injection.init with
      | none => simp [ofInit, given] at member
      | some data =>
        simp only [ofInit, given, List.mem_singleton] at member
        simp [member, executable]
  rw [directoryNames, ofInjection_eq nonempty, List.filter_append, made, others, List.append_nil,
    List.map_map]
  exact List.map_id _

variable {root : String} {names : List String}

/-- What the directories `dirs` are for files of these names below the root. -/
structure Needed (root : String) (names dirs : List String) : Prop where
  distinct : dirs.Nodup
  /-- A directory comes behind all that it lies in. -/
  ordered : ∀ before path after, dirs = before ++ path :: after →
    ∀ parent : String, Above parent.toList path.toList → parent ∈ before
  covers : ∀ name ∈ names, ∀ parent : String, Above parent.toList (join root name).toList →
    parent ∈ dirs
  above_iff : (∀ path ∈ dirs, ∃ name ∈ names, Above path.toList (join root name).toList) ↔
    Whole (trimmed root.toList)
  unnamed_iff : "" ∈ dirs ↔ root.toList.head? = some '/'

theorem join_whole {name : String} (started : Text.components isSlash root.toList ≠ [])
    (whole : Whole name.toList) :
    (join root name).toList = trimmed root.toList ++ '/' :: name.toList := by
  rw [join, String.toList_ofList, joinChars_whole started whole]

theorem directories_above_iff (nonempty : names ≠ [])
    (started : Text.components isSlash root.toList ≠ [])
    (whole : ∀ name ∈ names, Whole name.toList) :
    (∀ path ∈ directories root names,
        ∃ name ∈ names, Above path.toList (join root name).toList) ↔
      Whole (trimmed root.toList) := by
  constructor
  · intro above
    have plain : ∀ part ∈ Text.components isSlash root.toList, ∀ c ∈ part, isSlash c = false :=
      fun _ member => (Text.component_plain member).2
    let last := String.ofList (ofParts (Text.components isSlash root.toList))
    have all : parts last.toList = Text.components isSlash root.toList := by
      rw [String.toList_ofList, parts_ofParts plain started]
    have front : parts last.toList <+: Text.components isSlash root.toList :=
      ⟨[], by rw [all, List.append_nil]⟩
    obtain ⟨name, given, below⟩ := above last (mem_directories.mpr (.inl front))
    rw [join_whole started (whole name given)] at below
    exact whole_of_above started all below
  · intro rootWhole path member
    rcases mem_directories.mp member with inRoot | above
    · obtain ⟨name, given⟩ := List.exists_mem_of_ne_nil names nonempty
      refine ⟨name, given, ?_⟩
      rw [join_whole started (whole name given)]
      exact above_of_whole rootWhole inRoot name.toList
    · exact above

theorem directories_unnamed_iff (nonempty : names ≠ [])
    (started : Text.components isSlash root.toList ≠ [])
    (whole : ∀ name ∈ names, Whole name.toList) :
    "" ∈ directories root names ↔ root.toList.head? = some '/' := by
  have notFirst : ¬ parts "".toList <+: Text.components isSlash root.toList := by
    intro front
    have member : ([] : List Char) ∈ Text.components isSlash root.toList :=
      front.subset (List.mem_singleton_self [])
    exact (Text.component_plain member).1 rfl
  have above_iff : ∀ name ∈ names, Above "".toList (join root name).toList ↔
      root.toList.head? = some '/' := by
    intro name given
    rw [join_whole started (whole name given)]
    obtain ⟨slashes, split⟩ := List.rdropWhile_prefix isSlash root.toList
    rw [← trimmed] at split
    cases front : trimmed root.toList with
    | nil => exact absurd front (trimmed_started started)
    | cons c rest =>
      rw [front] at split
      rw [← split]
      constructor
      · rintro ⟨behind, same⟩
        simp only [String.toList_empty, List.nil_append, List.cons_append, List.cons.injEq] at same
        rw [same.1]
        rfl
      · intro slash
        simp only [List.cons_append, List.head?_cons, Option.some.injEq] at slash
        exact ⟨rest ++ '/' :: name.toList, by rw [slash]; rfl⟩
  rw [mem_directories, or_iff_right notFirst]
  constructor
  · rintro ⟨name, given, above⟩
    exact (above_iff name given).mp above
  · intro slash
    obtain ⟨name, given⟩ := List.exists_mem_of_ne_nil names nonempty
    exact ⟨name, given, (above_iff name given).mpr slash⟩

theorem directories_needed (nonempty : names ≠ [])
    (started : Text.components isSlash root.toList ≠ [])
    (whole : ∀ name ∈ names, Whole name.toList) : Needed root names (directories root names) where
  distinct := directories_nodup root names
  ordered _ _ _ split _ above := directories_ordered split above
  covers name given _ above := mem_directories.mpr (.inr ⟨name, given, above⟩)
  above_iff := directories_above_iff nonempty started whole
  unnamed_iff := directories_unnamed_iff nonempty started whole

end Addition

theorem lastOfNames_name {entries : List Entry} {e : Entry} (member : e ∈ entries) :
    ∃ last ∈ lastOfNames entries, last.name = e.name := by
  induction entries generalizing e with
  | nil => cases member
  | cons first rest ih =>
    rw [lastOfNames]
    by_cases again : first.isNamedIn rest = true
    · rw [if_pos again]
      rcases List.mem_cons.mp member with rfl | later
      · obtain ⟨x, later, same⟩ := List.any_eq_true.mp again
        rw [← beq_iff_eq.mp same]
        exact ih later
      · exact ih later
    · rw [if_neg again]
      rcases List.mem_cons.mp member with rfl | later
      · exact ⟨e, List.mem_cons_self, rfl⟩
      · obtain ⟨last, among, same⟩ := ih later
        exact ⟨last, List.mem_cons_of_mem _ among, same⟩

section Records
variable {original : Bytes} {injection : Injection} {config : LoaderConfig} {p : PatchedRamdisk}

theorem added_member (ok : (patch original injection config).1 = .ok p) {a : Addition}
    (added : a ∈ Addition.ofInjection injection config) :
    ∃ e ∈ p.members, e.name = Bytes.ofString a.name := by
  cases strategy : config.strategy with
  | rewrite =>
    obtain ⟨_, archive, _, _, rfl, live⟩ := patch_rewrite_ok strategy ok
    have among : a.toEntry ∈ rewriteAdditions injection config :=
      List.mem_append_left _ (List.mem_map_of_mem added)
    obtain ⟨e, last, same⟩ := lastOfNames_name among
    refine ⟨e, ?_, same⟩
    rw [PatchedRamdisk.members, live]
    exact List.mem_append_right _ last
  | append =>
    obtain ⟨_, _, rfl⟩ := patch_append_ok strategy ok
    exact ⟨a.toEntry, List.mem_map_of_mem (List.mem_append_left _ added), rfl⟩

theorem unnamed_member (ok : (patch original injection config).1 = .ok p) {e : Entry}
    (member : e ∈ p.members) (none : e.name = []) :
    (∃ a ∈ Addition.ofInjection injection config, a.name = "") ∨
      injection.nested.isSome = true ∧ config.nestedName = "" := by
  have empty : ∀ name : String, Bytes.ofString name = [] → name = "" :=
    fun _ none => Bytes.ofString_injective none
  cases strategy : config.strategy with
  | rewrite =>
    obtain ⟨decoded, archive, readable, _, rfl, live⟩ := patch_rewrite_ok strategy ok
    rw [PatchedRamdisk.members, live] at member
    rcases List.mem_append.mp member with kept | last
    · obtain ⟨_, _, _, found⟩ := Archive.decode_ok readable
      have named := (found e (List.mem_filter.mp kept).1).writable.named
      exact absurd none named
    · have added := (lastOfNames_sublist _).mem last
      rcases List.mem_append.mp added with made | nested
      · obtain ⟨a, given, rfl⟩ := List.mem_map.mp made
        exact .inl ⟨a, given, empty a.name none⟩
      · split at nested
        · rename_i inner read
          obtain ⟨bytes, given, _⟩ := Option.map_eq_some_iff.mp read
          rcases List.mem_cons.mp nested with rfl | below
          · exact .inr ⟨by rw [given]; rfl, empty config.nestedName none⟩
          · obtain ⟨x, _, rfl⟩ := List.mem_map.mp below
            simp [Entry.rename] at none
        · cases nested
  | append =>
    obtain ⟨_, _, rfl⟩ := patch_append_ok strategy ok
    obtain ⟨a, added, rfl⟩ := List.mem_map.mp member
    rcases List.mem_append.mp added with made | nested
    · exact .inl ⟨a, made, empty a.name none⟩
    · cases given : injection.nested with
      | none => simp [nestedAddition, given] at nested
      | some data =>
        simp only [nestedAddition, given, List.mem_singleton] at nested
        rw [nested] at none
        exact .inr ⟨rfl, empty config.nestedName none⟩

/-- Among the additions only a directory or the init can be without a name. -/
theorem unnamed_addition (files : injection.files ≠ [])
    (started : Text.components Path.isSlash config.injectRoot.toList ≠ [])
    (whole : ∀ f ∈ injection.files, Path.Whole f.1.toList) {a : Addition}
    (added : a ∈ Addition.ofInjection injection config) (none : a.name = "") :
    "" ∈ Addition.directories config.injectRoot (injection.files.map (·.1)) ∨
      injection.init.isSome = true ∧ config.initName = "" := by
  rw [Addition.ofInjection_eq files] at added
  rcases List.mem_append.mp added with directory | other
  · obtain ⟨path, member, rfl⟩ := List.mem_map.mp directory
    have same : path = "" := none
    exact .inl (same ▸ member)
  · rcases List.mem_append.mp other with file | init
    · obtain ⟨f, given, rfl⟩ := List.mem_map.mp file
      have chars := Addition.join_whole started (whole f given)
      have same : Path.join config.injectRoot f.1 = "" := none
      rw [same] at chars
      have positive := congrArg List.length chars
      simp at positive
    · obtain ⟨same, present⟩ := Addition.mem_ofInit init
      exact .inr ⟨present, same ▸ none⟩

/-- The directories of the injected files: each once, behind all that it lies in, and in front of
    the files. They are just what lies above the files where the root, its last slashes aside, has
    neither a slash in front nor two in a row. With a slash in front one of them has no name, and
    a write with room for all is refused for that; without it a write is refused for a missing name
    only if the init or the nested ramdisk is to have none. -/
theorem directory_records (files : injection.files ≠ [])
    (started : Text.components Path.isSlash config.injectRoot.toList ≠ [])
    (whole : ∀ f ∈ injection.files, Path.Whole f.1.toList) :
    Addition.ofInjection injection config =
        (Addition.directoryNames injection config).map Addition.ofDirectory ++
          (Addition.ofContents config.injectRoot injection.files ++
            Addition.ofInit injection config) ∧
      Addition.Needed config.injectRoot (injection.files.map (·.1))
        (Addition.directoryNames injection config) ∧
      ∀ original p, (patch original injection config).1 = .ok p → ∀ dest : Bytes,
        ((p.write dest).1 = .error (.archive .emptyName) →
          config.injectRoot.toList.head? = some '/' ∨
            injection.init.isSome = true ∧ config.initName = "" ∨
            injection.nested.isSome = true ∧ config.nestedName = "") ∧
        (config.injectRoot.toList.head? = some '/' →
          (∀ e ∈ p.members, e.nameSize < wordLimit ∧ e.data.length < wordLimit) →
          p.length ≤ dest.length → (p.write dest).1 = .error (.archive .emptyName)) := by
  have names : injection.files.map (·.1) ≠ [] := by simp [files]
  have needed := Addition.directories_needed names started (List.forall_mem_map.mpr whole)
  rw [Addition.directoryNames_eq files]
  refine ⟨Addition.ofInjection_eq files config, needed, ?_⟩
  intro original p ok dest
  constructor
  · intro failed
    obtain ⟨e, member, none⟩ := PatchedRamdisk.write_unnamed (patch_planned ok) failed
    rcases unnamed_member ok member none with ⟨a, added, empty⟩ | nested
    · rcases unnamed_addition files started whole added empty with directory | init
      · exact .inl (needed.unnamed_iff.mp directory)
      · exact .inr (.inl init)
    · exact .inr (.inr nested)
  · intro slash sized enough
    have made : Addition.ofDirectory "" ∈ Addition.ofInjection injection config := by
      rw [Addition.ofInjection_eq files]
      exact List.mem_append_left _ (List.mem_map_of_mem (needed.unnamed_iff.mpr slash))
    obtain ⟨e, member, none⟩ := added_member ok made
    exact PatchedRamdisk.write_refuses (patch_planned ok) enough sized member none

end Records

def belowSlash : LoaderConfig :=
  { LoaderConfig.default with injectRoot := "/multiboot", strategy := .append }

theorem directories_slash :
    Addition.directories "/multiboot" ["tool"] = ["", "/multiboot", "multiboot"] := by
  have needed : (Path.chain "/multiboot" ++ ["tool"].flatMap fun name =>
      Path.ancestors (Path.join "/multiboot" name)).eraseDups =
        ["multiboot", "", "/multiboot"] := by decide
  rw [Addition.directories, needed]
  simp [List.mergeSort, List.MergeSort.Internal.splitInTwo]

theorem directory_records_slash :
    toolOnly.files ≠ [] ∧
      Text.components Path.isSlash belowSlash.injectRoot.toList ≠ [] ∧
      (∀ f ∈ toolOnly.files, Path.Whole f.1.toList) ∧
      Addition.directoryNames toolOnly belowSlash = ["", "/multiboot", "multiboot"] ∧
      (¬ ∀ path ∈ Addition.directoryNames toolOnly belowSlash, ∃ name ∈ toolOnly.files.map (·.1),
        Path.Above path.toList (Path.join belowSlash.injectRoot name).toList) ∧
      ∃ p, (patch padded toolOnly belowSlash).1 = .ok p ∧ p.length = 728 ∧
        (p.write (Bytes.zeros 728)).1 = .error (.archive .emptyName) := by
  have started : Text.components Path.isSlash belowSlash.injectRoot.toList ≠ [] := by decide
  have whole : ∀ f ∈ toolOnly.files, Path.Whole f.1.toList := by
    intro f member
    cases List.mem_singleton.mp member
    decide
  have names : Addition.directoryNames toolOnly belowSlash = ["", "/multiboot", "multiboot"] := by
    rw [Addition.directoryNames_eq (by decide)]
    exact directories_slash
  obtain ⟨made, needed, write⟩ := directory_records (by decide) started whole
  have additions : Addition.ofInjection toolOnly belowSlash =
      [⟨"", .directory, []⟩, ⟨"/multiboot", .directory, []⟩, ⟨"multiboot", .directory, []⟩,
        ⟨"/multiboot/tool", .executable, [0x54]⟩] := by
    rw [made, names]
    decide
  let p : PatchedRamdisk := .append padded 116
    [⟨"", .directory, []⟩, ⟨"/multiboot", .directory, []⟩, ⟨"multiboot", .directory, []⟩,
      ⟨"/multiboot/tool", .executable, [0x54]⟩]
  have ok : (patch padded toolOnly belowSlash).1 = .ok p := by
    simp only [patch, appendRamdisk, padded_offset, additions]
    rfl
  have length : p.length = 728 := by decide
  have sized : ∀ e ∈ p.members, e.nameSize < wordLimit ∧ e.data.length < wordLimit := by decide
  refine ⟨by decide, started, whole, names, ?_, p, ok, length, ?_⟩
  · rw [needed.above_iff]
    decide
  · exact (write padded p ok (Bytes.zeros 728)).2 rfl sized (by rw [length, Bytes.zeros_length])

end KernelBoot
