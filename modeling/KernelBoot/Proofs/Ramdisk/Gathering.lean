import KernelBoot.Boot.Ramdisk
import KernelBoot.Proofs.Boot.Run
import Mathlib.Data.List.Nodup

/-!
What is gathered from a storage. Where its answers do not depend on what it was asked before, the
order in which it lists its files does not show, and neither does a file that cannot be read: the
files are sorted by their names, which are listed once each.
-/
namespace KernelBoot

structure StorageContents where
  list : String → Except StorageError (List String)
  file : String → Except StorageError Bytes
  device : String → Except StorageError Bytes

/-- The answers of the storage stay what they are, whatever it is asked: each call leads from one of
    the states in `steady` to another. -/
structure Storage.Answers (storage : Storage σ) (steady : σ → Prop) (c : StorageContents) : Prop where
  list : ∀ dir {s}, steady s.world →
    ∃ t, (storage.list dir).run.Ends s (c.list dir) t ∧ steady t.world
  readFile : ∀ path {s}, steady s.world →
    ∃ t, (storage.readFile path).run.Ends s (c.file path) t ∧ steady t.world
  readDevice : ∀ device {s}, steady s.world →
    ∃ t, (storage.readDevice device).run.Ends s (c.device device) t ∧ steady t.world

/-- The same files are listed in another order, and with them others, none of which can be read. -/
structure StorageContents.Relisted (c c' : StorageContents) (dir : String) (names : List String) :
    Prop where
  listed : c.list dir = .ok names
  relisted : ∃ names' unread, c'.list dir = .ok names' ∧ names'.Perm (names ++ unread) ∧
    names'.Nodup ∧ ∀ name ∈ unread, ∃ e, c'.file (Path.join dir name) = .error e
  same_files : ∀ name ∈ names, c'.file (Path.join dir name) = c.file (Path.join dir name)
  same_devices : c'.device = c.device

namespace Injection

def readable (c : StorageContents) (dir name : String) : Option (String × Bytes) :=
  match c.file (Path.join dir name) with
  | .ok data => some (name, data)
  | .error _ => none

def filesIn (c : StorageContents) (dir : String) : List (String × Bytes) :=
  match c.list dir with
  | .ok names => names.filterMap (readable c dir)
  | .error _ => []

def nestedIn (c : StorageContents) : Option String → Option Bytes
  | none => none
  | some device => if isRamdiskDevice device then (c.device device).toOption else none

def ofContents (c : StorageContents) (searchPrefix : String) (rootDevice : Option String)
    (config : LoaderConfig) : Injection :=
  let files := filesIn c (Path.join searchPrefix config.multibootDir)
  ⟨sortByName files, contentsOf config.initSource files, nestedIn c rootDevice⟩

section Answering
open Effect
variable {storage : Storage σ} {steady : σ → Prop} {c : StorageContents} {s : Session σ}
  (answers : storage.Answers steady c)
include answers

theorem readFiles_ends (dir : String) (names : List String) (start : steady s.world) :
    ∃ t, (readFiles storage dir names).Ends s (names.filterMap (readable c dir)) t ∧
      steady t.world := by
  induction names generalizing s with
  | nil => exact ⟨s, rfl, start⟩
  | cons name rest ih =>
    obtain ⟨t, read, there⟩ := answers.readFile (Path.join dir name) start
    rw [List.filterMap_cons, readable]
    cases answer : c.file (Path.join dir name) with
    | ok data =>
      rw [answer] at read
      obtain ⟨u, later, last⟩ := ih there
      exact ⟨u, ends_bind.mpr ⟨_, t, read, ends_bind.mpr ⟨_, u, later, rfl⟩⟩, last⟩
    | error e =>
      rw [answer] at read
      obtain ⟨u, later, last⟩ := ih (s := ⟨t.world, t.logger.log _⟩) there
      exact ⟨u, ends_bind.mpr ⟨_, t, read, ends_bind.mpr ⟨(), _, rfl, later⟩⟩, last⟩

theorem listFiles_ends (dir : String) (start : steady s.world) :
    ∃ t, (listFiles storage dir).Ends s (filesIn c dir) t ∧ steady t.world := by
  obtain ⟨t, listed, there⟩ := answers.list dir start
  rw [filesIn]
  cases answer : c.list dir with
  | ok names =>
    rw [answer] at listed
    obtain ⟨u, read, last⟩ := readFiles_ends answers dir names there
    exact ⟨u, ends_bind.mpr ⟨_, t, listed, read⟩, last⟩
  | error e =>
    rw [answer] at listed
    exact ⟨_, ends_bind.mpr ⟨_, t, listed, ends_bind.mpr ⟨(), _, rfl, rfl⟩⟩, there⟩

theorem readNested_ends (device : Option String) (start : steady s.world) :
    ∃ t, (readNested storage device).Ends s (nestedIn c device) t ∧ steady t.world := by
  cases device with
  | none => exact ⟨s, rfl, start⟩
  | some device =>
    rw [readNested, nestedIn]
    by_cases ramdisk : isRamdiskDevice device = true
    · rw [if_pos ramdisk, if_pos ramdisk]
      obtain ⟨t, read, there⟩ := answers.readDevice device start
      cases answer : c.device device with
      | ok data =>
        rw [answer] at read
        exact ⟨t, ends_bind.mpr ⟨_, t, read, rfl⟩, there⟩
      | error e =>
        rw [answer] at read
        exact ⟨_, ends_bind.mpr ⟨_, t, read, ends_bind.mpr ⟨(), _, rfl, rfl⟩⟩, there⟩
    · rw [if_neg ramdisk, if_neg ramdisk]
      exact ⟨s, rfl, start⟩

theorem gather_ends (searchPrefix : String) (device : Option String) (config : LoaderConfig)
    (start : steady s.world) :
    ∃ t, (gather storage searchPrefix device config).Ends s
      (ofContents c searchPrefix device config) t ∧ steady t.world := by
  obtain ⟨t, listed, there⟩ :=
    listFiles_ends answers (Path.join searchPrefix config.multibootDir) start
  obtain ⟨u, nested, last⟩ := readNested_ends answers device there
  exact ⟨_, ends_bind.mpr ⟨_, t, listed, ends_bind.mpr ⟨_, u, nested,
    ends_bind.mpr ⟨(), _, rfl, rfl⟩⟩⟩, last⟩

end Answering

/-! What is made of the files that were read. -/

theorem mem_sortByName {files : List (String × Bytes)} {f : String × Bytes} :
    f ∈ sortByName files ↔ f ∈ files := List.mem_mergeSort

theorem sortByName_ascending {files : List (String × Bytes)} (distinct : (files.map (·.1)).Nodup) :
    (sortByName files).Pairwise fun a b => a.1 < b.1 := by
  have sorted := @List.pairwise_mergeSort _ (fun a b : String × Bytes => decide (a.1 ≤ b.1))
    (by
      intro a b c first second
      simp only [decide_eq_true_eq] at first second ⊢
      exact String.le_trans first second)
    (by
      intro a b
      simp only [Bool.or_eq_true, decide_eq_true_eq]
      exact String.le_total _ _)
    files
  have apart : (sortByName files).Pairwise fun a b => a.1 ≠ b.1 :=
    List.pairwise_map.mp (((List.mergeSort_perm _ _).map _).nodup_iff.mpr distinct)
  refine (sorted.and apart).imp ?_
  rintro a b ⟨least, differ⟩
  exact Std.lt_of_le_of_ne (of_decide_eq_true least) differ

theorem ascending_unique {files others : List (String × Bytes)}
    (order : files.Pairwise fun a b => a.1 < b.1) (order' : others.Pairwise fun a b => a.1 < b.1)
    (same : ∀ f, f ∈ files ↔ f ∈ others) : files = others := by
  have once : ∀ {fs : List (String × Bytes)}, fs.Pairwise (fun a b => a.1 < b.1) → fs.Nodup := by
    intro fs order
    refine order.imp fun {a b} less same => ?_
    rw [same] at less
    exact String.lt_irrefl _ less
  refine List.Perm.eq_of_pairwise ?_ order order'
    ((List.perm_ext_iff_of_nodup (once order) (once order')).mpr same)
  intro a b _ _ less more
  exact absurd more (String.lt_asymm less)

theorem contentsOf_eq_some {files : List (String × Bytes)} (distinct : (files.map (·.1)).Nodup)
    {name : String} {data : Bytes} : contentsOf name files = some data ↔ (name, data) ∈ files := by
  have named : ∀ {f}, f ∈ files.filter (fun f => f.1 == name) ↔ f ∈ files ∧ f.1 = name := by
    intro f
    rw [List.mem_filter, beq_iff_eq]
  constructor
  · intro found
    obtain ⟨⟨name', data'⟩, last, rfl⟩ := Option.map_eq_some_iff.mp found
    obtain ⟨member, rfl⟩ := named.mp (List.mem_of_getLast? last)
    exact member
  · intro member
    have among := named.mpr ⟨member, rfl⟩
    cases last : (files.filter fun f => f.1 == name).getLast? with
    | none =>
      rw [List.getLast?_eq_none_iff.mp last] at among
      cases among
    | some f =>
      obtain ⟨other, same⟩ := named.mp (List.mem_of_getLast? last)
      have equal : f = (name, data) := List.inj_on_of_nodup_map distinct other member same
      rw [contentsOf, last, equal]
      rfl

/-- What the gathered files are, with an init and a nested ramdisk from them and from a device. -/
structure Gathers (c : StorageContents) (dir : String) (device : Option String)
    (config : LoaderConfig) (i : Injection) : Prop where
  sorted : i.files.Pairwise fun a b => a.1 < b.1
  files : ∀ name data, (name, data) ∈ i.files ↔
    (∃ names, c.list dir = .ok names ∧ name ∈ names) ∧ c.file (Path.join dir name) = .ok data
  init : ∀ data, i.init = some data ↔ (config.initSource, data) ∈ i.files
  nested : ∀ data, i.nested = some data ↔ ∃ name, device = some name ∧
    ['c', 'd'] <+: name.toList ∧ ',' ∉ name.toList ∧ c.device name = .ok data
  unlisted : ∀ e, c.list dir = .error e → i.files = [] ∧ i.init = none

section Listing
variable {c c' : StorageContents} {dir name : String} {names : List String}

theorem readable_eq_some {f : String × Bytes} :
    readable c dir name = some f ↔ f.1 = name ∧ c.file (Path.join dir name) = .ok f.2 := by
  rw [readable]
  cases c.file (Path.join dir name) with
  | ok data =>
    rw [Option.some.injEq, Prod.ext_iff, Except.ok.injEq, eq_comm (a := name)]
  | error e => simp

theorem mem_filesIn {f : String × Bytes} : f ∈ filesIn c dir ↔
    (∃ names, c.list dir = .ok names ∧ f.1 ∈ names) ∧ c.file (Path.join dir f.1) = .ok f.2 := by
  rw [filesIn]
  cases c.list dir with
  | error e => simp
  | ok names =>
    simp only [List.mem_filterMap, readable_eq_some, Except.ok.injEq, exists_eq_left']
    constructor
    · rintro ⟨name, listed, rfl, read⟩
      exact ⟨listed, read⟩
    · rintro ⟨listed, read⟩
      exact ⟨f.1, listed, rfl, read⟩

theorem filesIn_distinct (distinct : ∀ names, c.list dir = .ok names → names.Nodup) :
    ((filesIn c dir).map (·.1)).Nodup := by
  rw [filesIn]
  cases listing : c.list dir with
  | error e => exact List.nodup_nil
  | ok names =>
    refine List.pairwise_map.mpr (List.Pairwise.filterMap _ ?_ (distinct names listing))
    intro a b differ f read g read' same
    rw [← (readable_eq_some.mp read).1, ← (readable_eq_some.mp read').1] at differ
    exact differ same

theorem isRamdiskDevice_iff : isRamdiskDevice name = true ↔
    ['c', 'd'] <+: name.toList ∧ ',' ∉ name.toList := by
  rw [isRamdiskDevice, Bool.and_eq_true, beq_iff_eq, Bool.not_eq_true', ← Bool.not_eq_true,
    List.contains_iff_mem, List.prefix_iff_eq_take, eq_comm]
  rfl

theorem nestedIn_eq_some {device : Option String} {data : Bytes} : nestedIn c device = some data ↔
    ∃ name, device = some name ∧ ['c', 'd'] <+: name.toList ∧ ',' ∉ name.toList ∧
      c.device name = .ok data := by
  cases device with
  | none => simp [nestedIn]
  | some name =>
    simp only [Option.some.injEq, exists_eq_left', nestedIn]
    rw [← and_assoc, ← isRamdiskDevice_iff]
    by_cases ramdisk : isRamdiskDevice name = true
    · rw [if_pos ramdisk, and_iff_right ramdisk]
      cases c.device name <;> simp [Except.toOption]
    · rw [if_neg ramdisk]
      simp [ramdisk]

theorem ofContents_gathers {searchPrefix : String} {device : Option String} {config : LoaderConfig}
    (distinct : ∀ names, c.list (Path.join searchPrefix config.multibootDir) = .ok names →
      names.Nodup) :
    Gathers c (Path.join searchPrefix config.multibootDir) device config
      (ofContents c searchPrefix device config) where
  sorted := sortByName_ascending (filesIn_distinct distinct)
  files name data := mem_sortByName.trans mem_filesIn
  init data := (contentsOf_eq_some (filesIn_distinct distinct)).trans mem_sortByName.symm
  nested data := nestedIn_eq_some
  unlisted e failed := by
    simp only [ofContents, filesIn, failed]
    exact ⟨List.mergeSort_nil, rfl⟩

theorem Gathers.unique {device : Option String} {config : LoaderConfig} {i i' : Injection}
    (gathers : Gathers c dir device config i) (gathers' : Gathers c' dir device config i')
    (same : ∀ f, f ∈ i.files ↔ f ∈ i'.files) (devices : c'.device = c.device) : i = i' := by
  have files : i.files = i'.files := ascending_unique gathers.sorted gathers'.sorted same
  have init : i.init = i'.init := by
    apply Option.ext
    intro data
    rw [gathers.init, gathers'.init, files]
  have nested : i.nested = i'.nested := by
    apply Option.ext
    intro data
    rw [gathers.nested, gathers'.nested, devices]
  cases i
  cases i'
  simp only at files init nested
  rw [files, init, nested]

/-- A file that cannot be read is as good as none, and so is the order of the others. -/
theorem mem_relisted (relisted : c.Relisted c' dir names) {f : String × Bytes} :
    f ∈ filesIn c dir ↔ f ∈ filesIn c' dir := by
  obtain ⟨names', unread, listed', perm, _, broken⟩ := relisted.relisted
  simp only [mem_filesIn, relisted.listed, listed', Except.ok.injEq, exists_eq_left', perm.mem_iff,
    List.mem_append]
  constructor
  · rintro ⟨listed, read⟩
    rw [relisted.same_files _ listed]
    exact ⟨.inl listed, read⟩
  · rintro ⟨listed | extra, read⟩
    · rw [relisted.same_files _ listed] at read
      exact ⟨listed, read⟩
    · obtain ⟨e, failed⟩ := broken _ extra
      rw [failed] at read
      cases read

theorem ofContents_relisted {searchPrefix : String} {device : Option String}
    {config : LoaderConfig}
    (relisted : c.Relisted c' (Path.join searchPrefix config.multibootDir) names) :
    ofContents c' searchPrefix device config = ofContents c searchPrefix device config := by
  obtain ⟨names', unread, listed', perm, distinct', _⟩ := relisted.relisted
  have distinct : names.Nodup := (List.nodup_append.mp (perm.nodup_iff.mp distinct')).1
  have first : Gathers c _ device config _ := ofContents_gathers fun given listed => by
    cases relisted.listed.symm.trans listed
    exact distinct
  have second : Gathers c' _ device config _ := ofContents_gathers fun given listed => by
    cases listed'.symm.trans listed
    exact distinct'
  refine (first.unique second ?_ relisted.same_devices).symm
  intro f
  exact mem_sortByName.trans ((mem_relisted relisted).trans mem_sortByName.symm)

end Listing

end Injection
end KernelBoot
