import KernelBoot.Proofs.Archive.RoundTrip
import KernelBoot.Proofs.ImageTool.Trees

/-!
Trees of files as archives. A tree is packed if all of it can be read and every path and file fits
into an archive, and reading the archive lists the tree again. One name at the top is beyond that:
to a reader it is the end of the archive.
-/
namespace KernelBoot
open Archive

namespace FileNode
variable {children rest inner : List (Bytes × FileNode)} {name shown : Bytes} {node : FileNode}
  {path : List Bytes} {es : List Entry}

def entryOf (item : Item) : Entry := .new (joined item.1) item.2.1 item.2.2

def Readable (children : List (Bytes × FileNode)) : Prop :=
  ∀ path reason, ¬ Lies children path (.unreadable reason)

/-- Neither the node nor anything below it fails to be read. -/
def ReadableNode (node : FileNode) : Prop :=
  (∀ reason, node ≠ .unreadable reason) ∧ ∀ inner, node = .directory inner → Readable inner

theorem readable_cons : Readable ((name, node) :: rest) ↔ node.ReadableNode ∧ Readable rest := by
  constructor
  · intro readable
    refine ⟨⟨?_, ?_⟩, ?_⟩
    · rintro reason rfl
      exact readable [name] reason (lies_cons.mpr (.inl ⟨rfl, rfl⟩))
    · rintro inner rfl path reason lies
      exact readable (name :: path) reason (lies_cons.mpr (.inr (.inl ⟨_, _, rfl, rfl, lies⟩)))
    · intro path reason lies
      exact readable path reason (lies_cons.mpr (.inr (.inr lies)))
  · rintro ⟨⟨readable, below⟩, others⟩ path reason lies
    rcases lies_cons.mp lies with ⟨rfl, same⟩ | ⟨inner, deeper, rfl, rfl, further⟩ | later
    · exact readable reason same.symm
    · exact below inner rfl deeper reason further
    · exact others path reason later

theorem entries_eq_ok_iff (below : ∀ inner, node = .directory inner → ∀ es,
      entriesBelow shown (joined path) inner = .ok es ↔
        Readable inner ∧ es = (itemsBelow path inner).map entryOf) :
    node.entries shown (joined path) = .ok es ↔
      node.ReadableNode ∧ es = (items path node).map entryOf := by
  cases node with
  | file executable content =>
    have single : (if executable then Entry.executable (joined path) content
        else .file (joined path) content) =
          entryOf (path, if executable then .executable else .file, content) := by
      cases executable <;> rfl
    simp [entries, items, single, ReadableNode, eq_comm]
  | directory inner =>
    have first : entryOf (path, .directory, []) = .directory (joined path) := rfl
    simp only [entries, items, map_eq_ok, below inner rfl, List.map_cons, first]
    constructor
    · rintro ⟨found, ⟨readable, rfl⟩, rfl⟩
      refine ⟨⟨fun reason same => FileNode.noConfusion same, ?_⟩, rfl⟩
      rintro _ ⟨rfl⟩
      exact readable
    · rintro ⟨⟨_, readable⟩, rfl⟩
      exact ⟨_, ⟨readable inner rfl, rfl⟩, rfl⟩
  | other => simp [entries, items, ReadableNode, eq_comm]
  | unreadable reason => simp [entries, ReadableNode]

theorem entriesBelow_cons (text : (Text.strict? name).isSome = true) {dir : Bytes} :
    entriesBelow shown dir ((name, node) :: rest) = .ok es ↔
      ∃ first later, node.entries (childPath shown name) (childPath dir name) = .ok first ∧
        entriesBelow shown dir rest = .ok later ∧ es = first ++ later := by
  have known : ¬ (Text.strict? name).isNone = true := by
    rw [← Option.not_isSome, text]
    decide
  have run : entriesBelow shown dir ((name, node) :: rest) =
      node.entries (childPath shown name) (childPath dir name) >>= fun first =>
        (entriesBelow shown dir rest).map (first ++ ·) := by
    rw [entriesBelow, if_neg known]
    cases node.entries (childPath shown name) (childPath dir name) with
    | error e => rfl
    | ok first => rfl
  simp only [run, bind_eq_ok, map_eq_ok, exists_and_left]

theorem entriesBelow_eq_ok_iff : ∀ {shown path es}, Everywhere Named children →
    (∀ n ∈ path, IsName n) →
    (entriesBelow shown (joined path) children = .ok es ↔
      Readable children ∧ es = (itemsBelow path children).map entryOf) := by
  induction children using children_induction with
  | nil =>
    intro shown path es _ _
    have readable : Readable [] := fun path reason => not_lies_nil
    rw [entriesBelow, itemsBelow, List.map_nil, Except.ok.injEq, eq_comm]
    constructor
    · intro same
      exact ⟨readable, same⟩
    · rintro ⟨_, same⟩
      exact same
  | cons name node rest ihInner ihRest =>
    intro shown path es named names
    have isName := named.here.names _ List.mem_cons_self
    have deeperNames : ∀ n ∈ path ++ [name], IsName n := by
      intro n member
      rcases List.mem_append.mp member with front | last
      · exact names n front
      · rw [List.mem_singleton.mp last]
        exact isName
    have first : ∀ found, node.entries (childPath shown name) (joined (path ++ [name])) = .ok found ↔
        node.ReadableNode ∧ found = (items (path ++ [name]) node).map entryOf := by
      intro found
      apply entries_eq_ok_iff
      rintro inner rfl below
      exact ihInner inner rfl (named.deeper List.mem_cons_self) deeperNames
    simp only [entriesBelow_cons isName.text, childPath_joined names, first,
      ihRest (named.tail named.here.tail) names, readable_cons, itemsBelow, List.map_append]
    constructor
    · rintro ⟨_, _, ⟨readable, rfl⟩, ⟨others, rfl⟩, rfl⟩
      exact ⟨⟨readable, others⟩, rfl⟩
    · rintro ⟨⟨readable, others⟩, rfl⟩
      exact ⟨_, _, ⟨readable, rfl⟩, ⟨others, rfl⟩, rfl⟩

end FileNode

/-! An archive of just these entries. -/

theorem pushAll {entries : List Entry} :
    ∀ {a : Archive}, a.entries.length + entries.length ≤ a.capacity →
      entries.foldlM push a = .ok ⟨a.entries ++ entries, a.capacity⟩ := by
  induction entries with
  | nil =>
    intro a _
    rw [List.append_nil]
    rfl
  | cons e rest ih =>
    intro a room
    rw [List.length_cons] at room
    have free : ¬ a.entries.length ≥ a.capacity := by omega
    have pushed : a.push e = .ok { a with entries := a.entries ++ [e] } := if_neg free
    have room' : (a.entries ++ [e]).length + rest.length ≤ a.capacity := by
      rw [List.length_append, List.length_singleton]
      omega
    have others := ih (a := { a with entries := a.entries ++ [e] }) room'
    rw [List.append_assoc, List.singleton_append] at others
    rw [List.foldlM_cons, pushed]
    exact others

/-- An archive is made of entries that fit into their fields, and is their records and a trailer. -/
theorem archiveOf_eq_ok_iff {entries : List Entry} (live : ∀ e ∈ entries, e.skipped = false)
    {bytes : Bytes} : archiveOf entries = .ok bytes ↔
      (∀ e ∈ entries, e.Writable) ∧ bytes = records entries ++ trailerBytes := by
  have table : entries.foldlM push (.empty entries.length) =
      .ok ⟨[] ++ entries, entries.length⟩ := pushAll (by simp [Archive.empty])
  let a : Archive := ⟨entries, entries.length⟩
  have all : a.live = entries := by
    rw [Archive.live, List.filter_eq_self]
    intro e member
    rw [live e member]
    rfl
  have run : archiveOf entries =
      ((a.encode (Bytes.zeros a.encodedLength)).1.mapError ToolError.archive).map fun length =>
        (a.encode (Bytes.zeros a.encodedLength)).2.take length := by
    have same : (⟨[] ++ entries, entries.length⟩ : Archive) = a := rfl
    rw [archiveOf, table, same]
    simp only [mapError_ok, bind, Except.bind, pure, Except.pure]
    rcases a.encode (Bytes.zeros a.encodedLength) with ⟨result, bytes⟩
    cases result with
    | error e => rfl
    | ok length => rfl
  have law := fun stop => encode_eq_ok_iff a (Bytes.zeros a.encodedLength) stop
  have length := written_length a
  rw [all] at law length
  rw [run, map_eq_ok]
  constructor
  · rintro ⟨stop, ok, rfl⟩
    have outcome := mapError_eq_ok.mp ok
    obtain ⟨writable, rfl, _⟩ := (law stop).mp outcome
    rw [encode_written outcome, all, List.take_left' length]
    exact ⟨writable, rfl⟩
  · rintro ⟨writable, rfl⟩
    have outcome := (law _).mpr ⟨writable, rfl, Nat.le_of_eq (Bytes.zeros_length _).symm⟩
    refine ⟨_, mapError_eq_ok.mpr outcome, ?_⟩
    rw [encode_written outcome, all, List.take_left' length]

def Entry.shown (m : Entry) : Bytes × Mode × Bytes := (m.name, m.mode, m.data)

namespace FileNode
variable {children : List (Bytes × FileNode)}

def listed (item : Item) : Bytes × Mode × Bytes := (joined item.1, item.2)

/-- The node can be read, and an archive has room for its path and its contents. -/
def Packable (path : List Bytes) : FileNode → Prop
  | .file _ content => (joined path).length + 1 < wordLimit ∧ content.length < wordLimit
  | .directory _ => (joined path).length + 1 < wordLimit
  | .other => True
  | .unreadable _ => False

instance (path : List Bytes) (node : FileNode) : Decidable (node.Packable path) :=
  match node with
  | .file _ content =>
    inferInstanceAs (Decidable ((joined path).length + 1 < wordLimit ∧ content.length < wordLimit))
  | .directory _ => inferInstanceAs (Decidable ((joined path).length + 1 < wordLimit))
  | .other => isTrue trivial
  | .unreadable _ => isFalse id

theorem packable_iff {path : List Bytes} {node : FileNode} (some : joined path ≠ []) :
    node.Packable path ↔ (∀ reason, node ≠ .unreadable reason) ∧
      ∀ what, node.packed? = .some what → (entryOf (path, what)).Writable := by
  have writable : ∀ what, (entryOf (path, what)).Writable ↔
      (joined path).length + 1 < wordLimit ∧ what.2.length < wordLimit := by
    intro what
    exact ⟨fun fits => ⟨fits.name_fits, fits.data_fits⟩, fun sizes => ⟨some, sizes.1, sizes.2⟩⟩
  cases node with
  | file executable content => simp [Packable, packed?, writable]
  | directory inner =>
    have positive : 0 < wordLimit := by decide
    simp [Packable, packed?, writable, positive]
  | other => simp [Packable, packed?]
  | unreadable reason => simp [Packable]

theorem readable_arranged : Readable (arranged children) ↔ Readable children := by
  constructor
  · intro readable path reason lies
    exact readable path reason (lies_arranged.mpr ⟨_, lies, rfl⟩)
  · intro readable path reason lies
    obtain ⟨node, original, same⟩ := lies_arranged.mp lies
    cases node with
    | unreadable cause => exact readable path cause original
    | file executable content => cases same
    | directory inner => cases same
    | other => cases same

def contents (children : List (Bytes × FileNode)) : List Item := itemsBelow [] (arranged children)

theorem mem_contents {path : List Bytes} {what : Mode × Bytes} : (path, what) ∈ contents children ↔
    ∃ node, Lies children path node ∧ node.packed? = some what := by
  rw [contents, mem_itemsBelow]
  constructor
  · rintro ⟨deeper, found, rfl, lies, packed⟩
    obtain ⟨node, original, rfl⟩ := lies_arranged.mp lies
    rw [sorted_packed] at packed
    exact ⟨node, original, packed⟩
  · rintro ⟨node, lies, packed⟩
    rw [← sorted_packed] at packed
    exact ⟨path, node.sorted, rfl, lies_arranged.mpr ⟨node, lies, rfl⟩, packed⟩

theorem packDirectory_eq_ok_iff (named : Everywhere Named children) {shown bytes : Bytes} :
    packDirectory shown children = .ok bytes ↔
      Readable children ∧ (∀ item ∈ contents children, (entryOf item).Writable) ∧
        bytes = records ((contents children).map entryOf) ++ trailerBytes := by
  have walk : ∀ es, entriesBelow shown [] (arranged children) = .ok es ↔
      Readable children ∧ es = (contents children).map entryOf := by
    intro es
    have start : entriesBelow shown (joined []) (arranged children) = .ok es ↔ _ :=
      entriesBelow_eq_ok_iff (named.arranged Named.arranged) (by simp)
    rw [← readable_arranged]
    exact start
  have live : ∀ e ∈ (contents children).map entryOf, e.skipped = false := by
    intro e member
    obtain ⟨item, _, rfl⟩ := List.mem_map.mp member
    rfl
  have archive : archiveOf _ = .ok bytes ↔ _ := archiveOf_eq_ok_iff live
  rw [List.forall_mem_map] at archive
  have run : packDirectory shown children =
      entriesBelow shown [] (arranged children) >>= archiveOf := rfl
  rw [run, bind_eq_ok, ← archive]
  constructor
  · rintro ⟨es, walked, ok⟩
    obtain ⟨readable, rfl⟩ := (walk es).mp walked
    exact ⟨readable, ok⟩
  · rintro ⟨readable, ok⟩
    exact ⟨_, (walk _).mpr ⟨readable, rfl⟩, ok⟩

theorem contents_ascending (named : Everywhere Named children) :
    (contents children).Pairwise fun a b => a.1 < b.1 :=
  itemsBelow_ascending (named.arranged Named.ascending)

theorem contents_names (named : Everywhere Named children) {item : Item}
    (member : item ∈ contents children) : item.1 ≠ [] ∧ ∀ n ∈ item.1, IsName n := by
  obtain ⟨node, lies, _⟩ := mem_contents.mp member
  exact ⟨lies.path_some, lies.names named⟩

theorem contents_distinct (named : Everywhere Named children) :
    ((contents children).map fun item => joined item.1).Nodup := by
  rw [List.nodup_iff_pairwise_ne, List.pairwise_map]
  refine (contents_ascending named).imp_of_mem fun {a b} inA inB less same => ?_
  obtain ⟨someA, namesA⟩ := contents_names named inA
  obtain ⟨someB, namesB⟩ := contents_names named inB
  have equal := joined_inj someA someB (fun n member => (namesA n member).plain)
    (fun n member => (namesB n member).plain) same
  rw [equal] at less
  exact List.lt_irrefl _ less

/-- Reading stops at the first member that is named like the trailer. -/
theorem decode_contents {items : List Item} (writable : ∀ item ∈ items, (entryOf item).Writable)
    {capacity : Nat} (enough : items.length ≤ capacity) :
    ∃ a, decode (records (items.map entryOf) ++ trailerBytes) capacity = .ok a ∧
      a.entries.map Entry.shown =
        (items.map listed).takeWhile fun member => member.1 != RecordHeader.trailerName := by
  have all : ∀ e ∈ items.map entryOf, e.Writable := List.forall_mem_map.mpr writable
  have least : (beforeTrailer (items.map entryOf)).length ≤ capacity := by
    have prefixed := (List.takeWhile_sublist (l := items.map entryOf)
      fun e => e.name != RecordHeader.trailerName).length_le
    rw [List.length_map] at prefixed
    exact Nat.le_trans prefixed enough
  have read := decode_records _ all [] capacity least
  rw [List.append_nil] at read
  refine ⟨_, read, ?_⟩
  rw [beforeTrailer, List.takeWhile_map, List.takeWhile_map, List.map_map, List.map_map]
  rfl

/-- The name of the trailer is free for all but what lies at the top. -/
theorem contents_whole (named : Everywhere Named children) :
    ((contents children).map listed).takeWhile
        (fun member => member.1 != RecordHeader.trailerName) = (contents children).map listed ↔
      ∀ node, Lies children [RecordHeader.trailerName] node → node.packed? = none := by
  have top : joined [RecordHeader.trailerName] = RecordHeader.trailerName := by simp [joined]
  rw [List.takeWhile_eq_self_iff, List.forall_mem_map]
  constructor
  · intro free node lies
    cases packed : node.packed? with
    | none => rfl
    | some what =>
      have taken := free _ (mem_contents.mpr ⟨node, lies, packed⟩)
      simp [listed, top] at taken
  · rintro free ⟨path, what⟩ member
    rw [bne_iff_ne]
    intro same
    obtain ⟨some, names⟩ := contents_names named member
    have plain : ∀ n ∈ [RecordHeader.trailerName], (0x2F : UInt8) ∉ n := by decide
    have equal : path = [RecordHeader.trailerName] :=
      joined_inj some (List.cons_ne_nil _ _) (fun n listed => (names n listed).plain) plain
        (same.trans top.symm)
    obtain ⟨node, lies, packed⟩ := mem_contents.mp member
    rw [equal] at lies
    rw [free node lies] at packed
    cases packed

/-- A tree is packed just if all of it can be read and fits. The archive then has each directory and
    each regular file once, directories in front of what they hold and siblings in the order of
    their names. Reading lists them all, unless one at the top is named like the trailer: then it
    ends there. -/
theorem packed_tree_listed (named : Everywhere Named children) (shown : Bytes) :
    ((∃ bytes, packDirectory shown children = .ok bytes) ↔
      ∀ path node, Lies children path node → node.Packable path) ∧
    ∀ bytes, packDirectory shown children = .ok bytes → ∃ items : List Item,
      (∀ path what, (path, what) ∈ items ↔
        ∃ node, Lies children path node ∧ node.packed? = some what) ∧
      items.Pairwise (fun a b => a.1 < b.1) ∧
      (items.map fun item => joined item.1).Nodup ∧
      ∀ capacity, items.length ≤ capacity → ∃ a, decode bytes capacity = .ok a ∧
        a.entries.map Entry.shown =
          (items.map listed).takeWhile (fun member => member.1 != RecordHeader.trailerName) ∧
        (a.entries.map Entry.shown = items.map listed ↔
          ∀ node, Lies children [RecordHeader.trailerName] node → node.packed? = none) := by
  constructor
  · simp only [packDirectory_eq_ok_iff named]
    constructor
    · rintro ⟨bytes, readable, writable, _⟩ path node lies
      refine (packable_iff (joined_some lies.path_some (lies.names named))).mpr ⟨?_, ?_⟩
      · rintro reason rfl
        exact readable path reason lies
      · intro what packed
        exact writable _ (mem_contents.mpr ⟨node, lies, packed⟩)
    · intro packable
      refine ⟨_, ?_, ?_, rfl⟩
      · intro path reason lies
        exact packable path _ lies
      · rintro ⟨path, what⟩ member
        obtain ⟨node, lies, packed⟩ := mem_contents.mp member
        have known : node.Packable path ↔ _ :=
          packable_iff (joined_some lies.path_some (lies.names named))
        exact (known.mp (packable path node lies)).2 what packed
  · intro bytes ok
    obtain ⟨_, writable, rfl⟩ := (packDirectory_eq_ok_iff named).mp ok
    refine ⟨contents children, fun path what => mem_contents, contents_ascending named,
      contents_distinct named, fun capacity enough => ?_⟩
    obtain ⟨a, read, entries⟩ := decode_contents writable enough
    refine ⟨a, read, entries, ?_⟩
    rw [entries]
    exact contents_whole named

/-- A directory with a file, next to a file that is named like the trailer. -/
def trailerTree : List (Bytes × FileNode) :=
  [(Bytes.ofString "b", .directory [(Bytes.ofString "c", .file true [1])]),
    (RecordHeader.trailerName, .file false [0x78])]

theorem trailerTree_named : Everywhere Named trailerTree := by
  refine .intro ⟨by decide +kernel, by decide +kernel⟩ fun name inner member => ?_
  have only : inner = [(Bytes.ofString "c", .file true [1])] := by
    simp only [trailerTree, List.mem_cons, Prod.mk.injEq, directory.injEq, reduceCtorEq, and_false,
      List.not_mem_nil, or_false] at member
    exact member.2
  rw [only]
  refine .intro ⟨by decide +kernel, by decide +kernel⟩ fun name inner member => ?_
  simp at member

theorem trailerTree_packable {path : List Bytes} {node : FileNode}
    (lies : Lies trailerTree path node) : node.Packable path := by
  rcases lies_cons.mp lies with ⟨rfl, rfl⟩ | ⟨inner, deeper, same, rfl, further⟩ | later
  · decide +kernel
  · cases same
    rcases lies_cons.mp further with ⟨rfl, rfl⟩ | ⟨_, _, absurd, _⟩ | nothing
    · decide +kernel
    · cases absurd
    · exact absurd nothing not_lies_nil
  · rcases lies_cons.mp later with ⟨rfl, rfl⟩ | ⟨_, _, absurd, _⟩ | nothing
    · decide +kernel
    · cases absurd
    · exact absurd nothing not_lies_nil

theorem packed_tree_listed_trailer :
    Everywhere Named trailerTree ∧ ∃ bytes, ∃ items : List Item, ∃ a,
      packDirectory [] trailerTree = .ok bytes ∧
      ([Bytes.ofString "b", Bytes.ofString "c"], .executable, [1]) ∈ items ∧
      items.Pairwise (fun i j => i.1 < j.1) ∧ decode bytes items.length = .ok a ∧
      a.entries.length < items.length := by
  obtain ⟨bytes, packed⟩ := (packed_tree_listed trailerTree_named []).1.mpr
    fun path node lies => trailerTree_packable lies
  obtain ⟨items, member, ascending, _, read⟩ :=
    (packed_tree_listed trailerTree_named []).2 bytes packed
  obtain ⟨a, decoded, entries, whole⟩ := read items.length (Nat.le_refl _)
  have missed : a.entries.map Entry.shown ≠ items.map listed := by
    intro all
    have absent := whole.mp all (.file false [0x78]) (.top (by simp [trailerTree]))
    cases absent
  refine ⟨trailerTree_named, bytes, items, a, packed, ?_, ascending, decoded, ?_⟩
  · have inB : (Bytes.ofString "b", directory [(Bytes.ofString "c", .file true [1])]) ∈ trailerTree :=
      List.mem_cons_self
    exact (member _ _).mpr ⟨.file true [1], .inside inB (.top List.mem_cons_self), rfl⟩
  · have front : (a.entries.map Entry.shown).Sublist (items.map listed) := by
      rw [entries]
      exact List.takeWhile_sublist _
    have fewer := front.length_le
    have differ : (a.entries.map Entry.shown).length ≠ (items.map listed).length :=
      fun same => missed (front.eq_of_length same)
    rw [List.length_map, List.length_map] at fewer differ
    omega

end FileNode
end KernelBoot
