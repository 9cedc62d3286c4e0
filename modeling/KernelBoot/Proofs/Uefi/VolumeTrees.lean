import KernelBoot.Uefi.Files
import Mathlib.Algebra.BigOperators.Ring.List
import Mathlib.Algebra.Order.BigOperators.Group.List
import Mathlib.Algebra.Order.Group.Nat
import Mathlib.Algebra.Ring.Nat
import Mathlib.Data.List.Nodup

/-!
Trees of files and directories, as the firmware shows them. What lies below a directory lies there
at a path of names; a walk of the tree finds the files at the ends of these paths, in the order of
the listings. A path leads through directories only, and for a walk only through those that show
themselves as such.
-/
namespace KernelBoot

/-- A file or a directory: what comes of opening it, the position it has when it is open, the entries
    that can be read, and what comes of reading behind the last of them. -/
structure VolumeTree where
  isDirectory : Bool
  opening : Except UefiStatus Unit
  position : Except UefiStatus Nat
  entries : List (String × VolumeTree)
  ending : Except UefiStatus Unit

namespace VolumeTree
open WideText

/-- Whether an open directory shows itself as one: it has no position, and gives this status. -/
def isEnterable (n : VolumeTree) : Bool :=
  match n.position with
  | .error .unsupported => true
  | _ => false

/-- A directory that shows itself as one when it is open. -/
def isListed (n : VolumeTree) : Bool := n.isDirectory && n.isEnterable

def size : VolumeTree → Nat
  | ⟨_, _, _, entries, _⟩ => sizeAmong entries + 1
where
  sizeAmong : List (String × VolumeTree) → Nat
    | [] => 0
    | (_, tree) :: rest => tree.size + sizeAmong rest

/-- The node lies at this path of names, as they are shown, below another one. The path leads
    through nodes that are passed, and never through an entry for a directory itself or for the one
    above. -/
inductive Lies (passed : VolumeTree → Bool) : VolumeTree → List String → VolumeTree → Prop
  | here (node) : Lies passed node [] node
  | through {node entry path found} (opens : passed node = true) (member : entry ∈ node.entries)
      (other : isParentName (shown entry.1) = false) (deeper : Lies passed entry.2 path found) :
      Lies passed node (shown entry.1 :: path) found

/-- A listing comes to the one path before it comes to the other: where the two part, the one goes
    on with an earlier entry. -/
inductive Before (passed : VolumeTree → Bool) : VolumeTree → List String → List String → Prop
  | apart {node first second path path'} (opens : passed node = true)
      (listed : [first, second].Sublist node.entries) :
      Before passed node (shown first.1 :: path) (shown second.1 :: path')
  | within {node entry path path'} (opens : passed node = true) (member : entry ∈ node.entries)
      (other : isParentName (shown entry.1) = false) (deeper : Before passed entry.2 path path') :
      Before passed node (shown entry.1 :: path) (shown entry.1 :: path')

/-- All nodes that are passed on a way down have a property. -/
def Everywhere (passed : VolumeTree → Bool) (P : VolumeTree → Prop) (top : VolumeTree) : Prop :=
  ∀ path node, Lies passed top path node → passed node = true → P node

/-- The entries of a directory can be told apart, and their names from paths. -/
@[mk_iff]
structure Named (directory : VolumeTree) : Prop where
  some : ∀ entry ∈ directory.entries, shown entry.1 ≠ ""
  plain : ∀ entry ∈ directory.entries, '/' ∉ (shown entry.1).toList
  distinct : (directory.entries.map fun entry => shown entry.1).Nodup

instance (directory : VolumeTree) : Decidable (Named directory) :=
  decidable_of_iff' _ (named_iff directory)

mutual

/-- The paths of all files that a walk finds. -/
def filePaths : VolumeTree → List (List String)
  | ⟨isDirectory, opening, position, entries, ending⟩ =>
    if isListed ⟨isDirectory, opening, position, entries, ending⟩ then filePathsAmong entries
    else if isDirectory then [] else [[]]

def filePathsAmong : List (String × VolumeTree) → List (List String)
  | [] => []
  | (name, tree) :: rest =>
    (if isParentName (shown name) then [] else (filePaths tree).map (shown name :: ·)) ++
      filePathsAmong rest

end

def entryPaths (entry : String × VolumeTree) : List (List String) :=
  if isParentName (shown entry.1) then [] else entry.2.filePaths.map (shown entry.1 :: ·)

variable {node top found : VolumeTree} {path path' : List String} {passed : VolumeTree → Bool}
  {P : VolumeTree → Prop} {entry : String × VolumeTree}

theorem isEnterable_iff : node.isEnterable = true ↔ node.position = .error .unsupported := by
  unfold isEnterable
  split
  · simp_all
  · rename_i other
    exact ⟨nofun, fun none => absurd none other⟩

theorem isListed_iff : node.isListed = true ↔ node.isDirectory = true ∧ node.isEnterable = true :=
  Bool.and_eq_true_iff

/-! Induction over a tree. -/

theorem size_eq (node : VolumeTree) :
    node.size = (node.entries.map fun entry => entry.2.size).sum + 1 := by
  obtain ⟨isDirectory, opening, position, entries, ending⟩ := node
  rw [size]
  induction entries with
  | nil => rfl
  | cons entry rest ih =>
    rw [size.sizeAmong, List.map_cons, List.sum_cons, Nat.add_assoc, ih, Nat.add_assoc]

theorem size_lt (member : entry ∈ node.entries) : entry.2.size < node.size := by
  rw [size_eq node]
  exact Nat.lt_succ_of_le (List.le_sum_of_mem (List.mem_map_of_mem member))

theorem size_pos (node : VolumeTree) : 0 < node.size := by
  rw [size_eq]
  exact Nat.succ_pos _

theorem entries_induction (step : ∀ node, (∀ entry ∈ node.entries, P entry.2) → P node)
    (node : VolumeTree) : P node :=
  step node fun entry _ => entries_induction step entry.2
termination_by node.size
decreasing_by exact size_lt ‹_›

/-! Ways down. -/

theorem lies_iff : Lies passed top path found ↔ (path = [] ∧ found = top) ∨
    (passed top = true ∧ ∃ entry ∈ top.entries, isParentName (shown entry.1) = false ∧
      ∃ deeper, path = shown entry.1 :: deeper ∧ Lies passed entry.2 deeper found) := by
  constructor
  · intro lies
    cases lies with
    | here => exact .inl ⟨rfl, rfl⟩
    | through opens member other deeper => exact .inr ⟨opens, _, member, other, _, rfl, deeper⟩
  · rintro (⟨rfl, rfl⟩ | ⟨opens, entry, member, other, deeper, rfl, lies⟩)
    · exact .here _
    · exact .through opens member other lies

theorem everywhere_iff : Everywhere passed P top ↔ (passed top = true → P top ∧
    ∀ entry ∈ top.entries, isParentName (shown entry.1) = false → Everywhere passed P entry.2) := by
  constructor
  · intro all opens
    refine ⟨all [] top (.here top) opens, fun entry member other path node lies inner => ?_⟩
    exact all _ node (.through opens member other lies) inner
  · intro all path node lies inner
    cases lies with
    | here => exact (all inner).1
    | through opens member other deeper =>
      exact (all opens).2 _ member other _ _ deeper inner

theorem everywhere_unpassed (ends : passed top = false) : Everywhere passed P top :=
  everywhere_iff.mpr fun opens => absurd (opens.symm.trans ends) Bool.noConfusion

theorem Everywhere.imp {Q : VolumeTree → Prop} (all : Everywhere passed P top)
    (weaker : ∀ node, P node → Q node) : Everywhere passed Q top :=
  fun path node lies opens => weaker node (all path node lies opens)

theorem Lies.directories (lies : Lies isListed top path found) : Lies isDirectory top path found := by
  induction lies with
  | here node => exact .here node
  | through opens member other _ ih => exact .through (isListed_iff.mp opens).1 member other ih

theorem Before.directories (before : Before isListed top path path') :
    Before isDirectory top path path' := by
  induction before with
  | apart opens listed => exact .apart (isListed_iff.mp opens).1 listed
  | within opens member other _ ih => exact .within (isListed_iff.mp opens).1 member other ih

theorem lies_listed (all : Everywhere isDirectory (·.isEnterable = true) top) :
    Lies isListed top path found ↔ Lies isDirectory top path found := by
  refine ⟨Lies.directories, fun lies => ?_⟩
  induction lies with
  | here node => exact .here node
  | through opens member other _ ih =>
    obtain ⟨shows, below⟩ := everywhere_iff.mp all opens
    exact .through (isListed_iff.mpr ⟨opens, shows⟩) member other (ih (below _ member other))

theorem Lies.names (named : Everywhere passed Named top) (lies : Lies passed top path found) :
    ∀ name ∈ path, name ≠ "" ∧ '/' ∉ name.toList := by
  induction lies with
  | here => exact fun name none => absurd none List.not_mem_nil
  | through opens member other deeper ih =>
    obtain ⟨here, below⟩ := everywhere_iff.mp named opens
    exact List.forall_mem_cons.mpr
      ⟨⟨here.some _ member, here.plain _ member⟩, ih (below _ member other)⟩

theorem Named.entry_eq {other : String × VolumeTree} (named : Named node)
    (member : entry ∈ node.entries) (member' : other ∈ node.entries)
    (same : shown entry.1 = shown other.1) : entry = other :=
  List.inj_on_of_nodup_map named.distinct member member' same

/-- There is one node at a path, and a longer path goes on from there. -/
theorem Lies.goes_on (named : Everywhere passed Named top) {middle : VolumeTree}
    (lies : Lies passed top path middle) :
    ∀ {deeper}, Lies passed top (path ++ deeper) found → Lies passed middle deeper found := by
  induction lies with
  | here => exact fun further => further
  | @through node entry path middle opens member other _ ih =>
    intro deeper further
    obtain ⟨here, below⟩ := everywhere_iff.mp named opens
    rcases lies_iff.mp further with ⟨none, _⟩ | ⟨_, entry', member', _, rest, same, inside⟩
    · cases none
    · obtain ⟨name, rfl⟩ := List.cons.inj same
      rw [← here.entry_eq member member' name] at inside
      exact ih (below entry member other) inside

theorem Named.ne {first second : String × VolumeTree} (named : Named node)
    (listed : [first, second].Sublist node.entries) : shown first.1 ≠ shown second.1 :=
  List.pairwise_iff_forall_sublist.mp (List.pairwise_map.mp named.distinct) listed

theorem Before.ne (named : Everywhere passed Named top) (before : Before passed top path path') :
    path ≠ path' := by
  induction before with
  | apart opens listed =>
    intro same
    exact ((everywhere_iff.mp named opens).1.ne listed) (List.cons.inj same).1
  | within opens member other _ ih =>
    intro same
    exact ih ((everywhere_iff.mp named opens).2 _ member other) (List.cons.inj same).2

/-! The files that a walk finds. -/

theorem filePathsAmong_eq (entries : List (String × VolumeTree)) :
    filePathsAmong entries = entries.flatMap entryPaths := by
  induction entries with
  | nil => rfl
  | cons entry rest ih =>
    rw [List.flatMap_cons, ← ih]
    rfl

theorem filePaths_listed (listed : node.isListed = true) :
    node.filePaths = node.entries.flatMap entryPaths := by
  cases node
  rw [filePaths, if_pos listed, filePathsAmong_eq]

theorem filePaths_unlisted (passedOver : ¬ node.isListed = true) :
    node.filePaths = if node.isDirectory then [] else [[]] := by
  cases node
  rw [filePaths, if_neg passedOver]

theorem mem_entryPaths : path ∈ entryPaths entry ↔ isParentName (shown entry.1) = false ∧
    ∃ deeper ∈ entry.2.filePaths, shown entry.1 :: deeper = path := by
  by_cases parent : isParentName (shown entry.1) = true
  · simp [entryPaths, parent]
  · rw [Bool.not_eq_true] at parent
    simp [entryPaths, parent]

theorem mem_filePaths : ∀ {path}, path ∈ top.filePaths ↔
    ∃ file, Lies isListed top path file ∧ file.isDirectory = false := by
  induction top using entries_induction with
  | step node ih =>
    intro path
    by_cases listed : node.isListed = true
    · have directory := (isListed_iff.mp listed).1
      rw [filePaths_listed listed, List.mem_flatMap]
      constructor
      · rintro ⟨entry, member, begins⟩
        obtain ⟨other, deeper, below, rfl⟩ := mem_entryPaths.mp begins
        obtain ⟨file, lies, regular⟩ := (ih entry member).mp below
        exact ⟨file, .through listed member other lies, regular⟩
      · rintro ⟨file, lies, regular⟩
        cases lies with
        | here =>
          rw [directory] at regular
          cases regular
        | through _ member other deeper =>
          exact ⟨_, member, mem_entryPaths.mpr
            ⟨other, _, (ih _ member).mpr ⟨file, deeper, regular⟩, rfl⟩⟩
    · have only : ∀ file, Lies isListed node path file ↔ path = [] ∧ file = node := fun file =>
        lies_iff.trans (or_iff_left fun both => listed both.1)
      simp only [filePaths_unlisted listed, only]
      cases kind : node.isDirectory <;> simp [kind]

theorem filePaths_ordered : top.filePaths.Pairwise (Before isListed top) := by
  induction top using entries_induction with
  | step node ih =>
    by_cases listed : node.isListed = true
    · rw [filePaths_listed listed]
      refine List.pairwise_flatMap.mpr ⟨fun entry member => ?_, ?_⟩
      · by_cases parent : isParentName (shown entry.1) = true
        · rw [entryPaths, if_pos parent]
          exact .nil
        · rw [entryPaths, if_neg parent]
          refine List.pairwise_map.mpr ((ih entry member).imp fun before => ?_)
          exact .within listed member (Bool.not_eq_true _ ▸ parent) before
      · refine List.pairwise_iff_forall_sublist.mpr fun both path begins path' begins' => ?_
        obtain ⟨_, _, _, rfl⟩ := mem_entryPaths.mp begins
        obtain ⟨_, _, _, rfl⟩ := mem_entryPaths.mp begins'
        exact .apart listed both
    · rw [filePaths_unlisted listed]
      split
      · exact .nil
      · exact List.pairwise_singleton _ _

theorem filePaths_nodup (named : Everywhere isListed Named top) : top.filePaths.Nodup :=
  filePaths_ordered.imp fun before => before.ne named

/-! Paths as text. -/

theorem foldl_joinEntry {lead : String} (some : lead ≠ "") (path : List String) :
    path.foldl joinEntry lead = "/".intercalate (lead :: path) := by
  induction path generalizing lead with
  | nil => rw [String.intercalate_singleton]; rfl
  | cons name rest ih =>
    have joined : joinEntry lead name = lead ++ "/" ++ name := by
      rw [joinEntry, if_neg (by simpa using some)]
      rfl
    have further : joinEntry lead name ≠ "" := by
      rw [joined]
      simp
    rw [List.foldl_cons, ih further, String.intercalate_cons_cons, joined]
    cases rest with
    | nil => simp
    | cons next more => simp [String.append_assoc]

theorem joined_path (names : ∀ name ∈ path, name ≠ "") :
    path.foldl joinEntry "" = "/".intercalate path := by
  cases path with
  | nil => rfl
  | cons name rest => exact foldl_joinEntry (names name List.mem_cons_self) rest

theorem intercalate_inj (some : path ≠ []) (some' : path' ≠ [])
    (plain : ∀ name ∈ path, '/' ∉ name.toList) (plain' : ∀ name ∈ path', '/' ∉ name.toList)
    (same : "/".intercalate path = "/".intercalate path') : path = path' := by
  have split := List.splitOn_intercalate '/' (List.forall_mem_map.mpr plain) (by simpa using some)
  have split' := List.splitOn_intercalate '/' (List.forall_mem_map.mpr plain') (by simpa using some')
  have texts := congrArg String.toList same
  rw [String.toList_intercalate, String.toList_intercalate] at texts
  have names : path.map String.toList = path'.map String.toList := by
    rw [← split, ← split']
    exact congrArg (List.splitOn '/') texts
  exact List.map_injective_iff.mpr (fun _ _ => String.toList_inj.mp) names

/-- The paths of the files that can be come across below a directory: all of them, no two of which
    have the same text, and in order. -/
structure Lists (passed : VolumeTree → Bool) (top : VolumeTree) (paths : List (List String)) :
    Prop where
  exact : ∀ path, path ∈ paths ↔ ∃ file, Lies passed top path file ∧ file.isDirectory = false
  once : (paths.map "/".intercalate).Nodup
  ordered : paths.Pairwise (Before isDirectory top)

theorem filePaths_names (named : Everywhere isListed Named top) (member : path ∈ top.filePaths) :
    ∀ name ∈ path, name ≠ "" ∧ '/' ∉ name.toList := by
  obtain ⟨file, lies, _⟩ := mem_filePaths.mp member
  exact lies.names named

theorem filePaths_lists (named : Everywhere isListed Named top) (directory : top.isDirectory = true) :
    Lists isListed top top.filePaths where
  exact path := mem_filePaths
  ordered := filePaths_ordered.imp Before.directories
  once := by
    have some : ∀ path ∈ top.filePaths, path ≠ [] := by
      rintro path member rfl
      obtain ⟨file, lies, regular⟩ := mem_filePaths.mp member
      cases lies
      rw [directory] at regular
      cases regular
    refine (filePaths_nodup named).map_on fun path member path' member' same => ?_
    exact intercalate_inj (some path member) (some path' member')
      (fun name inside => (filePaths_names named member name inside).2)
      (fun name inside => (filePaths_names named member' name inside).2) same

/-- What lies below a directory that does not show itself is missed. -/
theorem Lists.misses {paths : List (List String)} {hidden : VolumeTree}
    (lists : Lists isListed top paths) (named : Everywhere isListed Named top)
    (lies : Lies isListed top path hidden) (directory : hidden.isDirectory = true)
    (hides : hidden.isEnterable = false) (deeper : List String) : path ++ deeper ∉ paths := by
  intro member
  obtain ⟨file, further, regular⟩ := (lists.exact _).mp member
  cases lies.goes_on named further with
  | here =>
    rw [directory] at regular
    cases regular
  | through opens _ _ _ =>
    rw [(isListed_iff.mp opens).2] at hides
    cases hides

/-- Where every directory shows itself, there is nothing to miss. -/
theorem Lists.complete {paths : List (List String)} (lists : Lists isListed top paths)
    (all : Everywhere isDirectory (·.isEnterable = true) top) : Lists isDirectory top paths where
  exact path := by simp only [lists.exact, lies_listed all]
  once := lists.once
  ordered := lists.ordered

end VolumeTree
end KernelBoot
