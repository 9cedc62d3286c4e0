import KernelBoot.Proofs.Boot.Run
import KernelBoot.Proofs.Ramdisk.PathParts
import KernelBoot.Proofs.Uefi.VolumeTrees
import KernelBoot.Uefi.Machine
import Mathlib.Data.List.TakeWhile

/-!
What a listing relies on. A firmware shows a tree of files through its handles: the entries of a
directory are read one after another, the name of an entry leads to what it names, and what is done
through one handle is not seen through another. The scripted machine keeps these promises for any
volume whose names are no paths.
-/
namespace KernelBoot
open Attempt WideText VolumeTree

/-- How the handles of a firmware stand. `opened` is one of a file or a directory that nothing has
    been done with yet, `reading` one of a directory, with the entries that have not been read. -/
structure HandleView (σ η : Type) where
  opened : σ → η → VolumeTree → Prop
  reading : σ → η → VolumeTree → List (String × VolumeTree) → Prop

/-- Directories are read on through these handles as if nothing had happened in between. -/
def HandleView.Keeps (v : HandleView σ η) (among : η → Prop) (w w' : σ) : Prop :=
  ∀ h, among h → ∀ directory rest, v.reading w h directory rest → v.reading w' h directory rest

/-- The firmware keeps its promises about handles. None of its calls writes to the log, and only a
    directory has no position. -/
structure FileServices.Lawful (files : FileServices σ η) (v : HandleView σ η) : Prop where
  position : ∀ {s h tree}, v.opened s.world h tree →
    ∃ w, (files.position h).run.Ends s tree.position ⟨w, s.logger⟩ ∧ v.Keeps (· ≠ h) s.world w ∧
      (tree.isListed = true → v.reading w h tree tree.entries)
  file_position : ∀ {w h tree}, v.opened w h tree → tree.isDirectory = false →
    tree.position ≠ .error .unsupported
  entry : ∀ {s h directory entry rest}, v.reading s.world h directory (entry :: rest) →
    ∃ w, (files.readEntry h).Gives s (some ⟨entry.1, entry.2.isDirectory⟩) ⟨w, s.logger⟩ ∧
      v.Keeps (· ≠ h) s.world w ∧ v.reading w h directory rest
  ending : ∀ {s h directory}, v.reading s.world h directory [] →
    ∃ w, (files.readEntry h).run.Ends s (directory.ending.map fun _ => none) ⟨w, s.logger⟩ ∧
      v.Keeps (· ≠ h) s.world w
  opening : ∀ {s h directory rest entry}, v.reading s.world h directory rest →
    entry ∈ directory.entries → isParentName (shown entry.1) = false →
    entry.2.isDirectory = true → entry.2.opening = .ok () →
    ∃ below w, (files.openFrom h entry.1).Gives s below ⟨w, s.logger⟩ ∧ v.opened w below entry.2 ∧
      v.Keeps (fun _ => True) s.world w ∧ ∀ d r, ¬ v.reading s.world below d r
  barred : ∀ {s h directory rest entry status}, v.reading s.world h directory rest →
    entry ∈ directory.entries → isParentName (shown entry.1) = false →
    entry.2.isDirectory = true → entry.2.opening = .error status →
    ∃ w, (files.openFrom h entry.1).Fails s status ⟨w, s.logger⟩

/-! Calls of a firmware, as the loader makes them. -/

section Reported
variable {s t : Session σ} {what : String} {a : Attempt σ UefiStatus α}

theorem gives_reported {value : α} : (reported what a).Gives s value t ↔ a.Gives s value t := by
  constructor
  · intro gives
    obtain ⟨result, u, run, rest⟩ := Effect.ends_bind.mp gives
    cases result with
    | ok value' =>
      cases rest
      exact run
    | error status => cases status <;> cases rest
  · exact fun gives => Effect.ends_bind.mpr ⟨_, _, gives, rfl⟩

theorem reported_fails (what : String) {status : UefiStatus} (fails : a.Fails s status t) :
    ∃ e u, (reported what a).Fails s e u := by
  cases status <;> exact ⟨_, _, Effect.ends_bind.mpr ⟨_, _, fails, rfl⟩⟩

end Reported

/-! The volume of a scripted machine. -/

namespace FileHandle

/-- What can be read of a directory from the entry with this number on, and what comes then. -/
def readable (script : CallScript) (number : Nat) :
    List (String × VolumeTree) → List (String × VolumeTree) × Except UefiStatus Unit
  | [] => ([], script.outcome (readsPerEntry * number))
  | entry :: rest =>
    match script.outcome (readsPerEntry * number + (readsPerEntry - 1)) with
    | .error status => ([], .error status)
    | .ok () =>
      let (entries, ending) := readable script (number + 1) rest
      (entry :: entries, ending)

variable {script : CallScript} {number : Nat} {entry : String × VolumeTree}
  {rest all : List (String × VolumeTree)} {ending : Except UefiStatus Unit}

theorem readable_entry (left : readable script number all = (entry :: rest, ending)) :
    ∃ others, all = entry :: others ∧
      script.outcome (readsPerEntry * number + (readsPerEntry - 1)) = .ok () ∧
      readable script (number + 1) others = (rest, ending) := by
  cases all with
  | nil => cases (Prod.mk.inj left).1
  | cons first others =>
    rw [readable] at left
    split at left
    · cases (Prod.mk.inj left).1
    · rename_i outcome
      obtain ⟨same, rfl⟩ := Prod.mk.inj left
      obtain ⟨rfl, rfl⟩ := List.cons.inj same
      exact ⟨others, rfl, outcome, rfl⟩

theorem readable_end (left : readable script number all = ([], ending)) :
    (all = [] ∧ script.outcome (readsPerEntry * number) = ending) ∨
      ∃ first others status, all = first :: others ∧ ending = .error status ∧
        script.outcome (readsPerEntry * number + (readsPerEntry - 1)) = .error status := by
  cases all with
  | nil => exact .inl ⟨rfl, (Prod.mk.inj left).2⟩
  | cons first others =>
    rw [readable] at left
    split at left
    · rename_i status outcome
      exact .inr ⟨first, others, status, rfl, (Prod.mk.inj left).2.symm, outcome⟩
    · cases (Prod.mk.inj left).1

end FileHandle

namespace VolumeNode

/-- The entries that come first where a listing has them. What they stand for is never looked at. -/
def parents (n : VolumeNode) : List (String × VolumeTree) :=
  let parent : VolumeTree := ⟨true, .ok (), .error .unsupported, [], .ok ()⟩
  if n.listsParents then [(".", parent), ("..", parent)] else []

mutual

def tree : VolumeNode → VolumeTree
  | ⟨content, script, listsParents, children⟩ =>
    let node : VolumeNode := ⟨content, script, listsParents, children⟩
    let (entries, ending) := FileHandle.readable script.read 0 (node.parents ++ trees children)
    { isDirectory := content.isNone
      opening := UefiStatus.outcome script.openFailure
      position := (script.tell.outcome 0).bind fun _ =>
        if content.isNone then .error .unsupported else .ok 0
      entries, ending }

def trees : List (String × VolumeNode) → List (String × VolumeTree)
  | [] => []
  | (name, child) :: rest => (name, child.tree) :: trees rest

end

/-- The name is no path, and is read as it is. -/
def IsPlain (name : String) : Prop :=
  name.toList ≠ [] ∧ '\\' ∉ name.toList ∧ '\x00' ∉ name.toList

instance (name : String) : Decidable (IsPlain name) :=
  inferInstanceAs (Decidable (_ ∧ _ ∧ _))

/-- Every name in the tree leads to one thing, and only directories have no position. -/
inductive Plain : VolumeNode → Prop
  | node {n : VolumeNode} (names : ∀ child ∈ n.children, IsPlain child.1)
      (distinct : (n.children.map Prod.fst).Nodup)
      (position : n.isDirectory = false → n.script.tell.outcome 0 ≠ .error .unsupported)
      (below : ∀ child ∈ n.children, Plain child.2) : Plain n

/-- What a listing of the directory has, if it can be read to its end. -/
def allEntries (n : VolumeNode) : List (String × VolumeTree) := n.parents ++ trees n.children

variable {node : VolumeNode} {entry : String × VolumeTree}

theorem tree_isDirectory (node : VolumeNode) : node.tree.isDirectory = node.isDirectory := by
  cases node
  rfl

theorem tree_opening (node : VolumeNode) :
    node.tree.opening = UefiStatus.outcome node.script.openFailure := by
  cases node
  rfl

theorem tree_position (node : VolumeNode) : node.tree.position =
    (node.script.tell.outcome 0).bind fun _ =>
      if node.isDirectory then .error .unsupported else .ok 0 := by
  cases node
  rfl

theorem tree_readable (node : VolumeNode) :
    FileHandle.readable node.script.read 0 node.allEntries = (node.tree.entries, node.tree.ending) := by
  cases node
  rfl

theorem trees_eq_map (children : List (String × VolumeNode)) :
    trees children = children.map fun child => (child.1, child.2.tree) := by
  induction children with
  | nil => rfl
  | cons child rest ih => rw [trees, ih]; rfl

theorem readable_sublist (script : CallScript) (number : Nat)
    (all : List (String × VolumeTree)) :
    (FileHandle.readable script number all).1.Sublist all := by
  induction all generalizing number with
  | nil => exact .slnil
  | cons entry rest ih =>
    rw [FileHandle.readable]
    split
    · exact List.nil_sublist _
    · exact (ih (number + 1)).cons_cons entry

theorem mem_tree_entries (member : entry ∈ node.tree.entries)
    (other : isParentName (shown entry.1) = false) :
    ∃ child ∈ node.children, entry = (child.1, child.2.tree) := by
  have among := (readable_sublist node.script.read 0 node.allEntries).subset
  rw [tree_readable] at among
  rcases List.mem_append.mp (among member) with parent | listed
  · rw [parents] at parent
    split at parent
    · have known : isParentName (shown ".") = true ∧ isParentName (shown "..") = true := by decide
      simp only [List.mem_cons, List.not_mem_nil, or_false] at parent
      rcases parent with rfl | rfl
      · exact absurd (known.1.symm.trans other) Bool.noConfusion
      · exact absurd (known.2.symm.trans other) Bool.noConfusion
    · cases parent
  · rw [trees_eq_map] at listed
    obtain ⟨child, inside, same⟩ := List.mem_map.mp listed
    exact ⟨child, inside, same.symm⟩

theorem IsPlain.upToNul {name : String} (plain : IsPlain name) : upToNul name = name := by
  have all : name.toList.takeWhile (· ≠ '\x00') = name.toList := by
    refine List.takeWhile_eq_self_iff.mpr fun c member => ?_
    simp only [ne_eq, decide_not, Bool.not_eq_true', decide_eq_false_iff_not]
    rintro rfl
    exact plain.2.2 member
  rw [WideText.upToNul, all, String.ofList_toList]

theorem Plain.listing_eq (plain : node.Plain) : node.listing =
    node.allEntries.map fun entry => ⟨entry.1, entry.2.isDirectory⟩ := by
  obtain ⟨names, _, _, _⟩ := plain
  rw [listing, allEntries, List.map_append, trees_eq_map, List.map_map]
  refine congrArg₂ _ ?_ (List.map_congr_left fun child member => ?_)
  · rw [parents]
    split <;> rfl
  · show DirectoryEntry.mk (upToNul child.1) child.2.isDirectory = _
    rw [(names child member).upToNul, Function.comp_apply, tree_isDirectory]

theorem IsPlain.pathParts {name : String} (plain : IsPlain name) : pathParts name = [name] := by
  have free : ∀ c ∈ name.toList, (c == '\\') = false := by
    intro c member
    rw [beq_eq_false_iff_ne]
    rintro rfl
    exact plain.2.1 member
  rw [VolumeNode.pathParts, Text.components_single free, if_neg (by simpa using plain.1)]
  simp

theorem lookup_child {children : List (String × VolumeNode)}
    (distinct : (children.map Prod.fst).Nodup) {child : String × VolumeNode}
    (member : child ∈ children) : children.lookup child.1 = some child.2 := by
  obtain ⟨front, behind, rfl⟩ := List.append_of_mem member
  rw [List.map_append, List.map_cons, List.nodup_middle, List.nodup_cons] at distinct
  refine List.lookup_eq_some_iff.mpr ⟨front, behind, rfl, fun other earlier => ?_⟩
  rw [bne_iff_ne]
  intro same
  exact distinct.1 (List.mem_append_left _ (same ▸ List.mem_map_of_mem earlier))

theorem Plain.position (plain : node.Plain) (regular : node.isDirectory = false) :
    node.tree.position ≠ .error .unsupported := by
  obtain ⟨_, _, position, _⟩ := plain
  have positioned := position regular
  rw [tree_position, regular]
  cases outcome : node.script.tell.outcome 0 with
  | ok _ => exact nofun
  | error status =>
    rintro ⟨⟩
    exact positioned outcome

/-- The name of an entry leads to what it names, wherever the root is. -/
theorem Plain.opens_entry (plain : node.Plain) (directory : node.isDirectory = true)
    (member : entry ∈ node.tree.entries) (other : isParentName (shown entry.1) = false) :
    ∃ child : VolumeNode, child.Plain ∧ child.tree = entry.2 ∧
      ∀ root : VolumeNode, root.openFrom node entry.1 = entry.2.opening.map fun _ => child := by
  obtain ⟨⟨name, child⟩, inside, rfl⟩ := mem_tree_entries member other
  obtain ⟨names, distinct, _, below⟩ := plain
  refine ⟨child, below _ inside, rfl, fun root => ?_⟩
  have plain := names _ inside
  have relative : name.toList.head? ≠ some '\\' :=
    fun first => plain.2.1 (List.mem_of_mem_head? first)
  have found := lookup_child distinct inside
  rw [VolumeNode.openFrom, if_neg relative, plain.pathParts, opened, find?, if_pos directory, child?,
    tree_opening]
  simp only [found, find?]

/-! The steps that a walk is given suffice for any directory of the volume. -/

theorem size_eq (node : VolumeNode) :
    node.size = (node.children.map fun child => child.2.size).sum + 1 := by
  obtain ⟨content, script, listsParents, children⟩ := node
  rw [size]
  induction children with
  | nil => rfl
  | cons child rest ih =>
    rw [size.sizeAmong, List.map_cons, List.sum_cons, Nat.add_assoc, ih, Nat.add_assoc]

theorem size_lt {child : String × VolumeNode} (member : child ∈ node.children) :
    child.2.size < node.size := by
  rw [size_eq node]
  exact Nat.lt_succ_of_le (List.le_sum_of_mem (List.mem_map_of_mem member))

/-- The two entries that a listing may begin with are all that a tree has more than its node. -/
theorem tree_size (node : VolumeNode) : node.tree.size ≤ 3 * node.size := by
  have below : ∀ child ∈ node.children, child.2.tree.size ≤ 3 * child.2.size :=
    fun child _ => tree_size child.2
  have children : (node.children.map fun child => child.2.tree.size).sum ≤
      3 * (node.children.map fun child => child.2.size).sum := by
    rw [← List.sum_map_mul_left]
    exact List.sum_le_sum below
  have parents : (node.parents.map fun entry => entry.2.size).sum ≤ 2 := by
    rw [parents]
    split <;> decide
  have readable := (readable_sublist node.script.read 0 node.allEntries).map (·.2.size)
    |>.sum_le_sum fun _ _ => Nat.zero_le _
  rw [tree_readable, allEntries, List.map_append, List.sum_append, trees_eq_map, List.map_map]
    at readable
  rw [VolumeTree.size_eq, size_eq]
  exact Nat.succ_le_of_lt (Nat.lt_of_le_of_lt readable (by simp only [Function.comp_def]; omega))
termination_by node.size
decreasing_by exact size_lt ‹_›

theorem find?_size {top found : VolumeNode} {path : List String} (finds : top.find? path = some found) :
    found.size ≤ top.size := by
  induction path generalizing top with
  | nil =>
    cases finds
    exact Nat.le_refl _
  | cons name rest ih =>
    rw [find?] at finds
    split at finds
    · split at finds
      · cases finds
      · rename_i child known
        obtain ⟨front, behind, children, _⟩ := List.lookup_eq_some_iff.mp known
        have member : (name, child) ∈ top.children := by
          rw [children]
          exact List.mem_append_right _ List.mem_cons_self
        exact Nat.le_trans (ih finds) (Nat.le_of_lt (size_lt member))
    · cases finds

theorem opened_size {top found : VolumeNode} {path : List String}
    (opens : top.opened path = .ok found) : found.size ≤ top.size := by
  unfold opened at opens
  split at opens
  · cases opens
  · rename_i node finds
    cases outcome : UefiStatus.outcome node.script.openFailure with
    | error status =>
      rw [outcome] at opens
      cases opens
    | ok _ =>
      rw [outcome] at opens
      cases opens
      exact find?_size finds

theorem openFrom_size {root found : VolumeNode} {path : String}
    (opens : root.openFrom root path = .ok found) : found.size ≤ root.size := by
  rw [openFrom, ite_self] at opens
  exact opened_size opens

end VolumeNode

namespace Machine
open FileHandle (readsPerEntry readable)
variable {s : Session Machine} {h : Nat}

/-- Handles of the scripted machine. A directory is counted by its entries, and each of them takes a
    fixed number of calls. -/
def view : HandleView Machine Nat where
  opened m h tree := ∃ node : VolumeNode, node.Plain ∧ node.tree = tree ∧
    m.handles[h]? = some (.new node)
  reading m h directory rest := ∃ (node : VolumeNode) (number tells seeks : Nat), node.Plain ∧
    node.tree = directory ∧ node.isDirectory = true ∧
    m.handles[h]? = some ⟨node, number, tells, seeks, readsPerEntry * number⟩ ∧
    readable node.script.read number (node.allEntries.drop number) = (rest, directory.ending)

theorem handle_eq {m : Machine} {held : FileHandle} (found : m.handles[h]? = some held) :
    handle h m = held := by
  rw [handle, List.getD_eq_getElem?_getD, found, Option.getD_some]

theorem withHandle_self {m : Machine} {held : FileHandle} (found : m.handles[h]? = some held)
    (handle : FileHandle) : (m.withHandle h handle).handles[h]? = some handle := by
  obtain ⟨inside, _⟩ := List.getElem?_eq_some_iff.mp found
  exact List.getElem?_set_self inside

/-- What is done through one handle is not seen through another. -/
theorem keeps_withHandle (m : Machine) (h : Nat) (handle : FileHandle) :
    view.Keeps (· ≠ h) m (m.withHandle h handle) := by
  rintro other apart directory rest ⟨node, number, tells, seeks, plain, same, inner, held, left⟩
  refine ⟨node, number, tells, seeks, plain, same, inner, ?_, left⟩
  exact (List.getElem?_set_ne (Ne.symm apart)).trans held

theorem call_ends {held : FileHandle} (found : s.world.handles[h]? = some held)
    (f : FileHandle → Except UefiStatus α × FileHandle) :
    (call h f).run.Ends s (f held).1
      ⟨s.world.withHandle h (f held).2, s.logger⟩ := by
  rw [← handle_eq found]
  rfl

theorem openFrom_run (path : String) : (files.openFrom h path).run.run s =
    match s.world.script.volume.root.openFrom (handle h s.world).node path with
    | .ok node => (.ok s.world.handles.length,
        { s with world := { s.world with handles := s.world.handles ++ [.new node] } })
    | .error status => (.error status, s) := by
  show (Attempt.ofExcept _ >>= newHandle).run.run s = _
  rw [run_bind]
  cases s.world.script.volume.root.openFrom (handle h s.world).node path <;> rfl

/-- The next call of a directory's handle, by the entries that are left. -/
theorem readEntry_eq {node : VolumeNode} (plain : node.Plain) (number tells seeks : Nat) :
    FileHandle.readEntry ⟨node, number, tells, seeks, readsPerEntry * number⟩ =
      match node.allEntries.drop number with
      | [] => ((node.script.read.outcome (readsPerEntry * number)).map fun _ => none,
          ⟨node, number, tells, seeks, readsPerEntry * number + 1⟩)
      | entry :: _ =>
        ((node.script.read.outcome (readsPerEntry * number + (readsPerEntry - 1))).map fun _ =>
            some ⟨entry.1, entry.2.isDirectory⟩,
          ⟨node, number + 1, tells, seeks, readsPerEntry * (number + 1)⟩) := by
  have next : node.listing[number]? = (node.allEntries.drop number).head?.map fun entry =>
      ⟨entry.1, entry.2.isDirectory⟩ := by
    rw [plain.listing_eq, List.getElem?_map, List.head?_drop]
  rw [FileHandle.readEntry]
  cases left : node.allEntries.drop number with
  | nil =>
    rw [left] at next
    simp only [next, List.head?_nil, Option.map_none]
  | cons entry rest =>
    rw [left] at next
    simp only [next, List.head?_cons, Option.map_some, Nat.mul_succ]

theorem openFile_opens {dir : String} {t : Session Machine}
    (opens : (files.openFile dir).Gives s h t) : ∃ node : VolumeNode,
      node.size ≤ s.world.script.volume.root.size ∧ t.world.handles[h]? = some (.new node) := by
  obtain ⟨_, s₁, located, opens⟩ := gives_bind.mp opens
  obtain ⟨root, s₂, rooted, opens⟩ := gives_bind.mp opens
  obtain ⟨_, opens⟩ := gives_guard.mp opens
  have found := gives_reported.mp opens
  obtain ⟨_, _, asked, settled⟩ := gives_bind.mp (gives_reported.mp located)
  obtain ⟨rfl, rfl⟩ := gives_ask asked
  obtain ⟨_, rfl⟩ := gives_ofExcept.mp settled
  obtain ⟨_, _, asked, rooted⟩ := gives_bind.mp (gives_reported.mp rooted)
  obtain ⟨rfl, rfl⟩ := gives_ask asked
  obtain ⟨_, _, settled, rooted⟩ := gives_bind.mp rooted
  obtain ⟨_, rfl⟩ := gives_ofExcept.mp settled
  cases rooted
  rw [Gives, Effect.Ends, openFrom_run, handle_eq List.getElem?_concat_length] at found
  split at found
  · rename_i node reached
    cases found
    exact ⟨node, VolumeNode.openFrom_size reached, List.getElem?_concat_length⟩
  · cases found

/-- The steps that a walk is given suffice for any directory of the volume. -/
theorem walkSteps_suffice {dir : String} {t : Session Machine} {top : VolumeTree}
    (opens : (files.openFile dir).Gives s h t) (opened : view.opened t.world h top) :
    top.size ≤ s.world.walkSteps := by
  obtain ⟨node, smaller, held⟩ := openFile_opens opens
  obtain ⟨_, _, rfl, held'⟩ := opened
  cases held.symm.trans held'
  have most := node.tree_size
  rw [walkSteps, Nat.succ_mul]
  omega

theorem files_lawful : files.Lawful view where
  position := by
    rintro s h tree ⟨node, plain, rfl, held⟩
    refine ⟨s.world.withHandle h { FileHandle.new node with tells := 1 }, ?_,
      keeps_withHandle _ _ _, fun listed => ?_⟩
    · rw [VolumeNode.tree_position]
      exact call_ends held FileHandle.tell
    · rw [isListed_iff, VolumeNode.tree_isDirectory] at listed
      exact ⟨node, 0, 1, 0, plain, rfl, listed.1, withHandle_self held _, node.tree_readable⟩
  file_position := by
    rintro m h tree ⟨node, plain, rfl, held⟩ regular
    rw [VolumeNode.tree_isDirectory] at regular
    exact plain.position regular
  entry := by
    rintro s h directory entry rest ⟨node, number, tells, seeks, plain, rfl, inner, held, left⟩
    obtain ⟨others, behind, outcome, further⟩ := FileHandle.readable_entry left
    have ends := call_ends held FileHandle.readEntry
    simp only [readEntry_eq plain, behind, outcome] at ends
    refine ⟨_, ends, keeps_withHandle _ _ _, node, number + 1, tells, seeks, plain, rfl, inner,
      withHandle_self held _, ?_⟩
    rw [← List.drop_drop, behind]
    exact further
  ending := by
    rintro s h directory ⟨node, number, tells, seeks, plain, rfl, inner, held, left⟩
    have ends := call_ends held FileHandle.readEntry
    rcases FileHandle.readable_end left with
      ⟨behind, outcome⟩ | ⟨first, others, status, behind, ending, outcome⟩
    · simp only [readEntry_eq plain, behind, outcome] at ends
      exact ⟨_, ends, keeps_withHandle _ _ _⟩
    · simp only [readEntry_eq plain, behind, outcome] at ends
      rw [ending]
      exact ⟨_, ends, keeps_withHandle _ _ _⟩
  opening := by
    rintro s h directory rest entry ⟨node, number, tells, seeks, plain, rfl, inner, held, _⟩
      member other subdirectory opens
    obtain ⟨child, below, same, leads⟩ := plain.opens_entry inner member other
    have run := openFrom_run (s := s) (h := h) entry.1
    rw [handle_eq held, leads, opens] at run
    refine ⟨_, _, run, ⟨child, below, same, List.getElem?_concat_length⟩, ?_, ?_⟩
    · rintro g _ directory rest ⟨node, number, tells, seeks, plain, same, inner, held, left⟩
      obtain ⟨inside, _⟩ := List.getElem?_eq_some_iff.mp held
      exact ⟨node, number, tells, seeks, plain, same, inner,
        (List.getElem?_append_left inside).trans held, left⟩
    · rintro d r ⟨_, _, _, _, _, _, _, held, _⟩
      rw [List.getElem?_eq_none (Nat.le_refl _)] at held
      cases held
  barred := by
    rintro s h directory rest entry status ⟨node, number, tells, seeks, plain, rfl, inner, held, _⟩
      member other subdirectory opens
    obtain ⟨child, below, same, leads⟩ := plain.opens_entry inner member other
    have run := openFrom_run (s := s) (h := h) entry.1
    rw [handle_eq held, leads, opens] at run
    exact ⟨_, run⟩

end Machine
end KernelBoot
