import KernelBoot.Boot.Ramdisk
import KernelBoot.Proofs.Ramdisk.PathParts
import Mathlib.Data.List.Sort

/-!
The directories that injected files need. Each is there once, the parent of each is among them,
and a parent comes before what it holds, since a path sorts in front of all its extensions.
-/
namespace KernelBoot

theorem lt_extended (front behind : List Char) (c : Char) : front < front ++ c :: behind := by
  induction front with
  | nil => exact List.nil_lt_cons c behind
  | cons first rest ih =>
    rw [List.cons_append, List.cons_lt_cons_iff]
    exact .inr ⟨rfl, ih⟩

theorem Path.above_lt {parent path : String} (above : Path.Above parent.toList path.toList) :
    parent < path := by
  obtain ⟨behind, chars⟩ := above
  show parent.toList < path.toList
  rw [chars]
  exact lt_extended _ _ _

theorem eraseDups_nodup [BEq α] [LawfulBEq α] (size : Nat) (xs : List α) (bound : xs.length ≤ size) :
    xs.eraseDups.Nodup := by
  induction size generalizing xs with
  | zero =>
    rw [List.length_eq_zero_iff.mp (Nat.le_zero.mp bound)]
    exact List.nodup_nil
  | succ size ih =>
    cases xs with
    | nil => exact List.nodup_nil
    | cons x rest =>
      have shorter : (rest.filter fun y => !y == x).length ≤ size :=
        Nat.le_trans (List.length_filter_le _ rest) (Nat.le_of_succ_le_succ bound)
      have absent : x ∉ (rest.filter fun y => !y == x).eraseDups := by
        simp [List.mem_eraseDups]
      rw [List.eraseDups_cons]
      exact List.nodup_cons.mpr ⟨absent, ih _ shorter⟩

namespace Addition

theorem mem_directories {root path : String} {names : List String} :
    path ∈ directories root names ↔
      Path.parts path.toList <+: Text.components Path.isSlash root.toList ∨
        ∃ name ∈ names, Path.Above path.toList (Path.join root name).toList := by
  simp only [directories, List.mem_mergeSort, List.mem_eraseDups, List.mem_append, List.mem_flatMap,
    Path.mem_chain, Path.mem_ancestors]

theorem directories_nodup (root : String) (names : List String) : (directories root names).Nodup :=
  (List.mergeSort_perm _ _).nodup_iff.mpr (eraseDups_nodup _ _ (Nat.le_refl _))

theorem directories_sorted (root : String) (names : List String) :
    (directories root names).Pairwise fun a b => a ≤ b := by
  have sorted := @List.pairwise_mergeSort _ (fun a b : String => decide (a ≤ b))
    (by
      intro a b c first second
      simp only [decide_eq_true_eq] at first second ⊢
      exact String.le_trans first second)
    (by
      intro a b
      simp only [Bool.or_eq_true, decide_eq_true_eq]
      exact String.le_total a b)
    (Path.chain root ++ names.flatMap fun name => Path.ancestors (Path.join root name)).eraseDups
  exact sorted.imp fun less => by simpa using less

/-- The directories that are made for files of these names: those on the way to the root, by its
    parts that are not empty, and those above each file, by the slashes in its path. -/
structure MadeFor (root : String) (names dirs : List String) : Prop where
  ascending : dirs.Pairwise fun a b => a < b
  exact : ∀ path, path ∈ dirs ↔ names ≠ [] ∧
    (Path.parts path.toList <+: Text.components Path.isSlash root.toList ∨
      ∃ name ∈ names, Path.Above path.toList (Path.join root name).toList)

theorem MadeFor.unique {root : String} {names dirs dirs' : List String}
    (first : MadeFor root names dirs) (second : MadeFor root names dirs') : dirs = dirs' := by
  have : Std.Irrefl fun a b : String => a < b := ⟨String.lt_irrefl⟩
  refine first.ascending.eq_of_mem_iff second.ascending fun path => ?_
  rw [first.exact, second.exact]

theorem directories_ascending (root : String) (names : List String) :
    (directories root names).Pairwise fun a b => a < b := by
  refine ((directories_sorted root names).and (directories_nodup root names)).imp ?_
  rintro a b ⟨atMost, differ⟩
  exact String.not_le.mp fun back => differ (String.le_antisymm atMost back)

theorem directories_madeFor {names : List String} (some : names ≠ []) (root : String) :
    MadeFor root names (directories root names) where
  ascending := directories_ascending root names
  exact path := by rw [mem_directories, and_iff_right some]

theorem nothing_madeFor (root : String) : MadeFor root [] [] where
  ascending := .nil
  exact path := by simp

theorem directories_closed {root parent path : String} {names : List String}
    (member : path ∈ directories root names) (above : Path.Above parent.toList path.toList) :
    parent ∈ directories root names := by
  obtain ⟨rest, _, split⟩ := Path.above_iff.mp above
  rw [mem_directories] at member ⊢
  rcases member with inRoot | ⟨name, given, below⟩
  · rw [split] at inRoot
    exact .inl ((List.prefix_append _ _).trans inRoot)
  · exact .inr ⟨name, given, above.trans below⟩

theorem directories_ordered {root parent path : String} {names before after : List String}
    (split : directories root names = before ++ path :: after)
    (above : Path.Above parent.toList path.toList) : parent ∈ before := by
  have member : parent ∈ before ++ path :: after := by
    rw [← split]
    exact directories_closed (by rw [split]; simp) above
  have sorted := directories_sorted root names
  rw [split] at sorted
  have less := Path.above_lt above
  rcases List.mem_append.mp member with earlier | rest
  · exact earlier
  · rcases List.mem_cons.mp rest with same | later
    · rw [same] at less
      exact absurd less (String.lt_irrefl _)
    · have behind := (List.pairwise_cons.mp (List.pairwise_append.mp sorted).2.1).1 parent later
      exact absurd less (String.not_lt.mpr behind)

theorem file_parent {root name : String} {names : List String} {front : List Char}
    (member : name ∈ names)
    (cut : beforeLast Path.isSlash (Path.join root name).toList = some front) :
    String.ofList front ∈ directories root names := by
  refine mem_directories.mpr (.inr ⟨name, member, ?_⟩)
  rw [String.toList_ofList]
  exact Path.above_of_cut cut

theorem directory_parent {root path : String} {names : List String} {front : List Char}
    (member : path ∈ directories root names)
    (cut : beforeLast Path.isSlash path.toList = some front) :
    String.ofList front ∈ directories root names := by
  refine directories_closed member ?_
  rw [String.toList_ofList]
  exact Path.above_of_cut cut

theorem directories_split {root : String} {names : List String} {front : List Char}
    (parent : String.ofList front ∈ directories root names) :
    ∃ before after, directories root names = before ++ String.ofList front :: after ∧
      String.ofList front ∉ after ∧
      ∀ path ∈ directories root names,
        beforeLast Path.isSlash path.toList = some front → path ∈ after := by
  obtain ⟨before, after, split⟩ := List.append_of_mem parent
  have nodup := directories_nodup root names
  have sorted := directories_sorted root names
  rw [split] at nodup sorted
  refine ⟨before, after, split, ?_, ?_⟩
  · exact (List.nodup_cons.mp (List.nodup_append.mp nodup).2.1).1
  · intro path member cut
    have below : String.ofList front < path := by
      apply Path.above_lt
      rw [String.toList_ofList]
      exact Path.above_of_cut cut
    rw [split] at member
    rcases List.mem_append.mp member with earlier | later
    · have above := (List.pairwise_append.mp sorted).2.2 path earlier (String.ofList front)
        List.mem_cons_self
      exact absurd below (String.not_lt.mpr above)
    · rcases List.mem_cons.mp later with same | behind
      · subst same
        exact absurd below (String.lt_irrefl _)
      · exact behind

def ofDirectory (name : String) : Addition := ⟨name, .directory, []⟩

def ofContents (root : String) (files : List (String × Bytes)) : List Addition :=
  files.map fun f => ⟨Path.join root f.1, .executable, f.2⟩

def ofInit (injection : Injection) (config : LoaderConfig) : List Addition :=
  match injection.init with
  | none => []
  | some data => [⟨config.initName, .executable, data⟩]

theorem mem_ofInit {injection : Injection} {config : LoaderConfig} {a : Addition}
    (member : a ∈ ofInit injection config) :
    a.name = config.initName ∧ injection.init.isSome = true := by
  cases given : injection.init with
  | none => simp [ofInit, given] at member
  | some data =>
    simp only [ofInit, given, List.mem_singleton] at member
    subst member
    exact ⟨rfl, rfl⟩

theorem ofFiles_eq {files : List (String × Bytes)} (nonempty : files ≠ []) (root : String) :
    ofFiles root files =
      (directories root (files.map (·.1))).map ofDirectory ++ ofContents root files := by
  have present : ¬ files.isEmpty = true := by simp [nonempty]
  rw [ofFiles, if_neg present]
  rfl

/-- The directory that an addition lies in, where no file has the name of a directory. -/
theorem ofFiles_split {files : List (String × Bytes)} {root : String} {front : List Char}
    {a : Addition} (apart : ∀ f ∈ files, Path.join root f.1 ∉ directories root (files.map (·.1)))
    (member : a ∈ ofFiles root files)
    (cut : beforeLast Path.isSlash a.name.toList = some front) :
    ∃ before after, ofFiles root files = before ++ ofDirectory (String.ofList front) :: after ∧
      a ∈ after ∧ ∀ x ∈ after, x.name ≠ String.ofList front := by
  have nonempty : files ≠ [] := by
    rintro rfl
    cases member
  have parts := ofFiles_eq nonempty root
  rw [parts] at member
  have parentIn : String.ofList front ∈ directories root (files.map (·.1)) := by
    rcases List.mem_append.mp member with made | file
    · obtain ⟨path, among, rfl⟩ := List.mem_map.mp made
      exact directory_parent among cut
    · obtain ⟨f, given, rfl⟩ := List.mem_map.mp file
      exact file_parent (List.mem_map_of_mem given) cut
  obtain ⟨before, after, split, single, behind⟩ := directories_split parentIn
  refine ⟨before.map ofDirectory, after.map ofDirectory ++ ofContents root files, ?_, ?_, ?_⟩
  · rw [parts, split, List.map_append, List.map_cons, List.append_assoc, List.cons_append]
  · rcases List.mem_append.mp member with made | file
    · obtain ⟨path, among, rfl⟩ := List.mem_map.mp made
      exact List.mem_append_left _ (List.mem_map_of_mem (behind path among cut))
    · exact List.mem_append_right _ file
  · intro x later same
    rcases List.mem_append.mp later with made | file
    · obtain ⟨path, among, rfl⟩ := List.mem_map.mp made
      have path_eq : path = String.ofList front := same
      exact single (path_eq ▸ among)
    · obtain ⟨f, given, rfl⟩ := List.mem_map.mp file
      have path_eq : Path.join root f.1 = String.ofList front := same
      exact apart f given (path_eq ▸ parentIn)

end Addition
end KernelBoot
