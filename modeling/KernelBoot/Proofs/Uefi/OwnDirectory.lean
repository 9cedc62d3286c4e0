import KernelBoot.Proofs.Ramdisk.PathParts
import KernelBoot.Uefi.Options
import Mathlib.Data.List.TakeWhile

/-!
The directory of an application, from the text of its path. What is taken for a device node is
everything up to the last closing parenthesis, wherever that stands. So a directory with a
parenthesis in its name is lost with all that lies above it; so are all directories above a file
with one.
-/
namespace KernelBoot.LaunchOptions
open Text

def isSeparator (c : Char) : Bool := c == '\\' || c == '/'

def IsPart (name : String) : Prop :=
  name.toList ≠ [] ∧ ∀ c ∈ name.toList, isSeparator c = false

instance (name : String) : Decidable (IsPart name) :=
  decidable_of_iff (name.toList ≠ [] ∧ name.toList.any isSeparator = false) (by simp [IsPart])

/-- A device in front of a path: its kind, and in parentheses what tells it apart. -/
structure DeviceNode where
  kind : String
  arguments : String

def DeviceNode.text (node : DeviceNode) : List Char :=
  node.kind.toList ++ '(' :: node.arguments.toList ++ [')', '/']

/-- Names with a separator in front of each. -/
def chained (separator : Char) (names : List String) : List Char :=
  names.flatMap fun name => separator :: name.toList

def imagePath (node : Option DeviceNode) (names : List String) : String :=
  String.ofList (node.elim [] DeviceNode.text ++ chained '\\' names)

def directory (names : List String) : String := "/" ++ "/".intercalate names

def behindParenthesis (text : List Char) : List Char :=
  (text.reverse.takeWhile (· != ')')).reverse

variable {names behind : List String}

theorem behindParenthesis_free {text : List Char} (free : ')' ∉ text) :
    behindParenthesis text = text := by
  have kept : ∀ c ∈ text.reverse, (c != ')') = true := by
    intro c member
    rw [bne_iff_ne]
    rintro rfl
    exact free (List.mem_reverse.mp member)
  rw [behindParenthesis, List.takeWhile_eq_self_iff.mpr kept, List.reverse_reverse]

theorem behindParenthesis_cut (front : List Char) {tail : List Char} (free : ')' ∉ tail) :
    behindParenthesis (front ++ ')' :: tail) = tail := by
  have kept := behindParenthesis_free free
  rw [behindParenthesis, List.reverse_eq_iff, List.takeWhile_eq_self_iff] at kept
  have backwards : (front ++ ')' :: tail).reverse = tail.reverse ++ ')' :: front.reverse := by simp
  rw [behindParenthesis, backwards, List.takeWhile_append_of_pos kept,
    List.takeWhile_cons_of_neg (by decide), List.append_nil, List.reverse_reverse]

theorem last_with (p : α → Prop) (l : List α) :
    (∀ a ∈ l, ¬ p a) ∨ ∃ front a behind, l = front ++ a :: behind ∧ p a ∧ ∀ b ∈ behind, ¬ p b := by
  induction l with
  | nil => exact .inl nofun
  | cons a rest ih =>
    rcases ih with free | ⟨front, b, behind, rfl, hit, free⟩
    · by_cases hit : p a
      · exact .inr ⟨[], a, rest, rfl, hit, free⟩
      · exact .inl (List.forall_mem_cons.mpr ⟨hit, free⟩)
    · exact .inr ⟨a :: front, b, behind, rfl, hit, free⟩

/-! Texts and their parts. -/

theorem upper_parts (parts : ∀ name ∈ names, IsPart name) :
    ∀ name ∈ names.dropLast, IsPart name := by
  intro name member
  exact parts name (List.dropLast_subset _ member)

theorem chained_free (free : ∀ name ∈ names, ')' ∉ name.toList) : ')' ∉ chained '\\' names := by
  intro member
  obtain ⟨name, among, inside⟩ := List.mem_flatMap.mp member
  rcases List.mem_cons.mp inside with separator | inName
  · cases separator
  · exact free name among inName

theorem chained_directory (present : names ≠ []) :
    chained '/' names = (directory names).toList := by
  induction names with
  | nil => exact absurd rfl present
  | cons first rest ih =>
    cases rest with
    | nil => simp [chained, directory]
    | cons next more =>
      have later := ih (List.cons_ne_nil next more)
      have begins : chained '/' (first :: next :: more) =
          '/' :: first.toList ++ chained '/' (next :: more) := rfl
      rw [begins, later]
      simp [directory, String.toList_intercalate]

theorem components_chained {separator : Char} (hit : isSeparator separator = true)
    (parts : ∀ name ∈ names, IsPart name) (front : List Char) :
    components isSeparator (front ++ chained separator names) =
      components isSeparator front ++ names.map String.toList := by
  induction names generalizing front with
  | nil => simp [chained]
  | cons name rest ih =>
    obtain ⟨⟨present, joined⟩, later⟩ := List.forall_mem_cons.mp parts
    have single : components isSeparator name.toList = [name.toList] := by
      rw [components_single joined, if_neg (by simpa using present)]
    have regroup : front ++ chained separator (name :: rest) =
        front ++ separator :: (name.toList ++ chained separator rest) := rfl
    rw [regroup, components_cut hit, ih later, single]
    rfl

theorem components_directory (parts : ∀ name ∈ names, IsPart name) :
    components isSeparator (directory names).toList = names.map String.toList := by
  by_cases top : names = []
  · subst top
    rfl
  · rw [← chained_directory top]
    exact components_chained rfl parts []

theorem directory_injective {others : List String} (parts : ∀ name ∈ names, IsPart name)
    (parts' : ∀ name ∈ others, IsPart name) (same : directory names = directory others) :
    names = others := by
  have split := components_directory parts
  rw [same, components_directory parts'] at split
  exact ((List.map_inj_right fun _ _ => String.toList_inj.mp).mp split).symm

/-- The directory is all but the last of the parts that are left. -/
theorem loaderDir_left {text : List Char} {left : List String}
    (split : components isSeparator (behindParenthesis text) = left.map String.toList) :
    loaderDir (String.ofList text) = directory left.dropLast := by
  have parts : (components (fun c => c == '\\' || c == '/')
      (text.reverse.takeWhile (· != ')')).reverse).dropLast = left.dropLast.map String.toList := by
    rw [List.map_dropLast]
    exact congrArg List.dropLast split
  rw [loaderDir, String.toList_ofList]
  simp only [parts]
  cases left.dropLast with
  | nil => rfl
  | cons first rest =>
    rw [← String.toList_inj, ← chained_directory (List.cons_ne_nil first rest)]
    simp [chained, List.flatMap_map]

variable {node : Option DeviceNode}

theorem loaderDir_free (parts : ∀ name ∈ names, IsPart name)
    (free : ∀ name ∈ names, ')' ∉ name.toList) :
    loaderDir (imagePath node names) = directory names.dropLast := by
  apply loaderDir_left
  have noneInChain := chained_free free
  cases node with
  | none =>
    show components isSeparator (behindParenthesis (chained '\\' names)) = _
    rw [behindParenthesis_free noneInChain]
    exact components_chained rfl parts []
  | some n =>
    have cut : n.text ++ chained '\\' names =
        (n.kind.toList ++ '(' :: n.arguments.toList) ++ ')' :: (['/'] ++ chained '\\' names) := by
      simp [DeviceNode.text]
    show components isSeparator (behindParenthesis (n.text ++ chained '\\' names)) = _
    rw [cut, behindParenthesis_cut _ (by simpa using noneInChain)]
    exact components_chained rfl parts ['/']

theorem kept_parts (parts : ∀ name ∈ names, IsPart name) :
    names.filter (fun name => name ≠ "") = names := by
  apply List.filter_eq_self.mpr
  intro name member
  have present := (parts name member).1
  simpa using present

/-- A parenthesis in a name takes everything in front of it away. -/
theorem loaderDir_cut {before : List String} {front tail : String}
    (parts : ∀ name ∈ before ++ (front ++ ")" ++ tail) :: behind, IsPart name)
    (last : ')' ∉ tail.toList) (free : ∀ name ∈ behind, ')' ∉ name.toList) :
    loaderDir (imagePath node (before ++ (front ++ ")" ++ tail) :: behind)) =
      directory ((tail :: behind).filter (· ≠ "")).dropLast := by
  apply loaderDir_left
  obtain ⟨_, within⟩ := List.forall_mem_append.mp parts
  obtain ⟨⟨_, joined⟩, later⟩ := List.forall_mem_cons.mp within
  have unjoined : ∀ c ∈ tail.toList, isSeparator c = false := by
    intro c member
    exact joined c (by simp [member])
  have cut : node.elim [] DeviceNode.text ++
        chained '\\' (before ++ (front ++ ")" ++ tail) :: behind) =
      (node.elim [] DeviceNode.text ++ chained '\\' before ++ '\\' :: front.toList) ++
        ')' :: (tail.toList ++ chained '\\' behind) := by
    simp [chained]
  have noneBehind : ')' ∉ tail.toList ++ chained '\\' behind := by
    rw [List.mem_append, not_or]
    exact ⟨last, chained_free free⟩
  rw [cut, behindParenthesis_cut _ noneBehind, components_chained rfl later,
    components_single unjoined, List.filter_cons, kept_parts later]
  by_cases empty : tail = ""
  · subst empty
    rfl
  · simp [empty]

theorem last_parenthesis {name : String} (inside : ')' ∈ name.toList) :
    ∃ front tail : String, name = front ++ ")" ++ tail ∧ ')' ∉ tail.toList := by
  rcases last_with (· = ')') name.toList with none | ⟨front, c, tail, split, rfl, free⟩
  · exact absurd rfl (none ')' inside)
  · refine ⟨String.ofList front, String.ofList tail, ?_, ?_⟩
    · rw [← String.toList_inj, split]
      simp
    · rw [String.toList_ofList]
      intro member
      exact free ')' member rfl

theorem loaderDir_single (parts : ∀ name ∈ names, IsPart name) (single : names.length = 1) :
    loaderDir (imagePath node names) = directory names.dropLast := by
  obtain ⟨name, rfl⟩ := List.length_eq_one_iff.mp single
  by_cases inside : ')' ∈ name.toList
  · obtain ⟨front, tail, rfl, last⟩ := last_parenthesis inside
    have cut : loaderDir (imagePath node ([] ++ [front ++ ")" ++ tail])) =
        directory ([tail].filter (· ≠ "")).dropLast := loaderDir_cut parts last nofun
    by_cases empty : tail = "" <;> simpa [empty] using cut
  · exact loaderDir_free parts (by simpa using inside)

theorem left_parts {front tail : String}
    (parts : ∀ name ∈ (front ++ ")" ++ tail) :: behind, IsPart name) :
    ∀ name ∈ (tail :: behind).filter (· ≠ ""), IsPart name := by
  obtain ⟨⟨_, joined⟩, later⟩ := List.forall_mem_cons.mp parts
  intro name member
  obtain ⟨among, present⟩ := List.mem_filter.mp member
  rcases List.mem_cons.mp among with rfl | behindIt
  · exact ⟨by simpa using present, fun c inside => joined c (by simp [inside])⟩
  · exact later name behindIt

/-- What is left behind a parenthesis has the right directories only where there are none. -/
theorem single_of_same {before : List String} {front tail : String}
    (parts : ∀ name ∈ before ++ (front ++ ")" ++ tail) :: behind, IsPart name)
    (same : directory ((tail :: behind).filter (· ≠ "")).dropLast =
      directory (before ++ (front ++ ")" ++ tail) :: behind).dropLast) :
    (before ++ (front ++ ")" ++ tail) :: behind).length = 1 := by
  obtain ⟨_, within⟩ := List.forall_mem_append.mp parts
  obtain ⟨_, later⟩ := List.forall_mem_cons.mp within
  have names := directory_injective (upper_parts (left_parts within)) (upper_parts parts) same
  have lengths := congrArg List.length names
  rw [List.filter_cons, kept_parts later] at names lengths
  rw [List.length_dropLast, List.length_dropLast, List.length_append, List.length_cons] at lengths
  rw [List.length_append, List.length_cons]
  by_cases empty : tail = ""
  · rw [if_neg (by simpa using empty)] at lengths
    omega
  · rw [if_pos (by simpa using empty)] at names lengths
    rw [List.length_cons] at lengths
    have top : before = [] := List.eq_nil_of_length_eq_zero (by omega)
    subst top
    cases behind with
    | nil => rfl
    | cons next more =>
      have whole : tail = front ++ ")" ++ tail := (List.cons.inj names).1
      have longer := congrArg String.length whole
      rw [String.length_append, String.length_append] at longer
      have parenthesis : ")".length = 1 := rfl
      omega

/-- The directory is the one that the application lies in exactly if no name has a closing
    parenthesis, or there is only one name. Else, what lies in front of the last parenthesis is
    lost. -/
theorem own_directory (node : Option DeviceNode) (parts : ∀ name ∈ names, IsPart name) :
    (loaderDir (imagePath node names) = directory names.dropLast ↔
      (∀ name ∈ names, ')' ∉ name.toList) ∨ names.length = 1) ∧
    ∀ before front tail behind, names = before ++ (front ++ ")" ++ tail) :: behind →
      ')' ∉ tail.toList → (∀ name ∈ behind, ')' ∉ name.toList) →
      loaderDir (imagePath node names) = directory ((tail :: behind).filter (· ≠ "")).dropLast := by
  constructor
  · constructor
    · intro same
      rcases last_with (fun name : String => ')' ∈ name.toList) names with
        none | ⟨before, name, behind, split, inside, free⟩
      · exact .inl none
      · obtain ⟨front, tail, apart, last⟩ := last_parenthesis inside
        subst split apart
        right
        rw [loaderDir_cut parts last free] at same
        exact single_of_same parts same
    · rintro (free | single)
      · exact loaderDir_free parts free
      · exact loaderDir_single parts single
  · rintro before front tail behind rfl last free
    exact loaderDir_cut parts last free

/-- Directories are lost, with the one that has a parenthesis in its name among them. -/
theorem own_directory_parentheses :
    (∀ name ∈ ["EFI", "tools (x86)", "android-uefi.efi"], IsPart name) ∧
    loaderDir (imagePath none ["EFI", "tools (x86)", "android-uefi.efi"]) = "/" ∧
    directory ["EFI", "tools (x86)"] = "/EFI/tools (x86)" := by
  have parts : ∀ name ∈ ["EFI", "tools (x86)", "android-uefi.efi"], IsPart name := by decide
  have found := (own_directory none parts).2 ["EFI"] "tools (x86" "" ["android-uefi.efi"] rfl
    (by decide) (by decide)
  exact ⟨parts, found, rfl⟩

end KernelBoot.LaunchOptions
