import KernelBoot.ImageTool.Pack

/-!
Trees of files. What lies in a tree lies there at a path of names; the walk of a tree lists it all,
every directory in front of what it holds. Where the names of each directory are in order, so are
the paths of the walk.
-/
namespace KernelBoot.FileNode

/-- The node lies at this path below a directory with these children. -/
inductive Lies : List (Bytes × FileNode) → List Bytes → FileNode → Prop
  | top {children name node} (member : (name, node) ∈ children) : Lies children [name] node
  | inside {children name inner path node} (member : (name, .directory inner) ∈ children)
      (deeper : Lies inner path node) : Lies children (name :: path) node

/-- The children of every directory of a tree have a property. -/
inductive Everywhere (P : List (Bytes × FileNode) → Prop) : List (Bytes × FileNode) → Prop
  | intro {children} (here : P children)
      (inner : ∀ name inner, (name, .directory inner) ∈ children → Everywhere P inner) :
      Everywhere P children

structure IsName (name : Bytes) : Prop where
  some : name ≠ []
  plain : (0x2F : UInt8) ∉ name
  text : (Text.strict? name).isSome = true

instance (name : Bytes) : Decidable (IsName name) :=
  decidable_of_iff (name ≠ [] ∧ (0x2F : UInt8) ∉ name ∧ (Text.strict? name).isSome = true)
    ⟨fun parts => ⟨parts.1, parts.2.1, parts.2.2⟩, fun h => ⟨h.some, h.plain, h.text⟩⟩

structure Named (children : List (Bytes × FileNode)) : Prop where
  names : ∀ child ∈ children, IsName child.1
  distinct : (children.map Prod.fst).Nodup

def Ascending (children : List (Bytes × FileNode)) : Prop :=
  (children.map Prod.fst).Pairwise (· < ·)

/-- What an archive has of a node: a mode and contents. Directories and regular files only. -/
def packed? : FileNode → Option (Mode × Bytes)
  | .file executable content => some (if executable then .executable else .file, content)
  | .directory _ => some (.directory, [])
  | .other => none
  | .unreadable _ => none

abbrev Item := List Bytes × Mode × Bytes

/-! The walk of a tree. -/

mutual

def items (path : List Bytes) : FileNode → List Item
  | .file executable content => [(path, if executable then .executable else .file, content)]
  | .directory children => (path, .directory, []) :: itemsBelow path children
  | .other => []
  | .unreadable _ => []

def itemsBelow (path : List Bytes) : List (Bytes × FileNode) → List Item
  | [] => []
  | (name, node) :: rest => items (path ++ [name]) node ++ itemsBelow path rest

end

variable {children rest inner : List (Bytes × FileNode)} {name : Bytes} {node : FileNode}
  {path : List Bytes}

theorem children_induction {P : List (Bytes × FileNode) → Prop} (nil : P [])
    (cons : ∀ name node rest, (∀ inner, node = .directory inner → P inner) → P rest →
      P ((name, node) :: rest)) : ∀ children, P children
  | [] => nil
  | (name, node) :: rest => by
    refine cons name node rest (fun inner same => ?_) (children_induction nil cons rest)
    exact children_induction nil cons inner
termination_by children => sizeOf children
decreasing_by
  · subst same
    simp only [List.cons.sizeOf_spec, Prod.mk.sizeOf_spec, directory.sizeOf_spec]
    omega
  · simp only [List.cons.sizeOf_spec, Prod.mk.sizeOf_spec]
    omega

theorem lies_cons {found : FileNode} : Lies ((name, node) :: rest) path found ↔
    (path = [name] ∧ found = node) ∨
      (∃ inner deeper, node = .directory inner ∧ path = name :: deeper ∧ Lies inner deeper found) ∨
      Lies rest path found := by
  constructor
  · intro lies
    cases lies with
    | top member =>
      rcases List.mem_cons.mp member with first | later
      · cases first
        exact .inl ⟨rfl, rfl⟩
      · exact .inr (.inr (.top later))
    | inside member deeper =>
      rcases List.mem_cons.mp member with first | later
      · cases first
        exact .inr (.inl ⟨_, _, rfl, rfl, deeper⟩)
      · exact .inr (.inr (.inside later deeper))
  · rintro (⟨rfl, rfl⟩ | ⟨inner, deeper, rfl, rfl, lies⟩ | lies)
    · exact .top List.mem_cons_self
    · exact .inside List.mem_cons_self lies
    · cases lies with
      | top member => exact .top (List.mem_cons_of_mem _ member)
      | inside member deeper => exact .inside (List.mem_cons_of_mem _ member) deeper

theorem not_lies_nil {found : FileNode} : ¬ Lies [] path found := by
  intro lies
  cases lies with
  | top member => cases member
  | inside member deeper => cases member

theorem Lies.through {found : FileNode} (lies : Lies children path found) :
    ∃ child ∈ children, ∃ deeper, path = child.1 :: deeper := by
  cases lies with
  | top member => exact ⟨_, member, [], rfl⟩
  | inside member deeper => exact ⟨_, member, _, rfl⟩

theorem mem_items {full : List Bytes} {what : Mode × Bytes} :
    (full, what) ∈ items path node ↔ (full = path ∧ node.packed? = some what) ∨
      ∃ inner, node = .directory inner ∧ (full, what) ∈ itemsBelow path inner := by
  cases node with
  | file executable content => simp [items, packed?, eq_comm]
  | directory inner => simp [items, packed?, eq_comm]
  | other => simp [items, packed?]
  | unreadable reason => simp [items, packed?]

/-- The walk lists just what lies in the tree and can be packed. -/
theorem mem_itemsBelow {full : List Bytes} {what : Mode × Bytes} :
    ∀ {path}, (full, what) ∈ itemsBelow path children ↔
      ∃ deeper node, full = path ++ deeper ∧ Lies children deeper node ∧
        node.packed? = some what := by
  induction children using children_induction with
  | nil =>
    intro path
    constructor
    · intro member
      cases member
    · rintro ⟨deeper, node, _, lies, _⟩
      exact absurd lies not_lies_nil
  | cons name node rest ihInner ihRest =>
    intro path
    rw [itemsBelow, List.mem_append, mem_items, ihRest]
    constructor
    · rintro ((⟨rfl, packed⟩ | ⟨inner, rfl, member⟩) | ⟨deeper, found, rfl, lies, packed⟩)
      · exact ⟨[name], node, rfl, lies_cons.mpr (.inl ⟨rfl, rfl⟩), packed⟩
      · obtain ⟨deeper, found, rfl, lies, packed⟩ := (ihInner inner rfl).mp member
        refine ⟨name :: deeper, found, ?_, ?_, packed⟩
        · rw [List.append_assoc, List.singleton_append]
        · exact lies_cons.mpr (.inr (.inl ⟨inner, deeper, rfl, rfl, lies⟩))
      · exact ⟨deeper, found, rfl, lies_cons.mpr (.inr (.inr lies)), packed⟩
    · rintro ⟨deeper, found, rfl, lies, packed⟩
      rcases lies_cons.mp lies with ⟨rfl, rfl⟩ | ⟨inner, more, rfl, rfl, further⟩ | later
      · exact .inl (.inl ⟨rfl, packed⟩)
      · refine .inl (.inr ⟨inner, rfl, (ihInner inner rfl).mpr ⟨more, found, ?_, further, packed⟩⟩)
        rw [List.append_assoc, List.singleton_append]
      · exact .inr ⟨deeper, found, rfl, later, packed⟩

namespace Everywhere
variable {P Q : List (Bytes × FileNode) → Prop}

theorem here (all : Everywhere P children) : P children := by
  cases all with
  | intro here _ => exact here

theorem deeper (all : Everywhere P children) (member : (name, .directory inner) ∈ children) :
    Everywhere P inner := by
  cases all with
  | intro _ below => exact below name inner member

theorem tail (all : Everywhere P ((name, node) :: rest)) (less : P rest) : Everywhere P rest :=
  .intro less fun _ _ member => all.deeper (List.mem_cons_of_mem _ member)

end Everywhere

theorem Named.tail (named : Named ((name, node) :: rest)) : Named rest where
  names child member := named.names child (List.mem_cons_of_mem _ member)
  distinct := (List.nodup_cons.mp named.distinct).2

theorem items_under {full : List Bytes} {what : Mode × Bytes}
    (member : (full, what) ∈ items path node) : ∃ deeper, full = path ++ deeper := by
  rcases mem_items.mp member with ⟨rfl, _⟩ | ⟨inner, _, below⟩
  · exact ⟨[], (List.append_nil full).symm⟩
  · obtain ⟨deeper, _, rfl, _⟩ := mem_itemsBelow.mp below
    exact ⟨deeper, rfl⟩

/-- Where all names are in order, the walk is: a path is listed before those that it leads to, and
    what lies at different names lies in the order of the names. -/
theorem itemsBelow_ascending : ∀ {path}, Everywhere Ascending children →
    (itemsBelow path children).Pairwise fun a b => a.1 < b.1 := by
  induction children using children_induction with
  | nil =>
    intro path _
    exact List.Pairwise.nil
  | cons name node rest ihInner ihRest =>
    intro path ordered
    obtain ⟨first, later⟩ := List.pairwise_cons.mp ordered.here
    rw [itemsBelow, List.pairwise_append]
    refine ⟨?_, ihRest (ordered.tail later), ?_⟩
    · cases node with
      | directory inner =>
        refine List.pairwise_cons.mpr ⟨?_, ihInner inner rfl (ordered.deeper List.mem_cons_self)⟩
        intro item member
        obtain ⟨deeper, found, same, lies, _⟩ := mem_itemsBelow.mp member
        obtain ⟨child, _, more, rfl⟩ := lies.through
        have further : path ++ [name] ++ [] < path ++ [name] ++ child.1 :: more :=
          List.append_left_lt (List.nil_lt_cons child.1 more)
        rw [List.append_nil, ← same] at further
        exact further
      | file executable content => exact List.pairwise_singleton _ _
      | other => exact List.Pairwise.nil
      | unreadable reason => exact List.Pairwise.nil
    · intro a inFirst b inLater
      -- both paths go on from the same one, with names that are in order
      obtain ⟨deeper, equal⟩ := items_under inFirst
      obtain ⟨beyond, found, same, lies, _⟩ := mem_itemsBelow.mp inLater
      obtain ⟨child, member, more, rfl⟩ := lies.through
      rw [equal, same, List.append_assoc]
      apply List.append_left_lt
      exact List.cons_lt_cons_iff.mpr (.inl (first _ (List.mem_map_of_mem member)))

/-! A tree with the children of every directory in order. -/

def arranged (children : List (Bytes × FileNode)) : List (Bytes × FileNode) :=
  sortByName (sortedEach children)

theorem sortedEach_eq (children : List (Bytes × FileNode)) :
    sortedEach children = children.map fun child => (child.1, child.2.sorted) := by
  induction children with
  | nil => rfl
  | cons child rest ih => rw [sortedEach, ih, List.map_cons]

theorem mem_arranged {child : Bytes × FileNode} : child ∈ arranged children ↔
    ∃ node, (child.1, node) ∈ children ∧ child.2 = node.sorted := by
  rw [arranged, sortByName, List.mem_mergeSort, sortedEach_eq, List.mem_map]
  constructor
  · rintro ⟨original, member, rfl⟩
    exact ⟨original.2, member, rfl⟩
  · rintro ⟨node, member, same⟩
    exact ⟨(child.1, node), member, by rw [← same]⟩

theorem sorted_directory {inner : List (Bytes × FileNode)} (same : node.sorted = .directory inner) :
    ∃ original, node = .directory original ∧ inner = arranged original := by
  cases node with
  | directory original =>
    cases same
    exact ⟨original, rfl, rfl⟩
  | file executable content => cases same
  | other => cases same
  | unreadable reason => cases same

theorem sorted_packed (node : FileNode) : node.sorted.packed? = node.packed? := by
  cases node <;> rfl

theorem lies_arranged {found : FileNode} : Lies (arranged children) path found ↔
    ∃ node, Lies children path node ∧ found = node.sorted := by
  constructor
  · intro lies
    generalize same : arranged children = sortedChildren at lies
    induction lies generalizing children with
    | top member =>
      rw [← same] at member
      obtain ⟨node, original, equal⟩ := mem_arranged.mp member
      exact ⟨node, .top original, equal⟩
    | inside member _ ih =>
      rw [← same] at member
      obtain ⟨node, original, equal⟩ := mem_arranged.mp member
      obtain ⟨inner, rfl, rfl⟩ := sorted_directory equal.symm
      obtain ⟨node, deeper, equal⟩ := ih rfl
      exact ⟨node, .inside original deeper, equal⟩
  · rintro ⟨node, lies, rfl⟩
    induction lies with
    | top member => exact .top (mem_arranged.mpr ⟨_, member, rfl⟩)
    | inside member _ ih => exact .inside (mem_arranged.mpr ⟨_, member, rfl⟩) ih

theorem Everywhere.arranged {P Q : List (Bytes × FileNode) → Prop}
    (step : ∀ {children}, P children → Q (arranged children)) (all : Everywhere P children) :
    Everywhere Q (arranged children) := by
  induction all with
  | intro here _ ih =>
    refine .intro (step here) fun name inner member => ?_
    obtain ⟨node, original, equal⟩ := mem_arranged.mp member
    obtain ⟨inner, rfl, rfl⟩ := sorted_directory equal.symm
    exact ih name inner original

theorem arranged_names (children : List (Bytes × FileNode)) :
    ((arranged children).map Prod.fst).Perm (children.map Prod.fst) := by
  have perm := (List.mergeSort_perm (sortedEach children) fun a b => decide (a.1 ≤ b.1)).map Prod.fst
  have names : (sortedEach children).map Prod.fst = children.map Prod.fst := by
    rw [sortedEach_eq, List.map_map]
    rfl
  rw [names] at perm
  exact perm

theorem Named.arranged (named : Named children) : Named (arranged children) where
  names child member := by
    obtain ⟨node, original, _⟩ := mem_arranged.mp member
    exact named.names (child.1, node) original
  distinct := (arranged_names children).nodup_iff.mpr named.distinct

theorem Named.ascending (named : Named children) : Ascending (FileNode.arranged children) := by
  have sorted := @List.pairwise_mergeSort _ (fun a b : Bytes × FileNode => decide (a.1 ≤ b.1))
    (fun a b c ab bc => decide_eq_true (List.le_trans (of_decide_eq_true ab) (of_decide_eq_true bc)))
    (fun a b => by simpa using List.le_total a.1 b.1) (sortedEach children)
  have weak : ((FileNode.arranged children).map Prod.fst).Pairwise (· ≤ ·) := by
    rw [List.pairwise_map]
    exact sorted.imp fun le => of_decide_eq_true le
  have distinct := List.nodup_iff_pairwise_ne.mp named.arranged.distinct
  refine (weak.and distinct).imp fun both => ?_
  apply Classical.byContradiction
  intro notLess
  exact both.2 (List.le_antisymm both.1 (List.not_lt.mp notLess))

/-! Paths as text. Names have no slashes, so a path can be told from its text. -/

def joined (path : List Bytes) : Bytes := [0x2F].intercalate path

theorem joined_concat {front : List Bytes} (some : front ≠ []) (last : Bytes) :
    joined (front ++ [last]) = joined front ++ 0x2F :: last := by
  induction front with
  | nil => exact absurd rfl some
  | cons name rest ih =>
    cases rest with
    | nil => simp [joined]
    | cons next more =>
      have further := ih (List.cons_ne_nil next more)
      simp only [joined, List.cons_append, List.intercalate_cons_cons] at further ⊢
      rw [further]
      simp only [List.append_assoc, List.cons_append]

theorem joined_ends (front : List Bytes) (last : Bytes) :
    ∃ before, joined (front ++ [last]) = before ++ last := by
  cases front with
  | nil => exact ⟨[], by simp [joined]⟩
  | cons name rest =>
    refine ⟨joined (name :: rest) ++ [0x2F], ?_⟩
    rw [joined_concat (List.cons_ne_nil name rest), List.append_assoc, List.singleton_append]

theorem joined_inj {path path' : List Bytes} (some : path ≠ []) (some' : path' ≠ [])
    (plain : ∀ n ∈ path, (0x2F : UInt8) ∉ n) (plain' : ∀ n ∈ path', (0x2F : UInt8) ∉ n)
    (same : joined path = joined path') : path = path' := by
  have split := List.splitOn_intercalate 0x2F plain some
  have split' := List.splitOn_intercalate 0x2F plain' some'
  rw [← split, ← split']
  exact congrArg (List.splitOn 0x2F) same

/-- The text of a path ends as its last name does, in something that is no slash. -/
theorem joined_last (some : path ≠ []) (names : ∀ n ∈ path, IsName n) :
    ∃ b, (joined path).getLast? = .some b ∧ b ≠ 0x2F := by
  obtain ⟨before, text⟩ := joined_ends path.dropLast (path.getLast some)
  rw [List.dropLast_concat_getLast some] at text
  have name := names _ (List.getLast_mem some)
  cases last : (path.getLast some).getLast? with
  | none => exact absurd (List.getLast?_eq_none_iff.mp last) name.some
  | some b =>
    refine ⟨b, ?_, ?_⟩
    · rw [text, List.getLast?_append, last]
      rfl
    · rintro rfl
      exact name.plain (List.mem_of_getLast? last)

theorem joined_some (some : path ≠ []) (names : ∀ n ∈ path, IsName n) : joined path ≠ [] := by
  obtain ⟨b, last, _⟩ := joined_last some names
  intro none
  rw [none] at last
  cases last

theorem childPath_joined (names : ∀ n ∈ path, IsName n) (name : Bytes) :
    childPath (joined path) name = joined (path ++ [name]) := by
  by_cases some : path = []
  · rw [some]
    simp [joined, childPath]
  · obtain ⟨b, last, differs⟩ := joined_last some names
    rw [joined_concat some, childPath, last]
    have filled : (joined path).isEmpty = false := by
      simpa using joined_some some names
    simp [filled, differs]

theorem Lies.path_some {found : FileNode} (lies : Lies children path found) : path ≠ [] := by
  obtain ⟨_, _, _, rfl⟩ := lies.through
  exact List.cons_ne_nil _ _

theorem Lies.names {found : FileNode} (lies : Lies children path found)
    (named : Everywhere Named children) : ∀ n ∈ path, IsName n := by
  induction lies with
  | top member =>
    intro n only
    rw [List.mem_singleton.mp only]
    exact named.here.names _ member
  | inside member _ ih =>
    intro n listed
    rcases List.mem_cons.mp listed with rfl | deeper
    · exact named.here.names _ member
    · exact ih (named.deeper member) n deeper

end KernelBoot.FileNode
