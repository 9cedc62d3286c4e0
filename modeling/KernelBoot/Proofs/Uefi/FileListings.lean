import KernelBoot.Proofs.Uefi.VolumeHandles

/-!
Listings of the files below a directory, on any firmware that shows a tree of files through its
handles. Where every directory on the way can be opened and read, a listing has the files of all
directories that show themselves, once each and in the order in which they are come across. Where
one cannot, there is no listing at all. But a directory that does not show itself is passed over
without a word.
-/
namespace KernelBoot
open Attempt WideText VolumeTree

namespace VolumeTree

/-- A directory that can be read to its end, and the directories in it can be opened. -/
structure Works (directory : VolumeTree) : Prop where
  reads : directory.ending = .ok ()
  opens : ∀ entry ∈ directory.entries, isParentName (shown entry.1) = false →
    entry.2.isDirectory = true → entry.2.opening = .ok ()

/-- An entry that a listing comes through: it is opened if it is a directory's, and what is below it
    works. -/
def EntryWorks (entry : String × VolumeTree) : Prop :=
  isParentName (shown entry.1) = false →
    (entry.2.isDirectory = true → entry.2.opening = .ok ()) ∧ Everywhere isListed Works entry.2

end VolumeTree

/-- The listing has found these paths if all works, and is none at all if not. Where it ends well,
    directories are read on through some of the handles. -/
structure HandleView.Settles (v : HandleView σ η) (among : η → Prop) (s : Session σ)
    (x : Attempt σ ListingError (List String)) (works : Prop) (found : List String) : Prop where
  given : works → ∃ w, x.Gives s found ⟨w, s.logger⟩ ∧ v.Keeps among s.world w
  failed : ¬ works → ∃ e t, x.Fails s (.storage e) t

variable {files : FileServices σ η} {v : HandleView σ η} {s t : Session σ} {h : η}
  {tree directory : VolumeTree} {entry : String × VolumeTree} {rest : List (String × VolumeTree)}
  {lead : String}

namespace HandleView
variable {among : η → Prop} {w w' w'' : σ}

theorem Keeps.trans (first : v.Keeps among w w') (second : v.Keeps among w' w'') :
    v.Keeps among w w'' :=
  fun h other directory rest reading =>
    second h other directory rest (first h other directory rest reading)

theorem Keeps.fewer (kept : v.Keeps (fun _ => True) w w') : v.Keeps among w w' :=
  fun h _ => kept h trivial

theorem settles_pure {found : List String} : v.Settles among s (pure found) True found :=
  ⟨fun _ => ⟨s.world, rfl, fun _ _ _ _ reading => reading⟩, fun no => absurd trivial no⟩

variable {x y : Attempt σ ListingError (List String)} {works works' : Prop}
  {found found' : List String}

theorem Settles.iff (settles : v.Settles among s x works found) (same : works' ↔ works) :
    v.Settles among s x works' found :=
  ⟨fun fine => settles.given (same.mp fine), fun bad => settles.failed fun fine => bad (same.mpr fine)⟩

/-- A handle through which nothing was read needs no mention. -/
theorem Settles.all (settles : v.Settles (· ≠ h) s x works found)
    (unread : ∀ directory rest, ¬ v.reading s.world h directory rest) :
    v.Settles (fun _ => True) s x works found := by
  refine ⟨fun fine => ?_, settles.failed⟩
  obtain ⟨w, gives, kept⟩ := settles.given fine
  refine ⟨w, gives, fun other _ directory rest reading => kept other ?_ directory rest reading⟩
  rintro rfl
  exact unread directory rest reading

theorem Settles.behind {first : Attempt σ ListingError α} {a : α}
    {f : α → Attempt σ ListingError (List String)} (gives : first.Gives s a ⟨w, s.logger⟩)
    (kept : v.Keeps among s.world w) (settles : v.Settles among ⟨w, s.logger⟩ (f a) works found) :
    v.Settles among s (first >>= f) works found := by
  constructor
  · intro fine
    obtain ⟨w', gives', kept'⟩ := settles.given fine
    exact ⟨w', gives_bind.mpr ⟨_, _, gives, gives'⟩, kept.trans kept'⟩
  · intro bad
    obtain ⟨e, t, fails⟩ := settles.failed bad
    exact ⟨e, t, fails_bind.mpr (.inr ⟨_, _, gives, fails⟩)⟩

theorem settles_failed {first : Attempt σ ListingError α} {e : StorageError}
    {f : α → Attempt σ ListingError (List String)} (fails : first.Fails s (.storage e) t)
    (bad : ¬ works) : v.Settles among s (first >>= f) works found :=
  ⟨fun fine => absurd fine bad, fun _ => ⟨e, t, fails_bind.mpr (.inl fails)⟩⟩

theorem Settles.append (first : v.Settles (fun _ => True) s x works found)
    (second : ∀ w, v.Keeps (fun _ => True) s.world w →
      v.Settles among ⟨w, s.logger⟩ y works' found') :
    v.Settles among s (do let front ← x; return front ++ (← y)) (works ∧ works')
      (found ++ found') := by
  by_cases fine : works
  · obtain ⟨w, gives, kept⟩ := first.given fine
    refine (Settles.behind gives kept.fewer ?_).iff (and_iff_right fine)
    constructor
    · intro fine'
      obtain ⟨w', gives', kept'⟩ := (second w kept).given fine'
      exact ⟨w', gives_bind.mpr ⟨_, _, gives', rfl⟩, kept'⟩
    · intro bad
      obtain ⟨e, t, fails⟩ := (second w kept).failed bad
      exact ⟨e, t, fails_bind.mpr (.inl fails)⟩
  · obtain ⟨e, t, fails⟩ := first.failed fine
    exact settles_failed fails fun both => fine both.1

end HandleView

theorem VolumeTree.everywhere_works_iff (listed : directory.isListed = true) :
    Everywhere isListed Works directory ↔
      directory.ending = .ok () ∧ ∀ entry ∈ directory.entries, EntryWorks entry := by
  rw [everywhere_iff]
  constructor
  · intro works
    obtain ⟨here, below⟩ := works listed
    exact ⟨here.reads, fun entry member other =>
      ⟨here.opens entry member other, below entry member other⟩⟩
  · rintro ⟨ends, entries⟩ _
    exact ⟨⟨ends, fun entry member other => (entries entry member other).1⟩,
      fun entry member other => (entries entry member other).2⟩

/-! Calls of the firmware, as a listing makes them. -/

theorem HandleKind.ofPosition_eq_directory {position : Except UefiStatus Nat} :
    ofPosition position = .directory ↔ position = .error .unsupported := by
  unfold ofPosition
  split <;> simp_all

theorem fails_storage {x : Attempt σ StorageError α} {e : StorageError} (fails : x.Fails s e t) :
    (x.mapError ListingError.storage).Fails s (.storage e) t := by
  rw [Fails, Effect.Ends] at fails
  rw [Fails, Effect.Ends, run_mapError, fails]
  rfl

namespace FileServices.Lawful
variable (lawful : files.Lawful v)
include lawful

/-- What an open handle turns out to be: the handle of a directory exactly where this shows itself. -/
theorem kind (opened : v.opened s.world h tree) : ∃ w found,
    (files.kind h : Attempt σ ε HandleKind).Gives s found ⟨w, s.logger⟩ ∧
      (found = .directory ↔ tree.isListed = true) ∧ v.Keeps (· ≠ h) s.world w ∧
      (tree.isListed = true → v.reading w h tree tree.entries) := by
  obtain ⟨w, ends, kept, reading⟩ := lawful.position opened
  refine ⟨w, .ofPosition tree.position, ?_, ?_, kept, reading⟩
  · exact gives_lift.mpr (Effect.ends_bind.mpr ⟨_, _, ends, rfl⟩)
  · rw [HandleKind.ofPosition_eq_directory, isListed_iff, isEnterable_iff]
    refine ⟨fun none => ⟨?_, none⟩, And.right⟩
    by_contra file
    exact lawful.file_position opened (Bool.eq_false_iff.mpr file) none

theorem subdirectory_settles {listing : η → String → Attempt σ ListingError (List String)}
    {path : String} {found : List String} (reading : v.reading s.world h directory rest)
    (member : entry ∈ directory.entries) (other : isParentName (shown entry.1) = false)
    (subdirectory : entry.2.isDirectory = true)
    (below : ∀ {s : Session σ} {g}, entry.2.isListed = true →
      v.reading s.world g entry.2 entry.2.entries →
      v.Settles (· ≠ g) s (listing g path) (Everywhere isListed Works entry.2) found) :
    v.Settles (fun _ => True) s
      (do
        let g ← (reported "open directory" (files.openFrom h entry.1)).mapError .storage
        if (← files.kind g) = .directory then listing g path else return [])
      (entry.2.opening = .ok () ∧ Everywhere isListed Works entry.2)
      (if entry.2.isListed then found else []) := by
  cases opens : entry.2.opening with
  | error status =>
    obtain ⟨w, fails⟩ := lawful.barred reading member other subdirectory opens
    obtain ⟨e, t, failed⟩ := reported_fails "open directory" fails
    exact HandleView.settles_failed (fails_storage failed) fun both => nomatch both.1
  | ok _ =>
    obtain ⟨g, w, gives, opened, kept, unread⟩ :=
      lawful.opening reading member other subdirectory opens
    obtain ⟨w', kind, found, isDirectory, kept', begins⟩ :=
      lawful.kind (s := ⟨w, s.logger⟩) (ε := ListingError) opened
    refine (HandleView.Settles.all (h := g) ?_ unread).iff (and_iff_right rfl)
    refine .behind (gives_mapError.mpr (gives_reported.mpr gives)) kept.fewer ?_
    refine .behind found kept' ?_
    by_cases listed : entry.2.isListed = true
    · rw [if_pos (isDirectory.mpr listed), if_pos listed]
      exact below listed (begins listed)
    · rw [if_neg fun same => listed (isDirectory.mp same), if_neg listed]
      exact HandleView.settles_pure.iff (iff_true_intro (everywhere_unpassed (by simpa using listed)))

theorem filesOf_settles {listing : η → String → Attempt σ ListingError (List String)}
    (reading : v.reading s.world h directory rest) (member : entry ∈ directory.entries)
    (below : ∀ {s : Session σ} {g}, entry.2.isListed = true →
      v.reading s.world g entry.2 entry.2.entries →
      v.Settles (· ≠ g) s (listing g (joinEntry lead (shown entry.1)))
        (Everywhere isListed Works entry.2)
        (entry.2.filePaths.map (·.foldl joinEntry (joinEntry lead (shown entry.1))))) :
    v.Settles (fun _ => True) s (files.filesOf listing h lead ⟨entry.1, entry.2.isDirectory⟩)
      (EntryWorks entry) ((entryPaths entry).map (·.foldl joinEntry lead)) := by
  unfold FileServices.filesOf entryPaths EntryWorks
  by_cases parent : isParentName (shown entry.1) = true
  · simp only [if_pos parent]
    exact HandleView.settles_pure.iff (by simp [parent])
  · have other := Bool.eq_false_iff.mpr parent
    simp only [other, Bool.false_eq_true, ↓reduceIte, List.map_map, Function.comp_def,
      List.foldl_cons, forall_const]
    by_cases subdirectory : entry.2.isDirectory = true
    · have settles := lawful.subdirectory_settles reading member other subdirectory below
      simp only [subdirectory, Bool.not_true, Bool.false_eq_true, ↓reduceIte, forall_const]
      by_cases listed : entry.2.isListed = true
      · rw [if_pos listed] at settles
        exact settles
      · rw [if_neg listed] at settles
        simp only [filePaths_unlisted listed, if_pos subdirectory]
        exact settles
    · have unlisted : ¬ entry.2.isListed = true := fun listed => subdirectory (isListed_iff.mp listed).1
      simp only [filePaths_unlisted unlisted, Bool.eq_false_iff.mpr subdirectory]
      refine HandleView.settles_pure.iff (iff_true_intro ⟨nofun, ?_⟩)
      exact everywhere_unpassed (by simpa using unlisted)

/-! One directory below another. -/

/-- The steps suffice for the entries that are left, and for what lies below each of them. -/
theorem entries_settle (below : ∀ entry ∈ directory.entries, ∀ {s : Session σ} {g lead} steps,
      entry.2.isListed = true → v.reading s.world g entry.2 entry.2.entries →
      entry.2.size ≤ steps → v.Settles (· ≠ g) s (files.walk steps g lead)
        (Everywhere isListed Works entry.2) (entry.2.filePaths.map (·.foldl joinEntry lead)))
    (among : ∀ entry ∈ rest, entry ∈ directory.entries)
    (reading : v.reading s.world h directory rest) {steps : Nat}
    (enough : (rest.map fun entry => entry.2.size).sum < steps) :
    v.Settles (· ≠ h) s (files.walk steps h lead)
      (directory.ending = .ok () ∧ ∀ entry ∈ rest, EntryWorks entry)
      ((rest.flatMap entryPaths).map (·.foldl joinEntry lead)) := by
  induction rest generalizing s steps with
  | nil =>
    obtain ⟨fewer, rfl⟩ := Nat.exists_eq_add_one_of_ne_zero (Nat.ne_zero_of_lt enough)
    obtain ⟨w, ends, kept⟩ := lawful.ending reading
    rw [FileServices.walk]
    cases outcome : directory.ending with
    | error status =>
      rw [outcome] at ends
      obtain ⟨e, t, failed⟩ := reported_fails "read directory" ends
      exact HandleView.settles_failed (fails_storage failed) fun both => nomatch both.1
    | ok _ =>
      rw [outcome] at ends
      refine .behind (gives_mapError.mpr (gives_reported.mpr ends)) kept ?_
      exact HandleView.settles_pure.iff (by simp)
  | cons entry rest ih =>
    obtain ⟨fewer, rfl⟩ := Nat.exists_eq_add_one_of_ne_zero (Nat.ne_zero_of_lt enough)
    obtain ⟨w, gives, kept, further⟩ := lawful.entry reading
    rw [List.map_cons, List.sum_cons] at enough
    have some := entry.2.size_pos
    obtain ⟨member, members⟩ := List.forall_mem_cons.mp among
    rw [FileServices.walk]
    refine .behind (gives_mapError.mpr (gives_reported.mpr gives)) kept ?_
    have first : v.Settles _ ⟨w, s.logger⟩ (files.filesOf (files.walk fewer) h lead _) _ _ :=
      lawful.filesOf_settles further member fun listed begins =>
        below entry member fewer listed begins (by omega)
    have later : ∀ w', v.Keeps (fun _ => True) w w' → v.Settles (· ≠ h) ⟨w', s.logger⟩
        (files.walk fewer h lead) _ _ := fun w' kept' =>
      ih members (s := ⟨w', s.logger⟩) (kept' h trivial _ _ further) (by omega)
    have both := first.append later
    rw [← List.map_append, ← List.flatMap_cons] at both
    refine both.iff ?_
    rw [List.forall_mem_cons]
    exact and_left_comm

/-- What a walk finds below a directory, in as many steps as the tree has nodes. -/
theorem walk_settles (listed : directory.isListed = true)
    (reading : v.reading s.world h directory directory.entries) {steps : Nat}
    (enough : directory.size ≤ steps) :
    v.Settles (· ≠ h) s (files.walk steps h lead) (Everywhere isListed Works directory)
      (directory.filePaths.map (·.foldl joinEntry lead)) := by
  induction directory using entries_induction generalizing s h lead steps with
  | step directory ih =>
    rw [size_eq] at enough
    rw [everywhere_works_iff listed, filePaths_listed listed]
    refine lawful.entries_settle ?_ (fun _ member => member) reading enough
    exact fun entry member {s g lead} steps listed begins enough => ih entry member listed begins enough

end FileServices.Lawful

/-! Listings of whole volumes. -/

def FileServices.listingLine (dir : String) (count : Nat) : LogLine :=
  LogTarget.fileSystem.line .debug s!"{count} files below {dir}"

section Listing
variable (lawful : files.Lawful v) {dir : String} {top : VolumeTree} {steps : Nat}
  (opens : (files.openFile dir).Gives s h t) (opened : v.opened t.world h top)
include lawful opens opened

theorem listFiles_refused (passedOver : ¬ top.isListed = true) (steps : Nat) :
    ∃ w, (files.listFiles steps dir).Fails s (.storage .notFound) ⟨w, t.logger⟩ := by
  obtain ⟨w, kind, found, isDirectory, _⟩ := lawful.kind (ε := ListingError) opened
  refine ⟨w, fails_bind.mpr (.inr ⟨_, _, gives_mapError.mpr opens, ?_⟩)⟩
  refine fails_bind.mpr (.inr ⟨_, _, found, fails_guard.mpr (.inl ⟨?_, rfl, rfl⟩)⟩)
  exact fun same => passedOver (isDirectory.mp same)

/-- Where the directory shows itself, a listing of it comes to what a walk comes to. -/
theorem listFiles_walks (listed : top.isListed = true) (steps : Nat) : ∃ w,
    v.reading w h top top.entries ∧
    (∀ paths u, (files.walk steps h "").Gives ⟨w, t.logger⟩ paths u →
      (files.listFiles steps dir).Gives s paths
        { u with logger := u.logger.log (FileServices.listingLine dir paths.length) }) ∧
    ∀ e u, (files.walk steps h "").Fails ⟨w, t.logger⟩ e u →
      (files.listFiles steps dir).Fails s e u := by
  obtain ⟨w, kind, found, isDirectory, _, begins⟩ := lawful.kind (ε := ListingError) opened
  have passes : ¬ kind ≠ .directory := not_not_intro (isDirectory.mpr listed)
  refine ⟨w, begins listed, fun paths u walked => ?_, fun e u failed => ?_⟩
  · refine gives_bind.mpr ⟨_, _, gives_mapError.mpr opens, gives_bind.mpr ⟨_, _, found, ?_⟩⟩
    exact gives_guard.mpr ⟨passes, gives_bind.mpr ⟨_, _, walked, rfl⟩⟩
  · refine fails_bind.mpr (.inr ⟨_, _, gives_mapError.mpr opens, ?_⟩)
    refine fails_bind.mpr (.inr ⟨_, _, found, fails_guard.mpr (.inr ⟨passes, ?_⟩)⟩)
    exact fails_bind.mpr (.inl failed)

theorem listFiles_breaks (listed : top.isListed = true) (bad : ¬ Everywhere isListed Works top)
    (enough : top.size ≤ steps) : ∃ e u, (files.listFiles steps dir).Fails s (.storage e) u := by
  obtain ⟨w, reading, _, fails⟩ := listFiles_walks lawful opens opened listed steps
  have settles : v.Settles (· ≠ h) ⟨w, t.logger⟩ (files.walk steps h "") _ _ :=
    lawful.walk_settles listed reading enough
  obtain ⟨e, u, failed⟩ := settles.failed bad
  exact ⟨e, u, fails _ _ failed⟩

theorem listFiles_gives (listed : top.isListed = true) (named : Everywhere isListed Named top)
    (works : Everywhere isListed Works top) (enough : top.size ≤ steps) :
    ∃ w, (files.listFiles steps dir).Gives s (top.filePaths.map "/".intercalate)
      ⟨w, t.logger.log (FileServices.listingLine dir top.filePaths.length)⟩ := by
  obtain ⟨w, reading, gives, _⟩ := listFiles_walks lawful opens opened listed steps
  have settles : v.Settles (· ≠ h) ⟨w, t.logger⟩ (files.walk steps h "") _ _ :=
    lawful.walk_settles listed reading enough
  obtain ⟨w', walked, _⟩ := settles.given works
  have texts : top.filePaths.map (·.foldl joinEntry "") = top.filePaths.map "/".intercalate :=
    List.map_congr_left fun path member =>
      joined_path fun name inside => (filePaths_names named member name inside).1
  rw [texts] at walked
  have listing := gives _ _ walked
  rw [List.length_map] at listing
  exact ⟨w', listing⟩

end Listing

/-- A listing is all or nothing where it can be begun: it has the files of all directories that it
    enters, or it fails because one of these cannot be read, or a directory in it not be opened. It
    takes no more steps than there are nodes in the tree. Where every directory shows itself, it has
    all files. Where one does not, its files are missing, and the listing does not fail. -/
theorem listing_exact (lawful : files.Lawful v) (dir : String) (s : Session σ) :
    (∀ steps e t, (files.openFile dir).Fails s e t →
      (files.listFiles steps dir).Fails s (.storage e) t) ∧
    ∀ h t top, (files.openFile dir).Gives s h t → v.opened t.world h top →
      (¬ top.isListed = true → ∀ steps, ∃ w,
        (files.listFiles steps dir).Fails s (.storage .notFound) ⟨w, t.logger⟩) ∧
      (top.isListed = true →
        (¬ Everywhere isListed Works top → ∀ steps, top.size ≤ steps →
          ∃ e u, (files.listFiles steps dir).Fails s (.storage e) u) ∧
        (Everywhere isListed Works top → Everywhere isListed Named top → ∃ paths,
          (∀ steps, top.size ≤ steps → ∃ w,
            (files.listFiles steps dir).Gives s (paths.map "/".intercalate)
              ⟨w, t.logger.log (FileServices.listingLine dir paths.length)⟩) ∧
          Lists isListed top paths ∧
          (Everywhere isDirectory (·.isEnterable = true) top → Lists isDirectory top paths) ∧
          ∀ path hidden, Lies isListed top path hidden → hidden.isDirectory = true →
            hidden.isEnterable = false → ∀ deeper, path ++ deeper ∉ paths)) := by
  refine ⟨fun steps e t failed => fails_bind.mpr (.inl (fails_storage failed)), ?_⟩
  intro h t top opens opened
  refine ⟨listFiles_refused lawful opens opened, fun listed => ⟨?_, fun works named => ?_⟩⟩
  · exact fun bad steps enough => listFiles_breaks lawful opens opened listed bad enough
  · have lists := filePaths_lists named (isListed_iff.mp listed).1
    exact ⟨top.filePaths,
      fun steps enough => listFiles_gives lawful opens opened listed named works enough, lists,
      lists.complete, fun path hidden lies directory hides => lists.misses named lies directory hides⟩

def VolumeNode.etc (barred : Bool) : VolumeNode :=
  ⟨none, { NodeScript.plain with openFailure := if barred then some .deviceError else none }, true,
    [("conf", ⟨some [2], .plain, true, []⟩)]⟩

/-- A directory with two others in it. One does not show itself, and the other one may be barred. -/
def VolumeNode.halfShown (barred : Bool) : VolumeNode :=
  ⟨none, .plain, true, [("tool", ⟨some [1], .plain, true, []⟩), ("etc", .etc barred),
    ("lost", ⟨none, { NodeScript.plain with tell := ⟨some (0, .deviceError)⟩ }, true,
      [("data", ⟨some [3], .plain, true, []⟩)]⟩)]⟩

def Machine.withVolume (root : VolumeNode) : Machine :=
  .new ⟨none, none, ⟨none, none, root⟩, [], [], .reliable, .reliable, [], []⟩

def Machine.halfShown (barred : Bool) : Session Machine :=
  ⟨.withVolume ⟨none, .plain, false, [("multiboot", .halfShown barred)]⟩, .new 0⟩

theorem halfShown_plain (barred : Bool) : (VolumeNode.halfShown barred).Plain := by
  have empty : ∀ content, (⟨some content, .plain, true, []⟩ : VolumeNode).Plain := fun content =>
    .node (by simp) (by simp) (fun _ => nofun) (by simp)
  refine .node (by decide +revert) (by decide +revert) (by decide +revert) ?_
  refine List.forall_mem_cons.mpr ⟨empty _, List.forall_mem_cons.mpr ⟨?_, ?_⟩⟩
  · exact .node (by decide +revert) (by decide +revert) (by decide +revert)
      (List.forall_mem_singleton.mpr (empty _))
  · refine List.forall_mem_singleton.mpr (.node (by decide) (by decide) (by decide) ?_)
    exact List.forall_mem_singleton.mpr (empty _)

theorem halfShown_opens (barred : Bool) : ∃ t,
    (Machine.files.openFile "/multiboot").Gives (Machine.halfShown barred) 1 t ∧
      Machine.view.opened t.world 1 (VolumeNode.halfShown barred).tree := by
  have path : backslashed "/multiboot" = "\\multiboot" := by decide
  have plain : isRepresentable "\\multiboot" = true := by decide
  let s := Machine.halfShown barred
  let handles := [FileHandle.new s.world.script.volume.root, .new (.halfShown barred)]
  refine ⟨{ s with world := { s.world with handles } }, ?_, _, halfShown_plain barred, rfl, rfl⟩
  simp only [FileServices.openFile, path, plain]
  rfl

/-- The two directories that are entered, and what they have to be like. -/
theorem halfShown_everywhere (P : VolumeTree → Prop) {barred : Bool}
    (outer : P (VolumeNode.halfShown barred).tree)
    (inner : P (VolumeNode.etc barred).tree) :
    Everywhere isListed P (VolumeNode.halfShown barred).tree := by
  refine everywhere_iff.mpr fun _ => ⟨outer, ?_⟩
  refine List.forall_mem_cons.mpr ⟨nofun, List.forall_mem_cons.mpr ⟨nofun, ?_⟩⟩
  refine List.forall_mem_cons.mpr ⟨fun _ => everywhere_unpassed rfl, ?_⟩
  refine List.forall_mem_cons.mpr ⟨fun _ => everywhere_iff.mpr fun _ => ⟨inner, ?_⟩, ?_⟩
  · refine List.forall_mem_cons.mpr ⟨nofun, List.forall_mem_cons.mpr ⟨nofun, ?_⟩⟩
    exact List.forall_mem_singleton.mpr fun _ => everywhere_unpassed rfl
  · exact List.forall_mem_singleton.mpr fun _ => everywhere_unpassed rfl

theorem listing_exact_halfShown :
    let top (barred : Bool) := (VolumeNode.halfShown barred).tree
    let listing (barred : Bool) :=
      Machine.files.listFiles (Machine.halfShown barred).world.walkSteps "/multiboot"
    (∀ barred, ∃ t, (Machine.files.openFile "/multiboot").Gives (Machine.halfShown barred) 1 t ∧
      Machine.view.opened t.world 1 (top barred)) ∧
    (∀ barred, (top barred).isListed = true) ∧ Everywhere isListed Named (top false) ∧
    Everywhere isListed Works (top false) ∧ ¬ Everywhere isListed Works (top true) ∧
    (∃ e u, (listing true).Fails (Machine.halfShown true) (.storage e) u) ∧
    Lies isDirectory (top false) ["lost", "data"] (⟨some [3], .plain, true, []⟩ : VolumeNode).tree ∧
    ∃ paths u, (listing false).Gives (Machine.halfShown false) (paths.map "/".intercalate) u ∧
      Lists isListed (top false) paths ∧ ["lost", "data"] ∉ paths := by
  intro top listing
  have listed : ∀ barred, (top barred).isListed = true := fun _ => rfl
  have named := @halfShown_everywhere Named false (by decide) (by decide)
  have works := @halfShown_everywhere Works false ⟨rfl, by decide⟩
    ⟨rfl, by decide⟩
  have fails : ¬ Everywhere isListed Works (top true) := by
    intro works
    have etc : ("etc", (VolumeNode.etc true).tree) ∈ (top true).entries :=
      .tail _ (.tail _ (.tail _ (.head _)))
    cases (everywhere_iff.mp works rfl).1.opens _ etc rfl rfl
  obtain ⟨t, opens, opened⟩ := halfShown_opens false
  obtain ⟨t', opens', opened'⟩ := halfShown_opens true
  have suffice := Machine.walkSteps_suffice opens opened
  have suffice' := Machine.walkSteps_suffice opens' opened'
  obtain ⟨paths, gives, lists, _, misses⟩ :=
    ((listing_exact Machine.files_lawful "/multiboot" _).2 1 t _ opens opened).2 (listed false) |>.2
      works named
  have breaks := ((listing_exact Machine.files_lawful "/multiboot" _).2 1 t' _ opens' opened').2
    (listed true) |>.1 fails _ suffice'
  obtain ⟨w, gives⟩ := gives _ suffice
  have name : shown "lost" = "lost" := by decide
  have name' : shown "data" = "data" := by decide
  have member : ("lost", _) ∈ (top false).entries := .tail _ (.tail _ (.tail _ (.tail _ (.head _))))
  have other : isParentName (shown "lost") = false := by decide
  have lost := @Lies.through isListed _ ("lost", _) _ _ (listed false) member other (.here _)
  have data := @Lies.through isDirectory (top false) ("lost", _) _ _ rfl member other
    (@Lies.through isDirectory _ ("data", _) _ _ rfl (.tail _ (.tail _ (.head _))) (by decide) (.here _))
  rw [name] at lost
  rw [name, name'] at data
  exact ⟨halfShown_opens, listed, named, works, fails, breaks, data, paths, _, gives, lists,
    misses ["lost"] _ lost rfl rfl ["data"]⟩

end KernelBoot
