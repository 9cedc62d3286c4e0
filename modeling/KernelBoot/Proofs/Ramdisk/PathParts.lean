import KernelBoot.Proofs.Ramdisk.Paths

/-!
Paths by their parts. A path lies above another when its parts, empty ones included, begin those of
the other. The directories on the way to a root are those whose parts begin the root's, empty ones
left out.
-/
namespace KernelBoot

namespace Text

theorem pieces_eq_splitOnP (separator : α → Bool) (text : List α) :
    pieces separator text = text.splitOnP separator := by
  induction text with
  | nil => rfl
  | cons c rest ih =>
    have some := List.splitOnP_ne_nil separator rest
    rw [pieces, List.splitOnP_cons_eq_if_modifyHead, ih]
    cases split : List.splitOnP separator rest with
    | nil => exact absurd split some
    | cons piece more => rfl

theorem components_cut {separator : α → Bool} {c : α} (hit : separator c = true)
    (front behind : List α) :
    components separator (front ++ c :: behind) =
      components separator front ++ components separator behind := by
  simp only [components, pieces_eq_splitOnP, ← List.filter_append]
  exact congrArg _ (List.splitOnP_append_cons front behind hit)

theorem components_single {separator : α → Bool} {text : List α}
    (free : ∀ c ∈ text, separator c = false) :
    components separator text = if text.isEmpty then [] else [text] := by
  rw [components, pieces_eq_splitOnP, List.splitOnP_eq_singleton free]
  cases text with
  | nil => rfl
  | cons c rest => rfl

end Text

namespace Path
open Text

def parts (path : List Char) : List (List Char) := pieces isSlash path

def ofParts (given : List (List Char)) : List Char := ['/'].intercalate given

theorem parts_eq (path : List Char) : parts path = path.splitOn '/' :=
  pieces_eq_splitOnP isSlash path

theorem parts_ne_nil (path : List Char) : parts path ≠ [] := by
  rw [parts_eq]
  exact List.splitOn_ne_nil _ _

theorem parts_append (front behind : List Char) :
    parts (front ++ '/' :: behind) = parts front ++ parts behind := by
  simp only [parts, pieces_eq_splitOnP]
  exact List.splitOnP_append_cons front behind rfl

theorem ofParts_parts (path : List Char) : ofParts (parts path) = path := by
  rw [parts_eq]
  exact List.intercalate_splitOn '/'

theorem parts_injective {first second : List Char} (same : parts first = parts second) :
    first = second := by
  rw [← ofParts_parts first, same, ofParts_parts]

theorem parts_ofParts {given : List (List Char)}
    (plain : ∀ part ∈ given, ∀ c ∈ part, isSlash c = false) (nonempty : given ≠ []) :
    parts (ofParts given) = given := by
  rw [parts_eq]
  refine List.splitOn_intercalate '/' ?_ nonempty
  intro part member slash
  have free := plain part member '/' slash
  cases free

theorem eq_ofParts_iff {path : List Char} {given : List (List Char)}
    (plain : ∀ part ∈ given, ∀ c ∈ part, isSlash c = false) (nonempty : given ≠ []) :
    path = ofParts given ↔ parts path = given := by
  constructor
  · rintro rfl
    exact parts_ofParts plain nonempty
  · intro same
    exact parts_injective (same.trans (parts_ofParts plain nonempty).symm)

theorem parts_plain {path part : List Char} (member : part ∈ parts path) :
    ∀ c ∈ part, isSlash c = false :=
  piece_free member

/-- The first path is what lies in front of one of the slashes of the second. -/
def Above (parent path : List Char) : Prop := ∃ behind, path = parent ++ '/' :: behind

theorem above_iff {parent path : List Char} :
    Above parent path ↔ ∃ rest, rest ≠ [] ∧ parts path = parts parent ++ rest := by
  constructor
  · rintro ⟨behind, rfl⟩
    exact ⟨parts behind, parts_ne_nil behind, parts_append parent behind⟩
  · rintro ⟨rest, nonempty, split⟩
    have plain : ∀ part ∈ rest, ∀ c ∈ part, isSlash c = false := by
      intro part member
      have among : part ∈ parts path := by
        rw [split]
        exact List.mem_append_right _ member
      exact parts_plain among
    refine ⟨ofParts rest, parts_injective ?_⟩
    rw [parts_append, parts_ofParts plain nonempty, split]

theorem Above.trans {first second third : List Char} (upper : Above first second)
    (lower : Above second third) : Above first third := by
  obtain ⟨between, rfl⟩ := upper
  obtain ⟨behind, rfl⟩ := lower
  exact ⟨between ++ '/' :: behind, by simp⟩

theorem above_of_cut {path front : List Char} (cut : beforeLast isSlash path = some front) :
    Above front path := by
  obtain ⟨c, behind, split, hit⟩ := beforeLast_eq_some cut
  rw [isSlash_eq hit] at split
  exact ⟨behind, split⟩

theorem mem_ancestors {path given : String} :
    path ∈ ancestors given ↔ Above path.toList given.toList := by
  rw [ancestors, List.mem_map]
  constructor
  · rintro ⟨inner, member, rfl⟩
    obtain ⟨front, behind, split, rfl⟩ := mem_ancestorsFrom.mp member
    rw [String.toList_ofList]
    exact ⟨behind, split⟩
  · rintro ⟨behind, split⟩
    exact ⟨path.toList, mem_ancestorsFrom.mpr ⟨path.toList, behind, split, rfl⟩,
      String.ofList_toList⟩

/-- A path without empty parts: no slash at its ends, and no two in a row. -/
def Whole (path : List Char) : Prop := ∀ part ∈ parts path, part ≠ []

instance (path : List Char) : Decidable (Whole path) :=
  inferInstanceAs (Decidable (∀ part ∈ parts path, part ≠ []))

theorem Whole.closed {path : List Char} (whole : Whole path) : Closed path := by
  rw [Closed]
  cases backwards : path.reverse with
  | nil => rfl
  | cons c rest =>
    have last : isSlash c ≠ true := by
      intro hit
      have split : path = rest.reverse ++ '/' :: [] := by
        rw [← isSlash_eq hit, ← List.reverse_cons, ← backwards, List.reverse_reverse]
      have empty : ([] : List Char) ∈ parts path := by
        rw [split, parts_append]
        exact List.mem_append_right _ List.mem_cons_self
      exact whole [] empty rfl
    rw [List.dropWhile_cons_of_neg last]

theorem joinChars_ofParts {done : List (List Char)} {part : List Char}
    (plain : ∀ p ∈ done, p ≠ [] ∧ ∀ c ∈ p, isSlash c = false)
    (present : part ≠ []) (free : ∀ c ∈ part, isSlash c = false) :
    joinChars (ofParts done) part = ofParts (done ++ [part]) := by
  cases done with
  | nil =>
    have start : Closed (ofParts []) := rfl
    rw [joinChars_part start present free]
    exact List.intercalate_singleton.symm
  | cons first rest =>
    have split : parts (ofParts (first :: rest)) = first :: rest :=
      parts_ofParts (fun p member => (plain p member).2) (List.cons_ne_nil _ _)
    have whole : Whole (ofParts (first :: rest)) := by
      intro p member
      rw [split] at member
      exact (plain p member).1
    have started : ofParts (first :: rest) ≠ [] := by
      intro none
      rw [none] at split
      have empty : first = [] := (List.cons.inj split).1.symm
      exact (plain first List.mem_cons_self).1 empty
    rw [joinChars_part whole.closed present free, if_neg started]
    have single : parts part = [part] := by
      rw [parts_eq, List.splitOn_eq_singleton_of_beq_eq_false free]
    have all : ∀ p ∈ (first :: rest) ++ [part], ∀ c ∈ p, isSlash c = false := by
      intro p member
      rcases List.mem_append.mp member with old | new
      · exact (plain p old).2
      · rw [List.mem_singleton.mp new]
        exact free
    refine (eq_ofParts_iff all (by simp)).mpr ?_
    rw [parts_append, split, single]

/-- By induction on the parts to come; `done` are those of the path so far. -/
theorem mem_chainFrom {done rest : List (List Char)}
    (plain : ∀ part ∈ done ++ rest, part ≠ [] ∧ ∀ c ∈ part, isSlash c = false) {path : List Char} :
    path ∈ chainFrom (ofParts done) rest ↔
      ∃ front part behind, rest = front ++ part :: behind ∧
        parts path = done ++ front ++ [part] := by
  induction rest generalizing done with
  | nil => simp [chainFrom]
  | cons first rest ih =>
    have inDone : ∀ p ∈ done, p ≠ [] ∧ ∀ c ∈ p, isSlash c = false :=
      fun p member => plain p (List.mem_append_left _ member)
    obtain ⟨present, free⟩ := plain first (by simp)
    have regroup : done ++ [first] ++ rest = done ++ first :: rest := by simp
    have longer : ∀ p ∈ done ++ [first], ∀ c ∈ p, isSlash c = false := by
      intro p member
      refine (plain p ?_).2
      rw [← regroup]
      exact List.mem_append_left _ member
    rw [chainFrom, joinChars_ofParts inDone present free, List.mem_cons,
      eq_ofParts_iff longer (by simp), ih (by rw [regroup]; exact plain)]
    constructor
    · rintro (same | ⟨front, part, behind, rfl, same⟩)
      · exact ⟨[], first, rest, rfl, by simpa using same⟩
      · exact ⟨first :: front, part, behind, rfl, by simpa using same⟩
    · rintro ⟨front, part, behind, split, same⟩
      cases front with
      | nil =>
        obtain ⟨rfl, rfl⟩ := List.cons.inj split
        exact .inl (by simpa using same)
      | cons x more =>
        obtain ⟨rfl, rfl⟩ := List.cons.inj split
        exact .inr ⟨more, part, behind, rfl, by simpa using same⟩

/-- The directories on the way to a root are those whose parts begin its parts, empty ones left
    out. -/
theorem mem_chain {root path : String} :
    path ∈ chain root ↔ parts path.toList <+: components isSlash root.toList := by
  have plain : ∀ part ∈ [] ++ components isSlash root.toList,
      part ≠ [] ∧ ∀ c ∈ part, isSlash c = false := fun _ member => component_plain member
  have chars : path ∈ chain root ↔
      path.toList ∈ chainFrom (ofParts []) (components isSlash root.toList) := by
    rw [chain, List.mem_map]
    constructor
    · rintro ⟨inner, member, rfl⟩
      rw [String.toList_ofList]
      exact member
    · intro member
      exact ⟨path.toList, member, String.ofList_toList⟩
  rw [chars, mem_chainFrom plain]
  constructor
  · rintro ⟨front, part, behind, split, same⟩
    refine ⟨behind, ?_⟩
    rw [same, split]
    simp
  · rintro ⟨behind, split⟩
    obtain ⟨front, part, same⟩ := List.eq_nil_or_concat (parts path.toList) |>.resolve_left
      (parts_ne_nil _)
    rw [same] at split
    exact ⟨front, part, behind, by rw [← split]; simp, by simpa using same⟩

end Path
end KernelBoot
