import KernelBoot.Boot.Path
import KernelBoot.Proofs.Text.CharacterBytes

/-!
What lies in front of the last slash of a path. The bytes of a text have their slashes where the
text has them, so a name can be cut before or after it is encoded.
-/
namespace KernelBoot

def beforeLast (separator : α → Bool) : List α → Option (List α)
  | [] => none
  | x :: rest =>
    match beforeLast separator rest with
    | some front => some (x :: front)
    | none => if separator x then some [] else none

section BeforeLast
variable {separator : α → Bool}

theorem beforeLast_append (xs ys : List α) :
    beforeLast separator (xs ++ ys) =
      match beforeLast separator ys with
      | some front => some (xs ++ front)
      | none => beforeLast separator xs := by
  induction xs with
  | nil => cases h : beforeLast separator ys <;> simp [h, beforeLast]
  | cons x rest ih =>
    rw [List.cons_append, beforeLast, ih]
    cases beforeLast separator ys with
    | some front => rfl
    | none => rfl

theorem beforeLast_eq_none {xs : List α} (free : ∀ x ∈ xs, separator x = false) :
    beforeLast separator xs = none := by
  induction xs with
  | nil => rfl
  | cons x rest ih =>
    have tail := ih fun y member => free y (List.mem_cons_of_mem x member)
    simp [beforeLast, tail, free x List.mem_cons_self]

theorem beforeLast_eq_some {xs front : List α} (cut : beforeLast separator xs = some front) :
    ∃ x behind, xs = front ++ x :: behind ∧ separator x = true := by
  induction xs generalizing front with
  | nil => cases cut
  | cons x rest ih =>
    rw [beforeLast] at cut
    cases tail : beforeLast separator rest with
    | some inner =>
      rw [tail] at cut
      cases cut
      obtain ⟨y, behind, rfl, hit⟩ := ih tail
      exact ⟨y, behind, rfl, hit⟩
    | none =>
      rw [tail] at cut
      simp only at cut
      split at cut
      · rename_i hit
        cases cut
        exact ⟨x, rest, rfl, hit⟩
      · cases cut

end BeforeLast

namespace Bytes

def isSlash (b : UInt8) : Bool := b == 0x2F

theorem beforeLast_encodeChar (c : Char) :
    beforeLast isSlash (String.utf8EncodeChar c) = if Path.isSlash c then some [] else none := by
  by_cases slash : c = '/'
  · subst c
    decide
  · have other : Path.isSlash c = false := by simpa [Path.isSlash] using slash
    rw [other, if_neg (by decide)]
    apply beforeLast_eq_none
    intro b member
    simp only [isSlash, beq_eq_false_iff_ne]
    rintro rfl
    exact slash ((mem_encodeChar (c := '/') (by decide) c).mp member).symm

theorem beforeLast_ofChars (cs : List Char) :
    beforeLast isSlash (ofChars cs) = (beforeLast Path.isSlash cs).map ofChars := by
  induction cs with
  | nil => rfl
  | cons c rest ih =>
    have apart : ofChars (c :: rest) = String.utf8EncodeChar c ++ ofChars rest := rfl
    rw [apart, beforeLast_append, ih, beforeLast]
    cases beforeLast Path.isSlash rest with
    | some front => rfl
    | none =>
      simp only [Option.map_none, beforeLast_encodeChar]
      cases Path.isSlash c <;> rfl

end Bytes

namespace Path

theorem mem_ancestorsFrom {passed cs path : List Char} :
    path ∈ ancestorsFrom passed cs ↔
      ∃ front behind, cs = front ++ '/' :: behind ∧ path = passed.reverse ++ front := by
  induction cs generalizing passed with
  | nil => simp [ancestorsFrom]
  | cons c rest ih =>
    have later : (∃ front behind, c :: rest = front ++ '/' :: behind ∧
          path = passed.reverse ++ front) ↔
        (c = '/' ∧ path = passed.reverse) ∨ ∃ front behind, rest = front ++ '/' :: behind ∧
          path = (c :: passed).reverse ++ front := by
      constructor
      · rintro ⟨front, behind, split, rfl⟩
        cases front with
        | nil =>
          simp only [List.nil_append, List.cons.injEq] at split
          exact .inl ⟨split.1, List.append_nil _⟩
        | cons first more =>
          simp only [List.cons_append, List.cons.injEq] at split
          refine .inr ⟨more, behind, split.2, ?_⟩
          simp [split.1]
      · rintro (⟨rfl, rfl⟩ | ⟨front, behind, rfl, rfl⟩)
        · exact ⟨[], rest, rfl, (List.append_nil _).symm⟩
        · exact ⟨c :: front, behind, rfl, by simp⟩
    rw [later, ancestorsFrom]
    by_cases slash : c = '/'
    · have hit : isSlash c = true := by simp [isSlash, slash]
      rw [if_pos hit, List.mem_cons, ih]
      simp only [slash, true_and]
    · have missed : ¬ isSlash c = true := by simp [isSlash, slash]
      rw [if_neg missed, ih]
      simp only [slash, false_and, false_or]

theorem isSlash_eq {c : Char} (hit : isSlash c = true) : c = '/' := by
  simpa [isSlash] using hit

end Path

namespace Text

theorem piece_free {separator : α → Bool} {text piece : List α}
    (member : piece ∈ pieces separator text) : ∀ c ∈ piece, separator c = false := by
  induction text generalizing piece with
  | nil =>
    rw [pieces, List.mem_singleton] at member
    subst member
    simp
  | cons c rest ih =>
    rw [pieces] at member
    split at member
    · rcases List.mem_cons.mp member with rfl | later
      · simp
      · exact ih later
    · rename_i plain
      have first : ∀ x ∈ [c], separator x = false := by simpa using plain
      split at member
      · rw [List.mem_singleton] at member
        subst member
        exact first
      · rename_i inner more split
        rcases List.mem_cons.mp member with rfl | later
        · have tail : ∀ x ∈ inner, separator x = false :=
            ih (by rw [split]; exact List.mem_cons_self)
          intro x among
          rcases List.mem_cons.mp among with rfl | deeper
          · exact first x (List.mem_singleton_self x)
          · exact tail x deeper
        · exact ih (by rw [split]; exact List.mem_cons_of_mem _ later)

theorem component_plain {separator : α → Bool} {text part : List α}
    (member : part ∈ components separator text) :
    part ≠ [] ∧ ∀ c ∈ part, separator c = false := by
  obtain ⟨among, present⟩ := List.mem_filter.mp member
  exact ⟨by simpa using present, piece_free among⟩

end Text

namespace Path

/-- A path that does not end in a slash; a part can be joined to it as it is. -/
def Closed (base : List Char) : Prop := base.reverse.dropWhile isSlash = base.reverse

theorem joinChars_part {base part : List Char} (closed : Closed base) (present : part ≠ [])
    (plain : ∀ c ∈ part, isSlash c = false) :
    joinChars base part = if base = [] then part else base ++ '/' :: part := by
  have kept : part.dropWhile isSlash = part := by
    cases part with
    | nil => rfl
    | cons c rest => rw [List.dropWhile_cons_of_neg (by simp [plain c List.mem_cons_self])]
  have base_kept : (base.reverse.dropWhile isSlash).reverse = base := by
    rw [closed, List.reverse_reverse]
  simp only [joinChars, kept, base_kept, List.isEmpty_iff, present, ↓reduceIte]

end Path
end KernelBoot
