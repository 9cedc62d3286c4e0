import KernelBoot.Boot.Ramdisk

/-!
What a rewrite makes of a ramdisk. Each addition skips the live members that have its name and
goes to the end of the table, so of the additions with one name the last stays, behind all
members that no addition replaces. Skipped members keep their places in the table.
-/
namespace KernelBoot

def Entry.isNamedIn (additions : List Entry) (e : Entry) : Bool :=
  additions.any fun x => x.name == e.name

/-- The members that no later one of the list replaces. -/
def lastOfNames : List Entry → List Entry
  | [] => []
  | e :: rest => if e.isNamedIn rest then lastOfNames rest else e :: lastOfNames rest

theorem lastOfNames_sublist (entries : List Entry) : (lastOfNames entries).Sublist entries := by
  induction entries with
  | nil => exact .slnil
  | cons e rest ih =>
    rw [lastOfNames]
    split
    · exact ih.cons e
    · exact ih.cons_cons e

theorem lastOfNames_append (first second : List Entry) :
    lastOfNames (first ++ second) =
      ((lastOfNames first).filter fun e => !e.isNamedIn second) ++ lastOfNames second := by
  induction first with
  | nil => rfl
  | cons e rest ih =>
    have either : e.isNamedIn (rest ++ second) = (e.isNamedIn rest || e.isNamedIn second) :=
      List.any_append
    simp only [List.cons_append, lastOfNames, either, ih]
    by_cases inRest : e.isNamedIn rest = true
    · simp [inRest]
    · by_cases inSecond : e.isNamedIn second = true
      · simp [inRest, inSecond]
      · simp [inRest, inSecond]

namespace Archive

theorem skip_entries_length (a : Archive) (name : Bytes) :
    (a.skip name).entries.length = a.entries.length := by
  simp [skip]

theorem live_skip (a : Archive) (name : Bytes) :
    (a.skip name).live = a.live.filter fun e => e.name != name := by
  simp only [live, skip]
  induction a.entries with
  | nil => rfl
  | cons e rest ih =>
    simp only [List.map_cons]
    by_cases gone : e.skipped = true
    · have untouched : isLiveNamed name e = false := by simp [isLiveNamed, gone]
      simp only [untouched, Bool.false_eq_true, ↓reduceIte, List.filter_cons, gone, Bool.not_true]
      exact ih
    · by_cases same : e.name = name
      · have hit : isLiveNamed name e = true := by simp [isLiveNamed, gone, same]
        simp only [hit, ↓reduceIte, List.filter_cons, Bool.not_true, Bool.false_eq_true, gone,
          Bool.not_false, same, bne_self_eq_false]
        exact ih
      · have missed : isLiveNamed name e = false := by simp [isLiveNamed, same]
        have differs : (e.name != name) = true := by simp [same]
        simp only [missed, Bool.false_eq_true, ↓reduceIte, List.filter_cons, gone, Bool.not_false,
          differs]
        exact congrArg (e :: ·) ih

/-- One replacement: refused by a full table, else one more entry of which nothing of the name is
    left in front. -/
theorem replace_ok {a : Archive} {e : Entry} (room : a.entries.length < a.capacity)
    (fresh : e.skipped = false) :
    ∃ b, a.replace e = .ok b ∧ b.capacity = a.capacity ∧
      b.entries.length = a.entries.length + 1 ∧
      b.live = (a.live.filter fun x => x.name != e.name) ++ [e] := by
  have notFull : ¬ (a.skip e.name).entries.length ≥ (a.skip e.name).capacity := by
    rw [skip_entries_length]
    exact Nat.not_le.mpr room
  refine ⟨{ a.skip e.name with entries := (a.skip e.name).entries ++ [e] }, ?_, rfl, ?_, ?_⟩
  · rw [replace, push, if_neg notFull]
  · simp only [List.length_append, skip_entries_length, List.length_singleton]
  · rw [← live_skip]
    simp only [live, List.filter_append, List.filter_cons, fresh, Bool.not_false, ↓reduceIte,
      List.filter_nil]

theorem replace_full {a : Archive} {e : Entry} (full : a.capacity ≤ a.entries.length) :
    a.replace e = .error (.tooManyEntries a.capacity) := by
  have atLimit : (a.skip e.name).entries.length ≥ (a.skip e.name).capacity := by
    rw [skip_entries_length]
    exact full
  rw [replace, push, if_pos atLimit]
  rfl

theorem survivors_cons (members : List Entry) (e : Entry) (rest : List Entry) :
    (((members.filter fun x => x.name != e.name) ++ [e]).filter fun x => !x.isNamedIn rest) ++
        lastOfNames rest =
      (members.filter fun x => !x.isNamedIn (e :: rest)) ++ lastOfNames (e :: rest) := by
  have both : ∀ x : Entry, (!x.isNamedIn (e :: rest)) = (!x.isNamedIn rest && x.name != e.name) := by
    intro x
    simp only [Entry.isNamedIn, List.any_cons, Bool.not_or, bne, Bool.and_comm]
    rw [Bool.beq_comm (a := e.name)]
  simp only [List.filter_append, List.filter_filter, both, List.append_assoc, lastOfNames]
  by_cases again : e.isNamedIn rest = true
  · simp [again]
  · simp [again]

theorem replaceAll_ok (additions : List Entry) (fresh : ∀ e ∈ additions, e.skipped = false)
    (a : Archive) (room : a.entries.length + additions.length ≤ a.capacity) :
    ∃ b, (a.replaceAll additions).1 = .ok b ∧ b.capacity = a.capacity ∧
      b.entries.length = a.entries.length + additions.length ∧
      b.live = (a.live.filter fun e => !e.isNamedIn additions) ++ lastOfNames additions := by
  induction additions generalizing a with
  | nil =>
    have nothing : (a.live.filter fun e => !e.isNamedIn []) = a.live := by
      simp [Entry.isNamedIn]
    exact ⟨a, rfl, rfl, rfl, by rw [nothing, lastOfNames, List.append_nil]⟩
  | cons e rest ih =>
    rw [List.length_cons] at room
    obtain ⟨next, step, sameLimit, grown, live⟩ :=
      replace_ok (a := a) (e := e) (by omega) (fresh e List.mem_cons_self)
    obtain ⟨b, run, limit, length, final⟩ :=
      ih (fun x member => fresh x (List.mem_cons_of_mem e member)) next (by omega)
    refine ⟨b, ?_, limit.trans sameLimit, ?_, ?_⟩
    · rw [replaceAll, step]
      exact run
    · rw [length, grown, List.length_cons]
      omega
    · rw [final, live, survivors_cons]

theorem replaceAll_full (additions : List Entry) (fresh : ∀ e ∈ additions, e.skipped = false)
    (a : Archive) (before : a.entries.length ≤ a.capacity)
    (full : a.capacity < a.entries.length + additions.length) :
    (a.replaceAll additions).1 = .error (.tooManyEntries a.capacity) := by
  induction additions generalizing a with
  | nil => simp at full; omega
  | cons e rest ih =>
    rw [List.length_cons] at full
    by_cases room : a.entries.length < a.capacity
    · obtain ⟨next, step, sameLimit, grown, _⟩ :=
        replace_ok (a := a) (e := e) room (fresh e List.mem_cons_self)
      have tail := ih (fun x member => fresh x (List.mem_cons_of_mem e member)) next (by omega)
        (by omega)
      rw [replaceAll, step, ← sameLimit]
      exact tail
    · rw [replaceAll, replace_full (Nat.not_lt.mp room)]

theorem replaceAll_append (first second : List Entry) (a : Archive) :
    (a.replaceAll (first ++ second)).1 =
      (a.replaceAll first).1.bind fun b => (b.replaceAll second).1 := by
  induction first generalizing a with
  | nil => rfl
  | cons e rest ih =>
    rw [List.cons_append, replaceAll, replaceAll]
    cases a.replace e with
    | error error => rfl
    | ok next => exact ih next

end Archive
end KernelBoot
