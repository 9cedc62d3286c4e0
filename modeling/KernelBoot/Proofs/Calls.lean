import Mathlib.Data.List.Basic

/-!
Runs of calls on a state that is changed in place. A call may fail and leave anything behind; the
next one goes on from there. What a run comes to is told by its successful calls, as long as the
failed ones leave the state as it was.
-/
namespace KernelBoot

structure Turn (S C ε α : Type) where
  before : S
  call : C
  result : Except ε α
  after : S

variable {S C ε α : Type}

def turns (step : S → C → Except ε α × S) (s : S) : List C → List (Turn S C ε α)
  | [] => []
  | c :: rest => ⟨s, c, (step s c).1, (step s c).2⟩ :: turns step (step s c).2 rest

def stateAfter (step : S → C → Except ε α × S) (s : S) : List C → S
  | [] => s
  | c :: rest => stateAfter step (step s c).2 rest

def accepted (run : List (Turn S C ε α)) : List C :=
  (run.filter fun turn => turn.result.isOk).map Turn.call

def KeepsOnFailure (run : List (Turn S C ε α)) : Prop :=
  ∀ turn ∈ run, ∀ e, turn.result = .error e → turn.after = turn.before

variable {step : S → C → Except ε α × S} {s : S} {calls : List C}

theorem accepted_subset (step : S → C → Except ε α × S) (s : S) (calls : List C) :
    accepted (turns step s calls) ⊆ calls := by
  induction calls generalizing s with
  | nil => exact List.Subset.refl _
  | cons c rest ih =>
    intro x member
    cases result : (step s c).1 with
    | error e =>
      simp only [turns, accepted, List.filter_cons, result, Except.isOk, Except.toBool,
        Bool.false_eq_true, ↓reduceIte] at member
      exact List.mem_cons_of_mem c (ih _ member)
    | ok a =>
      simp only [turns, accepted, List.filter_cons, result, Except.isOk, Except.toBool,
        ↓reduceIte, List.map_cons, List.mem_cons] at member
      rcases member with first | later
      · exact List.mem_cons.mpr (.inl first)
      · exact List.mem_cons_of_mem c (ih _ later)

/-- What every single call does from a state with the invariant, every turn of a run does. -/
theorem turns_of_step (Inv : S → Prop) (Good : Turn S C ε α → Prop)
    (each : ∀ c ∈ calls, ∀ s, Inv s →
      Good ⟨s, c, (step s c).1, (step s c).2⟩ ∧ Inv (step s c).2)
    (start : Inv s) : ∀ turn ∈ turns step s calls, Good turn := by
  induction calls generalizing s with
  | nil => simp [turns]
  | cons c rest ih =>
    obtain ⟨good, next⟩ := each c List.mem_cons_self s start
    intro turn member
    rcases List.mem_cons.mp member with first | later
    · rw [first]
      exact good
    · exact ih (fun c' member' => each c' (List.mem_cons_of_mem c member')) next turn later

/-- `Does s cs s'` tells what the calls `cs` make of `s` when all of them succeed. -/
structure Accumulates (step : S → C → Except ε α × S) (Allowed : C → Prop) (Inv : S → Prop)
    (Does : S → List C → S → Prop) : Prop where
  nothing : ∀ {s}, Inv s → Does s [] s
  success : ∀ {s c a s'}, Allowed c → Inv s → step s c = (.ok a, s') → Inv s' ∧ Does s [c] s'
  failure : ∀ {s c e s'}, Allowed c → Inv s → step s c = (.error e, s') → s' = s
  append : ∀ {s cs s' cs' s''}, Does s cs s' → Does s' cs' s'' → Does s (cs ++ cs') s''

namespace Accumulates
variable {Allowed : C → Prop} {Inv : S → Prop} {Does : S → List C → S → Prop}

theorem keeps (law : Accumulates step Allowed Inv Does) {c : C} (allowed : Allowed c)
    (start : Inv s) : Inv (step s c).2 := by
  rcases outcome : step s c with ⟨result, s'⟩
  cases result with
  | error e =>
    rw [law.failure allowed start outcome]
    exact start
  | ok a => exact (law.success allowed start outcome).1

theorem failed (law : Accumulates step Allowed Inv Does) (allowed : ∀ c ∈ calls, Allowed c)
    (start : Inv s) : KeepsOnFailure (turns step s calls) := by
  refine turns_of_step Inv
    (fun turn => ∀ e, turn.result = .error e → turn.after = turn.before) ?_ start
  intro c member s inv
  refine ⟨?_, law.keeps (allowed c member) inv⟩
  intro e refused
  exact law.failure (allowed c member) inv (Prod.ext refused rfl)

/-- A whole run does what its successful calls do. -/
theorem run (law : Accumulates step Allowed Inv Does) (allowed : ∀ c ∈ calls, Allowed c)
    (start : Inv s) :
    Inv (stateAfter step s calls) ∧
      Does s (accepted (turns step s calls)) (stateAfter step s calls) := by
  induction calls generalizing s with
  | nil => exact ⟨start, law.nothing start⟩
  | cons c rest ih =>
    have first := allowed c List.mem_cons_self
    obtain ⟨last, later⟩ := ih (fun c' member => allowed c' (List.mem_cons_of_mem c member))
      (law.keeps first start)
    refine ⟨last, ?_⟩
    rcases outcome : step s c with ⟨result, s'⟩
    cases result with
    | error e =>
      simp only [turns, stateAfter, accepted, List.filter_cons, outcome, Except.isOk,
        Except.toBool, Bool.false_eq_true, ↓reduceIte] at later ⊢
      -- the rest has run from the same state
      rw [law.failure first start outcome] at later ⊢
      exact later
    | ok a =>
      simp only [turns, stateAfter, accepted, List.filter_cons, outcome, Except.isOk,
        Except.toBool, ↓reduceIte, List.map_cons] at later ⊢
      exact law.append (law.success first start outcome).2 later

end Accumulates
end KernelBoot
