import KernelBoot.Boot.Session

/-!
Runs of effects and attempts. A successful attempt is a chain of successful steps, each from the
session in which the one before it has ended. A failed one is such a chain up to the step that has
failed, and its error is the error of that step.
-/
namespace KernelBoot

/-- The effect ends with `a` and leaves the session `t`. -/
def Effect.Ends (e : Effect σ α) (s : Session σ) (a : α) (t : Session σ) : Prop := e.run s = (a, t)

def Attempt.Gives (x : Attempt σ ε α) (s : Session σ) (a : α) (t : Session σ) : Prop :=
  x.run.Ends s (.ok a) t

def Attempt.Fails (x : Attempt σ ε α) (s : Session σ) (e : ε) (t : Session σ) : Prop :=
  x.run.Ends s (.error e) t

/-- No run of the attempt fails with such an error. -/
def Attempt.Avoids (x : Attempt σ ε α) (bad : ε → Prop) : Prop :=
  ∀ s e t, x.Fails s e t → ¬ bad e

/-- What both ends of an attempt come to: `good` holds of what is given and the session it leaves,
    `bad` of the session that a failure leaves. -/
structure Attempt.Meets (x : Attempt σ ε α) (s : Session σ) (good : α → Session σ → Prop)
    (bad : Session σ → Prop) : Prop where
  given : ∀ a t, x.Gives s a t → good a t
  failed : ∀ e t, x.Fails s e t → bad t

variable {s t u : Session σ}

theorem exists_ok_that {r : Except ε α} (good : α → Bool)
    (ok : (match r with
      | .ok a => good a
      | .error _ => false) = true) : ∃ a, r = .ok a ∧ good a = true := by
  cases r with
  | error e => cases ok
  | ok a => exact ⟨a, rfl, ok⟩

namespace Effect

theorem ends_bind {e : Effect σ α} {f : α → Effect σ β} {b : β} :
    (e >>= f).Ends s b u ↔ ∃ a t, e.Ends s a t ∧ (f a).Ends t b u := by
  constructor
  · intro run
    exact ⟨(e.run s).1, (e.run s).2, rfl, run⟩
  · rintro ⟨a, t, first, second⟩
    have step : (e >>= f).run s = (f (e.run s).1).run (e.run s).2 := rfl
    rw [Ends, step, first]
    exact second

theorem ends_pure {a b : α} : (pure a : Effect σ α).Ends s b t ↔ b = a ∧ t = s := by
  constructor
  · intro run
    cases run
    exact ⟨rfl, rfl⟩
  · rintro ⟨rfl, rfl⟩
    rfl

theorem ends_log {line : LogLine} {a : Unit} (run : (log line).Ends s a t) : t.world = s.world := by
  cases run
  rfl

theorem ends_logAll {lines : List LogLine} {a : Unit} (run : (logAll lines).Ends s a t) :
    t.world = s.world := by
  induction lines generalizing s with
  | nil =>
    cases run
    rfl
  | cons line rest ih =>
    obtain ⟨_, middle, first, second⟩ := ends_bind.mp run
    rw [ih second, ends_log first]

theorem ends_ask {f : σ → α} {a : α} (run : (ask f).Ends s a t) : a = f s.world ∧ t = s := by
  cases run
  exact ⟨rfl, rfl⟩

end Effect

namespace Attempt

theorem run_bind (x : Attempt σ ε α) (f : α → Attempt σ ε β) (s : Session σ) :
    (x >>= f).run.run s =
      match x.run.run s with
      | (.ok a, t) => (f a).run.run t
      | (.error e, t) => (.error e, t) := by
  show (ExceptT.bindCont f (x.run.run s).1).run (x.run.run s).2 = _
  rcases x.run.run s with ⟨result, t⟩
  cases result <;> rfl

theorem gives_bind {x : Attempt σ ε α} {f : α → Attempt σ ε β} {b : β} :
    (x >>= f).Gives s b u ↔ ∃ a t, x.Gives s a t ∧ (f a).Gives t b u := by
  simp only [Gives, Effect.Ends, run_bind]
  constructor
  · intro run
    split at run
    · rename_i a t first
      exact ⟨a, t, first, run⟩
    · cases run
  · rintro ⟨a, t, first, second⟩
    rw [first]
    exact second

theorem fails_bind {x : Attempt σ ε α} {f : α → Attempt σ ε β} {e : ε} :
    (x >>= f).Fails s e u ↔ x.Fails s e u ∨ ∃ a t, x.Gives s a t ∧ (f a).Fails t e u := by
  simp only [Fails, Gives, Effect.Ends, run_bind]
  constructor
  · intro run
    split at run
    · rename_i a t first
      exact .inr ⟨a, t, first, run⟩
    · rename_i e' t first
      cases run
      exact .inl first
  · rintro (first | ⟨a, t, first, second⟩)
    · rw [first]
    · rw [first]
      exact second

theorem gives_pure {a b : α} : (pure a : Attempt σ ε α).Gives s b t ↔ b = a ∧ t = s := by
  constructor
  · intro run
    cases run
    exact ⟨rfl, rfl⟩
  · rintro ⟨rfl, rfl⟩
    rfl

theorem gives_throw {e : ε} {a : α} : ¬ (throw e : Attempt σ ε α).Gives s a t := by
  intro run
  cases run

theorem gives_guard {c : Prop} [Decidable c] {e : ε} {rest : Unit → Attempt σ ε α} {a : α} :
    (if c then throw e >>= rest else rest ()).Gives s a t ↔ ¬ c ∧ (rest ()).Gives s a t := by
  by_cases failed : c
  · simp only [failed, ↓reduceIte, not_true_eq_false, false_and, iff_false]
    intro run
    obtain ⟨_, _, thrown, _⟩ := gives_bind.mp run
    exact gives_throw thrown
  · simp [failed]

theorem fails_guard {c : Prop} [Decidable c] {e e' : ε} {rest : Unit → Attempt σ ε α} :
    (if c then throw e >>= rest else rest ()).Fails s e' t ↔
      (c ∧ e' = e ∧ t = s) ∨ (¬ c ∧ (rest ()).Fails s e' t) := by
  by_cases failed : c
  · simp only [failed, ↓reduceIte, true_and, not_true_eq_false, false_and, or_false]
    constructor
    · intro run
      rcases fails_bind.mp run with thrown | ⟨_, _, thrown, _⟩
      · cases thrown
        exact ⟨rfl, rfl⟩
      · exact absurd thrown gives_throw
    · rintro ⟨rfl, rfl⟩
      exact fails_bind.mpr (.inl rfl)
  · simp [failed]

theorem gives_lift {e : Effect σ α} {a : α} :
    (liftM e : Attempt σ ε α).Gives s a t ↔ e.Ends s a t := by
  have step : (liftM e : Attempt σ ε α).run.run s = (.ok (e.run s).1, (e.run s).2) := rfl
  constructor
  · intro run
    rw [Gives, Effect.Ends, step] at run
    cases run
    rfl
  · intro run
    rw [Gives, Effect.Ends, step, run]

theorem gives_ofExcept {r : Except ε α} {a : α} :
    (ofExcept r : Attempt σ ε α).Gives s a t ↔ r = .ok a ∧ t = s := by
  constructor
  · intro run
    cases run
    exact ⟨rfl, rfl⟩
  · rintro ⟨rfl, rfl⟩
    rfl

theorem ends_step (f : σ → Except ε α × σ) {result : Except ε α} :
    (ofEffect (Effect.step f) : Attempt σ ε α).run.Ends s result t ↔
      (f s.world).1 = result ∧ t = { s with world := (f s.world).2 } := by
  have step : (ofEffect (Effect.step f) : Attempt σ ε α).run.run s =
      ((f s.world).1, { s with world := (f s.world).2 }) := rfl
  rw [Effect.Ends, step, Prod.mk.injEq]
  exact and_congr_right fun _ => eq_comm

theorem gives_step (f : σ → Except ε α × σ) {a : α} :
    (ofEffect (Effect.step f) : Attempt σ ε α).Gives s a t ↔
      (f s.world).1 = .ok a ∧ t = { s with world := (f s.world).2 } := ends_step f

theorem gives_answer (f : σ → Except ε α) {a : α} :
    (ofEffect (Effect.ask f) : Attempt σ ε α).Gives s a t ↔ f s.world = .ok a ∧ t = s := by
  have step : (ofEffect (Effect.ask f) : Attempt σ ε α).run.run s = (f s.world, s) := rfl
  rw [Gives, Effect.Ends, step, Prod.mk.injEq]
  exact and_congr_right fun _ => eq_comm

theorem run_mapError (f : ε → ε') (x : Attempt σ ε α) (s : Session σ) :
    (x.mapError f).run.run s = ((x.run.run s).1.mapError f, (x.run.run s).2) := by
  show StateT.run (x.run >>= _) s = _
  rw [StateT.run_bind]
  rcases x.run.run s with ⟨result, t⟩
  cases result <;> rfl

theorem gives_mapError {f : ε → ε'} {x : Attempt σ ε α} {a : α} :
    (x.mapError f).Gives s a t ↔ x.Gives s a t := by
  rw [Gives, Gives, Effect.Ends, Effect.Ends, run_mapError]
  rcases x.run.run s with ⟨result, middle⟩
  cases result with
  | ok value =>
    constructor
    · intro run
      cases run
      rfl
    · intro run
      cases run
      rfl
  | error e =>
    constructor
    · intro run
      cases run
    · intro run
      cases run

theorem gives_log {line : LogLine} {a : Unit} (run : (log line : Attempt σ ε Unit).Gives s a t) :
    t.world = s.world :=
  Effect.ends_log (gives_lift.mp run)

theorem gives_logAll {lines : List LogLine} {a : Unit}
    (run : (logAll lines : Attempt σ ε Unit).Gives s a t) : t.world = s.world :=
  Effect.ends_logAll (gives_lift.mp run)

theorem gives_ask {f : σ → α} {a : α} (run : (ask f : Attempt σ ε α).Gives s a t) :
    a = f s.world ∧ t = s :=
  Effect.ends_ask (gives_lift.mp run)

theorem exists_gives_that {x : Attempt σ ε α} (good : α → Bool)
    (ok : (match (x.run.run s).1 with
      | .ok a => good a
      | .error _ => false) = true) : ∃ a t, x.Gives s a t ∧ good a = true := by
  obtain ⟨a, given, fine⟩ := exists_ok_that good ok
  exact ⟨a, (x.run.run s).2, Prod.ext given rfl, fine⟩

theorem exists_gives {x : Attempt σ ε α} (ok : (x.run.run s).1.toOption.isSome = true) :
    ∃ a t, x.Gives s a t := by
  rcases outcome : x.run.run s with ⟨result, t⟩
  rw [outcome] at ok
  cases result with
  | error e => cases ok
  | ok a => exact ⟨a, t, outcome⟩

theorem exists_fails [DecidableEq ε] {x : Attempt σ ε α} {e : ε}
    (failed : (match (x.run.run s).1 with
      | .error e' => decide (e' = e)
      | .ok _ => false) = true) : ∃ t, x.Fails s e t := by
  rcases outcome : x.run.run s with ⟨result, t⟩
  rw [outcome] at failed
  cases result with
  | error e' =>
    rw [← of_decide_eq_true failed]
    exact ⟨t, outcome⟩
  | ok a => cases failed

/-! Attempts that avoid an error, from steps that do. -/

variable {bad : ε → Prop}

/-- Of a value that a step goes on with it is known that the step before has given it. -/
theorem avoids_bind {x : Attempt σ ε α} {f : α → Attempt σ ε β} (first : x.Avoids bad)
    (second : ∀ s a t, x.Gives s a t → (f a).Avoids bad) : (x >>= f).Avoids bad := by
  intro s e u failed
  rcases fails_bind.mp failed with early | ⟨a, t, given, late⟩
  · exact first s e u early
  · exact second s a t given t e u late

theorem avoids_pure (a : α) : (pure a : Attempt σ ε α).Avoids bad := by
  intro s e t failed
  cases failed

theorem avoids_throw {e : ε} (fine : ¬ bad e) : (throw e : Attempt σ ε α).Avoids bad := by
  intro s e' t failed
  cases failed
  exact fine

theorem avoids_lift (e : Effect σ α) : (liftM e : Attempt σ ε α).Avoids bad := by
  intro s e' t failed
  cases failed

theorem avoids_guard {c : Prop} [Decidable c] {e : ε} {rest : Unit → Attempt σ ε α}
    (fine : ¬ bad e) (later : (rest ()).Avoids bad) :
    (if c then throw e >>= rest else rest ()).Avoids bad := by
  by_cases thrown : c
  · rw [if_pos thrown]
    exact avoids_bind (avoids_throw fine) fun _ _ _ _ => later
  · rw [if_neg thrown]
    exact later

theorem avoids_check {c : Prop} [Decidable c] {e : ε} {rest : Unit → Attempt σ ε α} (holds : ¬ c)
    (later : (rest ()).Avoids bad) : (if c then throw e >>= rest else rest ()).Avoids bad := by
  rw [if_neg holds]
  exact later

theorem avoids_unless {c : Prop} [Decidable c] {e : ε} {rest : Unit → Attempt σ ε α}
    (fine : ¬ bad e ∨ ¬ c) (later : (rest ()).Avoids bad) :
    (if c then throw e >>= rest else rest ()).Avoids bad :=
  fine.elim (fun harmless => avoids_guard harmless later) fun holds => avoids_check holds later

theorem avoids_ofExcept {r : Except ε α} (fine : ∀ e, r = .error e → ¬ bad e) :
    (ofExcept r : Attempt σ ε α).Avoids bad := by
  intro s e t failed
  cases failed
  exact fine e rfl

theorem avoids_ofExcept_mapError {f : ε' → ε} {r : Except ε' α}
    (fine : ∀ e, r = .error e → ¬ bad (f e)) :
    (ofExcept (r.mapError f) : Attempt σ ε α).Avoids bad := by
  refine avoids_ofExcept fun e failed => ?_
  cases r with
  | ok a => cases failed
  | error e' =>
    cases failed
    exact fine e' rfl

theorem avoids_mapError {f : ε' → ε} {x : Attempt σ ε' α} (fine : x.Avoids fun e => bad (f e)) :
    (x.mapError f).Avoids bad := by
  intro s e t failed
  rw [Fails, Effect.Ends, run_mapError] at failed
  rcases outcome : x.run.run s with ⟨result, middle⟩
  rw [outcome] at failed
  cases result with
  | ok a => cases failed
  | error e' =>
    cases failed
    exact fine s e' middle outcome

theorem avoids_all {x : Attempt σ ε α} (fine : ∀ e, ¬ bad e) : x.Avoids bad :=
  fun _ e _ _ => fine e

/-! Both ends of attempts, from those of their steps. -/

section Meets
variable {good : α → Session σ → Prop} {wrong : Session σ → Prop}

theorem meets_bind {x : Attempt σ ε β} {f : β → Attempt σ ε α} {middle : β → Session σ → Prop}
    (first : x.Meets s middle wrong) (second : ∀ b t, middle b t → (f b).Meets t good wrong) :
    (x >>= f).Meets s good wrong where
  given a u run := by
    obtain ⟨b, t, ran, rest⟩ := gives_bind.mp run
    exact (second b t (first.given b t ran)).given a u rest
  failed e u run := by
    rcases fails_bind.mp run with early | ⟨b, t, ran, late⟩
    · exact first.failed e u early
    · exact (second b t (first.given b t ran)).failed e u late

theorem meets_pure {a : α} (fine : good a s) : (pure a : Attempt σ ε α).Meets s good wrong where
  given b t run := by
    obtain ⟨rfl, rfl⟩ := gives_pure.mp run
    exact fine
  failed e t run := by cases run

theorem meets_throw {e : ε} (fine : wrong s) : (throw e : Attempt σ ε α).Meets s good wrong where
  given a t run := absurd run gives_throw
  failed e' t run := by
    cases run
    exact fine

theorem meets_lift {e : Effect σ α} (ends : ∀ a t, e.Ends s a t → good a t) :
    (liftM e : Attempt σ ε α).Meets s good wrong where
  given a t run := ends a t (gives_lift.mp run)
  failed e t run := by cases run

theorem meets_guard {c : Prop} [Decidable c] {e : ε} {rest : Unit → Attempt σ ε α} (fine : wrong s)
    (later : ¬ c → (rest ()).Meets s good wrong) :
    (if c then throw e >>= rest else rest ()).Meets s good wrong := by
  by_cases thrown : c
  · rw [if_pos thrown]
    have refused : ∀ β, (throw e : Attempt σ ε β).Meets s (fun _ _ => False) wrong :=
      fun _ => meets_throw fine
    exact meets_bind (refused _) fun _ _ => False.elim
  · rw [if_neg thrown]
    exact later thrown

theorem meets_ofExcept {r : Except ε α} (ok : ∀ a, r = .ok a → good a s) (fine : wrong s) :
    (ofExcept r : Attempt σ ε α).Meets s good wrong where
  given a t run := by
    obtain ⟨same, rfl⟩ := gives_ofExcept.mp run
    exact ok a same
  failed e t run := by
    cases run
    exact fine

theorem meets_mapError {f : ε' → ε} {x : Attempt σ ε' α} (meets : x.Meets s good wrong) :
    (x.mapError f).Meets s good wrong where
  given a t run := meets.given a t (gives_mapError.mp run)
  failed e t run := by
    rw [Fails, Effect.Ends, run_mapError] at run
    rcases outcome : x.run.run s with ⟨result, middle⟩
    rw [outcome] at run
    cases result with
    | ok a => cases run
    | error e' =>
      cases run
      exact meets.failed e' middle outcome

end Meets

end Attempt
end KernelBoot
