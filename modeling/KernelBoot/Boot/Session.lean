import KernelBoot.Boot.Log

/-!
A run of the loader acts on a world it does not look into and on its log. The world is whatever
the firmware, the storage and the image source share; it is kept also when a step fails.
-/
namespace KernelBoot

structure Session (σ : Type) where
  world : σ
  logger : Logger

abbrev Effect (σ : Type) := StateM (Session σ)

/-- An effect that may fail; what it has changed until then stays changed. -/
abbrev Attempt (σ ε : Type) := ExceptT ε (Effect σ)

namespace Effect

def log (line : LogLine) : Effect σ Unit := modify fun s => { s with logger := s.logger.log line }

def logAll : List LogLine → Effect σ Unit
  | [] => pure ()
  | line :: rest => do log line; logAll rest

def ask (f : σ → α) : Effect σ α := return f (← get).world

def change (f : σ → σ) : Effect σ Unit := modify fun s => { s with world := f s.world }

def step (f : σ → α × σ) : Effect σ α :=
  modifyGet fun s => let (a, world) := f s.world; (a, { s with world })

end Effect

namespace Attempt

def log (line : LogLine) : Attempt σ ε Unit := ExceptT.lift (Effect.log line)

def logAll (lines : List LogLine) : Attempt σ ε Unit := ExceptT.lift (Effect.logAll lines)

def ask (f : σ → α) : Attempt σ ε α := ExceptT.lift (Effect.ask f)

def ofExcept (r : Except ε α) : Attempt σ ε α := ExceptT.mk (pure r)

def ofEffect (e : Effect σ (Except ε α)) : Attempt σ ε α := ExceptT.mk e

def mapError (f : ε → ε') (a : Attempt σ ε α) : Attempt σ ε' α :=
  ExceptT.mk do
    match ← a.run with
    | .ok value => return .ok value
    | .error e => return .error (f e)

def on (part : σ → τ) (replace : τ → σ → σ) (a : Attempt τ ε α) : Attempt σ ε α :=
  ExceptT.mk fun s =>
    let (result, inner) := a.run.run ⟨part s.world, s.logger⟩
    (result, ⟨replace inner.world s.world, inner.logger⟩)

end Attempt
end KernelBoot
