import KernelBoot.Board.Ram
import KernelBoot.Boot.Source
import KernelBoot.Proofs.Boot.Run
import KernelBoot.Proofs.Buffer

/-!
What the loader relies on. A firmware is looked at through the bytes of its memory and the ranges
it has given out. Claims add a range and leave the bytes of earlier ones alone, a store changes its
own window, and nothing else changes memory or grants. Addresses are 64-bit numbers.
-/
namespace KernelBoot

/-- `valid` holds of the states that the firmware can be in; grants are listed oldest first. -/
structure FirmwareView (σ : Type) where
  valid : σ → Prop
  ram : σ → Ram
  grants : σ → List AddressRange

namespace FirmwareView

structure Same (v : FirmwareView σ) (w w' : σ) : Prop where
  valid : v.valid w'
  ram : v.ram w' = v.ram w
  grants : v.grants w' = v.grants w

/-- One more range is given out; the bytes of all earlier ones are as they were. -/
structure Grown (v : FirmwareView σ) (w w' : σ) (range : AddressRange) : Prop where
  valid : v.valid w'
  grants : v.grants w' = v.grants w ++ [range]
  kept : ∀ g ∈ v.grants w, ∀ a, g.start ≤ a → a < g.stop → (v.ram w').byte a = (v.ram w).byte a

/-- One more range is given out, clear of all earlier ones; no byte outside it has changed. -/
structure Extended (v : FirmwareView σ) (w w' : σ) (range : AddressRange) : Prop where
  valid : v.valid w'
  grants : v.grants w' = v.grants w ++ [range]
  fresh : ∀ g ∈ v.grants w, range.overlaps g = false
  outside : ∀ a, range.contains a = false → (v.ram w').byte a = (v.ram w).byte a

/-- Ranges that can be reached: empty ones, and those inside one grant. -/
def Reachable (grants : List AddressRange) (range : AddressRange) : Prop :=
  range.isEmpty = true ∨ ∃ g ∈ grants, range.within g = true

def read (v : FirmwareView σ) (w : σ) (range : AddressRange) : Bytes :=
  (v.ram w).read range.start range.len

/-- A step that changes neither memory nor grants, whatever comes of it. -/
def Quiet (v : FirmwareView σ) (e : Effect σ α) : Prop :=
  ∀ s a t, v.valid s.world → e.Ends s a t → v.Same s.world t.world

end FirmwareView

/-- The firmware keeps its promises about memory. -/
structure Firmware.Lawful (f : Firmware σ) (v : FirmwareView σ) : Prop where
  allocateAt : ∀ {s range granted t}, v.valid s.world → (f.allocateAt range).Gives s granted t →
    granted = range ∧ (∀ g ∈ v.grants s.world, range.overlaps g = false) ∧
      v.Grown s.world t.world range
  allocateAbove : ∀ {s minimum size granted t}, v.valid s.world →
    (f.allocateAbove minimum size).Gives s granted t →
    size ≤ granted.len ∧ granted.stop < addressSpace ∧ v.Grown s.world t.world granted
  memory_quiet : ∀ range, v.Quiet (f.memory range).run
  memory_reachable : ∀ {s range}, v.valid s.world →
    FirmwareView.Reachable (v.grants s.world) range →
    ∃ t, (f.memory range).Gives s (v.read s.world range) t
  memory_foreign : ∀ {s range bytes t}, v.valid s.world →
    (f.memory range).Gives s bytes t → FirmwareView.Reachable (v.grants s.world) range
  store : ∀ {s range bytes u t}, v.valid s.world → bytes.length = range.len →
    FirmwareView.Reachable (v.grants s.world) range → (f.store range bytes).Ends s u t →
    v.valid t.world ∧ v.ram t.world = (v.ram s.world).store range.start bytes ∧
      v.grants t.world = v.grants s.world
  memoryMap_quiet : v.Quiet f.memoryMap.run
  readVariable_quiet : ∀ name, v.Quiet (f.readVariable name)
  decompress_quiet : ∀ stream room, v.Quiet (f.decompress stream room).run

/-- Memory changes only where the firmware gives it out and where it is stored to. A claim that is
    refused changes nothing, and memory that is handed out may also be refused. -/
structure Firmware.Guards (f : Firmware σ) (v : FirmwareView σ) : Prop where
  allocateAt : ∀ {s range granted t}, v.valid s.world → (f.allocateAt range).Gives s granted t →
    granted = range ∧ v.Extended s.world t.world range
  allocateAbove : ∀ {s minimum size granted t}, v.valid s.world →
    (f.allocateAbove minimum size).Gives s granted t →
    size ≤ granted.len ∧ granted.stop < addressSpace ∧ v.Extended s.world t.world granted
  allocateAt_refused : ∀ {s range e t}, v.valid s.world → (f.allocateAt range).Fails s e t →
    v.Same s.world t.world
  allocateAbove_refused : ∀ {s minimum size e t}, v.valid s.world →
    (f.allocateAbove minimum size).Fails s e t → v.Same s.world t.world
  memory_quiet : ∀ range, v.Quiet (f.memory range).run
  memory : ∀ {s range bytes t}, v.valid s.world → (f.memory range).Gives s bytes t →
    FirmwareView.Reachable (v.grants s.world) range ∧ bytes.length = range.len
  store : ∀ {s range bytes u t}, v.valid s.world → bytes.length = range.len →
    FirmwareView.Reachable (v.grants s.world) range → (f.store range bytes).Ends s u t →
    v.valid t.world ∧ v.ram t.world = (v.ram s.world).store range.start bytes ∧
      v.grants t.world = v.grants s.world
  memoryMap_quiet : v.Quiet f.memoryMap.run
  readVariable_quiet : ∀ name, v.Quiet (f.readVariable name)
  decompress_quiet : ∀ stream room, v.Quiet (f.decompress stream room).run

/-- The storage has no hand in memory. -/
structure Storage.Apart (storage : Storage σ) (v : FirmwareView σ) : Prop where
  list : ∀ dir, v.Quiet (storage.list dir).run
  readFile : ∀ path, v.Quiet (storage.readFile path).run
  readDevice : ∀ device, v.Quiet (storage.readDevice device).run

/-- The source has no hand in memory either, and a read fills just the window it is given: all of
    it, or a part when it fails. -/
structure Source.Bounded (source : Source σ) (v : FirmwareView σ) : Prop where
  quiet : ∀ offset len, v.Quiet (source.readAt offset len)
  within : ∀ {s offset len result bytes t},
    (source.readAt offset len).Ends s (result, bytes) t → bytes.length ≤ len
  whole : ∀ {s offset len bytes t},
    (source.readAt offset len).Ends s (.ok (), bytes) t → bytes.length = len

/-- The source is that of an image: a read inside it delivers those bytes, any other fails. -/
structure Source.Delivers (source : Source σ) (v : FirmwareView σ) (image : Bytes) : Prop where
  size : ∀ {w}, v.valid w → source.size w = image.length
  quiet : ∀ offset len, v.Quiet (source.readAt offset len)
  inside : ∀ {s offset len}, v.valid s.world → offset + len ≤ image.length →
    ∃ t, (source.readAt offset len).Ends s (.ok (), image.slice offset len) t
  outside : ∀ {s offset len bytes t}, v.valid s.world →
    (source.readAt offset len).Ends s (.ok (), bytes) t → offset + len ≤ image.length

namespace FirmwareView
variable {v : FirmwareView σ} {w w' w'' : σ}

theorem Same.refl (valid : v.valid w) : v.Same w w := ⟨valid, rfl, rfl⟩

theorem Same.trans (first : v.Same w w') (second : v.Same w' w'') : v.Same w w'' :=
  ⟨second.valid, second.ram.trans first.ram, second.grants.trans first.grants⟩

theorem Same.of_eq (valid : v.valid w) (same : w' = w) : v.Same w w' := by
  rw [same]
  exact .refl valid

theorem Same.read (same : v.Same w w') (range : AddressRange) : v.read w' range = v.read w range := by
  simp only [FirmwareView.read, same.ram]

/-! Effects made of quiet steps are quiet. -/

theorem quiet_bind {e : Effect σ α} {f : α → Effect σ β} (first : v.Quiet e)
    (second : ∀ a, v.Quiet (f a)) : v.Quiet (e >>= f) := by
  intro s b u valid run
  obtain ⟨a, t, ran, rest⟩ := Effect.ends_bind.mp run
  have step := first s a t valid ran
  exact step.trans (second a t b u step.valid rest)

theorem quiet_pure (a : α) : v.Quiet (pure a : Effect σ α) := by
  intro s b t valid run
  obtain ⟨_, rfl⟩ := Effect.ends_pure.mp run
  exact .refl valid

theorem quiet_log (line : LogLine) : v.Quiet (Effect.log line) :=
  fun _ _ _ valid run => .of_eq valid (Effect.ends_log run)

theorem quiet_logAll (lines : List LogLine) : v.Quiet (Effect.logAll lines) :=
  fun _ _ _ valid run => .of_eq valid (Effect.ends_logAll run)

theorem quiet_ask (f : σ → α) : v.Quiet (Effect.ask f) := by
  intro s a t valid run
  obtain ⟨_, rfl⟩ := Effect.ends_ask run
  exact .refl valid

theorem quiet_lift {e : Effect σ α} (quiet : v.Quiet e) :
    v.Quiet (liftM e : Attempt σ ε α).run := by
  have same : (liftM e : Attempt σ ε α).run = e >>= fun a => pure (Except.ok a) := rfl
  rw [same]
  exact quiet_bind quiet fun a => quiet_pure _

theorem quiet_mapError {x : Attempt σ ε α} (f : ε → ε') (quiet : v.Quiet x.run) :
    v.Quiet (x.mapError f).run := by
  refine quiet_bind quiet fun result => ?_
  cases result with
  | ok value => exact quiet_pure _
  | error e => exact quiet_pure _

theorem quiet_attempt_bind {x : Attempt σ ε α} {f : α → Attempt σ ε β} (first : v.Quiet x.run)
    (second : ∀ a, v.Quiet (f a).run) : v.Quiet (x >>= f).run := by
  have same : (x >>= f).run = x.run >>= ExceptT.bindCont f := rfl
  rw [same]
  refine quiet_bind first fun result => ?_
  cases result with
  | ok value => exact second value
  | error e => exact quiet_pure _

theorem quiet_guard {c : Prop} [Decidable c] {e : ε} {rest : Unit → Attempt σ ε α}
    (quiet : v.Quiet (rest ()).run) :
    v.Quiet (if c then throw e >>= rest else rest ()).run := by
  by_cases failed : c
  · rw [if_pos failed]
    exact quiet_attempt_bind (quiet_pure _) fun _ => quiet
  · rw [if_neg failed]
    exact quiet

end FirmwareView

namespace Firmware.Lawful
variable {f : Firmware σ} {v : FirmwareView σ} {s t : Session σ}

/-- What a reading of memory gives, and of which ranges it gives something. -/
theorem memory_ok (lawful : f.Lawful v) (valid : v.valid s.world) {range : AddressRange}
    {bytes : Bytes} (run : (f.memory range).Gives s bytes t) :
    v.Same s.world t.world ∧ FirmwareView.Reachable (v.grants s.world) range ∧
      bytes = v.read s.world range := by
  have reachable := lawful.memory_foreign valid run
  obtain ⟨t', again⟩ := lawful.memory_reachable valid reachable
  have same := run.symm.trans again
  cases same
  exact ⟨lawful.memory_quiet range s _ t valid run, reachable, rfl⟩

end Firmware.Lawful

namespace Source.Delivers
variable {source : Source σ} {v : FirmwareView σ} {image : Bytes} {s t : Session σ}

theorem readAt_ok (delivers : source.Delivers v image) (valid : v.valid s.world)
    {offset len : Nat} {bytes : Bytes}
    (run : (source.readAt offset len).Ends s (.ok (), bytes) t) :
    v.Same s.world t.world ∧ bytes = image.slice offset len ∧ bytes.length = len := by
  have bound := delivers.outside valid run
  obtain ⟨t', again⟩ := delivers.inside valid bound
  have same := run.symm.trans again
  cases same
  exact ⟨delivers.quiet offset len s _ t valid run, rfl, Bytes.slice_length bound⟩

end Source.Delivers
end KernelBoot
