import KernelBoot.Board.Firmware
import KernelBoot.Board.Media
import KernelBoot.Proofs.Boot.Ranges

/-!
A board keeps the promises that the loader relies on, as long as its script hands out nothing
unchecked and its memory ends before the last address. Scripted storage and an image in memory keep
theirs always.
-/
namespace KernelBoot
open FirmwareView

variable {s t : Session σ}

namespace Board

structure Sound (b : Board) : Prop where
  checked : b.script.grant = none
  space : b.script.ram.stop + 1 < addressSpace
  inside : ∀ g ∈ b.grants, g.within b.script.ram = true

def view : FirmwareView Board := ⟨Sound, Board.memory, Board.grants⟩

variable {b : Board} {range granted : AddressRange}

theorem give_extended (sound : b.Sound) (within : range.within b.script.ram = true)
    (fresh : ∀ g ∈ b.grants, range.overlaps g = false) :
    view.Extended b (b.give range).2 range := by
  refine ⟨⟨sound.checked, sound.space, ?_⟩, rfl, fresh, fun _ _ => rfl⟩
  intro g member
  rcases List.mem_append.mp member with earlier | last
  · exact sound.inside g earlier
  · rw [List.mem_singleton.mp last]
    exact within

theorem allocateAt_ok (sound : b.Sound) (ok : (b.allocateAt range).1 = .ok granted) :
    granted = range ∧ view.Extended b (b.allocateAt range).2 range := by
  unfold allocateAt at ok ⊢
  split at ok
  · cases ok
  · rename_i works
    split at ok
    · cases ok
    · rename_i free
      cases ok
      rw [if_neg works, if_neg free]
      simp only [Bool.or_eq_true, Bool.not_eq_true', not_or, Bool.not_eq_false, List.any_eq_true,
        not_exists, not_and, Bool.not_eq_true, taken, List.mem_append] at free
      obtain ⟨within, apart⟩ := free
      exact ⟨rfl, give_extended sound within fun g member => apart g (.inl member)⟩

theorem allocateAt_refused {e : FirmwareError} (refused : (b.allocateAt range).1 = .error e) :
    (b.allocateAt range).2 = b := by
  unfold allocateAt at refused ⊢
  split
  · rfl
  · rename_i works
    rw [if_neg works] at refused
    split
    · rfl
    · rename_i free
      rw [if_neg free] at refused
      cases refused

theorem allocateAbove_refused {minimum size : Nat} {e : FirmwareError}
    (refused : (b.allocateAbove minimum size).1 = .error e) :
    (b.allocateAbove minimum size).2 = b := by
  unfold allocateAbove at refused ⊢
  split
  · rfl
  · rename_i works
    rw [if_neg works] at refused
    cases script : b.script.grant with
    | some range =>
      rw [script] at refused
      cases refused
    | none =>
      simp only [script] at refused ⊢
      split
      · rfl
      · rename_i found
        rw [found] at refused
        cases refused

theorem freeFrom_ok {ram : AddressRange} {taken : List AddressRange} {size tries start : Nat}
    (found : freeFrom ram taken size tries start = some range) :
    ∃ first, range = .sized first size ∧ range.within ram = true ∧
      ∀ t ∈ taken, range.overlaps t = false := by
  induction tries generalizing start with
  | zero => cases found
  | succ tries ih =>
    simp only [freeFrom] at found
    split at found
    · cases found
    · rename_i fits
      split at found
      · rename_i free
        cases found
        refine ⟨start, rfl, by simpa using fits, fun t member => ?_⟩
        simpa using List.find?_eq_none.mp free t member
      · exact ih found

/-- A place inside the bank that is asked for in whole pages is at least as long as was asked. -/
theorem roundUp_enough {ram : AddressRange} {first size : Nat} (space : ram.stop + 1 < addressSpace)
    (within : (AddressRange.sized first (roundUp size)).within ram = true) :
    size ≤ (AddressRange.sized first (roundUp size)).len ∧
      (AddressRange.sized first (roundUp size)).stop < addressSpace := by
  rw [AddressRange.within_iff] at within
  simp only [AddressRange.sized, AddressRange.between, saturatingAdd, AddressRange.len,
    roundUp] at within ⊢
  omega

theorem allocateAbove_ok {minimum size : Nat} (sound : b.Sound)
    (ok : (b.allocateAbove minimum size).1 = .ok granted) :
    size ≤ granted.len ∧ granted.stop < addressSpace ∧
      view.Extended b (b.allocateAbove minimum size).2 granted := by
  unfold allocateAbove at ok ⊢
  split at ok
  · cases ok
  · rename_i works
    rw [if_neg works]
    simp only [sound.checked] at ok ⊢
    split at ok
    · cases ok
    · rename_i range found
      cases ok
      obtain ⟨first, rfl, within, free⟩ := freeFrom_ok found
      obtain ⟨enough, inSpace⟩ := roundUp_enough sound.space within
      exact ⟨enough, inSpace,
        give_extended sound within fun g member => free g (List.mem_append_left _ member)⟩

theorem read_ok {bytes : Bytes} (ok : b.read range = .ok bytes) : Reachable b.grants range := by
  unfold read at ok
  split at ok
  · rename_i empty
    exact .inl empty
  · split at ok
    · rename_i owned
      simp only [owns, Bool.and_eq_true, List.any_eq_true] at owned
      exact .inr owned.2
    · cases ok

theorem read_length {bytes : Bytes} (ok : b.read range = .ok bytes) : bytes.length = range.len := by
  unfold read at ok
  split at ok
  · rename_i empty
    cases ok
    rw [AddressRange.len, AddressRange.isEmpty_iff.mp empty, Nat.sub_self, List.length_nil]
  · split at ok
    · cases ok
      exact Ram.read_length _ _ _
    · cases ok

theorem read_reachable (sound : b.Sound) (reachable : Reachable b.grants range) :
    b.read range = .ok (view.read b range) := by
  unfold read
  by_cases empty : range.isEmpty = true
  · have none : range.len = 0 := by
      rw [AddressRange.len, AddressRange.isEmpty_iff.mp empty, Nat.sub_self]
    rw [if_pos empty, FirmwareView.read, none]
    rfl
  · rcases reachable with nothing | ⟨g, member, within⟩
    · exact absurd nothing empty
    · have owned : b.owns range = true := by
        simp only [owns, Bool.and_eq_true, List.any_eq_true]
        exact ⟨AddressRange.within_trans within (sound.inside g member), g, member, within⟩
      rw [if_neg empty, if_pos owned]
      rfl

/-! What the services of the board's firmware do. -/

section Services
variable {s t : Session Board}

theorem allocateAt_gives : (firmware.allocateAt range).Gives s granted t ↔
    (s.world.allocateAt range).1 = .ok granted ∧
      t = { s with world := (s.world.allocateAt range).2 } :=
  Attempt.gives_step fun b : Board => b.allocateAt range

theorem allocateAbove_gives {minimum size : Nat} :
    (firmware.allocateAbove minimum size).Gives s granted t ↔
      (s.world.allocateAbove minimum size).1 = .ok granted ∧
        t = { s with world := (s.world.allocateAbove minimum size).2 } :=
  Attempt.gives_step fun b : Board => b.allocateAbove minimum size

theorem memory_gives {bytes : Bytes} : (firmware.memory range).Gives s bytes t ↔
    s.world.read range = .ok bytes ∧ t = s :=
  Attempt.gives_answer fun b : Board => b.read range

end Services

theorem firmware_lawful : firmware.Lawful view where
  allocateAt valid run := by
    obtain ⟨ok, rfl⟩ := allocateAt_gives.mp run
    obtain ⟨same, extended⟩ := allocateAt_ok valid ok
    exact ⟨same, extended.fresh, extended.grown⟩
  allocateAbove valid run := by
    obtain ⟨ok, rfl⟩ := allocateAbove_gives.mp run
    obtain ⟨enough, inSpace, extended⟩ := allocateAbove_ok valid ok
    exact ⟨enough, inSpace, extended.grown⟩
  memory_quiet range := quiet_ask fun b : Board => b.read range
  memory_reachable {s _} valid reachable :=
    ⟨s, memory_gives.mpr ⟨read_reachable valid reachable, rfl⟩⟩
  memory_foreign _ run := read_ok (memory_gives.mp run).1
  store valid _ _ run := by
    cases run
    exact ⟨⟨valid.checked, valid.space, valid.inside⟩, rfl, rfl⟩
  memoryMap_quiet := by
    intro s a t valid run
    cases run
    exact .refl valid
  readVariable_quiet name := quiet_ask fun b : Board => b.script.variableTable.lookup name
  decompress_quiet stream room := quiet_ask fun b : Board => b.decompress stream room

theorem firmware_guards : firmware.Guards view where
  allocateAt valid run := by
    obtain ⟨ok, rfl⟩ := allocateAt_gives.mp run
    exact allocateAt_ok valid ok
  allocateAbove valid run := by
    obtain ⟨ok, rfl⟩ := allocateAbove_gives.mp run
    exact allocateAbove_ok valid ok
  allocateAt_refused valid refused := by
    obtain ⟨failed, rfl⟩ := (Attempt.ends_step fun b : Board => b.allocateAt _).mp refused
    exact .of_eq valid (allocateAt_refused failed)
  allocateAbove_refused valid refused := by
    obtain ⟨failed, rfl⟩ := (Attempt.ends_step fun b : Board => b.allocateAbove _ _).mp refused
    exact .of_eq valid (allocateAbove_refused failed)
  memory_quiet := firmware_lawful.memory_quiet
  memory _ run := ⟨read_ok (memory_gives.mp run).1, read_length (memory_gives.mp run).1⟩
  store := firmware_lawful.store
  memoryMap_quiet := firmware_lawful.memoryMap_quiet
  readVariable_quiet := firmware_lawful.readVariable_quiet
  decompress_quiet := firmware_lawful.decompress_quiet

end Board

theorem ScriptedStorage.storage_apart (storage : ScriptedStorage) (v : FirmwareView σ) :
    (storage.storage : Storage σ).Apart v :=
  ⟨fun _ => quiet_pure _, fun _ => quiet_pure _, fun _ => quiet_pure _⟩

theorem Source.outside?_eq_none {offset len size : Nat} :
    outside? offset len size = none ↔ offset + len < addressSpace ∧ offset + len ≤ size := by
  unfold outside?
  split
  · rename_i inside
    exact ⟨fun _ => inside, fun _ => rfl⟩
  · rename_i beyond
    constructor
    · intro accepted
      cases accepted
    · intro inside
      exact absurd inside beyond

theorem Source.ofMemory_delivers {image : Bytes} (short : image.length < addressSpace)
    (v : FirmwareView σ) : (Source.ofMemory image : Source σ).Delivers v image where
  size _ := rfl
  quiet offset len := by
    simp only [ofMemory]
    split
    · exact quiet_pure _
    · exact quiet_pure _
  inside {s offset len} _ inside := by
    have accepted := outside?_eq_none.mpr ⟨Nat.lt_of_le_of_lt inside short, inside⟩
    simp only [ofMemory, accepted]
    exact ⟨s, rfl⟩
  outside {_ offset len _ _} _ run := by
    simp only [ofMemory] at run
    split at run
    · cases run
    · rename_i accepted
      exact (outside?_eq_none.mp accepted).2

theorem Source.ofMemory_bounded (image : Bytes) (v : FirmwareView σ) :
    (Source.ofMemory image : Source σ).Bounded v where
  quiet offset len := by
    simp only [ofMemory]
    split
    · exact quiet_pure _
    · exact quiet_pure _
  within {_ offset len _ _ _} run := by
    simp only [ofMemory] at run
    split at run
    · cases run
      exact Nat.zero_le _
    · cases run
      exact List.length_take_le _ _
  whole {_ offset len _ _} run := by
    simp only [ofMemory] at run
    split at run
    · cases run
    · rename_i accepted
      have inside := (outside?_eq_none.mp accepted).2
      cases run
      exact Bytes.slice_length inside

end KernelBoot
