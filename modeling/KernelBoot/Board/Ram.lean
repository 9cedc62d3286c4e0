import KernelBoot.Bytes

/-!
Memory as the byte at each address. A store changes the bytes of its window and no other.
-/
namespace KernelBoot

structure Ram where
  byte : Nat → UInt8

namespace Ram

def filled (b : UInt8) : Ram := ⟨fun _ => b⟩

def read (m : Ram) (start len : Nat) : Bytes := (List.range len).map fun i => m.byte (start + i)

def store (m : Ram) (start : Nat) (bytes : Bytes) : Ram :=
  let window := bytes.toArray
  ⟨fun a =>
    if start ≤ a then
      match window[a - start]? with
      | some b => b
      | none => m.byte a
    else m.byte a⟩

theorem store_outside (m : Ram) (start : Nat) (bytes : Bytes) (a : Nat)
    (outside : a < start ∨ start + bytes.length ≤ a) : (m.store start bytes).byte a = m.byte a := by
  simp only [store]
  split
  · have beyond : bytes.toArray[a - start]? = none := by
      simp only [List.getElem?_toArray]
      exact List.getElem?_eq_none (by omega)
    rw [beyond]
  · rfl

theorem read_store (m : Ram) (start : Nat) (bytes : Bytes) :
    (m.store start bytes).read start bytes.length = bytes := by
  apply List.ext_getElem
  · simp [read]
  · intro i h₁ h₂
    simp only [read, store, List.getElem_map, List.getElem_range, Nat.le_add_right, ↓reduceIte,
      Nat.add_sub_cancel_left, List.getElem?_toArray, List.getElem?_eq_getElem h₂]

end Ram
end KernelBoot
