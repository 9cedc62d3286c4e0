import KernelBoot.ImageTool.Assemble
import KernelBoot.Proofs.BootImage.Geometry
import KernelBoot.Proofs.BootImage.HeaderBytes

/-!
An image is its parts, written into a buffer of zeros, each behind the one before it. Every part is
found at its place afterwards, and what lies in none of them is zero.
-/
namespace KernelBoot

namespace Bytes

def putAll (buf : Bytes) (parts : List (Nat × Bytes)) : Bytes :=
  parts.foldl (fun buf (offset, part) => buf.overwrite offset part) buf

def Inside (buf : Bytes) (parts : List (Nat × Bytes)) : Prop :=
  ∀ part ∈ parts, part.1 + part.2.length ≤ buf.length

theorem Inside.tail {buf part : Bytes} {offset : Nat} {rest : List (Nat × Bytes)}
    (inside : buf.Inside ((offset, part) :: rest)) : (buf.overwrite offset part).Inside rest := by
  intro next member
  rw [overwrite_length _ _ _ (inside _ List.mem_cons_self)]
  exact inside next (List.mem_cons_of_mem _ member)

theorem putAll_length {buf : Bytes} {parts : List (Nat × Bytes)} (inside : buf.Inside parts) :
    (buf.putAll parts).length = buf.length := by
  induction parts generalizing buf with
  | nil => rfl
  | cons part rest ih =>
    exact (ih inside.tail).trans (overwrite_length _ _ _ (inside _ List.mem_cons_self))

theorem putAll_outside {buf : Bytes} {parts : List (Nat × Bytes)} {i : Nat}
    (inside : buf.Inside parts)
    (outside : ∀ part ∈ parts, i < part.1 ∨ part.1 + part.2.length ≤ i) :
    (buf.putAll parts)[i]? = buf[i]? := by
  induction parts generalizing buf with
  | nil => rfl
  | cons part rest ih =>
    obtain ⟨first, later⟩ := List.forall_mem_cons.mp outside
    have rest := ih inside.tail later
    exact rest.trans (overwrite_outside (inside _ List.mem_cons_self) first)

theorem slice_putAll_before {buf : Bytes} {parts : List (Nat × Bytes)} {start len : Nat}
    (inside : buf.Inside parts) (before : ∀ part ∈ parts, start + len ≤ part.1) :
    slice (buf.putAll parts) start len = slice buf start len := by
  apply List.ext_getElem?
  intro i
  rw [slice_getElem?, slice_getElem?]
  split
  · apply putAll_outside inside
    intro part member
    have far := before part member
    omega
  · rfl

theorem slice_putAll {buf : Bytes} {parts : List (Nat × Bytes)} (inside : buf.Inside parts)
    (ordered : parts.Pairwise fun a b => a.1 + a.2.length ≤ b.1) :
    ∀ part ∈ parts, slice (buf.putAll parts) part.1 part.2.length = part.2 := by
  induction parts generalizing buf with
  | nil => exact List.forall_mem_nil _
  | cons part rest ih =>
    obtain ⟨before, later⟩ := List.pairwise_cons.mp ordered
    have room := inside part List.mem_cons_self
    rw [List.forall_mem_cons]
    constructor
    · have kept := slice_putAll_before inside.tail before
      exact kept.trans (slice_overwrite (Nat.le_trans (Nat.le_add_right _ _) room))
    · exact ih inside.tail later

end Bytes

/-- `filled` is `h` with the sizes of the parts, which are 32-bit numbers. -/
structure Payload.Fills (p : Payload) (h filled : BootHeader) : Prop where
  same : filled = { h with
    kernel := ⟨filled.kernel.size, h.kernel.address⟩
    ramdisk := ⟨filled.ramdisk.size, h.ramdisk.address⟩
    second := ⟨filled.second.size, h.second.address⟩
    deviceTreeSize := 0 }
  kernel : filled.kernel.size.toNat = p.kernel.length
  ramdisk : filled.ramdisk.size.toNat = p.ramdisk.length
  second : filled.second.size.toNat = p.second.length

theorem Payload.sizeField_ok {what : String} {part : Bytes} {size : UInt32}
    (ok : sizeField what part = .ok size) : size.toNat = part.length := by
  unfold sizeField at ok
  split at ok
  · rename_i fits
    cases ok
    exact UInt32.toNat_ofNat_of_lt' fits
  · cases ok

theorem Payload.fillSizes_ok {p : Payload} {h filled : BootHeader} (ok : p.fillSizes h = .ok filled) :
    p.Fills h filled := by
  unfold fillSizes at ok
  simp only [bind, Except.bind, pure, Except.pure] at ok
  split at ok
  · cases ok
  rename_i kernel kernelOk
  split at ok
  · cases ok
  rename_i ramdisk ramdiskOk
  split at ok
  · cases ok
  rename_i second secondOk
  cases ok
  exact ⟨rfl, sizeField_ok kernelOk, sizeField_ok ramdiskOk, sizeField_ok secondOk⟩

/-- The header and the parts of a payload, where they go. -/
def Payload.parts (p : Payload) (header : Bytes) (l : ImageLayout) : List (Nat × Bytes) :=
  [(0, header), (l.kernel.offset, p.kernel), (l.ramdisk.offset, p.ramdisk),
    (l.second.offset, p.second)]

theorem assemble_ok {h : BootHeader} {p : Payload} {image : Bytes} (ok : assemble h p = .ok image) :
    ∃ filled layout, p.Fills h filled ∧ ImageLayout.of filled = .ok layout ∧ filled.Fits ∧
      filled.encodedLength ≤ layout.imageLength ∧
      image = (Bytes.zeros layout.imageLength).putAll
        (p.parts (filled.front ++ filled.extraBytes) layout) := by
  unfold assemble at ok
  simp only [bind, Except.bind, pure, Except.pure] at ok
  split at ok
  · cases ok
  rename_i filled fills
  split at ok
  · cases ok
  rename_i layout laid
  split at ok
  · cases ok
  rename_i length written
  cases ok
  have headed := mapError_eq_ok.mp written
  obtain ⟨fits, room, _⟩ := BootHeader.write_eq_ok_iff.mp headed
  rw [Bytes.zeros_length] at room
  refine ⟨filled, layout, Payload.fillSizes_ok fills, mapError_eq_ok.mp laid, fits, room, ?_⟩
  rw [BootHeader.write_written headed, ← BootHeader.bytes_length, ← Bytes.overwrite_start]
  rfl

def Placement.Holds (place : Placement) (image part : Bytes) : Prop :=
  place.size = part.length ∧ image.slice place.offset place.size = part

def ImageLayout.Leaves (l : ImageLayout) (i : Nat) : Prop :=
  ∀ place ∈ l.placements, i < place.offset ∨ place.offset + place.size ≤ i

/-- An image that is made of a header and the parts of a payload, and of nothing else. -/
structure Payload.MakesUp (p : Payload) (filled : BootHeader) (l : ImageLayout) (image : Bytes) :
    Prop where
  length : image.length = l.imageLength
  header : image.slice 0 (filled.front ++ filled.extraBytes).length =
    filled.front ++ filled.extraBytes
  kernel : l.kernel.Holds image p.kernel
  ramdisk : l.ramdisk.Holds image p.ramdisk
  second : l.second.Holds image p.second
  blank : ∀ i, filled.encodedLength ≤ i → i < image.length → l.Leaves i → image[i]? = some 0

section Whole
variable {h filled : BootHeader} {p : Payload} {l : ImageLayout} {header : Bytes}
  (fills : p.Fills h filled) (chained : l.Chained filled)
  (room : header.length ≤ filled.pageSize.bytes)

include fills chained room in
theorem Payload.parts_ordered :
    (p.parts header l).Pairwise fun a b => a.1 + a.2.length ≤ b.1 := by
  obtain ⟨first, second, third, _⟩ := ImageLayout.forall_placements.mp chained.header_first
  have kernel := chained.kernel.size_le_stop
  have ramdisk := chained.ramdisk.size_le_stop
  rw [chained.kernel.size_eq, fills.kernel] at kernel
  rw [chained.ramdisk.size_eq, fills.ramdisk] at ramdisk
  have next := chained.ramdisk.offset_eq
  have last := chained.second.offset_eq
  simp only [parts, List.pairwise_cons, List.forall_mem_cons, List.not_mem_nil, false_implies,
    implies_true, List.Pairwise.nil, and_true, Placement.stop] at *
  omega

include fills chained room in
theorem Payload.parts_inside : (Bytes.zeros l.imageLength).Inside (p.parts header l) := by
  obtain ⟨kernel, ramdisk, second, _⟩ := ImageLayout.forall_placements.mp chained.size_le_length
  have headerPage := chained.header_first l.kernel List.mem_cons_self
  rw [chained.kernel.size_eq, fills.kernel] at kernel
  rw [chained.ramdisk.size_eq, fills.ramdisk] at ramdisk
  rw [chained.second.size_eq, fills.second] at second
  simp only [Bytes.Inside, parts, Bytes.zeros_length, List.forall_mem_cons, List.not_mem_nil,
    false_implies, implies_true, and_true]
  omega

end Whole

/-- With a header that fits into its page, an image is made up of its header and its parts. -/
theorem assemble_makesUp {h : BootHeader} {p : Payload} {image : Bytes}
    (ok : assemble h p = .ok image) (room : h.encodedLength ≤ h.pageSize.bytes) :
    ∃ filled layout, p.Fills h filled ∧ ImageLayout.of filled = .ok layout ∧ filled.Fits ∧
      p.MakesUp filled layout image := by
  obtain ⟨filled, layout, fills, laid, fits, _, rfl⟩ := assemble_ok ok
  have chained := ImageLayout.of_chained laid
  have within : (filled.front ++ filled.extraBytes).length ≤ filled.pageSize.bytes := by
    rw [BootHeader.bytes_length, fills.same]
    exact room
  have inside := Payload.parts_inside fills chained within
  have found := Bytes.slice_putAll inside (Payload.parts_ordered fills chained within)
  simp only [Payload.parts, List.forall_mem_cons] at found
  obtain ⟨header, kernel, ramdisk, second, _⟩ := found
  have kernelSize := chained.kernel.size_eq.trans fills.kernel
  have ramdiskSize := chained.ramdisk.size_eq.trans fills.ramdisk
  have secondSize := chained.second.size_eq.trans fills.second
  have length := Bytes.putAll_length inside
  rw [Bytes.zeros_length] at length
  refine ⟨filled, layout, fills, laid, fits, ?_⟩
  constructor
  · exact length
  · exact header
  · exact ⟨kernelSize, kernelSize ▸ kernel⟩
  · exact ⟨ramdiskSize, ramdiskSize ▸ ramdisk⟩
  · exact ⟨secondSize, secondSize ▸ second⟩
  · intro i behind inImage free
    obtain ⟨kernelFree, ramdiskFree, secondFree, _⟩ := ImageLayout.forall_placements.mp free
    rw [kernelSize] at kernelFree
    rw [ramdiskSize] at ramdiskFree
    rw [secondSize] at secondFree
    rw [length] at inImage
    rw [Bytes.putAll_outside inside, Bytes.zeros, List.getElem?_replicate, if_pos inImage]
    simp only [Payload.parts, List.forall_mem_cons, List.not_mem_nil, false_implies, implies_true,
      and_true, BootHeader.bytes_length]
    exact ⟨.inr (by omega), kernelFree, ramdiskFree, secondFree⟩

end KernelBoot
