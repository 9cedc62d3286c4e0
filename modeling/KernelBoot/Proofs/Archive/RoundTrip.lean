import KernelBoot.Proofs.Archive.Writing
import Mathlib.Data.List.Forall2
import Mathlib.Data.List.TakeWhile

/-!
Reading a written archive. It gives the live members in front of the first that has the trailer's
name, each under the header it was written with.
-/
namespace KernelBoot

namespace Archive
open RecordHeader

theorem readMembers_trailer (position : Nat) (rest : Bytes) (room capacity : Nat) :
    readMembers ⟨position, trailerBytes ++ rest, true⟩ room capacity = .ok [] := by
  have step := readMember_recordBytes trailer_fits (by decide) position rest
  rw [beq_self_eq_true, if_pos rfl] at step
  exact readMembers_none (record_ahead _ _ _ _ _) step room capacity

/-- Members in front of the first that is named like the trailer. -/
def beforeTrailer (entries : List Entry) : List Entry :=
  entries.takeWhile fun e => e.name != trailerName

theorem readMembers_records (entries : List Entry) (writable : ∀ e ∈ entries, e.Writable)
    (position : Nat) (rest : Bytes) (room capacity : Nat)
    (enough : (beforeTrailer entries).length ≤ room) :
    readMembers ⟨position, records entries ++ trailerBytes ++ rest, true⟩ room capacity =
      .ok ((beforeTrailer entries).map Entry.reread) := by
  induction entries generalizing position room with
  | nil => exact readMembers_trailer position rest room capacity
  | cons e more ih =>
    have first : e.Writable := writable e List.mem_cons_self
    have others : ∀ e' ∈ more, e'.Writable := fun e' member =>
      writable e' (List.mem_cons_of_mem e member)
    have apart : records (e :: more) ++ trailerBytes ++ rest =
        recordBytes e.sizedHeader e.name e.data ++ (records more ++ trailerBytes ++ rest) := by
      simp only [records, List.flatMap_cons, List.append_assoc, Entry.record]
    have step := readMember_recordBytes first.fits first.named position
      (records more ++ trailerBytes ++ rest)
    have ahead := record_ahead position e.sizedHeader e.name e.data
      (records more ++ trailerBytes ++ rest)
    rw [apart]
    by_cases last : e.name = trailerName
    · have ends : beforeTrailer (e :: more) = [] := by simp [beforeTrailer, last]
      rw [if_pos (by simp [last])] at step
      rw [ends, readMembers_none ahead step, List.map_nil]
    · have stays : beforeTrailer (e :: more) = e :: beforeTrailer more := by
        simp [beforeTrailer, last]
      rw [if_neg (by simp [last])] at step
      rw [stays] at enough ⊢
      cases room with
      | zero => simp at enough
      | succ room =>
        have rest_enough : (beforeTrailer more).length ≤ room := by simpa using enough
        rw [readMembers_some ahead step, ih others _ _ rest_enough]
        rfl

theorem decode_records (entries : List Entry) (writable : ∀ e ∈ entries, e.Writable)
    (rest : Bytes) (capacity : Nat) (enough : (beforeTrailer entries).length ≤ capacity) :
    decode (records entries ++ trailerBytes ++ rest) capacity =
      .ok ⟨(beforeTrailer entries).map Entry.reread, capacity⟩ := by
  rw [decode, Reader.start, readMembers_records entries writable 0 rest capacity capacity enough]
  rfl

end Archive

/-- `m` is what reading makes of a written `e`: its name, its data and all fields of its header. -/
structure Entry.ReadAs (e m : Entry) : Prop where
  name_eq : m.name = e.name
  data_eq : m.data = e.data
  kept : ∃ header, e.header = .ok header ∧ m.origin = .preserved header
  live : m.skipped = false

theorem Entry.Writable.readAs {e : Entry} (writable : e.Writable) : e.ReadAs e.reread where
  name_eq := rfl
  data_eq := rfl
  kept := ⟨e.sizedHeader, (e.header_eq_ok_iff _).mpr ⟨writable, rfl⟩, rfl⟩
  live := rfl

namespace Archive

/-- Writing puts exactly the members that are not skipped into the first `encodedLength` bytes of any
    buffer that has so many, and reading those bytes gives these members back in order. -/
theorem decode_encode (a : Archive) (dest : Bytes) (capacity : Nat)
    (named : ∀ e ∈ a.entries, e.skipped = false → e.name ≠ [] ∧ e.name ≠ RecordHeader.trailerName)
    (sized : ∀ e ∈ a.entries, e.skipped = false →
      e.nameSize < wordLimit ∧ e.data.length < wordLimit)
    (room : a.encodedLength ≤ dest.length)
    (limit : (a.entries.filter fun e => e.skipped = false).length ≤ capacity) :
    (a.encode dest).1 = .ok a.encodedLength ∧
      (a.encode dest).2.length = dest.length ∧
      (a.encode dest).2.drop a.encodedLength = dest.drop a.encodedLength ∧
      ∃ members, decode ((a.encode dest).2.take a.encodedLength) capacity =
          .ok ⟨members, capacity⟩ ∧
        List.Forall₂ Entry.ReadAs (a.entries.filter fun e => e.skipped = false) members := by
  have kept : (a.entries.filter fun e => e.skipped = false) = a.live :=
    List.filter_congr fun e _ => by simp
  have present : ∀ e ∈ a.live, e ∈ a.entries ∧ e.skipped = false := by
    intro e member
    rw [← kept] at member
    simpa using member
  have named : ∀ e ∈ a.live, e.name ≠ [] ∧ e.name ≠ RecordHeader.trailerName := fun e member =>
    named e (present e member).1 (present e member).2
  have writable : ∀ e ∈ a.live, e.Writable := fun e member =>
    have sizes := sized e (present e member).1 (present e member).2
    ⟨(named e member).1, sizes.1, sizes.2⟩
  have ok : (a.encode dest).1 = .ok a.encodedLength :=
    (encode_eq_ok_iff a dest _).mpr ⟨writable, rfl, room⟩
  have written := encode_written ok
  have length := written_length a
  have all : beforeTrailer a.live = a.live := by
    rw [beforeTrailer, List.takeWhile_eq_self_iff]
    intro e member
    simpa using (named e member).2
  rw [kept] at limit ⊢
  have whole := decode_records a.live writable [] capacity (by rw [all]; exact limit)
  rw [List.append_nil, all] at whole
  refine ⟨ok, ?_, ?_, a.live.map Entry.reread, ?_, ?_⟩
  · rw [written, List.length_append, length, List.length_drop]
    omega
  · rw [written, List.drop_left' length]
  · rw [written, List.take_left' length, whole]
  · rw [List.forall₂_map_right_iff, List.forall₂_same]
    exact fun e member => (writable e member).readAs

/-- A member whose header was kept, with the sizes of another file. -/
def oddFile : Entry :=
  .decoded ⟨7, ⟨0xFFFFFFFF⟩, 1, 2, 3, 4, 99, 5, 6, 7, 8, 98, 9⟩ [0x61, 0x2F, 0x62] [1, 2, 3, 4, 5]

/-- A skipped member between two others, of which the last has a name that ends in NUL. -/
def oddMembers : Archive where
  entries :=
    [oddFile, { Entry.file [0x78] [1] with skipped := true }, .directory [0x54, 0x52, 0x00]]
  capacity := 3

theorem decode_oddMembers :
    (oddMembers.encode (Bytes.zeros 512)).1 = .ok oddMembers.encodedLength ∧
      (oddMembers.encode (Bytes.zeros 512)).2.length = (Bytes.zeros 512).length ∧
      (oddMembers.encode (Bytes.zeros 512)).2.drop oddMembers.encodedLength =
        (Bytes.zeros 512).drop oddMembers.encodedLength ∧
      ∃ members,
        decode ((oddMembers.encode (Bytes.zeros 512)).2.take oddMembers.encodedLength) 2 =
          .ok ⟨members, 2⟩ ∧
        List.Forall₂ Entry.ReadAs [oddFile, .directory [0x54, 0x52, 0x00]] members :=
  decode_encode oddMembers (Bytes.zeros 512) 2 (by decide) (by decide)
    (by rw [Bytes.zeros_length]; decide) (by decide)

end Archive
end KernelBoot
