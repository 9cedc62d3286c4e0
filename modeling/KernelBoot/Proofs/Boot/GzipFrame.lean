import KernelBoot.Boot.Gzip
import KernelBoot.Proofs.Buffer

/-!
What a gzip member is made of. Its parts are written one after the other, the optional ones where
their flags announce them, and reading finds the payload of just the byte strings that are written
so. A length or a text that runs past the end leaves no room for what has to follow it.
-/
namespace KernelBoot.Gzip
open Bytes

/-- A member by its parts; an optional part is there just if its bit of the flags is set. -/
structure Member where
  flags : UInt8
  /-- The time, the flags of the compressor and its system. -/
  origin : Fixed UInt8 6
  extra : Option Bytes
  name : Option Bytes
  comment : Option Bytes
  checksum : Option (Fixed UInt8 2)
  payload : Bytes
  trailer : Fixed UInt8 8
  extra_announced : extra.isSome = (flags &&& 0x04 != 0)
  name_announced : name.isSome = (flags &&& 0x08 != 0)
  comment_announced : comment.isSome = (flags &&& 0x10 != 0)
  checksum_announced : checksum.isSome = (flags &&& 0x02 != 0)
  extra_counted : ∀ bytes ∈ extra, bytes.length < 0x10000
  name_plain : ∀ text ∈ name, 0 ∉ text
  comment_plain : ∀ text ∈ comment, 0 ∉ text

def optional (write : α → Bytes) (part : Option α) : Bytes := part.elim [] write

def counted (bytes : Bytes) : Bytes := le 2 bytes.length ++ bytes

def terminated (text : Bytes) : Bytes := text ++ [0]

namespace Member

def fields (m : Member) : Bytes :=
  optional counted m.extra ++ (optional terminated m.name ++ (optional terminated m.comment ++
    optional Fixed.toList m.checksum))

def header (m : Member) : Bytes := 0x1F :: 0x8B :: 8 :: m.flags :: (m.origin.toList ++ m.fields)

def bytes (m : Member) : Bytes := m.header ++ (m.payload ++ m.trailer.toList)

theorem header_length (m : Member) : m.header.length = 10 + m.fields.length := by
  simp only [header, List.length_cons, List.length_append, m.origin.length_eq]
  omega

theorem bytes_length (m : Member) : m.bytes.length = m.header.length + m.payload.length + 8 := by
  simp only [bytes, List.length_append, m.trailer.length_eq, Nat.add_assoc]

theorem slice_bytes (m : Member) : m.bytes.slice m.header.length m.payload.length = m.payload := by
  rw [bytes, slice_behind _ _ _ rfl, slice_front _ _ rfl]

end Member

/-- The function passes over the parts that are written so, and over nothing else. -/
def PassesOver (skip : Bytes → Option Bytes) (good : α → Prop) (write : α → Bytes) : Prop :=
  ∀ bytes rest, skip bytes = some rest ↔ ∃ part, good part ∧ bytes = write part ++ rest

theorem skipExtra_passesOver :
    PassesOver skipExtra (fun extra : Bytes => extra.length < 0x10000) counted := by
  intro bytes rest
  constructor
  · intro passed
    match bytes, passed with
    | a :: b :: body, passed =>
      have ha := a.toNat_lt
      have hb := b.toNat_lt
      simp only [skipExtra] at passed
      split at passed
      · rename_i inside
        cases passed
        have length : (body.take (a.toNat + 256 * b.toNat)).length = a.toNat + 256 * b.toNat :=
          List.length_take_of_le inside
        have count : le 2 (a.toNat + 256 * b.toNat) = [a, b] := by
          have written : le 2 (ofLe [a, b]) = [a, b] := le_ofLe [a, b]
          simpa only [ofLe, Nat.mul_zero, Nat.add_zero] using written
        refine ⟨body.take (a.toNat + 256 * b.toNat), by omega, ?_⟩
        rw [counted, length, count, List.append_assoc, List.take_append_drop]
        rfl
      · cases passed
  · rintro ⟨extra, short, rfl⟩
    have length : le 2 extra.length = [UInt8.ofNat extra.length, UInt8.ofNat (extra.length / 256)] :=
      rfl
    have number : (UInt8.ofNat extra.length).toNat +
        256 * (UInt8.ofNat (extra.length / 256)).toNat = extra.length := by
      simp only [UInt8.toNat_ofNat']
      omega
    have inside : extra.length ≤ (extra ++ rest).length := by
      rw [List.length_append]
      exact Nat.le_add_right _ _
    simp only [counted, length, List.cons_append, List.nil_append, skipExtra, number, inside,
      ↓reduceIte, List.drop_left]

theorem skipString_passesOver :
    PassesOver skipString (fun text : Bytes => 0 ∉ text) terminated := by
  intro bytes rest
  simp only [terminated, List.append_assoc, List.singleton_append]
  induction bytes with
  | nil => simp [skipString]
  | cons b body ih =>
    rw [skipString]
    by_cases nul : b = 0
    · rw [if_pos nul, nul]
      constructor
      · intro passed
        cases passed
        exact ⟨[], List.not_mem_nil, rfl⟩
      · rintro ⟨text, plain, split⟩
        cases text with
        | nil => exact congrArg some (List.cons.inj split).2
        | cons first others =>
          rw [(List.cons.inj split).1] at plain
          exact absurd List.mem_cons_self plain
    · rw [if_neg nul, ih]
      constructor
      · rintro ⟨text, plain, rfl⟩
        exact ⟨b :: text, by simp [plain, Ne.symm nul], rfl⟩
      · rintro ⟨text, plain, split⟩
        cases text with
        | nil => exact absurd (List.cons.inj split).1 nul
        | cons first others =>
          exact ⟨others, fun later => plain (List.mem_cons_of_mem _ later), (List.cons.inj split).2⟩

theorem skipChecksum_passesOver :
    PassesOver skipChecksum (fun _ : Fixed UInt8 2 => True) Fixed.toList := by
  intro bytes rest
  constructor
  · intro passed
    match bytes, passed with
    | a :: b :: body, passed =>
      cases passed
      exact ⟨⟨[a, b], rfl⟩, trivial, rfl⟩
  · rintro ⟨⟨both, length⟩, -, rfl⟩
    match both, length with
    | [a, b], _ => rfl

theorem PassesOver.skipWhen {skip : Bytes → Option Bytes} {good : α → Prop} {write : α → Bytes}
    (passes : PassesOver skip good write) {present : Bool} {bytes rest : Bytes} :
    skipWhen present skip bytes = some rest ↔
      ∃ part : Option α, part.isSome = present ∧ (∀ a ∈ part, good a) ∧
        bytes = optional write part ++ rest := by
  cases present with
  | false =>
    simp only [Gzip.skipWhen, Bool.false_eq_true, ↓reduceIte, Option.some.injEq]
    constructor
    · rintro rfl
      exact ⟨none, rfl, by simp, rfl⟩
    · rintro ⟨part, absent, -, same⟩
      cases part with
      | none => exact same
      | some a => cases absent
  | true =>
    simp only [Gzip.skipWhen, ↓reduceIte, passes bytes rest]
    constructor
    · rintro ⟨a, fine, same⟩
      exact ⟨some a, rfl, by simpa using fine, same⟩
    · rintro ⟨part, given, fine, same⟩
      cases part with
      | none => cases given
      | some a => exact ⟨a, fine a rfl, same⟩

theorem deflatePayload_steps {data payload : Bytes} :
    deflatePayload data = some payload ↔
      ∃ (flags : UInt8) (origin : Fixed UInt8 6) (body : Bytes),
        data = 0x1F :: 0x8B :: 8 :: flags :: (origin.toList ++ body) ∧
        ∃ b₁, skipWhen (flags &&& 0x04 != 0) skipExtra body = some b₁ ∧
        ∃ b₂, skipWhen (flags &&& 0x08 != 0) skipString b₁ = some b₂ ∧
        ∃ b₃, skipWhen (flags &&& 0x10 != 0) skipString b₂ = some b₃ ∧
        ∃ b₄, skipWhen (flags &&& 0x02 != 0) skipChecksum b₃ = some b₄ ∧
        ∃ trailer : Fixed UInt8 8, b₄ = payload ++ trailer.toList := by
  have last : ∀ b₄ : Bytes,
      (if b₄.length < 8 then none else some (b₄.take (b₄.length - 8))) = some payload ↔
        ∃ trailer : Fixed UInt8 8, b₄ = payload ++ trailer.toList := by
    intro b₄
    constructor
    · intro taken
      split at taken
      · cases taken
      · cases taken
        have length : (b₄.drop (b₄.length - 8)).length = 8 := by
          rw [List.length_drop]
          omega
        exact ⟨⟨b₄.drop (b₄.length - 8), length⟩, (List.take_append_drop _ _).symm⟩
    · rintro ⟨trailer, rfl⟩
      have enough : ¬ (payload ++ trailer.toList).length < 8 := by
        rw [List.length_append, trailer.length_eq]
        omega
      rw [if_neg enough, List.length_append, trailer.length_eq, Nat.add_sub_cancel, List.take_left]
  constructor
  · intro found
    unfold deflatePayload at found
    split at found
    · rename_i flags o₀ o₁ o₂ o₃ o₄ o₅ body
      simp only [Option.bind_eq_bind, Option.bind_eq_some_iff, last] at found
      exact ⟨flags, ⟨[o₀, o₁, o₂, o₃, o₄, o₅], rfl⟩, body, rfl, found⟩
    · cases found
  · rintro ⟨flags, ⟨origin, six⟩, body, rfl, steps⟩
    match origin, six with
    | [o₀, o₁, o₂, o₃, o₄, o₅], _ =>
      simp only [List.cons_append, List.nil_append, deflatePayload, Option.bind_eq_bind,
        Option.bind_eq_some_iff, last]
      exact steps

/-- Reading finds a payload in just the byte strings that are a member, and it is their payload. -/
theorem deflatePayload_eq_some_iff {data payload : Bytes} :
    deflatePayload data = some payload ↔ ∃ m : Member, m.bytes = data ∧ m.payload = payload := by
  simp only [deflatePayload_steps, skipExtra_passesOver.skipWhen, skipString_passesOver.skipWhen,
    skipChecksum_passesOver.skipWhen]
  constructor
  · rintro ⟨flags, origin, _, rfl, _, ⟨extra, extraFlag, counted, rfl⟩, _,
      ⟨name, nameFlag, namePlain, rfl⟩, _, ⟨comment, commentFlag, commentPlain, rfl⟩, _,
      ⟨checksum, checksumFlag, -, rfl⟩, trailer, rfl⟩
    refine ⟨⟨flags, origin, extra, name, comment, checksum, payload, trailer, extraFlag, nameFlag,
      commentFlag, checksumFlag, counted, namePlain, commentPlain⟩, ?_, rfl⟩
    simp only [Member.bytes, Member.header, Member.fields, List.cons_append, List.append_assoc]
  · rintro ⟨m, rfl, rfl⟩
    refine ⟨m.flags, m.origin, m.fields ++ (m.payload ++ m.trailer.toList), ?_, _,
      ⟨m.extra, m.extra_announced, m.extra_counted, ?_⟩, _,
      ⟨m.name, m.name_announced, m.name_plain, rfl⟩, _,
      ⟨m.comment, m.comment_announced, m.comment_plain, rfl⟩, _,
      ⟨m.checksum, m.checksum_announced, fun _ _ => trivial, rfl⟩, m.trailer, rfl⟩
    · simp only [Member.bytes, Member.header, List.cons_append, List.append_assoc]
    · simp only [Member.fields, List.append_assoc]

/-- Reading tells members from all other byte strings. What it finds lies behind the header and in
    front of the trailer, so nothing outside the data is ever part of it. -/
theorem member_framing (data : Bytes) :
    (∀ payload, deflatePayload data = some payload ↔
      ∃ m : Member, m.bytes = data ∧ m.payload = payload) ∧
    (deflatePayload data = none ↔ ∀ m : Member, m.bytes ≠ data) ∧
    ∀ payload, deflatePayload data = some payload →
      ∃ start, 10 ≤ start ∧ start + payload.length + 8 = data.length ∧
        data.slice start payload.length = payload := by
  refine ⟨fun payload => deflatePayload_eq_some_iff, ?_, ?_⟩
  · constructor
    · intro nothing m written
      have found := deflatePayload_eq_some_iff.mpr ⟨m, written, rfl⟩
      rw [nothing] at found
      cases found
    · intro foreign
      cases outcome : deflatePayload data with
      | none => rfl
      | some payload =>
        obtain ⟨m, written, _⟩ := deflatePayload_eq_some_iff.mp outcome
        exact absurd written (foreign m)
  · intro payload found
    obtain ⟨m, rfl, rfl⟩ := deflatePayload_eq_some_iff.mp found
    refine ⟨m.header.length, ?_, m.bytes_length.symm, m.slice_bytes⟩
    rw [m.header_length]
    exact Nat.le_add_right _ _

def fullMember : Member where
  flags := 0x1E
  origin := ⟨[0, 0, 0, 0, 0, 3], rfl⟩
  extra := some [7, 0, 9]
  name := some [0x72, 0x64]
  comment := some []
  checksum := some ⟨[0xAA, 0xBB], rfl⟩
  payload := [1, 2]
  trailer := ⟨[0, 0, 0, 0, 5, 0, 0, 0], rfl⟩
  extra_announced := rfl
  name_announced := rfl
  comment_announced := rfl
  checksum_announced := rfl
  extra_counted := by simp
  name_plain := by simp
  comment_plain := by simp

/-- Without its last three bytes the member has no room for the trailer. -/
theorem member_framing_full :
    deflatePayload fullMember.bytes = some [1, 2] ∧
      fullMember.bytes.slice 21 2 = [1, 2] ∧ 21 + 2 + 8 = fullMember.bytes.length ∧
      deflatePayload (fullMember.bytes.take 28) = none ∧
      ∀ m : Member, m.bytes ≠ fullMember.bytes.take 28 := by
  have found := ((member_framing fullMember.bytes).1 [1, 2]).mpr ⟨fullMember, rfl, rfl⟩
  obtain ⟨start, _, stop, window⟩ := (member_framing fullMember.bytes).2.2 _ found
  have length : fullMember.bytes.length = 31 := rfl
  have first : start = 21 := by
    rw [length] at stop
    simp only [List.length_cons, List.length_nil] at stop
    omega
  rw [first] at stop window
  have cut : deflatePayload (fullMember.bytes.take 28) = none := by decide
  exact ⟨found, window, stop, cut, (member_framing (fullMember.bytes.take 28)).2.1.mp cut⟩

end KernelBoot.Gzip
