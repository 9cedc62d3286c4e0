import KernelBoot.Proofs.Archive.InsertionPoint
import KernelBoot.Proofs.Archive.Settling
import KernelBoot.Proofs.Ramdisk.Predicted

/-!
Two ways to grow a ramdisk. A rewrite builds the archive anew from its members, an append keeps the
bytes of the original up to its trailer. Where the additions have names of their own the archives
differ in paddings and in spellings of numbers, and in nothing that a reading finds: the members of
the original, then the additions, in as many bytes.
-/
namespace KernelBoot
open Archive RecordHeader

/-- Additions under names of their own, which reading does not stop at. -/
structure NewNames (additions members : List Entry) : Prop where
  distinct : (additions.map Entry.name).Nodup
  absent : ∀ e ∈ additions, ∀ m ∈ members, m.name ≠ e.name
  named : ∀ e ∈ additions, e.name ≠ []
  differ : ∀ e ∈ additions, e.name ≠ trailerName

theorem lastOfNames_distinct {entries : List Entry}
    (distinct : (entries.map Entry.name).Nodup) : lastOfNames entries = entries := by
  induction entries with
  | nil => rfl
  | cons e rest ih =>
    rw [List.map_cons, List.nodup_cons] at distinct
    have last : e.isNamedIn rest = false := by
      simp only [Entry.isNamedIn, List.any_eq_false, beq_iff_eq]
      intro x member same
      apply distinct.1
      rw [← same]
      exact List.mem_map_of_mem member
    rw [lastOfNames, last, ih distinct.2]
    rfl

theorem NewNames.kept {additions members : List Entry} (new : NewNames additions members) :
    (members.filter fun e => !e.isNamedIn additions) = members := by
  rw [List.filter_eq_self]
  intro m member
  simp only [Bool.not_eq_true', Entry.isNamedIn, List.any_eq_false, beq_iff_eq]
  intro e added same
  exact new.absent e added m member same.symm

/-- The patched ramdisk can be written if the sizes of its additions fit into their fields and the
    buffer has room, and it is read back as these members. -/
structure PatchedRamdisk.Yields (p : PatchedRamdisk) (additions members : List Entry) : Prop where
  written : ∀ dest length, (p.write dest).1 = .ok length ↔
    (∀ e ∈ additions, e.nameSize < wordLimit ∧ e.data.length < wordLimit) ∧
      length = p.length ∧ length ≤ dest.length
  read : ∀ dest length, (p.write dest).1 = .ok length → ∀ capacity, members.length ≤ capacity →
    decode ((p.write dest).2.take length) capacity = .ok ⟨members, capacity⟩

def addedEntries (injection : Injection) (config : LoaderConfig) : List Entry :=
  (Addition.ofInjection injection config).map Addition.toEntry

section Strategies
variable {original : Bytes} {injection : Injection} {config : LoaderConfig} {decoded : Archive}

theorem NewNames.writable {additions members : List Entry} (new : NewNames additions members) :
    (∀ e ∈ additions, e.Writable) ↔
      ∀ e ∈ additions, e.nameSize < wordLimit ∧ e.data.length < wordLimit := by
  constructor
  · intro writable e member
    exact ⟨(writable e member).name_fits, (writable e member).data_fits⟩
  · intro fits e member
    exact ⟨new.named e member, (fits e member).1, (fits e member).2⟩

/-- With new names nothing is replaced: the table is the old one and the additions behind it. -/
theorem rewrite_new_names (read : decode original config.maxEntries = .ok decoded)
    (plain : injection.nested = none) (new : NewNames (addedEntries injection config) decoded.entries)
    {p : PatchedRamdisk}
    (ok : (patch original injection { config with strategy := .rewrite }).1 = .ok p) :
    decoded.entries.length + (addedEntries injection config).length ≤ config.maxEntries ∧
      ∃ archive, p = .rewrite archive ∧
        archive.live = decoded.entries ++ addedEntries injection config := by
  obtain ⟨again, archive, readable, room, same, live⟩ := patch_rewrite_ok rfl ok
  have both : again = decoded := Except.ok.inj (readable.symm.trans read)
  rw [rewriteAdditions_plain plain] at room live
  rw [both] at room live
  constructor
  · exact room
  · refine ⟨archive, same, ?_⟩
    rw [live]
    exact congrArg₂ (· ++ ·) new.kept (lastOfNames_distinct new.distinct)

theorem append_new_names (plain : injection.nested = none) {p : PatchedRamdisk}
    (ok : (patch original injection { config with strategy := .append }).1 = .ok p) :
    ∃ trailer, Records.trailerOffset original = .ok trailer ∧
      p = .append original trailer (Addition.ofInjection injection config) := by
  obtain ⟨trailer, found, same⟩ := patch_append_ok rfl ok
  have alone : nestedAddition injection { config with strategy := .append } = [] := by
    rw [nestedAddition, plain]
  rw [alone, List.append_nil] at same
  exact ⟨trailer, found, same⟩

theorem rewrite_yields {additions members : List Entry} (found : ∀ e ∈ members, e.Found)
    (new : NewNames additions members) {archive : Archive}
    (live : archive.live = members ++ additions) :
    (PatchedRamdisk.rewrite archive).Yields additions (members ++ additions.map Entry.reread) := by
  have success : ∀ dest length, ((PatchedRamdisk.rewrite archive).write dest).1 = .ok length ↔
      (∀ e ∈ additions, e.Writable) ∧ length = archive.encodedLength ∧ length ≤ dest.length := by
    intro dest length
    rw [PatchedRamdisk.write_rewrite_eq_ok_iff, encode_eq_ok_iff, live, List.forall_mem_append]
    have old : ∀ e ∈ members, e.Writable := fun e member => (found e member).writable
    rw [and_iff_right old]
  constructor
  · intro dest length
    rw [success, new.writable]
    rfl
  · intro dest length ok capacity enough
    obtain ⟨writable, stop, _⟩ := (success dest length).mp ok
    have bytes : ((PatchedRamdisk.rewrite archive).write dest).2 =
        records archive.live ++ trailerBytes ++ dest.drop archive.encodedLength :=
      encode_written (PatchedRamdisk.write_rewrite_eq_ok_iff.mp ok)
    have fresh := Records.members_records writable new.differ
    have old := Records.members_records (fun e member => (found e member).writable)
      fun e member => (found e member).differs
    rw [reread_found found] at old
    have whole : records archive.live = records members ++ records additions := by
      rw [live, records, List.flatMap_append]
      rfl
    have read := (old.append fresh).decode [] enough
    rw [List.append_nil, ← whole] at read
    rw [bytes, List.take_left' ((written_length archive).trans stop.symm), read]

theorem append_yields {front rest : Bytes} {members : List Entry}
    (old : Records.Members front members) {additions : List Addition}
    (planned : Records.trailerOffset (front ++ rest) = .ok front.length)
    (new : NewNames (additions.map Addition.toEntry) members) :
    (PatchedRamdisk.append (front ++ rest) front.length additions).Yields
      (additions.map Addition.toEntry)
      (members ++ (additions.map Addition.toEntry).map Entry.reread) := by
  have length : (PatchedRamdisk.append (front ++ rest) front.length additions).length =
      (PatchedRamdisk.appended (front ++ rest) front.length additions).length :=
    PatchedRamdisk.length_appended planned
  have written : ∀ dest length buf,
      (PatchedRamdisk.append (front ++ rest) front.length additions).write dest =
          (.ok length, buf) →
        (∀ e ∈ additions.map Addition.toEntry, e.Writable) ∧ length ≤ dest.length ∧
          length = (PatchedRamdisk.appended (front ++ rest) front.length additions).length ∧
          buf.take length = PatchedRamdisk.appended (front ++ rest) front.length additions := by
    intro dest length buf ok
    obtain ⟨enough, offset, found, writable, stop, room, bytes⟩ :=
      (PatchedRamdisk.write_append_eq_ok_iff _ _ _ _ _ _).mp ok
    rw [PatchedRamdisk.kept_trailer planned enough] at found
    cases found
    refine ⟨List.forall_mem_map.mpr writable, room, stop, ?_⟩
    rw [bytes, List.take_left' stop.symm]
  constructor
  · intro dest stop
    rw [← new.writable, length]
    constructor
    · intro ok
      obtain ⟨writable, room, size, _⟩ := written dest stop _ (Prod.ext ok rfl)
      exact ⟨writable, size, room⟩
    · rintro ⟨writable, rfl, room⟩
      have enough := length.trans_le room
      exact congrArg Prod.fst ((PatchedRamdisk.write_append_eq_ok_iff _ _ _ _ _ _).mpr
        ⟨enough, _, PatchedRamdisk.kept_trailer planned enough, List.forall_mem_map.mp writable,
          rfl, room, rfl⟩)
  · intro dest stop ok capacity enough
    obtain ⟨writable, _, _, bytes⟩ := written dest stop _ (Prod.ext ok rfl)
    have fresh := Records.members_records writable new.differ
    have read := (old.append fresh).decode [] enough
    rw [List.append_nil, List.append_assoc] at read
    rw [bytes, PatchedRamdisk.appended, List.take_left, read]

/-- For additions with new names it does not matter how a ramdisk grows. Both strategies promise
    the same length, fail for the same sizes and buffers, and write archives that are read as the
    same members: those of the original, then the additions. -/
theorem strategies_agree (read : decode original config.maxEntries = .ok decoded)
    (ended : ReadsEnded original) (plain : injection.nested = none)
    (new : NewNames (addedEntries injection config) decoded.entries)
    {rewritten appended : PatchedRamdisk}
    (rewrite : (patch original injection { config with strategy := .rewrite }).1 = .ok rewritten)
    (append : (patch original injection { config with strategy := .append }).1 = .ok appended) :
    let additions := addedEntries injection config
    let members := decoded.entries ++ additions.map Entry.reread
    rewritten.length = appended.length ∧ members.length ≤ config.maxEntries ∧
      rewritten.Yields additions members ∧ appended.Yields additions members := by
  obtain ⟨_, _, _, found⟩ := decode_ok read
  obtain ⟨room, archive, rfl, live⟩ := rewrite_new_names read plain new rewrite
  obtain ⟨trailer, planned, rfl⟩ := append_new_names plain append
  obtain ⟨front, rest, rfl, old, stop⟩ :=
    Records.members_of_decode read ((readsEnded_iff read).mp ended)
  have there : trailer = front.length := by
    rw [planned] at stop
    split at stop
    · cases stop
    · exact Except.ok.inj stop
  subst there
  refine ⟨?_, ?_, rewrite_yields found new live, append_yields old planned new⟩
  · have lengths : archive.encodedLength = sumOf Entry.encodedLength archive.live +
        predictedSize trailerName.length 0 := rfl
    simp only [PatchedRamdisk.length, PatchedRamdisk.additions_length, records_length, lengths,
      live, sumOf_append, old.length found, addedEntries]
  · rw [List.length_append, List.length_map]
    exact room

end Strategies

def initOnly : Injection := ⟨[], some [0x23, 0x21], none⟩

theorem strategies_agree_initOnly :
    let additions := addedEntries initOnly .default
    ∃ decoded rewritten appended, decode twoMembers 4096 = .ok decoded ∧ ReadsEnded twoMembers ∧
      initOnly.nested = none ∧ NewNames additions decoded.entries ∧
      (patch twoMembers initOnly { LoaderConfig.default with strategy := .rewrite }).1 =
        .ok rewritten ∧
      (patch twoMembers initOnly { LoaderConfig.default with strategy := .append }).1 =
        .ok appended ∧
      rewritten.length = appended.length ∧
      rewritten.Yields additions (decoded.entries ++ additions.map Entry.reread) ∧
      appended.Yields additions (decoded.entries ++ additions.map Entry.reread) := by
  obtain ⟨read, ended, offset⟩ := twoMembers_read (by decide : 2 ≤ 4096)
  have made : addedEntries initOnly .default =
      [.executable (Bytes.ofString "init.multiboot") [0x23, 0x21]] := rfl
  have new : NewNames (addedEntries initOnly .default)
      [Entry.reread (.file [0x61] [1, 2, 3]), Entry.reread (.directory [0x62])] := by
    rw [made]
    constructor
    · decide
    · decide
    · decide
    · decide
  have strategy : { LoaderConfig.default with strategy := .rewrite }.strategy = .rewrite := rfl
  obtain ⟨archive, rewrite, _⟩ :=
    patch_rewrite_small initOnly strategy read (by decide) (by decide)
  have append : (patch twoMembers initOnly { LoaderConfig.default with strategy := .append }).1 =
      .ok (.append twoMembers 228 (Addition.ofInjection initOnly .default)) := by
    simp only [patch, appendRamdisk, offset]
    rfl
  obtain ⟨length, _, first, second⟩ := strategies_agree read ended rfl new rewrite append
  exact ⟨_, _, _, read, ended, rfl, new, rewrite, append, length, first, second⟩

end KernelBoot
