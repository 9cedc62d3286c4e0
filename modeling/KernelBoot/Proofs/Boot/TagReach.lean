import KernelBoot.Proofs.Boot.Loading
import KernelBoot.Proofs.Tags.Calls

/-!
How far the addresses of a boot reach. A tag has 32 bits for an address and 32 for a size, and each
of the two is checked on its own: a ramdisk that starts below 4 GiB and ends above it passes. The
tag area is checked nowhere. It lies where the header has it, whose addresses have 32 bits, unless
a variable says otherwise.
-/
namespace KernelBoot
open Attempt

def AddressRange.Straddles (r : AddressRange) : Prop := r.start < wordLimit ∧ wordLimit < r.stop

theorem AddressRange.low_or_straddles {r : AddressRange} (low : r.start < wordLimit) :
    r.Straddles ∨ r.stop ≤ wordLimit := by
  by_cases far : wordLimit < r.stop
  · exact .inl ⟨low, far⟩
  · exact .inr (Nat.not_lt.mp far)

theorem AddressRange.sized_stop_le (start len : Nat) : (sized start len).stop ≤ start + len := by
  simp only [sized, between, saturatingAdd]
  omega

section Lists
variable {buf : Bytes} {ramdisk : AddressRange} {memory : List MemoryRecord} {line : CommandLine}

/-- Just these ramdisks are refused for their addresses, whatever the buffer and the rest of the
    list are. -/
theorem writeTags_invalid_iff {what : String} {address : Nat} :
    (writeTags buf ramdisk memory line).1 = .error (.invalidAddress what address) ↔
      (wordLimit ≤ ramdisk.start ∧ what = "ramdisk" ∧ address = ramdisk.start) ∨
      (ramdisk.start < wordLimit ∧ wordLimit ≤ ramdisk.len ∧ what = "ramdisk end" ∧
        address = ramdisk.stop) := by
  by_cases low : ramdisk.start < wordLimit
  · have first : word? ramdisk.start = some (UInt32.ofNat ramdisk.start) := if_pos low
    by_cases short : ramdisk.len < wordLimit
    · have second : word? ramdisk.len = some (UInt32.ofNat ramdisk.len) := if_pos short
      constructor
      · intro failed
        simp only [writeTags, first, second] at failed
        split at failed
        · cases failed
        · split at failed
          · cases failed
          · split at failed
            · cases failed
            · cases failed
      · rintro (⟨high, _⟩ | ⟨_, long, _⟩)
        · omega
        · omega
    · have second : word? ramdisk.len = none := if_neg short
      simp only [writeTags, first, second, Except.error.injEq, LoadError.invalidAddress.injEq]
      constructor
      · rintro ⟨rfl, rfl⟩
        exact .inr ⟨low, Nat.not_lt.mp short, rfl, rfl⟩
      · rintro (⟨high, _⟩ | ⟨_, _, rfl, rfl⟩)
        · omega
        · exact ⟨rfl, rfl⟩
  · have first : word? ramdisk.start = none := if_neg low
    simp only [writeTags, first, Except.error.injEq, LoadError.invalidAddress.injEq]
    constructor
    · rintro ⟨rfl, rfl⟩
      exact .inl ⟨Nat.not_lt.mp low, rfl, rfl⟩
    · rintro (⟨_, rfl, rfl⟩ | ⟨below, _⟩)
      · exact ⟨rfl, rfl⟩
      · omega

theorem writeTags_words {length : Nat} (ok : (writeTags buf ramdisk memory line).1 = .ok length) :
    ramdisk.start < wordLimit ∧ ramdisk.len < wordLimit := by
  obtain ⟨_, _, start, size, startEq, sizeEq, _⟩ := writeTags_ok (Prod.ext ok rfl)
  rw [← startEq, ← sizeEq]
  exact ⟨start.toNat_lt, size.toNat_lt⟩

end Lists

section Loads
variable {source : Source σ} {f : Firmware σ} {storage : Storage σ} {s t : Session σ}
  {request : LoadRequest} {config : LoaderConfig}

def Firmware.NoOverride (f : Firmware σ) (name : String) : Prop :=
  ∀ s value t, (f.readVariable name).Ends s (some value) t → value.length ≠ 8

theorem addressOverride_none {name : String} (never : f.NoOverride name) {found : Option Nat}
    (run : (addressOverride f name).Ends s found t) : found = none := by
  obtain ⟨value, s₁, read, checking⟩ := Effect.ends_bind.mp run
  cases value with
  | none => exact (Effect.ends_pure.mp checking).1
  | some value =>
    have other := never s value s₁ read
    simp only [other, ↓reduceIte] at checking
    obtain ⟨_, s₂, _, done⟩ := Effect.ends_bind.mp checking
    exact (Effect.ends_pure.mp done).1

theorem MemoryPlan.resolve_tags {h : BootHeader} {arm64 : Bool} {plan : MemoryPlan}
    (never : f.NoOverride Variable.tagsAddress)
    (run : (MemoryPlan.resolve f h arm64).Ends s plan t) : plan.tags = h.tagsAddress := by
  obtain ⟨_, s₁, _, ramdiskStep⟩ := Effect.ends_bind.mp run
  obtain ⟨_, s₂, _, tagsStep⟩ := Effect.ends_bind.mp ramdiskStep
  obtain ⟨tags, s₃, tagsRun, done⟩ := Effect.ends_bind.mp tagsStep
  obtain ⟨rfl, _⟩ := Effect.ends_pure.mp done
  rw [addressOverride_none never tagsRun]
  rfl

theorem BootHeader.parse_tags {bytes : Bytes} {h : BootHeader} (ok : parse bytes = .ok h) :
    h.tagsAddress < wordLimit := by
  simp only [parse] at ok
  split at ok
  · cases ok
  split at ok
  · cases ok
  split at ok
  · cases ok
  split at ok
  · cases ok
  · cases ok
    exact (Bytes.word32 bytes 32).toNat_lt

theorem readHeader_tags {header : BootHeader} (run : (readHeader source).Gives s header t) :
    header.tagsAddress < wordLimit := by
  obtain ⟨head, parsed, _, parseOk, rfl⟩ := readHeader_cases run
  have low := BootHeader.parse_tags parseOk
  unfold dropForeignExtra
  split
  · exact low
  · exact low

/-- What a load hands on: the address and the length of the ramdisk are 32-bit numbers, the tags do
    not leave their area, and the area is where the header has it if no variable moves it. -/
theorem load_reach {p : PreparedBoot} (run : (load source f storage request config).Gives s p t) :
    p.ramdisk.start < wordLimit ∧ p.ramdisk.len < wordLimit ∧
      p.tags.stop ≤ p.tags.start + config.tagAreaSize ∧
      (f.NoOverride Variable.tagsAddress → p.tags.start < wordLimit) := by
  obtain ⟨placed, s₁, s₂, s₃, steps, _⟩ := load_steps run
  obtain ⟨⟨_, examined⟩, ⟨plan, _, _, resolved, area⟩, _⟩ := placeImage_cases steps.placing
  obtain ⟨_, readRun, _⟩ := examine_cases examined
  obtain ⟨s₄, listed, _⟩ := steps.listing
  obtain ⟨memory, records, room, written⟩ := writeTagList_cases listed
  obtain ⟨start, size⟩ := writeTags_words written
  have first : p.tags.start = plan.tags := by rw [steps.tags, area]; rfl
  refine ⟨start, size, ?_, ?_⟩
  · have length := (writeTags_length written).1
    have areaStop := AddressRange.sized_stop_le plan.tags config.tagAreaSize
    have listStop := AddressRange.sized_stop_le plan.tags p.tagsLength
    have areaStart : placed.tags.start = plan.tags := by rw [area]; rfl
    rw [AddressRange.len, areaStart] at room
    rw [← area] at areaStop
    rw [first, steps.tags, areaStart]
    omega
  · intro never
    rw [first, MemoryPlan.resolve_tags never resolved]
    exact readHeader_tags readRun

/-- What of the tag protocol lies below 4 GiB. A list is refused for a ramdisk whose address or
    whose length has more than 32 bits, and for no other: every ramdisk that straddles the limit
    with a shorter length is written down as it is. So a load hands on a ramdisk that ends below
    the limit or straddles it, and tags that end there if their area does. -/
theorem tag_protocol_reach (source : Source σ) (f : Firmware σ) (storage : Storage σ)
    (request : LoadRequest) (config : LoaderConfig) :
    (∀ (buf : Bytes) (ramdisk : AddressRange) (memory : List MemoryRecord) (line : CommandLine),
      (∀ what address,
        (writeTags buf ramdisk memory line).1 = .error (.invalidAddress what address) ↔
          (wordLimit ≤ ramdisk.start ∧ what = "ramdisk" ∧ address = ramdisk.start) ∨
          (ramdisk.start < wordLimit ∧ wordLimit ≤ ramdisk.len ∧ what = "ramdisk end" ∧
            address = ramdisk.stop)) ∧
      (∀ length, (writeTags buf ramdisk memory line).1 = .ok length →
        ramdisk.Straddles ∨ ramdisk.stop ≤ wordLimit) ∧
      (ramdisk.start < wordLimit → ramdisk.len < wordLimit → (0 : UInt8) ∉ line.text →
        line.text.length < 0x200000000 → tagListLength memory line ≤ buf.length →
        (writeTags buf ramdisk memory line).1 = .ok (tagListLength memory line))) ∧
    ∀ s p t, (load source f storage request config).Gives s p t →
      (p.ramdisk.Straddles ∨ p.ramdisk.stop ≤ wordLimit) ∧ p.ramdisk.len < wordLimit ∧
      (p.tags.start + config.tagAreaSize ≤ wordLimit → p.tags.stop ≤ wordLimit) ∧
      (f.NoOverride Variable.tagsAddress → p.tags.start < wordLimit) := by
  constructor
  · intro buf ramdisk memory line
    refine ⟨fun _ _ => writeTags_invalid_iff, ?_, ?_⟩
    · intro length ok
      exact AddressRange.low_or_straddles (writeTags_words ok).1
    · intro start size plain short room
      exact writeTags_enough start size plain short room
  · intro s p t run
    obtain ⟨start, size, tags, near⟩ := load_reach run
    refine ⟨AddressRange.low_or_straddles start, size, ?_, near⟩
    intro inside
    exact Nat.le_trans tags inside

end Loads

/-- A bank of memory on both sides of 4 GiB, and a variable that has the tags above. -/
def straddledBoard : Board :=
  let bank := AddressRange.sized 0xFFFF0000 0x20000
  .new ⟨bank, [], none, false, false, some [bank], [(Variable.tagsAddress, Bytes.le 8 0x100004000)],
    0, none, false, false⟩

/-- An image whose ramdisk takes the last page below 4 GiB and one byte of the next. -/
def straddledImage : Bytes :=
  let header := { BootHeader.new .customary with
    kernel := ⟨4, 0xFFFF8000⟩
    ramdisk := ⟨2049, 0xFFFFF800⟩ }
  (header.encode.toOption.getD []) ++ Bytes.zeros 1440 ++ Bytes.zeros 4097

theorem tag_protocol_reach_straddled :
    let s : Session Board := ⟨straddledBoard, .new 0⟩
    let request : LoadRequest := ⟨[], false, none, "", ""⟩
    ∃ p t memory line,
      (load (.ofMemory straddledImage) Board.firmware oneDevice.storage request smallTags).Gives s p t ∧
      wordLimit < p.ramdisk.stop ∧ wordLimit < p.tags.stop ∧ p.ramdisk.len < wordLimit ∧
      (writeTags (Bytes.zeros (tagListLength memory line)) p.ramdisk memory line).1 =
        .ok (tagListLength memory line) := by
  intro s request
  let reaches : PreparedBoot → Bool := fun p =>
    decide (p.ramdisk.start < wordLimit ∧ wordLimit < p.ramdisk.stop ∧ wordLimit < p.tags.stop)
  obtain ⟨p, t, run, far⟩ := exists_gives_that (x := load (.ofMemory straddledImage) Board.firmware
    oneDevice.storage request smallTags) (s := s) reaches (by decide +kernel)
  obtain ⟨low, ramdisk, tags⟩ := of_decide_eq_true far
  obtain ⟨lists, loads⟩ := tag_protocol_reach (.ofMemory straddledImage) Board.firmware
    oneDevice.storage request smallTags
  obtain ⟨_, size, _⟩ := loads s p t run
  have written := (lists (Bytes.zeros 44) p.ramdisk [] ⟨[]⟩).2.2 low size (by decide) (by decide)
    (by decide)
  exact ⟨p, t, [], ⟨[]⟩, run, ramdisk, tags, size, written⟩

end KernelBoot
