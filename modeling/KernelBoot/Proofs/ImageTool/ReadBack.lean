import KernelBoot.ImageTool.Build
import KernelBoot.Proofs.BootImage.CommandLineFields
import KernelBoot.Proofs.Boot.ImageFaults
import KernelBoot.Proofs.ImageTool.Parts

/-!
The image builder and the loader agree. What the loader reads as the extra command line is the
written one, zeros of the header's page, or dropped; the command line is the same in each case. The
layout of the header that is read back is the one that the image was built by, so every segment is
found, and the image is never at fault.
-/
namespace KernelBoot
open Attempt

/-- What is read back for a header, the parts of a payload and a command line. -/
structure BootHeader.ReadBack (found h : BootHeader) (p : Payload) (line : Bytes) : Prop where
  kernel : found.kernel.address = h.kernel.address ∧ found.kernel.size.toNat = p.kernel.length
  ramdisk : found.ramdisk.address = h.ramdisk.address ∧ found.ramdisk.size.toNat = p.ramdisk.length
  second : found.second.address = h.second.address ∧ found.second.size.toNat = p.second.length
  tags : found.tagsAddress = h.tagsAddress
  pageSize : found.pageSize = h.pageSize
  deviceTree : found.deviceTreeSize = 0
  name : found.name = h.name
  id : found.id = h.id
  line : found.commandLineText ++ found.extraText = line

/-- What a header has from the options it is made of. Addresses wrap around at 4 GiB, and a name is
    cut to leave room for its NUL. -/
structure BootHeader.MadeOf (h : BootHeader) (o : ImageOptions) : Prop where
  kernel : h.kernel.address = (o.base.toNat + o.kernelOffset.toNat) % wordLimit
  ramdisk : h.ramdisk.address = (o.base.toNat + o.ramdiskOffset.toNat) % wordLimit
  second : h.second.address = (o.base.toNat + o.secondOffset.toNat) % wordLimit
  tags : h.tagsAddress = (o.base.toNat + o.tagsOffset.toNat) % wordLimit
  pageSize : h.pageSize = o.pageSize
  name : h.name.toList =
    (Bytes.ofString o.board).take 15 ++ Bytes.zeros (16 - ((Bytes.ofString o.board).take 15).length)
  id : h.id.toList = List.replicate 8 0
  line : h.Stores (Bytes.ofString o.commandLine)
  fits : h.encodedLength ≤ o.pageSize.bytes

theorem BootHeader.MadeOf.room {h : BootHeader} {o : ImageOptions} (made : h.MadeOf o) :
    h.encodedLength ≤ h.pageSize.bytes := by
  rw [made.pageSize]
  exact made.fits

theorem ImageOptions.header_madeOf {o : ImageOptions} {h : BootHeader} (ok : o.header = .ok h) :
    h.MadeOf o := by
  unfold header at ok
  simp only [bind, Except.bind, pure, Except.pure, throw, throwThe, MonadExceptOf.throw] at ok
  split at ok
  · cases ok
  rename_i set settled
  obtain ⟨line, beside, _⟩ := BootHeader.setCommandLine_stores (mapError_eq_ok.mp settled)
  split at ok
  · cases ok
  rename_i room
  cases ok
  have short : ((Bytes.ofString o.board).take 15).length ≤ 16 :=
    Nat.le_trans (List.length_take_le 15 _) (by decide)
  constructor
  · rw [beside]; exact UInt32.toNat_add _ _
  · rw [beside]; exact UInt32.toNat_add _ _
  · rw [beside]; exact UInt32.toNat_add _ _
  · rw [beside]; exact UInt32.toNat_add _ _
  · rw [beside]; rfl
  · rw [beside]; exact BootHeader.field_toList short
  · rw [beside]; rfl
  · exact line
  · exact Nat.not_lt.mp room

section Found
variable {h filled : BootHeader} {p : Payload} {l : ImageLayout} {image : Bytes}

theorem Payload.MakesUp.front (madeUp : p.MakesUp filled l image) :
    filled.front ++ image.drop BootHeader.size = image := by
  have first : image.take BootHeader.size = filled.front := by
    have header := madeUp.header
    rw [Bytes.slice, List.drop_zero, List.length_append, filled.front_length] at header
    have cut := congrArg (List.take BootHeader.size) header
    rw [List.take_take, Nat.min_eq_left (Nat.le_add_right _ _),
      List.take_left' filled.front_length] at cut
    exact cut
  rw [← first]
  exact List.take_append_drop _ _

theorem Payload.MakesUp.page (madeUp : p.MakesUp filled l image) (chained : l.Chained filled)
    (stop : Nat) (room : filled.encodedLength ≤ stop) (within : stop ≤ filled.pageSize.bytes) :
    image.take stop =
      (filled.front ++ filled.extraBytes) ++ Bytes.zeros (stop - filled.encodedLength) := by
  rw [← filled.bytes_length] at room ⊢
  apply Bytes.take_zeros madeUp.header room
  intro i behind early
  rw [filled.bytes_length] at behind
  have inPage : i < filled.pageSize.bytes := Nat.lt_of_lt_of_le early within
  apply madeUp.blank i behind
  · have first := chained.header_first l.kernel List.mem_cons_self
    have last := chained.stop_le_length l.kernel List.mem_cons_self
    rw [madeUp.length]
    simp only [Placement.stop] at last
    omega
  · intro place member
    exact .inl (Nat.lt_of_lt_of_le inPage (chained.header_first place member))

theorem Payload.MakesUp.head (madeUp : p.MakesUp filled l image) :
    image.take BootHeader.sizeWithExtra =
      filled.front ++ (image.drop BootHeader.size).take 1024 := by
  have cut : (filled.front ++ image.drop BootHeader.size).take (filled.front.length + 1024) =
      filled.front ++ (image.drop BootHeader.size).take 1024 := List.take_length_add_append _
  rw [madeUp.front, filled.front_length] at cut
  exact cut

theorem Payload.MakesUp.extraField (madeUp : p.MakesUp filled l image)
    (chained : l.Chained filled) (large : BootHeader.sizeWithExtra ≤ filled.pageSize.bytes) :
    (image.drop BootHeader.size).take 1024 =
        filled.extraBytes ++ Bytes.zeros (BootHeader.sizeWithExtra - filled.encodedLength) ∧
      ((image.drop BootHeader.size).take 1024).length = 1024 := by
  have page := madeUp.page chained BootHeader.sizeWithExtra filled.encodedLength_le large
  have length := congrArg List.length page
  rw [madeUp.head, List.length_append, List.length_append, filled.bytes_length, Bytes.zeros_length,
    Nat.add_sub_cancel' filled.encodedLength_le, filled.front_length] at length
  rw [madeUp.head, List.append_assoc] at page
  exact ⟨List.append_cancel_left page, Nat.add_left_cancel length⟩

/-- The extra command line is read as it was written, as zeros, or not at all. -/
theorem parse_image (fits : filled.Fits) (madeUp : p.MakesUp filled l image)
    (chained : l.Chained filled) (room : filled.encodedLength ≤ filled.pageSize.bytes) :
    ∃ parsed, BootHeader.parse (image.take BootHeader.sizeWithExtra) = .ok parsed ∧
      ∃ extra, dropForeignExtra parsed = { filled with extraCommandLine := extra } ∧
        (dropForeignExtra parsed).extraText = filled.extraText := by
  rw [madeUp.head]
  refine ⟨_, BootHeader.parse_front fits _, ?_⟩
  by_cases small : filled.pageSize.bytes < BootHeader.sizeWithExtra
  · rw [dropForeignExtra, if_pos small]
    refine ⟨none, rfl, ?_⟩
    simp only [BootHeader.extraText, BootHeader.extra_absent room small]
  · obtain ⟨field, whole⟩ := madeUp.extraField chained (Nat.not_lt.mp small)
    have long := Nat.le_of_eq whole
    rw [dropForeignExtra, if_neg small, if_pos (Nat.le_of_eq whole.symm)]
    refine ⟨_, rfl, ?_⟩
    simp only [BootHeader.extraText, List.take_of_length_le long, BootHeader.upToNul_field long]
    rw [field, Bytes.upToNul_zeros, ← BootHeader.extraText_eq, BootHeader.extraText]

theorem examine_found {source : Source σ} (carries : source.Carries image) {found : BootHeader}
    (read : ∀ s, ∃ t, (readHeader source).Gives s found t) (plain : found.deviceTreeSize = 0)
    (laid : ImageLayout.of found = .ok l) (length : image.length = l.imageLength) (s : Session σ) :
    ∃ facts t, (examine source).Gives s facts t := by
  have chained := ImageLayout.of_chained laid
  obtain ⟨s₁, readRun⟩ := read s
  have long : l.requiredLength ≤ source.size s₁.world := by
    rw [carries.size_eq, length]
    exact chained.required_le_length
  have detected : ∃ arm64 t, (detectArm64 source l).Gives s₁ arm64 t := by
    unfold detectArm64
    split
    · exact ⟨false, s₁, rfl⟩
    · rename_i enough
      have inside : l.kernel.offset + kernelHeadLength ≤ image.length := by
        have kernel := chained.size_le_length l.kernel List.mem_cons_self
        omega
      obtain ⟨t, ends⟩ := carries.read inside s₁
      exact ⟨_, t, gives_bind.mpr ⟨_, t, gives_lift.mpr ends, gives_bind.mpr ⟨(), t, rfl, rfl⟩⟩⟩
  obtain ⟨arm64, t, detectRun⟩ := detected
  exact ⟨_, t, examine_gives readRun plain laid long detectRun⟩

theorem Payload.Fills.readBack (fills : p.Fills h filled) {found : BootHeader} {line : Bytes}
    {extra : Option (Fixed UInt8 1024)} (same : found = { filled with extraCommandLine := extra })
    (text : found.extraText = filled.extraText) (lined : h.commandLineText ++ h.extraText = line) :
    found.ReadBack h p line := by
  have kept : filled.commandLineText ++ filled.extraText = h.commandLineText ++ h.extraText := by
    rw [fills.same]
    rfl
  constructor
  · exact ⟨by rw [same, fills.same], by rw [same]; exact fills.kernel⟩
  · exact ⟨by rw [same, fills.same], by rw [same]; exact fills.ramdisk⟩
  · exact ⟨by rw [same, fills.same], by rw [same]; exact fills.second⟩
  · rw [same, fills.same]
  · rw [same, fills.same]
  · rw [same, fills.same]
  · rw [same, fills.same]
  · rw [same, fills.same]
  · rw [text, same]
    exact kept.trans lined

theorem readHeader_image {source : Source σ} (carries : source.Carries image)
    {parsed : BootHeader}
    (ok : BootHeader.parse (image.take BootHeader.sizeWithExtra) = .ok parsed) (s : Session σ) :
    ∃ t, (readHeader source).Gives s (dropForeignExtra parsed) t := by
  obtain ⟨t, _, ends⟩ := carries.readHeader_ends s
  rw [ok] at ends
  exact ⟨t, ends⟩

end Found

/-- An image that is built is read back: its header with all that the options gave for it, its
    segments where the layout of that header says, and zeros everywhere else. No load finds it at
    fault. -/
theorem built_image_agrees {o : ImageOptions} {h : BootHeader} {p : Payload} {image : Bytes}
    (plain : (0 : UInt8) ∉ Bytes.ofString o.commandLine) (headed : o.header = .ok h)
    (assembled : assemble h p = .ok image) {source : Source σ} (carries : source.Carries image) :
    h.MadeOf o ∧
    (∃ found layout, (∀ s, ∃ t, (readHeader source).Gives s found t) ∧
      found.ReadBack h p (Bytes.ofString o.commandLine) ∧
      ImageLayout.of found = .ok layout ∧
      layout.kernel.Holds image p.kernel ∧ layout.ramdisk.Holds image p.ramdisk ∧
      layout.second.Holds image p.second ∧
      ∀ i, h.encodedLength ≤ i → i < image.length → layout.Leaves i → image[i]? = some 0) ∧
    h.pageSize.bytes ∣ image.length ∧
    ∀ (f : Firmware σ) storage request config,
      (load source f storage request config).Avoids LoadError.ImageFault := by
  have made := ImageOptions.header_madeOf headed
  obtain ⟨filled, layout, fills, laid, fits, madeUp⟩ := assemble_makesUp assembled made.room
  have chained := ImageLayout.of_chained laid
  have samePage : filled.pageSize = h.pageSize := by rw [fills.same]
  have sameLength : filled.encodedLength = h.encodedLength := by rw [fills.same]; rfl
  have within : filled.encodedLength ≤ filled.pageSize.bytes := by
    rw [samePage, sameLength]
    exact made.room
  obtain ⟨parsed, parseOk, extra, same, text⟩ := parse_image fits madeUp chained within
  have read := readHeader_image carries parseOk
  have found := fills.readBack same text (made.line.text plain)
  have layoutOk : ImageLayout.of (dropForeignExtra parsed) = .ok layout := by
    rw [same]
    exact laid
  have examined := examine_found carries read found.deviceTree layoutOk madeUp.length
  refine ⟨made, ?_⟩
  constructor
  · refine ⟨_, layout, read, found, layoutOk, madeUp.kernel, madeUp.ramdisk, madeUp.second, ?_⟩
    rw [← sameLength]
    exact madeUp.blank
  constructor
  · rw [madeUp.length, ← samePage]
    exact chained.length_pages
  · intro f storage request config s e t failed fault
    obtain ⟨facts, t', gives⟩ := examined s
    have both := gives.symm.trans (load_fault carries.toExact fault failed)
    cases both

theorem assembled_carries {h : BootHeader} {p : Payload} {image : Bytes}
    (assembled : assemble h p = .ok image) (room : h.encodedLength ≤ h.pageSize.bytes) :
    (Source.ofMemory image : Source σ).Carries image := by
  obtain ⟨filled, layout, _, laid, _, madeUp⟩ := assemble_makesUp assembled room
  have inside := (ImageLayout.of_chained laid).deviceTree.inside
  apply Source.ofMemory_carries
  rw [madeUp.length]
  exact inside

/-- The header has no extra command line, but its page has room for one. -/
def quietOptions : ImageOptions where
  kernel := "zImage"
  ramdisk := .none
  second := none
  commandLine := "quiet"
  board := "touchpad"
  pageSize := .customary
  base := 0x40000000
  kernelOffset := 0x8000
  ramdiskOffset := 0x1000000
  secondOffset := 0xF00000
  tagsOffset := 0x100
  output := "boot.img"

theorem built_image_agrees_quiet :
    ∃ h image, quietOptions.header = .ok h ∧ assemble h ⟨[1, 2, 3], [], []⟩ = .ok image ∧
      h.extraCommandLine = none ∧ h.kernel.address = 0x40008000 ∧ 2048 ∣ image.length ∧
      ∃ found, (∀ s : Session Unit, ∃ t, (readHeader (.ofMemory image)).Gives s found t) ∧
        found.ReadBack h ⟨[1, 2, 3], [], []⟩ (Bytes.ofString "quiet") := by
  have plain : (0 : UInt8) ∉ Bytes.ofString quietOptions.commandLine := by decide +kernel
  obtain ⟨h, headed, good⟩ := exists_ok_that (r := quietOptions.header)
    (fun h => h.extraCommandLine.isNone && h.pageSize.bytes == 2048 &&
      (assemble h ⟨[1, 2, 3], [], []⟩).toOption.isSome) (by decide +kernel)
  simp only [Bool.and_eq_true, beq_iff_eq, Option.isNone_iff_eq_none] at good
  obtain ⟨⟨short, page⟩, built⟩ := good
  obtain ⟨image, assembled⟩ : ∃ image, assemble h ⟨[1, 2, 3], [], []⟩ = .ok image := by
    cases outcome : assemble h ⟨[1, 2, 3], [], []⟩ with
    | error e =>
      rw [outcome] at built
      cases built
    | ok image => exact ⟨image, rfl⟩
  have made := ImageOptions.header_madeOf headed
  have carries := assembled_carries (σ := Unit) assembled made.room
  obtain ⟨same, ⟨found, _, read, back, _⟩, pages, _⟩ :=
    built_image_agrees plain headed assembled carries
  rw [page] at pages
  exact ⟨h, image, headed, assembled, short, same.kernel, pages, found, read, back⟩

end KernelBoot
