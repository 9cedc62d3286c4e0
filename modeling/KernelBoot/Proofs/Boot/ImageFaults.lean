import KernelBoot.Proofs.Boot.Loading

/-!
Faults of an image. All of them are found before memory is claimed: from then on every read lies
inside the source, and nothing else fails as if the image were at fault. So a load that such a
fault ends has asked the firmware for nothing.
-/
namespace KernelBoot
open FirmwareView Attempt

/-- An error that blames the image itself. A compressed ramdisk that ends early is not one. -/
def LoadError.ImageFault : LoadError → Prop
  | .invalidMagic => True
  | .invalidHeader _ => True
  | .unsupported _ => True
  | .read _ _ => True
  | .prematureEnd what _ => what ≠ "compressed ramdisk"
  | _ => False

/-- A read succeeds exactly if it lies inside the source. -/
structure Source.Exact (source : Source σ) (size : Nat) : Prop where
  size_eq : ∀ w, source.size w = size
  succeeds_iff : ∀ s offset len,
    (∃ bytes t, (source.readAt offset len).Ends s (.ok (), bytes) t) ↔ offset + len ≤ size

/-- Reads that lie inside give the bytes of an image; all others fail. -/
structure Source.Carries (source : Source σ) (image : Bytes) : Prop
    extends source.Exact image.length where
  delivered : ∀ s offset len bytes t, (source.readAt offset len).Ends s (.ok (), bytes) t →
    bytes = image.slice offset len

theorem Source.Carries.read {source : Source σ} {image : Bytes} (carries : source.Carries image)
    {offset len : Nat} (inside : offset + len ≤ image.length) (s : Session σ) :
    ∃ t, (source.readAt offset len).Ends s (.ok (), image.slice offset len) t := by
  obtain ⟨bytes, t, ends⟩ := (carries.succeeds_iff s offset len).mpr inside
  rw [carries.delivered s offset len bytes t ends] at ends
  exact ⟨t, ends⟩

def Source.answer (image : Bytes) (offset len : Nat) : Except SourceError Unit × Bytes :=
  if offset + len ≤ image.length then (.ok (), image.slice offset len)
  else (.error (.prematureEnd offset len image.length), [])

theorem Source.Carries.of_answers {source : Source σ} {image : Bytes}
    (size_eq : ∀ w, source.size w = image.length)
    (answers : ∀ s offset len, ∃ t, (source.readAt offset len).Ends s (answer image offset len) t) :
    source.Carries image where
  size_eq := size_eq
  succeeds_iff s offset len := by
    obtain ⟨t, ends⟩ := answers s offset len
    simp only [answer] at ends
    by_cases inside : offset + len ≤ image.length
    · rw [if_pos inside] at ends
      exact ⟨fun _ => inside, fun _ => ⟨_, t, ends⟩⟩
    · rw [if_neg inside] at ends
      refine ⟨?_, fun within => absurd within inside⟩
      rintro ⟨bytes, t', run⟩
      cases run.symm.trans ends
  delivered s offset len bytes t run := by
    obtain ⟨t', ends⟩ := answers s offset len
    simp only [answer] at ends
    by_cases inside : offset + len ≤ image.length
    · rw [if_pos inside] at ends
      cases run.symm.trans ends
      rfl
    · rw [if_neg inside] at ends
      cases run.symm.trans ends

def Effect.Keeps (part : σ → τ) (e : Effect σ α) : Prop :=
  ∀ s a t, e.Ends s a t → part t.world = part s.world

def FirmwareView.ofPart (part : σ → τ) (p : τ) : FirmwareView σ where
  valid w := part w = p
  ram _ := .filled 0
  grants _ := []

theorem Effect.Keeps.quiet {part : σ → τ} {e : Effect σ α} (keeps : e.Keeps part) (p : τ) :
    (FirmwareView.ofPart part p).Quiet e :=
  fun s a t valid run => ⟨(keeps s a t run).trans valid, rfl, rfl⟩

theorem Effect.keeps_of_quiet {part : σ → τ} {e : Effect σ α}
    (quiet : ∀ p, (FirmwareView.ofPart part p).Quiet e) : e.Keeps part :=
  fun s a t run => (quiet (part s.world) s a t rfl run).valid

theorem Attempt.keeps_ofExcept (part : σ → τ) {r : Except ε α} :
    (ofExcept r : Attempt σ ε α).run.Keeps part := by
  intro s a t run
  cases run
  rfl

variable {source : Source σ} {f : Firmware σ} {storage : Storage σ} {s t : Session σ} {size : Nat}
  {request : LoadRequest} {config : LoaderConfig}

theorem Source.Carries.readHeader_ends {image : Bytes} (carries : source.Carries image)
    (s : Session σ) :
    ∃ t, (source.readAt 0 (min image.length BootHeader.sizeWithExtra)).Ends s
        (.ok (), image.take BootHeader.sizeWithExtra) t ∧
      (readHeader source).run.Ends s
        (((BootHeader.parse (image.take BootHeader.sizeWithExtra)).map dropForeignExtra).mapError
          LoadError.ofImage) t := by
  have inside : 0 + min image.length BootHeader.sizeWithExtra ≤ image.length := by omega
  obtain ⟨t, ends⟩ := carries.read inside s
  have head : image.slice 0 (min image.length BootHeader.sizeWithExtra) =
      image.take BootHeader.sizeWithExtra := by
    rw [Bytes.slice, List.drop_zero, Nat.min_comm, ← List.take_eq_take_min]
  rw [head] at ends
  refine ⟨t, ends, ?_⟩
  rw [← carries.size_eq s.world] at ends
  cases outcome : BootHeader.parse (image.take BootHeader.sizeWithExtra) with
  | ok parsed => exact readHeader_gives ends outcome
  | error e =>
    unfold readHeader
    refine fails_bind.mpr (.inr ⟨source.size s.world, s, rfl, ?_⟩)
    refine fails_bind.mpr (.inr ⟨_, t, gives_lift.mpr ends, ?_⟩)
    refine fails_bind.mpr (.inr ⟨(), t, rfl, fails_bind.mpr (.inl ?_)⟩)
    rw [outcome]
    rfl

theorem Source.Carries.readHeader_parsed {image : Bytes} (carries : source.Carries image)
    {header : BootHeader} (run : (readHeader source).Gives s header t) :
    ∃ parsed, BootHeader.parse (image.take BootHeader.sizeWithExtra) = .ok parsed ∧
      header = dropForeignExtra parsed := by
  obtain ⟨t', _, ends⟩ := carries.readHeader_ends s
  have same := run.symm.trans ends
  cases outcome : BootHeader.parse (image.take BootHeader.sizeWithExtra) with
  | ok parsed =>
    rw [outcome] at same
    cases same
    exact ⟨parsed, rfl, rfl⟩
  | error e =>
    rw [outcome] at same
    cases same

theorem segment_inside (exact : source.Exact size) {facts : ImageFacts}
    (examined : (examine source).Gives s facts t) {p : Placement}
    (member : p ∈ facts.layout.placements) : p.extent = 0 ∨ p.offset + p.size ≤ size := by
  obtain ⟨s₁, _, laid, long, _⟩ := examine_cases examined
  rw [exact.size_eq] at long
  by_cases empty : p.size = 0
  · exact .inl (ImageLayout.of_empty laid p member empty)
  · exact .inr (Nat.le_trans (ImageLayout.stop_le_required member empty) long)

/-! The steps that follow blame something else if they fail. -/

theorem ofPlan_faultless (e : PlanError) : ¬ (LoadError.ofPlan e).ImageFault := by
  cases e <;> exact id

theorem ofArchive_faultless (e : ArchiveError) : ¬ (LoadError.ofArchive e).ImageFault := by
  cases e <;> exact id

theorem loadSegment_avoids (exact : source.Exact size) {what : String} {range : AddressRange}
    {offset len : Nat} (inside : range.isEmpty = true ∨ offset + len ≤ size) :
    (loadSegment source f what range offset len).Avoids LoadError.ImageFault := by
  unfold loadSegment
  split
  · exact avoids_pure _
  · rename_i some
    have within : offset + len ≤ size := inside.resolve_left some
    refine avoids_guard id ?_
    refine avoids_bind (avoids_mapError (avoids_all fun _ => id)) fun _ _ _ _ => avoids_guard id ?_
    refine avoids_bind (avoids_lift _) fun s₁ ⟨result, data⟩ s₂ read => ?_
    cases result with
    | ok _ => exact avoids_bind (avoids_lift _) fun _ _ _ _ => avoids_lift _
    | error e =>
      -- no run comes here, the read lies inside the source
      obtain ⟨bytes, t', succeeded⟩ := (exact.succeeds_iff s₁ offset len).mpr within
      have failed := Attempt.gives_lift.mp read
      rw [Effect.Ends, succeeded] at failed
      cases failed

theorem inflateRamdisk_avoids (compressed : Bytes) :
    (inflateRamdisk f compressed config).Avoids fun e => (LoadError.ofPatch e).ImageFault := by
  unfold inflateRamdisk
  split
  · exact avoids_throw id
  · refine avoids_guard id ?_
    refine avoids_bind (avoids_mapError (avoids_all fun _ => id)) fun _ ⟨actual, written⟩ _ _ => ?_
    refine avoids_guard (fun differs => differs rfl) ?_
    exact avoids_bind (avoids_lift _) fun _ _ _ _ => avoids_pure _

theorem originalRamdisk_avoids (raw : Bytes) :
    (originalRamdisk f raw config).Avoids LoadError.ImageFault := by
  unfold originalRamdisk
  split
  · exact avoids_mapError (inflateRamdisk_avoids raw)
  · exact avoids_pure _

theorem ofEncoding_faultless (e : ArchiveError) :
    ¬ (LoadError.ofPatch (.ofEncoding e)).ImageFault := by
  cases e <;> exact id

theorem rewriteRamdisk_faultless {original : Bytes} {injection : Injection} {e : PatchError}
    (failed : (rewriteRamdisk original injection config).1 = .error e) :
    ¬ (LoadError.ofPatch e).ImageFault := by
  unfold rewriteRamdisk at failed
  split at failed
  · cases failed
    exact id
  split at failed
  · cases failed
    exact ofArchive_faultless _
  rename_i archive lines _
  split at failed
  · cases failed
  split at failed
  · cases failed
  rename_i entries _
  simp only at failed
  cases outcome : (archive.replaceAll entries).1 with
  | error error =>
    rw [outcome] at failed
    cases failed
    exact ofArchive_faultless _
  | ok patched =>
    rw [outcome] at failed
    cases failed

theorem appendRamdisk_faultless {original : Bytes} {injection : Injection} {e : PatchError}
    (failed : appendRamdisk original injection config = .error e) :
    ¬ (LoadError.ofPatch e).ImageFault := by
  unfold appendRamdisk at failed
  split at failed
  · cases failed
    exact id
  · cases failed

theorem patch_faultless {original : Bytes} {injection : Injection} {e : PatchError}
    (failed : (patch original injection config).1 = .error e) :
    ¬ (LoadError.ofPatch e).ImageFault := by
  unfold patch at failed
  cases strategy : config.strategy with
  | rewrite =>
    simp only [strategy] at failed
    cases outcome : (rewriteRamdisk original injection config).1 with
    | error error =>
      simp only [outcome] at failed
      cases failed
      exact rewriteRamdisk_faultless outcome
    | ok patched =>
      simp only [outcome] at failed
      split at failed
      · cases failed
        exact id
      · cases failed
  | append =>
    simp only [strategy] at failed
    cases outcome : appendRamdisk original injection config with
    | error error =>
      simp only [outcome] at failed
      cases failed
      exact appendRamdisk_faultless outcome
    | ok patched =>
      simp only [outcome] at failed
      split at failed
      · cases failed
        exact id
      · cases failed

theorem write_faultless {patched : PatchedRamdisk} {dest : Bytes} {e : PatchError}
    (failed : (patched.write dest).1 = .error e) : ¬ (LoadError.ofPatch e).ImageFault := by
  cases patched with
  | rewrite archive =>
    simp only [PatchedRamdisk.write] at failed
    cases outcome : (archive.encode dest).1 with
    | error error =>
      rw [outcome] at failed
      cases failed
      exact ofEncoding_faultless error
    | ok written =>
      rw [outcome] at failed
      cases failed
  | append original trailer additions =>
    simp only [PatchedRamdisk.write] at failed
    by_cases short : dest.length < (PatchedRamdisk.append original trailer additions).length
    · rw [if_pos short] at failed
      cases failed
      exact id
    rw [if_neg short] at failed
    generalize Appender.atTrailer _ _ = started at failed
    cases started with
    | error error =>
      cases failed
      exact id
    | ok w =>
      simp only at failed
      generalize PatchedRamdisk.appendAll w additions = appended at failed
      obtain ⟨result, last⟩ := appended
      cases result with
      | error error =>
        cases failed
        exact ofEncoding_faultless _
      | ok _ =>
        simp only at failed
        cases ended : last.finish with
        | error error =>
          rw [ended] at failed
          cases failed
          exact ofEncoding_faultless _
        | ok written =>
          rw [ended] at failed
          cases failed

theorem patchRamdisk_avoids {plan : MemoryPlan} {loaded : AddressRange} {len : Nat} :
    (patchRamdisk f storage plan loaded len request config).Avoids LoadError.ImageFault := by
  unfold patchRamdisk
  refine avoids_guard id ?_
  refine avoids_bind (avoids_mapError (avoids_all fun _ => id)) fun _ memory _ _ => avoids_guard id ?_
  refine avoids_bind (originalRamdisk_avoids _) fun _ original _ _ => ?_
  refine avoids_bind (avoids_lift _) fun _ injection _ _ => ?_
  refine avoids_bind (avoids_lift _) fun _ _ _ _ => ?_
  refine avoids_bind (avoids_ofExcept_mapError fun e => patch_faultless) fun _ patched _ _ => ?_
  refine avoids_bind (avoids_lift _) fun _ ⟨placed, _⟩ _ _ => ?_
  refine avoids_bind (avoids_ofExcept_mapError fun e _ => ofPlan_faultless e) fun _ range _ _ => ?_
  refine avoids_bind (avoids_mapError (avoids_all fun _ => id)) fun _ target _ _ => ?_
  refine avoids_bind (avoids_lift _) fun _ _ _ _ => ?_
  refine avoids_bind (avoids_ofExcept_mapError fun e => write_faultless) fun _ length _ _ => ?_
  exact avoids_guard id (avoids_pure _)

theorem finalRamdisk_avoids {placed : PlacedImage} :
    (finalRamdisk f storage placed request config).Avoids LoadError.ImageFault := by
  unfold finalRamdisk
  split
  · exact patchRamdisk_avoids
  · exact avoids_pure _

theorem writeTagList_faultless {area ramdisk : AddressRange} {line : CommandLine} :
    (writeTagList f area ramdisk line).Avoids LoadError.ImageFault :=
  writeTagList_avoids (fun _ => id) (fun _ _ => id) (fun _ _ => id) fun _ _ _ _ => id

theorem finalHeader_faultless {h : BootHeader} {kernel ramdisk second : AddressRange} {tags : Nat}
    {e : LoadError} (failed : finalHeader h kernel ramdisk second tags = .error e) :
    ¬ e.ImageFault := by
  unfold finalHeader at failed
  split at failed
  · cases failed
    exact id
  · cases failed

/-- Only the examination of an image finds it at fault. -/
theorem placeImage_fault (exact : source.Exact size) {e : LoadError} (fault : e.ImageFault)
    (failed : (placeImage source f config).Fails s e t) : (examine source).Fails s e t := by
  refine placeImage_fails ofPlan_faultless ?_ fault failed
  intro s₀ s₁ facts examined p member what address _
  refine loadSegment_avoids exact ?_
  rcases segment_inside exact examined member with nothing | within
  · rw [nothing]
    exact .inl (AddressRange.sized_empty address)
  · exact .inr within

theorem load_fault (exact : source.Exact size) {e : LoadError} (fault : e.ImageFault)
    (failed : (load source f storage request config).Fails s e t) :
    (examine source).Fails s e t := by
  rcases fails_bind.mp failed with placing | ⟨placed, s₁, _, finishing⟩
  · exact placeImage_fault exact fault placing
  · have avoided : ∀ {x : Attempt σ LoadError PreparedBoot},
        x.Avoids LoadError.ImageFault → ¬ x.Fails s₁ e t :=
      fun avoids failed => avoids _ _ _ failed fault
    refine absurd finishing (avoided ?_)
    refine avoids_bind finalRamdisk_avoids fun _ ramdisk _ _ => ?_
    refine avoids_bind (avoids_lift _) fun _ line _ _ => ?_
    refine avoids_bind writeTagList_faultless fun _ length _ _ => ?_
    refine avoids_bind (avoids_ofExcept fun e failed => finalHeader_faultless failed) ?_
    intro _ header _ _
    exact avoids_bind (avoids_lift _) fun _ _ _ _ => avoids_pure _

/-- A load that finds fault with the image ends with the examination of it, before the firmware is
    asked for anything. Once an image has passed, its segments are read whenever that is tried. -/
theorem image_fault_untouched {part : σ → τ} (exact : source.Exact size)
    (apart : ∀ offset len, (source.readAt offset len).Keeps part) :
    (∀ {s t e}, LoadError.ImageFault e →
      (load source f storage request config).Fails s e t →
        (examine source).Fails s e t ∧ part t.world = part s.world) ∧
    ∀ {s s₁ facts}, (examine source).Gives s facts s₁ → ∀ kind,
      (facts.layout.segment kind).extent ≠ 0 → ∀ s₂, ∃ bytes t,
        (source.readAt (facts.layout.segment kind).offset (facts.layout.segment kind).size).Ends s₂
          (.ok (), bytes) t := by
  constructor
  · intro s t e fault failed
    have examining := load_fault exact fault failed
    refine ⟨examining, ?_⟩
    -- the one effect that an examination has on the world is that of its reads
    have quiet := examine_quiet (v := FirmwareView.ofPart part (part s.world))
      (fun offset len => (apart offset len).quiet _)
    exact (quiet s _ t rfl examining).valid
  · intro s s₁ facts examined kind some s₂
    have member : facts.layout.segment kind ∈ facts.layout.placements := by
      cases kind <;> simp [ImageLayout.segment, ImageLayout.placements]
    have inside := (segment_inside exact examined member).resolve_left some
    exact (exact.succeeds_iff s₂ _ _).mpr inside

theorem Source.outside?_eq {size : Nat} (short : size < addressSpace) (offset len : Nat) :
    outside? offset len size =
      if offset + len ≤ size then none else some (.prematureEnd offset len size) := by
  by_cases inside : offset + len ≤ size
  · rw [if_pos inside]
    exact outside?_eq_none.mpr ⟨Nat.lt_of_le_of_lt inside short, inside⟩
  · have beyond : ¬ (offset + len < addressSpace ∧ offset + len ≤ size) := fun both => inside both.2
    rw [if_neg inside, outside?, if_neg beyond]

theorem Source.ofMemory_answers {image : Bytes} (short : image.length < addressSpace)
    (s : Session σ) (offset len : Nat) :
    ∃ t, ((ofMemory image).readAt offset len).Ends s (answer image offset len) t := by
  refine ⟨s, ?_⟩
  simp only [ofMemory, outside?_eq short, answer]
  by_cases inside : offset + len ≤ image.length
  · rw [if_pos inside, if_pos inside]
    rfl
  · rw [if_neg inside, if_neg inside]
    rfl

theorem Source.ofMemory_carries {image : Bytes} (short : image.length < addressSpace) :
    (Source.ofMemory image : Source σ).Carries image :=
  .of_answers (fun _ => rfl) (ofMemory_answers short)

theorem Source.ofMemory_exact {image : Bytes} (short : image.length < addressSpace) :
    (Source.ofMemory image : Source σ).Exact image.length := (ofMemory_carries short).toExact

theorem Source.ofMemory_keeps (image : Bytes) (part : σ → τ) (offset len : Nat) :
    ((Source.ofMemory image).readAt offset len).Keeps part := by
  intro s a t run
  simp only [ofMemory] at run
  split at run
  · cases run
    rfl
  · cases run
    rfl

/-- The image ends one byte before its kernel does. -/
theorem image_fault_cut :
    let source : Source Board := .ofMemory bareImage.dropLast
    let s : Session Board := ⟨bareBoard, .new 0⟩
    let e := LoadError.prematureEnd "boot image" (.prematureEnd 0 1028 1027)
    e.ImageFault ∧ ∃ t,
      (load source Board.firmware oneDevice.storage quietRequest .default).Fails s e t ∧
        (examine source).Fails s e t ∧ t.world = s.world := by
  intro source s e
  have fault : e.ImageFault := (by decide : "boot image" ≠ "compressed ramdisk")
  have short : bareImage.dropLast.length < addressSpace := by decide +kernel
  obtain ⟨t, failed⟩ : ∃ t,
      (load source Board.firmware oneDevice.storage quietRequest .default).Fails s e t :=
    exists_fails (by decide +kernel)
  have untouched := (image_fault_untouched (Source.ofMemory_exact short)
    (Source.ofMemory_keeps bareImage.dropLast (id : Board → Board))).1 fault failed
  exact ⟨fault, t, failed, untouched⟩

end KernelBoot
