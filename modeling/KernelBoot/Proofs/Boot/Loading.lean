import KernelBoot.Proofs.Board.Lawful
import KernelBoot.Proofs.Boot.Patching
import KernelBoot.Proofs.Boot.Placing
import KernelBoot.Proofs.Boot.TagArea

/-!
A whole load. Everything that is handed on lies in memory of its own: what is written late, the
patched ramdisk and the tag list, hits none of the segments that were loaded before.
-/
namespace KernelBoot
open FirmwareView

variable {source : Source σ} {f : Firmware σ} {storage : Storage σ} {v : FirmwareView σ}
  {image : Bytes} {s t : Session σ} {request : LoadRequest} {config : LoaderConfig}

def PreparedBoot.ranges (p : PreparedBoot) : List AddressRange :=
  [p.kernel, p.ramdisk, p.second, p.tags]

theorem Filled.within {w : σ} {placement : Placement} {range : AddressRange}
    (filled : Filled v w image placement range) :
    (AddressRange.sized range.start placement.size).within range = true :=
  AddressRange.sized_within filled.fits

theorem Filled.read {w : σ} {placement : Placement} {range : AddressRange}
    (filled : Filled v w image placement range) :
    v.read w (.sized range.start placement.size) =
      image.slice placement.offset placement.size := by
  have fits := AddressRange.cut_fits filled.fits filled.bounded
  rw [FirmwareView.read_sized filled.fits fits, filled.bytes]

theorem finalRamdisk_ok (lawful : f.Lawful v) (storageApart : storage.Apart v)
    {placed : PlacedImage} {w₀ : σ} (sound : placed.Sound v image w₀ s.world)
    {range : AddressRange} (run : (finalRamdisk f storage placed request config).Gives s range t) :
    Moved v s.world t.world placed.plan placed.ramdisk range ∧
      (request.multiboot = false → v.read t.world range =
        image.slice placed.facts.layout.ramdisk.offset placed.facts.layout.ramdisk.size) ∧
      (request.multiboot = true →
        ∃ s₁, (f.memory placed.ramdisk).Gives s (v.read s.world placed.ramdisk) s₁ ∧
          Repacked f storage request config
            (image.slice placed.facts.layout.ramdisk.offset placed.facts.layout.ramdisk.size) s₁
            (v.read t.world range)) := by
  have claimed := sound.holds.reachable placed.ramdisk (by simp)
  unfold finalRamdisk at run
  split at run
  · rename_i multiboot
    obtain ⟨moved, s₁, looked, repacked⟩ := patchRamdisk_ok lawful storageApart sound.holds.accounts
      claimed sound.ramdisk.bounded run
    rw [sound.ramdisk.bytes] at repacked
    refine ⟨moved, ?_, fun _ => ⟨s₁, looked, repacked⟩⟩
    intro off
    rw [off] at multiboot
    cases multiboot
  · rename_i off
    obtain ⟨rfl, rfl⟩ := Attempt.gives_pure.mp run
    refine ⟨⟨sound.holds.accounts.valid, ⟨[], (List.append_nil _).symm, ?_⟩, ?_, fun _ _ _ => rfl⟩,
      fun _ => sound.ramdisk.read, fun multiboot => absurd multiboot off⟩
    · rw [List.append_nil]
      exact claimed.of_within sound.ramdisk.within
    · intro r _ apart
      exact AddressRange.apart_of_within apart sound.ramdisk.within (AddressRange.within_refl r)

/-- What lies inside a claimed range next to the ramdisk is as it was, apart from its new place. -/
theorem Moved.part {w w' : σ} {plan : MemoryPlan} {loaded range r q : AddressRange}
    (moved : Moved v w w' plan loaded range) (claimed : Reachable plan.claimed q)
    (apart : loaded.overlaps q = false) (inside : r.within q = true) :
    r.overlaps range = false ∧ v.read w' r = v.read w r := by
  have inLoaded := AddressRange.within_refl loaded
  have besides := AddressRange.apart_of_within apart inLoaded inside
  have partClaimed := claimed.of_within inside
  exact ⟨AddressRange.apart_comm (moved.apart r partClaimed besides),
    moved.read r partClaimed besides⟩

/-- The steps of a load, each from the session in which the one before it has ended. -/
structure LoadSteps (source : Source σ) (f : Firmware σ) (storage : Storage σ) (request : LoadRequest)
    (config : LoaderConfig) (s t : Session σ) (p : PreparedBoot) (placed : PlacedImage)
    (s₁ s₂ s₃ : Session σ) : Prop where
  placing : (placeImage source f config).Gives s placed s₁
  settling : (finalRamdisk f storage placed request config).Gives s₁ p.ramdisk s₂
  building : (buildCommandLine f placed.facts.header request config).Ends s₂ p.commandLine s₃
  listing : ∃ s₄, (writeTagList f placed.tags p.ramdisk p.commandLine).Gives s₃ p.tagsLength s₄ ∧
    t.world = s₄.world
  kernel : p.kernel = .sized placed.kernel.start placed.facts.layout.kernel.size
  second : p.second = .sized placed.second.start placed.facts.layout.second.size
  tags : p.tags = .sized placed.tags.start p.tagsLength

theorem load_steps {p : PreparedBoot}
    (run : (load source f storage request config).Gives s p t) :
    ∃ placed s₁ s₂ s₃, LoadSteps source f storage request config s t p placed s₁ s₂ s₃ ∧
      finalHeader placed.facts.header p.kernel p.ramdisk p.second p.tags.start = .ok p.header := by
  unfold load at run
  obtain ⟨placed, s₁, placing, finishing⟩ := Attempt.gives_bind.mp run
  obtain ⟨ramdisk, s₂, settling, building⟩ := Attempt.gives_bind.mp finishing
  obtain ⟨line, s₃, built, listing⟩ := Attempt.gives_bind.mp building
  obtain ⟨length, s₄, listed, concluding⟩ := Attempt.gives_bind.mp listing
  obtain ⟨final, s₅, checked, logging⟩ := Attempt.gives_bind.mp concluding
  obtain ⟨headerOk, rfl⟩ := Attempt.gives_ofExcept.mp checked
  obtain ⟨_, s₆, logged, done⟩ := Attempt.gives_bind.mp logging
  obtain ⟨rfl, rfl⟩ := Attempt.gives_pure.mp done
  exact ⟨placed, s₁, s₂, s₃, ⟨placing, settling, Attempt.gives_lift.mp built,
    ⟨_, listed, Attempt.gives_log logged⟩, rfl, rfl, rfl⟩, headerOk⟩

structure LoadContents (f : Firmware σ) (storage : Storage σ) (request : LoadRequest)
    (config : LoaderConfig) (v : FirmwareView σ) (image : Bytes) (placed : PlacedImage)
    (s₁ s₃ : Session σ) (p : PreparedBoot) (w : σ) : Prop where
  kernel : v.read w p.kernel =
    image.slice placed.facts.layout.kernel.offset placed.facts.layout.kernel.size
  second : v.read w p.second =
    image.slice placed.facts.layout.second.offset placed.facts.layout.second.size
  ramdisk : request.multiboot = false → v.read w p.ramdisk =
    image.slice placed.facts.layout.ramdisk.offset placed.facts.layout.ramdisk.size
  patched : request.multiboot = true →
    ∃ memory s₂, (f.memory placed.ramdisk).Gives s₁ memory s₂ ∧
      Repacked f storage request config
        (image.slice placed.facts.layout.ramdisk.offset placed.facts.layout.ramdisk.size) s₂
        (v.read w p.ramdisk)
  tags : ∃ regions s₄, f.memoryMap.Gives s₃ regions s₄ ∧
    Announces (v.read w p.tags) p.ramdisk regions p.commandLine

section Handed
variable {placed : PlacedImage} {p : PreparedBoot} {w₀ w w' w'' : σ} {s₁ s₂ s₃ : Session σ}

/-- The ranges that are handed on, each inside the claimed range it was cut from. -/
structure Handed (placed : PlacedImage) (p : PreparedBoot) : Prop where
  kernel : p.kernel.within placed.kernel = true
  second : p.second.within placed.second = true
  tags : p.tags.within placed.tags = true

theorem LoadSteps.handed (steps : LoadSteps source f storage request config s t p placed s₁ s₂ s₃)
    (sound : placed.Sound v image w₀ w) (short : p.tagsLength ≤ placed.tags.len) :
    Handed placed p where
  kernel := by
    rw [steps.kernel]
    exact sound.kernel.within
  second := by
    rw [steps.second]
    exact sound.second.within
  tags := by
    rw [steps.tags]
    exact AddressRange.sized_within short

structure PlacedImage.Apart (placed : PlacedImage) : Prop where
  kernelTags : placed.kernel.overlaps placed.tags = false
  kernelSecond : placed.kernel.overlaps placed.second = false
  secondTags : placed.second.overlaps placed.tags = false
  ramdiskTags : placed.ramdisk.overlaps placed.tags = false
  ramdiskKernel : placed.ramdisk.overlaps placed.kernel = false
  ramdiskSecond : placed.ramdisk.overlaps placed.second = false

theorem PlacedImage.Sound.apart (sound : placed.Sound v image w₀ w) : placed.Apart := by
  obtain ⟨fromSecond, others⟩ := List.pairwise_cons.mp sound.holds.apart
  obtain ⟨fromRamdisk, rest⟩ := List.pairwise_cons.mp others
  obtain ⟨fromKernel, _⟩ := List.pairwise_cons.mp rest
  exact {
    kernelTags := fromKernel _ (by simp)
    kernelSecond := AddressRange.apart_comm (fromSecond _ (by simp))
    secondTags := fromSecond _ (by simp)
    ramdiskTags := fromRamdisk _ (by simp)
    ramdiskKernel := fromRamdisk _ (by simp)
    ramdiskSecond := AddressRange.apart_comm (fromSecond _ (by simp)) }

theorem handed_apart (sound : placed.Sound v image w₀ w)
    (moved : Moved v w w' placed.plan placed.ramdisk p.ramdisk) (handed : Handed placed p) :
    p.ranges.Pairwise fun a b => a.overlaps b = false := by
  have apart := sound.apart
  have claimed := sound.holds.reachable
  have kernel := (moved.part (claimed _ (by simp)) apart.ramdiskKernel handed.kernel).1
  have second := (moved.part (claimed _ (by simp)) apart.ramdiskSecond handed.second).1
  have tags := (moved.part (claimed _ (by simp)) apart.ramdiskTags handed.tags).1
  simp only [PreparedBoot.ranges, List.pairwise_cons, List.mem_cons, List.not_mem_nil, or_false,
    forall_eq_or_imp, forall_eq, false_implies, implies_true, List.Pairwise.nil, and_true]
  refine ⟨⟨kernel, ?_, ?_⟩, ⟨AddressRange.apart_comm second, AddressRange.apart_comm tags⟩, ?_⟩
  · exact AddressRange.apart_of_within apart.kernelSecond handed.kernel handed.second
  · exact AddressRange.apart_of_within apart.kernelTags handed.kernel handed.tags
  · exact AddressRange.apart_of_within apart.secondTags handed.second handed.tags

theorem handed_granted (sound : placed.Sound v image w₀ w)
    (moved : Moved v w w' placed.plan placed.ramdisk p.ramdisk) (handed : Handed placed p) :
    ∃ granted, v.grants w' = v.grants w₀ ++ granted ∧ ∀ r ∈ p.ranges, Reachable granted r := by
  obtain ⟨more, given, covered⟩ := moved.grants
  have claimed : ∀ {q r}, q ∈ [placed.second, placed.ramdisk, placed.kernel, placed.tags] →
      AddressRange.within r q = true → Reachable (placed.plan.claimed ++ more) r := by
    intro q r member inside
    exact ((sound.holds.reachable q member).of_within inside).mono (List.subset_append_left _ _)
  refine ⟨placed.plan.claimed ++ more, ?_, ?_⟩
  · rw [given, sound.holds.accounts.grants, List.append_assoc]
  · intro r member
    simp only [PreparedBoot.ranges, List.mem_cons, List.not_mem_nil, or_false] at member
    rcases member with rfl | rfl | rfl | rfl
    · exact claimed (by simp) handed.kernel
    · exact covered
    · exact claimed (by simp) handed.second
    · exact claimed (by simp) handed.tags

/-- Kernel and second stage outlive both late writes, that of the ramdisk and that of the tags. -/
theorem handed_segments (sound : placed.Sound v image w₀ w)
    (moved : Moved v w w' placed.plan placed.ramdisk p.ramdisk) (handed : Handed placed p)
    (kept : ∀ r, placed.tags.overlaps r = false → v.read w'' r = v.read w' r) :
    v.read w'' p.kernel = v.read w p.kernel ∧ v.read w'' p.second = v.read w p.second := by
  have apart := sound.apart
  have claimed := sound.holds.reachable
  have inTags := AddressRange.within_refl placed.tags
  have kernelTags := AddressRange.apart_of_within apart.kernelTags handed.kernel inTags
  have secondTags := AddressRange.apart_of_within apart.secondTags handed.second inTags
  constructor
  · rw [kept _ (AddressRange.apart_comm kernelTags)]
    exact (moved.part (claimed _ (by simp)) apart.ramdiskKernel handed.kernel).2
  · rw [kept _ (AddressRange.apart_comm secondTags)]
    exact (moved.part (claimed _ (by simp)) apart.ramdiskSecond handed.second).2

end Handed

/-- What a load has done. The ranges that are handed on share nothing and lie in memory that was
    granted on the way; their contents come from the image as its header describes it. -/
structure Loaded (source : Source σ) (f : Firmware σ) (storage : Storage σ) (request : LoadRequest)
    (config : LoaderConfig) (v : FirmwareView σ) (image : Bytes) (s t : Session σ)
    (p : PreparedBoot) : Prop where
  apart : p.ranges.Pairwise fun a b => a.overlaps b = false
  granted : ∃ granted, v.grants t.world = v.grants s.world ++ granted ∧
    ∀ r ∈ p.ranges, Reachable granted r
  contents : ∃ header placed s₁ s₂ s₃,
    BootHeader.parse (image.take BootHeader.sizeWithExtra) = .ok header ∧
    ImageLayout.of header = .ok placed.facts.layout ∧
    placed.facts.layout.requiredLength ≤ image.length ∧
    LoadSteps source f storage request config s t p placed s₁ s₂ s₃ ∧
    LoadContents f storage request config v image placed s₁ s₃ p t.world

theorem load_prepares (lawful : f.Lawful v) (storageApart : storage.Apart v)
    (delivers : source.Delivers v image) (valid : v.valid s.world) {p : PreparedBoot}
    (run : (load source f storage request config).Gives s p t) :
    Loaded source f storage request config v image s t p := by
  obtain ⟨placed, s₁, s₂, s₃, steps, _⟩ := load_steps run
  have sound := placeImage_ok lawful delivers valid steps.placing
  obtain ⟨header, parsed, laid, long⟩ := sound.described
  obtain ⟨moved, unpatched, patched⟩ := finalRamdisk_ok lawful storageApart sound steps.settling
  have same :=
    buildCommandLine_quiet lawful.readVariable_quiet _ _ _ _ _ _ moved.valid steps.building
  obtain ⟨s₄, listed, world⟩ := steps.listing
  obtain ⟨⟨_, grants⟩, kept, short, regions, s₅, mapped, announced⟩ :=
    writeTagList_ok lawful same.valid listed
  rw [← world] at grants kept announced
  have handed := steps.handed sound short
  have late : ∀ r, placed.tags.overlaps r = false → v.read t.world r = v.read s₂.world r := by
    intro r apart
    rw [kept r apart, same.read]
  obtain ⟨kernel, second⟩ := handed_segments sound moved handed late
  have ramdiskTags := moved.apart placed.tags (sound.holds.reachable _ (by simp))
    sound.apart.ramdiskTags
  have ramdisk := late _ (AddressRange.apart_comm ramdiskTags)
  refine ⟨handed_apart sound moved handed, ?_, header, placed, s₁, s₂, s₃, parsed, laid,
    long, steps, ?_⟩
  · rw [grants, same.grants]
    exact handed_granted sound moved handed
  · exact {
      kernel := by rw [kernel, steps.kernel, sound.kernel.read]
      second := by rw [second, steps.second, sound.second.read]
      ramdisk := by
        intro off
        rw [ramdisk, unpatched off]
      patched := by
        intro multiboot
        rw [ramdisk]
        exact ⟨_, patched multiboot⟩
      tags := by
        have fits := AddressRange.cut_fits short sound.tags
        rw [steps.tags, FirmwareView.read_sized short fits]
        exact ⟨regions, s₅, mapped, announced⟩ }

/-- An image of four bytes of kernel and an empty ramdisk. -/
def bareImage : Bytes :=
  let header := { BootHeader.new ⟨10, by decide⟩ with
    kernel := ⟨4, 0x10008000⟩
    ramdisk := ⟨0, 0x10100000⟩
    tagsAddress := 0x10000100 }
  (header.encode.toOption.getD []) ++ Bytes.zeros 416 ++ [1, 2, 3, 4]

def bareBoard : Board :=
  let bank := AddressRange.sized 0x10000000 0x200000
  .new ⟨bank, [], none, false, false, some [bank], [], 0, none, false, false⟩

/-- Storage whose only device holds a ramdisk of one file. -/
def oneDevice : ScriptedStorage :=
  ⟨[], [("cd", Archive.records [.file (Bytes.ofString "grub.cfg") [0x20]] ++ Archive.trailerBytes)],
    []⟩

/-- A request that patches the ramdisk with what the device holds. -/
def quietRequest : LoadRequest := ⟨["quiet"], true, some "cd", "/boot", "/boot/loader"⟩

def smallTags : LoaderConfig := { LoaderConfig.default with tagAreaSize := 256 }

theorem load_prepares_nested :
    let s : Session Board := ⟨bareBoard, .new 0⟩
    Board.view.valid s.world ∧
      ∃ p t, (load (.ofMemory bareImage) Board.firmware oneDevice.storage quietRequest
          smallTags).Gives s p t ∧
        Loaded (.ofMemory bareImage) Board.firmware oneDevice.storage quietRequest smallTags
          Board.view bareImage s t p := by
  intro s
  have sound : Board.view.valid s.world := ⟨rfl, by decide, List.forall_mem_nil _⟩
  have delivers := Source.ofMemory_delivers (by decide +kernel : bareImage.length < addressSpace)
    Board.view
  have apart := oneDevice.storage_apart Board.view
  obtain ⟨p, t, run⟩ := Attempt.exists_gives (by decide +kernel :
    ((load (.ofMemory bareImage) Board.firmware oneDevice.storage quietRequest smallTags).run.run
      s).1.toOption.isSome = true)
  exact ⟨sound, p, t, run, load_prepares Board.firmware_lawful apart delivers sound run⟩

end KernelBoot
