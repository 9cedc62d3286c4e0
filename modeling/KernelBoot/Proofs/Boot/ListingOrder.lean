import KernelBoot.Proofs.Boot.Alike
import KernelBoot.Proofs.Ramdisk.Gathering

/-!
The order of a listing in a whole load. The storage has no hand in what the firmware sees, and what
is gathered from it does not depend on how it lists its files. So neither does anything that the
load leaves in memory, the patched ramdisk included.
-/
namespace KernelBoot
open FirmwareView

structure Storage.Keeps (storage : Storage σ) (part : σ → τ) : Prop where
  list : ∀ dir, (storage.list dir).run.Keeps part
  readFile : ∀ path, (storage.readFile path).run.Keeps part
  readDevice : ∀ device, (storage.readDevice device).run.Keeps part

variable {part : σ → τ} {storage storage' : Storage σ} {c c' : StorageContents}
  {request : LoadRequest} {config : LoaderConfig}

theorem Storage.Keeps.apart (keeps : storage.Keeps part) (p : τ) :
    storage.Apart (FirmwareView.ofPart part p) where
  list dir := (keeps.list dir).quiet p
  readFile path := (keeps.readFile path).quiet p
  readDevice device := (keeps.readDevice device).quiet p

theorem Injection.gather_keeps (keeps : storage.Keeps part) (searchPrefix : String)
    (device : Option String) :
    (Injection.gather storage searchPrefix device config).Keeps part :=
  Effect.keeps_of_quiet fun p => Injection.gather_quiet (keeps.apart p) searchPrefix device config

def LoadRequest.directory (request : LoadRequest) (config : LoaderConfig) : String :=
  Path.join request.searchPrefix config.multibootDir

theorem gatherAlike_of_relisted {names : List String} (keeps : storage.Keeps part)
    (keeps' : storage'.Keeps part) (answers : storage.Answers (fun _ => True) c)
    (answers' : storage'.Answers (fun _ => True) c')
    (relisted : c.Relisted c' (request.directory config) names) :
    GatherAlike part storage storage' request config := by
  intro s s' i i' t t' same run run'
  obtain ⟨u, ends, _⟩ := Injection.gather_ends answers request.searchPrefix request.rootDevice
    config (s := s) trivial
  obtain ⟨u', ends', _⟩ := Injection.gather_ends answers' request.searchPrefix request.rootDevice
    config (s := s') trivial
  rw [Injection.ofContents_relisted relisted] at ends'
  cases run.symm.trans ends
  cases run'.symm.trans ends'
  refine ⟨rfl, ?_⟩
  rw [Injection.gather_keeps keeps _ _ _ _ _ run, Injection.gather_keeps keeps' _ _ _ _ _ run',
    same]

/-- What is gathered is told by the answers of the storage: the files that can be read, in order of
    their names, the init that is one of them, and the root device if it is a whole ramdisk. Another
    order of the listing, or more files that cannot be read, gives the same injection, and loads
    that differ in nothing else end with the same result and the same memory. -/
theorem listing_order_unseen {c : StorageContents} {request : LoadRequest} {config : LoaderConfig}
    (distinct : ∀ names, c.list (request.directory config) = .ok names → names.Nodup) :
    ∃ i : Injection, i.Gathers c (request.directory config) request.rootDevice config ∧
      (∀ {σ} {storage : Storage σ} {steady : σ → Prop}, storage.Answers steady c →
        ∀ s, steady s.world → ∃ t, (Injection.gather storage request.searchPrefix
          request.rootDevice config).Ends s i t) ∧
      ∀ {c' : StorageContents} {names : List String},
        c.Relisted c' (request.directory config) names →
        (∀ {σ} {storage : Storage σ} {steady : σ → Prop}, storage.Answers steady c' →
          ∀ s, steady s.world → ∃ t, (Injection.gather storage request.searchPrefix
            request.rootDevice config).Ends s i t) ∧
        ∀ {σ τ} {part : σ → τ} {source : Source σ} {image : Bytes} {f : Firmware σ}
          {storage storage' : Storage σ}, source.Carries image →
          (∀ offset len, (source.readAt offset len).Keeps part) → f.ActsOn part →
          storage.Keeps part → storage'.Keeps part → storage.Answers (fun _ => True) c →
          storage'.Answers (fun _ => True) c' →
            (load source f storage request config).run.Alike part
              (load source f storage' request config).run := by
  refine ⟨Injection.ofContents c request.searchPrefix request.rootDevice config,
    Injection.ofContents_gathers distinct, ?_, ?_⟩
  · intro σ storage steady answers s start
    obtain ⟨t, ends, _⟩ := Injection.gather_ends answers _ _ config start
    exact ⟨t, ends⟩
  · intro c' names relisted
    constructor
    · intro σ storage steady answers s start
      obtain ⟨t, ends, _⟩ :=
        Injection.gather_ends answers request.searchPrefix request.rootDevice config start
      rw [Injection.ofContents_relisted relisted] at ends
      exact ⟨t, ends⟩
    · intro σ τ part source image f storage storage' carries apart acts keeps keeps' answers answers'
      have beside : Source.Beside part source source image image :=
        ⟨carries, carries, apart, apart, ReadsSame.refl image⟩
      exact beside.load_alike_gathering acts
        (gatherAlike_of_relisted keeps keeps' answers answers' relisted)

/-! Scripted storage keeps to its script. -/

def ScriptedStorage.contents (storage : ScriptedStorage) : StorageContents where
  list dir := storage.guarded dir (storage.list dir)
  file path := storage.guarded path (ScriptedStorage.found storage.files path)
  device device := storage.guarded device (ScriptedStorage.found storage.devices device)

theorem ScriptedStorage.storage_answers (storage : ScriptedStorage) (steady : σ → Prop) :
    (storage.storage : Storage σ).Answers steady storage.contents :=
  ⟨fun _ s here => ⟨s, rfl, here⟩, fun _ s here => ⟨s, rfl, here⟩, fun _ s here => ⟨s, rfl, here⟩⟩

theorem ScriptedStorage.storage_keeps (storage : ScriptedStorage) (part : σ → τ) :
    (storage.storage : Storage σ).Keeps part :=
  ⟨fun _ => Attempt.keeps_ofExcept part, fun _ => Attempt.keeps_ofExcept part,
    fun _ => Attempt.keeps_ofExcept part⟩

def twoFiles : ScriptedStorage :=
  { oneDevice with
    files := [("/boot/multiboot/sbin/init", [1, 2]), ("/boot/multiboot/etc/rc", [3])]
    broken := [("/boot/multiboot/lost", .failed "bad sector")] }

/-- The same files the other way around, and between them one that cannot be read. -/
def threeFiles : ScriptedStorage :=
  { twoFiles with
    files := [("/boot/multiboot/etc/rc", [3]), ("/boot/multiboot/lost", [4]),
      ("/boot/multiboot/sbin/init", [1, 2])] }

theorem threeFiles_relisted :
    twoFiles.contents.Relisted threeFiles.contents "/boot/multiboot" ["sbin/init", "etc/rc"] := by
  obtain ⟨names, listed, both⟩ := exists_ok_that (r := twoFiles.contents.list "/boot/multiboot")
    (fun names => names == ["sbin/init", "etc/rc"]) (by decide +kernel)
  obtain ⟨names', listed', all⟩ := exists_ok_that (r := threeFiles.contents.list "/boot/multiboot")
    (fun names => names == ["etc/rc", "lost", "sbin/init"]) (by decide +kernel)
  cases beq_iff_eq.mp both
  cases beq_iff_eq.mp all
  refine ⟨listed, ⟨_, ["lost"], listed', by decide, by decide, ?_⟩, ?_, rfl⟩
  · intro name member
    cases List.mem_singleton.mp member
    exact ⟨.failed "bad sector", by rfl⟩
  · intro name member
    simp only [List.mem_cons, List.not_mem_nil, or_false] at member
    rcases member with rfl | rfl
    · rfl
    · rfl

theorem listing_order_unseen_shuffled :
    let s : Session Board := ⟨bareBoard, .new 0⟩
    let gathered := fun storage : ScriptedStorage =>
      Injection.gather (storage.storage : Storage Board) "/boot" (some "cd") smallTags
    let loaded := fun storage : ScriptedStorage =>
      load (.ofMemory bareImage) Board.firmware storage.storage quietRequest smallTags
    (∀ names, twoFiles.contents.list (quietRequest.directory smallTags) = .ok names → names.Nodup) ∧
      ∃ i t t' result u u', i.Gathers twoFiles.contents "/boot/multiboot" (some "cd") smallTags ∧
        (gathered twoFiles).Ends s i t ∧ (gathered threeFiles).Ends s i t' ∧
        (loaded twoFiles).run.Ends s result u ∧ (loaded threeFiles).run.Ends s result u' ∧
        u.world = u'.world := by
  intro s gathered loaded
  have dir : quietRequest.directory smallTags = "/boot/multiboot" := by decide +kernel
  have relisted := threeFiles_relisted
  rw [← dir] at relisted
  have distinct : ∀ names, twoFiles.contents.list (quietRequest.directory smallTags) = .ok names →
      names.Nodup := by
    intro names listed
    cases relisted.listed.symm.trans listed
    decide
  obtain ⟨i, gathers, first, others⟩ := listing_order_unseen distinct
  obtain ⟨second, alike⟩ := others relisted
  obtain ⟨t, ends⟩ := first (twoFiles.storage_answers fun _ => True) s trivial
  obtain ⟨t', ends'⟩ := second (threeFiles.storage_answers fun _ => True) s trivial
  rcases run : (loaded twoFiles).run.run s with ⟨result, u⟩
  have loads := alike (Source.ofMemory_carries (by decide +kernel))
    (Source.ofMemory_keeps bareImage (id : Board → Board)) Board.firmware_acts
    (twoFiles.storage_keeps id) (threeFiles.storage_keeps id) (twoFiles.storage_answers _)
    (threeFiles.storage_answers _)
  obtain ⟨u', run', world⟩ := loads.ends rfl run
  rw [dir] at gathers
  exact ⟨distinct, i, t, t', result, u, u', gathers, ends, ends', run, run', world⟩

end KernelBoot
