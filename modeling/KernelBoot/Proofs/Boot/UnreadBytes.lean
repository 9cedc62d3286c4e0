import KernelBoot.Proofs.Boot.Alike

/-!
Bytes that belong to no field and to no segment. A header is parsed from its fields alone, and the
place of the extra command line counts only where the page of the header has room for it. So what
lies in the unused word, in the padding and behind the last segment shows in no load.
-/
namespace KernelBoot

/-- Both byte strings have the same bytes from `start` up to `stop`, or end at the same one. -/
def Bytes.AgreeOn (a b : Bytes) (start stop : Nat) : Prop :=
  ∀ i, start ≤ i → i < stop → a[i]? = b[i]?

theorem Bytes.agreeOn_of_slice {a b : Bytes} {start stop : Nat}
    (same : a.slice start (stop - start) = b.slice start (stop - start)) :
    Bytes.AgreeOn a b start stop := by
  intro i first last
  have at_i := congrArg (fun window : Bytes => window[i - start]?) same
  simp only [Bytes.slice_getElem?] at at_i
  rw [if_pos (by omega), if_pos (by omega), Nat.add_sub_cancel' first] at at_i
  exact at_i

theorem Bytes.AgreeOn.slice {a b : Bytes} {start stop offset len : Nat}
    (agree : Bytes.AgreeOn a b start stop) (first : start ≤ offset) (last : offset + len ≤ stop) :
    a.slice offset len = b.slice offset len := by
  apply List.ext_getElem?
  intro i
  rw [Bytes.slice_getElem?, Bytes.slice_getElem?]
  by_cases inside : i < len
  · rw [if_pos inside, if_pos inside]
    exact agree (offset + i) (by omega) (by omega)
  · rw [if_neg inside, if_neg inside]

/-- Images of one length with the same fields and the same segments. The fields are the first 608
    bytes without the unused word, and the extra command line where the page has room for it. -/
structure SameContents (image image' : Bytes) : Prop where
  length : image.length = image'.length
  numbers : Bytes.AgreeOn image image' 0 44
  texts : Bytes.AgreeOn image image' 48 BootHeader.size
  extra : ∀ {h}, BootHeader.parse image = .ok h → BootHeader.sizeWithExtra ≤ h.pageSize.bytes →
    Bytes.AgreeOn image image' BootHeader.size BootHeader.sizeWithExtra
  segments : ∀ {h l}, BootHeader.parse image = .ok h → ImageLayout.of h = .ok l →
    ∀ p ∈ [l.kernel, l.ramdisk, l.second],
      Bytes.AgreeOn image image' p.offset (p.offset + p.size)

namespace BootHeader
open Bytes

def withoutExtra (h : BootHeader) : BootHeader := { h with extraCommandLine := none }

def SameFields (a b : Bytes) : Prop :=
  ∀ offset len, offset + len ≤ 44 ∨ 48 ≤ offset ∧ offset + len ≤ size →
    slice a offset len = slice b offset len

/-- Headers with the same fields differ at most in what they have as the extra command line. -/
theorem parse_same {a b : Bytes} (fields : SameFields a b)
    (lengths : a.length = b.length ∨ size ≤ a.length ∧ size ≤ b.length) :
    (parse a).map withoutExtra = (parse b).map withoutExtra := by
  have signature : a.take 8 = b.take 8 := fields 0 8 (.inl (by decide))
  have word : ∀ offset, offset + 4 ≤ 44 ∨ 48 ≤ offset ∧ offset + 4 ≤ size →
      word32 a offset = word32 b offset := by
    intro offset inside
    rw [word32, word32, fields offset 4 inside]
  have words : ((List.range 8).map fun i => word32 a (576 + 4 * i)) =
      (List.range 8).map fun i => word32 b (576 + 4 * i) := by
    apply List.map_congr_left
    intro i member
    have below := List.mem_range.mp member
    apply word
    simp only [size]
    omega
  rw [parse, parse, signature]
  by_cases long : size ≤ a.length
  · have long' : size ≤ b.length := by omega
    have whole : ¬ (a.take size).length < size := by
      rw [List.length_take]
      omega
    have whole' : ¬ (b.take size).length < size := by
      rw [List.length_take]
      omega
    have room : ¬ (b.take 8).length < 8 := by
      rw [List.length_take]
      simp only [size] at long'
      omega
    rw [if_neg room, if_neg room, if_neg whole, if_neg whole']
    split
    · rfl
    · simp only [segmentAt, words, fields 48 16 (.inr (by decide)), fields 64 512 (.inr (by decide)),
        word 8 (.inl (by decide)), word 12 (.inl (by decide)), word 16 (.inl (by decide)),
        word 20 (.inl (by decide)), word 24 (.inl (by decide)), word 28 (.inl (by decide)),
        word 32 (.inl (by decide)), word 36 (.inl (by decide)), word 40 (.inl (by decide)),
        Nat.reduceAdd]
      split
      · rfl
      · rfl
  · have equal : a.length = b.length := by omega
    have cut : (a.take size).length < size := by
      rw [List.length_take]
      omega
    have cut' : (b.take size).length < size := by
      rw [List.length_take]
      omega
    rw [equal, if_pos cut, if_pos cut']

def extraOf (bytes : Bytes) : Option (Fixed UInt8 1024) :=
  if (slice bytes size 1024).length = 1024 then some (.ofList 1024 0 (slice bytes size 1024))
  else none

theorem parse_extra {bytes : Bytes} {h : BootHeader} (ok : parse bytes = .ok h) :
    h.extraCommandLine = extraOf bytes := by
  unfold parse at ok
  split at ok
  · cases ok
  split at ok
  · cases ok
  split at ok
  · cases ok
  split at ok
  · cases ok
  · cases ok
    rfl

theorem same_ok {r r' : Except BootImageError BootHeader} {h : BootHeader}
    (same : r.map withoutExtra = r'.map withoutExtra) (ok : r = .ok h) :
    ∃ h', r' = .ok h' ∧ withoutExtra h = withoutExtra h' := by
  rw [ok] at same
  cases r' with
  | error e => cases same
  | ok h' => exact ⟨h', rfl, Except.ok.inj same⟩

theorem parse_head (image : Bytes) :
    (parse (image.take sizeWithExtra)).map withoutExtra = (parse image).map withoutExtra := by
  apply parse_same
  · intro offset len inside
    apply slice_take
    simp only [size, sizeWithExtra] at inside ⊢
    omega
  · simp only [List.length_take, size, sizeWithExtra]
    omega

end BootHeader

namespace SameContents
open BootHeader
variable {image image' : Bytes}

theorem fields (same : SameContents image image') :
    SameFields (image.take sizeWithExtra) (image'.take sizeWithExtra) := by
  intro offset len inside
  have within : offset + len ≤ sizeWithExtra := by
    simp only [size, sizeWithExtra] at inside ⊢
    omega
  rw [Bytes.slice_take image within, Bytes.slice_take image' within]
  rcases inside with early | ⟨behind, early⟩
  · exact same.numbers.slice (Nat.zero_le offset) early
  · exact same.texts.slice behind early

theorem header (same : SameContents image image') :
    (parse (image.take sizeWithExtra)).map dropForeignExtra =
      (parse (image'.take sizeWithExtra)).map dropForeignExtra := by
  have lengths : (image.take sizeWithExtra).length = (image'.take sizeWithExtra).length := by
    rw [List.length_take, List.length_take, same.length]
  have alike := parse_same same.fields (.inl lengths)
  cases outcome : parse (image.take sizeWithExtra) with
  | error e =>
    rw [outcome] at alike
    cases outcome' : parse (image'.take sizeWithExtra) with
    | error e' =>
      rw [outcome'] at alike
      cases alike
      rfl
    | ok h' =>
      rw [outcome'] at alike
      cases alike
  | ok h =>
    obtain ⟨h', outcome', equal⟩ := same_ok alike outcome
    obtain ⟨whole, parsed, equal'⟩ := same_ok (parse_head image) outcome
    have page : h'.pageSize = h.pageSize := (congrArg BootHeader.pageSize equal).symm
    have samePage : whole.pageSize = h.pageSize := (congrArg BootHeader.pageSize equal').symm
    rw [outcome']
    apply congrArg Except.ok
    -- on a small page the place of the extra command line belongs to the kernel
    by_cases small : h.pageSize.bytes < sizeWithExtra
    · have small' : h'.pageSize.bytes < sizeWithExtra := by
        rw [page]
        exact small
      rw [dropForeignExtra, dropForeignExtra, if_pos small, if_pos small']
      exact equal
    · have large' : ¬ h'.pageSize.bytes < sizeWithExtra := by
        rw [page]
        exact small
      rw [dropForeignExtra, dropForeignExtra, if_neg small, if_neg large']
      have large : sizeWithExtra ≤ whole.pageSize.bytes := by
        rw [samePage]
        exact Nat.not_lt.mp small
      have agree : image.slice size 1024 = image'.slice size 1024 :=
        (same.extra parsed large).slice (Nat.le_refl _) (Nat.le_refl _)
      have within : size + 1024 ≤ sizeWithExtra := Nat.le_refl _
      have extras : h.extraCommandLine = h'.extraCommandLine := by
        rw [parse_extra outcome, parse_extra outcome', extraOf, extraOf,
          Bytes.slice_take image within, Bytes.slice_take image' within, agree]
      cases h
      cases h'
      simp only [withoutExtra, BootHeader.mk.injEq] at equal extras ⊢
      simp only [equal, extras, and_self]

theorem readsSame (same : SameContents image image') : ReadsSame image image' where
  length := same.length
  header := same.header
  segments := by
    intro h l outcome laid p member
    obtain ⟨whole, parsed, equal⟩ := same_ok (parse_head image) outcome
    have placed : ImageLayout.of (withoutExtra whole) = .ok l := by
      rw [← equal]
      exact laid
    exact (same.segments parsed placed p member).slice (Nat.le_refl _) (Nat.le_refl _)

end SameContents

/-- Bytes that belong to no field and to no segment show in no load. Whatever they are, loads that
    start with firmware and storage in the same state give the same result, and leave both in the
    same state again, all of the memory that was claimed included. -/
theorem unread_bytes_unseen {part : σ → τ} {source source' : Source σ} {image image' : Bytes}
    {f : Firmware σ} {storage : Storage σ} (same : SameContents image image')
    (carries : source.Carries image) (carries' : source'.Carries image')
    (apart : ∀ offset len, (source.readAt offset len).Keeps part)
    (apart' : ∀ offset len, (source'.readAt offset len).Keeps part)
    (acts : f.ActsOn part) (storageActs : storage.ActsOn part) (request : LoadRequest)
    (config : LoaderConfig) :
    (load source f storage request config).run.Alike part
      (load source' f storage request config).run := by
  have beside : Source.Beside part source source' image image' :=
    ⟨carries, carries', apart, apart', same.readsSame⟩
  exact beside.load_alike acts storageActs

/-- A kernel in one page, with something in the unused word, in the page of the header behind the
    fields, and behind the kernel. -/
def litteredImage : Bytes :=
  let littered := Bytes.overwrite (Bytes.overwrite bareImage 44 [1, 2, 3, 4]) 700 [5, 6, 7]
  littered ++ [8, 9]

theorem littered_contents : SameContents (bareImage ++ [0, 0]) litteredImage := by
  obtain ⟨header, parsed, good⟩ := exists_ok_that (r := BootHeader.parse (bareImage ++ [0, 0]))
    (fun h => h.pageSize.bytes == 1024 && (ImageLayout.of h).toOption.any fun l =>
      [l.kernel, l.ramdisk, l.second].all fun p =>
        Bytes.slice (bareImage ++ [0, 0]) p.offset p.size == litteredImage.slice p.offset p.size)
    (by decide +kernel)
  simp only [Bool.and_eq_true, beq_iff_eq] at good
  obtain ⟨page, segments⟩ := good
  constructor
  · decide +kernel
  · exact Bytes.agreeOn_of_slice (by decide +kernel)
  · exact Bytes.agreeOn_of_slice (by decide +kernel)
  · intro h again large
    cases parsed.symm.trans again
    rw [page] at large
    exact absurd large (by decide)
  · intro h l again laid p member
    cases parsed.symm.trans again
    rw [laid] at segments
    have equal := List.all_eq_true.mp segments p member
    apply Bytes.agreeOn_of_slice
    rw [Nat.add_sub_cancel_left]
    exact beq_iff_eq.mp equal

theorem unread_bytes_unseen_littered :
    let s : Session Board := ⟨bareBoard, .new 0⟩
    ∃ p t t', (load (.ofMemory (bareImage ++ [0, 0])) Board.firmware oneDevice.storage quietRequest
        smallTags).Gives s p t ∧
      (load (.ofMemory litteredImage) Board.firmware oneDevice.storage quietRequest smallTags).Gives
        s p t' ∧ t.world = t'.world := by
  intro s
  obtain ⟨p, t, run⟩ := Attempt.exists_gives (by decide +kernel :
    ((load (.ofMemory (bareImage ++ [0, 0])) Board.firmware oneDevice.storage quietRequest
      smallTags).run.run s).1.toOption.isSome = true)
  have alike := unread_bytes_unseen littered_contents
    (Source.ofMemory_carries (by decide +kernel)) (Source.ofMemory_carries (by decide +kernel))
    (Source.ofMemory_keeps _ (id : Board → Board)) (Source.ofMemory_keeps _ id)
    Board.firmware_acts oneDevice.storage_acts quietRequest smallTags
  obtain ⟨t', run', world⟩ := alike.ends rfl run
  exact ⟨p, t, t', run, run', world⟩

end KernelBoot
