import KernelBoot.Proofs.Archive.ShortWrites
import KernelBoot.Proofs.Archive.Truncating
import KernelBoot.Proofs.Ramdisk.Rewrite
import KernelBoot.Proofs.Ramdisk.Written

/-!
The length of a patched ramdisk is known before it is written. An append looks for the trailer a
second time, in the copy that it has made where it writes; that copy may end before the original
does, but not before its trailer, which therefore is found where it was. From there on an append
writes records just as a rewrite does from the start.
-/
namespace KernelBoot
open Archive RecordHeader

namespace PatchedRamdisk

/-- The offset of an append is that of the trailer of its original. -/
def Planned : PatchedRamdisk → Prop
  | .rewrite _ => True
  | .append original trailer _ => Records.trailerOffset original = .ok trailer

theorem additions_length (additions : List Addition) :
    sumOf (fun a : Addition => predictedSize (Bytes.ofString a.name).length a.data.length) additions =
      (records (additions.map Addition.toEntry)).length := by
  rw [records_length]
  induction additions with
  | nil => rfl
  | cons a rest ih =>
    rw [List.map_cons, sumOf_cons, sumOf_cons, ih]
    rfl

theorem kept_trailer {original dest : Bytes} {trailer : Nat} {additions : List Addition}
    (planned : Records.trailerOffset original = .ok trailer)
    (enough : (PatchedRamdisk.append original trailer additions).length ≤ dest.length) :
    Records.trailerOffset (original.take (kept original dest)) = .ok trailer := by
  by_cases whole : original.length ≤ dest.length
  · rwa [kept, Nat.min_eq_left whole, List.take_length]
  · refine Records.trailerOffset_take planned ?_
    have last : size + (trailerName.length + 1) ≤ predictedSize trailerName.length 0 := by decide
    rw [kept, Nat.min_eq_right (by omega)]
    simp only [length] at enough
    omega

/-- The length that an append promises is that of the bytes it appends to. -/
theorem length_appended {original : Bytes} {trailer : Nat} {additions : List Addition}
    (planned : Records.trailerOffset original = .ok trailer) :
    (PatchedRamdisk.append original trailer additions).length =
      (appended original trailer additions).length := by
  have below := (Records.trailerOffset_ok planned).2
  rw [appended, List.length_append, List.length_take, Nat.min_eq_left (Nat.le_of_lt below),
    List.length_append, ← additions_length, trailerBytes_length, trailer_fits.recordSize,
    List.length_nil, ← Nat.add_assoc]
  rfl

/-- What a write puts out: the members of the table, or the additions alone. -/
def members : PatchedRamdisk → List Entry
  | .rewrite archive => archive.live
  | .append _ _ additions => additions.map Addition.toEntry

/-- A write is one run of records and a trailer, which gets to the promised length if it gets to its
    end; but an append that has no room for that length writes nothing. -/
theorem write_run {p : PatchedRamdisk} (planned : p.Planned) (dest : Bytes) :
    dest.length < p.length ∧
        p.write dest = (.error (.bufferTooSmall p.length dest.length), dest) ∨
      ∃ w : Writer, 4 ∣ w.position ∧ w.position ≤ w.buf.length ∧ w.buf.length = dest.length ∧
        writtenEnd w.position p.members = p.length ∧
        p.write dest =
          (((writeRecords w p.members).1.map fun _ =>
              (writeRecords w p.members).2.position).mapError PatchError.ofEncoding,
            (writeRecords w p.members).2.buf) := by
  cases p with
  | rewrite archive =>
    exact .inr ⟨⟨dest, 0⟩, Nat.dvd_zero 4, Nat.zero_le _, rfl, writtenEnd_live archive, rfl⟩
  | append original trailer additions =>
    by_cases short : dest.length < (PatchedRamdisk.append original trailer additions).length
    · exact .inl ⟨short, by rw [write, if_pos short]⟩
    -- the second look, in the copy, comes to the same trailer
    have there := kept_trailer planned (Nat.not_lt.mp short)
    obtain ⟨aligned, below⟩ := Records.trailerOffset_ok there
    rw [kept_length] at below
    have inside : kept original dest ≤ (copied original dest).length := by
      rw [copied_length]
      exact Nat.min_le_right _ _
    refine .inr ⟨⟨copied original dest, trailer⟩, aligned,
      Nat.le_trans (Nat.le_of_lt below) inside, copied_length original dest, ?_, ?_⟩
    · rw [writtenEnd, length, additions_length, records_length, trailer_fits.recordSize]
      rfl
    · have started : Appender.atTrailer (copied original dest) (kept original dest) =
          .ok ⟨copied original dest, trailer⟩ :=
        (Appender.atTrailer_eq_ok_iff inside).mpr
          ⟨trailer, by rw [copied_take (Nat.le_refl _)]; exact there, rfl⟩
      have run := appendAll_run additions ⟨copied original dest, trailer⟩
      have keep : min original.length dest.length = kept original dest := rfl
      have copy : dest.overwrite 0 (original.take (kept original dest)) = copied original dest :=
        rfl
      rw [write, if_neg short]
      simp only [keep, copy, started, members, run]
      rcases appendAll ⟨copied original dest, trailer⟩ additions with ⟨result, last⟩
      cases result with
      | error e => rfl
      | ok _ =>
        simp only
        cases last.finish with
        | error e => rfl
        | ok final => rfl

theorem write_enough {p : PatchedRamdisk} (planned : p.Planned)
    (writable : ∀ e ∈ p.members, e.Writable) {dest : Bytes} (enough : p.length ≤ dest.length) :
    (p.write dest).1 = .ok p.length := by
  rcases write_run planned dest with ⟨short, _⟩ | ⟨w, aligned, inside, size, stop, run⟩
  · omega
  · have done := (writeRecords_eq_ok_iff p.members w _ aligned inside).mpr
      ⟨writable, by rw [stop, size]; exact enough, rfl⟩
    rw [run, done, ← stop]
    rfl

theorem write_short {p : PatchedRamdisk} (planned : p.Planned)
    (writable : ∀ e ∈ p.members, e.Writable) {dest : Bytes} (short : dest.length < p.length) :
    ∃ needed, (p.write dest).1 = .error (.bufferTooSmall needed dest.length) := by
  rcases write_run planned dest with ⟨_, refused⟩ | ⟨w, aligned, inside, size, stop, run⟩
  · exact ⟨p.length, congrArg Prod.fst refused⟩
  · obtain ⟨needed, failed⟩ := writeRecords_short aligned inside writable
      (by rw [stop, size]; exact short)
    rw [run, failed, size]
    exact ⟨needed, rfl⟩

theorem ofEncoding_emptyName {error : ArchiveError}
    (same : PatchError.ofEncoding error = .archive .emptyName) : error = .emptyName := by
  cases error with
  | bufferTooSmall needed available => cases same
  | _ => exact PatchError.archive.inj same

theorem write_unnamed {p : PatchedRamdisk} (planned : p.Planned) {dest : Bytes}
    (failed : (p.write dest).1 = .error (.archive .emptyName)) :
    ∃ e ∈ p.members, e.name = [] := by
  rcases write_run planned dest with ⟨_, refused⟩ | ⟨w, aligned, inside, _, _, run⟩
  · rw [refused] at failed
    cases failed
  · apply writeRecords_unnamed aligned inside
    rw [run] at failed
    cases result : (writeRecords w p.members).1 with
    | ok _ =>
      rw [result] at failed
      cases failed
    | error error =>
      rw [result] at failed
      rw [ofEncoding_emptyName (Except.error.inj failed)]

theorem write_refuses {p : PatchedRamdisk} (planned : p.Planned) {dest : Bytes}
    (enough : p.length ≤ dest.length)
    (sized : ∀ e ∈ p.members, e.nameSize < wordLimit ∧ e.data.length < wordLimit)
    {e : Entry} (member : e ∈ p.members) (none : e.name = []) :
    (p.write dest).1 = .error (.archive .emptyName) := by
  rcases write_run planned dest with ⟨short, _⟩ | ⟨w, aligned, inside, size, stop, run⟩
  · omega
  · have refused := writeRecords_refuses aligned inside (by rw [stop, size]; exact enough) sized
      member none
    rw [run, refused]
    rfl

theorem written_length_eq {p : PatchedRamdisk} (planned : p.Planned) {dest : Bytes} {length : Nat}
    (ok : (p.write dest).1 = .ok length) : length = p.length := by
  rcases write_run planned dest with ⟨_, refused⟩ | ⟨w, aligned, inside, _, stop, run⟩
  · rw [refused] at ok
    cases ok
  · cases written : writeRecords w p.members with
    | mk result final =>
      rw [run, written] at ok
      cases result with
      | error error => cases ok
      | ok _ =>
        obtain ⟨_, _, rfl⟩ := (writeRecords_eq_ok_iff _ _ _ aligned inside).mp written
        cases ok
        exact stop

end PatchedRamdisk

def nestedAddition (injection : Injection) (config : LoaderConfig) : List Addition :=
  match injection.nested with
  | none => []
  | some data => [⟨config.nestedName, .file, data⟩]

theorem patch_append_ok {original : Bytes} {injection : Injection} {config : LoaderConfig}
    {patched : PatchedRamdisk} (append : config.strategy = .append)
    (ok : (patch original injection config).1 = .ok patched) :
    ∃ trailer, Records.trailerOffset original = .ok trailer ∧
      patched = .append original trailer
        (Addition.ofInjection injection config ++ nestedAddition injection config) := by
  unfold patch at ok
  cases found : Records.trailerOffset original with
  | error error =>
    have refused : appendRamdisk original injection config = .error (.invalidFormat error) := by
      rw [appendRamdisk, found]
    simp only [append, refused] at ok
    cases ok
  | ok trailer =>
    have made : appendRamdisk original injection config = .ok (.append original trailer
        (Addition.ofInjection injection config ++ nestedAddition injection config)) := by
      rw [appendRamdisk, found]
      rfl
    simp only [append, made] at ok
    split at ok
    · cases ok
    · cases ok
      exact ⟨trailer, rfl, rfl⟩

theorem patch_planned {original : Bytes} {injection : Injection} {config : LoaderConfig}
    {patched : PatchedRamdisk} (ok : (patch original injection config).1 = .ok patched) :
    patched.Planned := by
  cases strategy : config.strategy with
  | rewrite =>
    obtain ⟨_, _, _, _, rfl, _⟩ := patch_rewrite_ok strategy ok
    trivial
  | append =>
    obtain ⟨trailer, found, rfl⟩ := patch_append_ok strategy ok
    exact found

theorem patch_length_le {original : Bytes} {injection : Injection} {config : LoaderConfig}
    {patched : PatchedRamdisk} (ok : (patch original injection config).1 = .ok patched) :
    patched.length ≤ config.maxRamdiskSize := by
  unfold patch at ok
  simp only at ok
  split at ok
  · cases ok
  · split at ok
    · cases ok
    · rename_i within
      cases ok
      exact Nat.not_lt.mp within

/-- The promised length is within the configured size, and where all names and sizes can be written
    it is what a write takes: it comes to that length in every buffer that has as many bytes,
    whatever these are and however long the original is, and asks for room in all others. -/
theorem patched_length_exact {original : Bytes} {injection : Injection} {config : LoaderConfig}
    {p : PatchedRamdisk} (ok : (patch original injection config).1 = .ok p)
    (writable : ∀ e ∈ p.members, e.Writable) :
    p.length ≤ config.maxRamdiskSize ∧
      ∀ dest : Bytes,
        (p.length ≤ dest.length → (p.write dest).1 = .ok p.length) ∧
        (dest.length < p.length →
          ∃ needed, (p.write dest).1 = .error (.bufferTooSmall needed dest.length)) := by
  constructor
  · exact patch_length_le ok
  · intro dest
    constructor
    · exact PatchedRamdisk.write_enough (patch_planned ok) writable
    · exact PatchedRamdisk.write_short (patch_planned ok) writable

/-- One file, and behind the trailer the zeros that fill the last block. -/
def padded : Bytes := records [.file [0x61] [1, 2, 3]] ++ (trailerBytes ++ Bytes.zeros 512)

theorem padded_offset : Records.trailerOffset padded = .ok 116 := by
  have writable : ∀ e ∈ [Entry.file [0x61] [1, 2, 3]], e.Writable := by
    intro e member
    cases List.mem_singleton.mp member
    exact ⟨by decide, by decide, by decide⟩
  exact (Records.written_walk writable (by decide) (Bytes.zeros 512)).2

def newInit : Injection := ⟨[], some [2], none⟩

theorem patched_length_padded :
    ∃ p, (patch padded newInit { LoaderConfig.default with strategy := .append }).1 = .ok p ∧
      (∀ e ∈ p.members, e.Writable) ∧ p.length = 372 ∧ padded.length = 752 ∧
      (p.write (List.replicate 372 0xEE)).1 = .ok 372 ∧
      ∃ needed, (p.write (List.replicate 371 0xEE)).1 = .error (.bufferTooSmall needed 371) := by
  have ok : (patch padded newInit { LoaderConfig.default with strategy := .append }).1 =
      .ok (.append padded 116 (Addition.ofInjection newInit .default)) := by
    simp only [patch, appendRamdisk, padded_offset]
    rfl
  have writable : ∀ e ∈ (PatchedRamdisk.append padded 116
      (Addition.ofInjection newInit .default)).members, e.Writable := by
    intro e member
    cases List.mem_singleton.mp member
    exact ⟨by decide, by decide, by decide⟩
  have length : (PatchedRamdisk.append padded 116
      (Addition.ofInjection newInit .default)).length = 372 := by decide
  obtain ⟨_, law⟩ := patched_length_exact ok writable
  rw [length] at law
  have enough := (law (List.replicate 372 0xEE)).1
  have short := (law (List.replicate 371 0xEE)).2
  rw [List.length_replicate] at enough short
  exact ⟨_, ok, writable, length, by decide +kernel, enough (Nat.le_refl _), short (by decide)⟩

end KernelBoot
