import KernelBoot.Proofs.Tags.Lists

/-!
Which buffers are tag lists. A buffer is cut into records from the front until something is there
that is no record: the end mark, or a fault. A walk gives the meanings of these records, and after
them nothing or the fault, whatever sizes the records claim to have.
-/
namespace KernelBoot

/-- A record as it lies in a buffer, with its size in words. -/
structure TagRecord where
  size : UInt32
  tag : UInt32
  payload : Bytes
  present : tag ≠ Tag.noneCode
  least : 2 ≤ size.toNat
  whole : payload.length = size.toNat * 4 - 8

namespace TagRecord
open Bytes

def bytes (r : TagRecord) : Bytes := le32 r.size ++ (le32 r.tag ++ r.payload)

def meaning (r : TagRecord) : Tag := Tag.ofPayload r.tag r.payload

theorem bytes_length (r : TagRecord) : r.bytes.length = r.size.toNat * 4 := by
  have least := r.least
  simp only [bytes, List.length_append, le32_length, r.whole]
  omega

theorem reads (r : TagRecord) : Tag.Reads r.bytes r.meaning :=
  Tag.reads_record r.present r.least (le32_lt r.size) r.whole

end TagRecord

namespace Tag
open Bytes

def recordBytes (records : List TagRecord) : Bytes := records.flatMap TagRecord.bytes

def endMark : Bytes := le32 0 ++ le32 noneCode

/-- Records one after the other and the end mark; what lies behind it does not count. -/
def IsList (buf : Bytes) (records : List TagRecord) : Prop :=
  ∃ behind, buf = recordBytes records ++ (endMark ++ behind)

/-- What is wrong with bytes that start with a header, but neither with a record nor with the end
    mark. -/
inductive BadHeader (size tag : UInt32) (behind : Bytes) (offset : Nat) : TagError → Prop
  | mark : tag = noneCode → size ≠ 0 → BadHeader size tag behind offset (.badSize offset size)
  | small : tag ≠ noneCode → size.toNat < 2 →
      BadHeader size tag behind offset (.badSize offset size)
  | short : tag ≠ noneCode → 2 ≤ size.toNat → behind.length < size.toNat * 4 - 8 →
      BadHeader size tag behind offset (.unterminated offset)

/-- The bytes at `offset` start neither with a record nor with the end mark, and this is why. -/
inductive Fault (rest : Bytes) (offset : Nat) : TagError → Prop
  | cut : rest.length < 8 → Fault rest offset (.unterminated offset)
  | header {size tag : UInt32} {behind : Bytes} {error : TagError} :
      rest = le32 size ++ (le32 tag ++ behind) → BadHeader size tag behind offset error →
      Fault rest offset error

theorem le32_surj (bytes : Bytes) (four : bytes.length = 4) : ∃ w, bytes = le32 w := by
  refine ⟨word32 bytes 0, ?_⟩
  rw [le32_word32 (Nat.le_of_eq four.symm), slice, List.drop_zero, ← four, List.take_length]

theorem header_split {rest : Bytes} (enough : 8 ≤ rest.length) :
    ∃ size tag behind, rest = le32 size ++ (le32 tag ++ behind) := by
  obtain ⟨size, first⟩ := le32_surj (rest.take 4) (by rw [List.length_take]; omega)
  obtain ⟨tag, second⟩ := le32_surj ((rest.drop 4).take 4)
    (by rw [List.length_take, List.length_drop]; omega)
  refine ⟨size, tag, (rest.drop 4).drop 4, ?_⟩
  rw [← first, ← second, List.take_append_drop, List.take_append_drop]

/-- What a record says by its tag and the words of its payload. A line ends at its first NUL. A
    record too short for its tag is kept as it is, like one with any other tag. -/
inductive Says : UInt32 → Bytes → Tag → Prop
  | shortCore : Says 0x54410001 [] (.core none)
  | core (flags pageSize rootDevice : UInt32) (more : Bytes) :
      Says 0x54410001 (le32 flags ++ (le32 pageSize ++ (le32 rootDevice ++ more)))
        (.core (some ⟨flags, pageSize, rootDevice⟩))
  | memory (start size : UInt32) (more : Bytes) :
      Says 0x54410002 (le32 size ++ (le32 start ++ more)) (.memory start size)
  | initrd (start size : UInt32) (more : Bytes) :
      Says 0x54420005 (le32 start ++ (le32 size ++ more)) (.initrd start size)
  | commandLine {line more : Bytes} : (0 : UInt8) ∉ line → (∀ b ∈ more.head?, b = 0) →
      Says 0x54410009 (line ++ more) (.commandLine line)
  | unknown {tag : UInt32} {payload : Bytes} : tag ≠ 0x54410009 →
      (tag = 0x54410001 → payload ≠ [] ∧ payload.length < 12) →
      (tag = 0x54410002 ∨ tag = 0x54420005 → payload.length < 8) →
      Says tag payload (.unknown tag payload)

theorem word32_second (first second : UInt32) (more : Bytes) :
    word32 (le32 first ++ (le32 second ++ more)) 4 = second := by
  rw [word32_past _ _ (Nat.le_of_eq (le32_length first)), le32_length, word32_le32]

theorem word32_third (first second third : UInt32) (more : Bytes) :
    word32 (le32 first ++ (le32 second ++ (le32 third ++ more))) 8 = third := by
  rw [← List.append_assoc, word32_past _ _ (Nat.le_of_eq (pair_length first second)), pair_length,
    word32_le32]

theorem upToNul_cut {line more : Bytes} (plain : (0 : UInt8) ∉ line)
    (ends : ∀ b ∈ more.head?, b = 0) : upToNul (line ++ more) = line := by
  have kept : line.takeWhile (· != 0) = line := upToNul_plain plain
  have nothing : more.takeWhile (· != 0) = [] := by
    cases more with
    | nil => rfl
    | cons b rest => simp [ends b rfl]
  rw [upToNul, List.takeWhile_append, kept, if_pos rfl, nothing, List.append_nil]

theorem Says.ofPayload_eq {code : UInt32} {payload : Bytes} {tag : Tag}
    (meant : Says code payload tag) : ofPayload code payload = tag := by
  cases meant with
  | shortCore => rfl
  | core flags pageSize rootDevice more =>
    have long : 12 ≤ (le32 flags ++ (le32 pageSize ++ (le32 rootDevice ++ more))).length := by
      simp only [List.length_append, le32_length]
      omega
    rw [ofPayload, if_neg (by omega), if_pos ⟨rfl, long⟩, word32_le32, word32_second, word32_third]
  | memory start size more =>
    have long : 8 ≤ (le32 size ++ (le32 start ++ more)).length := by
      simp only [List.length_append, le32_length]
      omega
    rw [ofPayload, if_neg (by simp [coreCode]), if_neg (by simp [coreCode]), if_pos ⟨rfl, long⟩,
      word32_le32, word32_second]
  | initrd start size more =>
    have long : 8 ≤ (le32 start ++ (le32 size ++ more)).length := by
      simp only [List.length_append, le32_length]
      omega
    rw [ofPayload, if_neg (by simp [coreCode]), if_neg (by simp [coreCode]),
      if_neg (by simp [memoryCode]), if_pos ⟨rfl, long⟩, word32_le32, word32_second]
  | commandLine plain ends =>
    rw [ofPayload, if_neg (by simp [coreCode]), if_neg (by simp [coreCode]),
      if_neg (by simp [memoryCode]), if_neg (by simp [initrdCode]), commandLineCode, if_pos rfl,
      upToNul_cut plain ends]
  | unknown noLine core pair =>
    rw [ofPayload, commandLineCode, if_neg, if_neg, if_neg, if_neg, if_neg noLine]
    · rintro ⟨same, long⟩
      exact Nat.not_lt.mpr long (pair (.inr same))
    · rintro ⟨same, long⟩
      exact Nat.not_lt.mpr long (pair (.inl same))
    · rintro ⟨same, long⟩
      exact Nat.not_lt.mpr long (core same).2
    · rintro ⟨same, none⟩
      exact (core same).1 (List.length_eq_zero_iff.mp none)

theorem says_ofPayload (code : UInt32) (payload : Bytes) :
    Says code payload (ofPayload code payload) := by
  unfold ofPayload
  split
  · rename_i short
    rw [List.length_eq_zero_iff.mp short.2, short.1]
    exact .shortCore
  split
  · rename_i core
    obtain ⟨flags, pageSize, behind, rfl⟩ :=
      header_split (Nat.le_trans (by decide) core.2 : 8 ≤ payload.length)
    have enough : 4 ≤ behind.length := by
      have long := core.2
      simp only [List.length_append, le32_length] at long
      omega
    obtain ⟨rootDevice, same⟩ := le32_surj (behind.take 4) (List.length_take_of_le enough)
    rw [← List.take_append_drop 4 behind, same, core.1, word32_le32, word32_second, word32_third]
    exact .core flags pageSize rootDevice _
  split
  · rename_i memory
    obtain ⟨size, start, behind, rfl⟩ := header_split memory.2
    rw [memory.1, word32_le32, word32_second]
    exact .memory start size behind
  split
  · rename_i initrd
    obtain ⟨start, size, behind, rfl⟩ := header_split initrd.2
    rw [initrd.1, word32_le32, word32_second]
    exact .initrd start size behind
  split
  · rename_i line
    have split : upToNul payload ++ payload.dropWhile (· != 0) = payload :=
      List.takeWhile_append_dropWhile
    have ends : ∀ b ∈ (payload.dropWhile (· != 0)).head?, b = 0 := by
      intro b first
      have stopped := List.head?_dropWhile_not (· != 0) payload
      rw [first] at stopped
      simpa using stopped
    have meant := Says.commandLine (nul_notMem_upToNul payload) ends
    rw [split] at meant
    rw [line]
    exact meant
  · rename_i noShort noCore noMemory noInitrd noLine
    refine .unknown noLine ?_ ?_
    · intro core
      refine ⟨fun none => noShort ⟨core, congrArg List.length none⟩, ?_⟩
      exact Nat.not_le.mp fun long => noCore ⟨core, long⟩
    · rintro (memory | initrd)
      · exact Nat.not_le.mp fun long => noMemory ⟨memory, long⟩
      · exact Nat.not_le.mp fun long => noInitrd ⟨initrd, long⟩

theorem says_iff (code : UInt32) (payload : Bytes) (tag : Tag) :
    Says code payload tag ↔ ofPayload code payload = tag := by
  constructor
  · exact Says.ofPayload_eq
  · rintro rfl
    exact says_ofPayload code payload

/-- One step on a header and what is behind it. -/
theorem step_header (offset : Nat) (size tag : UInt32) (behind : Bytes) :
    step offset (le32 size ++ (le32 tag ++ behind)) =
      if tag = noneCode then if size = 0 then .done else .failed (.badSize offset size)
      else if size < 2 then .failed (.badSize offset size)
      else if (behind.take (size.toNat * 4 - 8)).length = size.toNat * 4 - 8 then
        .record (ofPayload tag (behind.take (size.toNat * 4 - 8))) (size.toNat * 4)
      else .failed (.unterminated offset) := by
  have first : word32? (le32 size ++ (le32 tag ++ behind)) 0 = some size := by
    rw [le32, word32?_front (le32_lt size), UInt32.ofNat_toNat]
  have second : word32? (le32 size ++ (le32 tag ++ behind)) 4 = some tag := by
    rw [le32.eq_def tag, word32?_behind (le32_lt tag) _ _ (le32_length size), UInt32.ofNat_toNat]
  have body : slice (le32 size ++ (le32 tag ++ behind)) 8 (size.toNat * 4 - 8) =
      behind.take (size.toNat * 4 - 8) := by
    rw [← List.append_assoc, slice_behind _ _ _ (pair_length size tag), slice, List.drop_zero]
  simp only [step, first, second, body]

theorem not_lt_two {words : UInt32} (least : 2 ≤ words.toNat) : ¬ words < 2 :=
  fun few => Nat.not_lt.mpr least (UInt32.lt_iff_toNat_lt.mp few)

theorem step_fault {offset : Nat} {rest : Bytes} {error : TagError}
    (fault : Fault rest offset error) : step offset rest = .failed error := by
  cases fault with
  | cut few =>
    have none : word32? rest 4 = none := by
      cases present : word32? rest 4 with
      | none => rfl
      | some w =>
        have bound := word32?_bound present
        omega
    rw [step, none]
    cases word32? rest 0 <;> rfl
  | @header size tag behind _ split bad =>
    rw [split, step_header]
    cases bad with
    | mark mark some => rw [if_pos mark, if_neg some]
    | small present few => rw [if_neg present, if_pos (UInt32.lt_iff_toNat_lt.mpr few)]
    | short present least cut =>
      have missing : (behind.take (size.toNat * 4 - 8)).length ≠ size.toNat * 4 - 8 := by
        rw [List.length_take]
        omega
      rw [if_neg present, if_neg (not_lt_two least), if_neg missing]

theorem record_endMark_fault (offset : Nat) (rest : Bytes) :
    (∃ (r : TagRecord) (behind : Bytes), rest = r.bytes ++ behind) ∨
    (∃ behind, rest = endMark ++ behind) ∨ ∃ error, Fault rest offset error := by
  by_cases enough : 8 ≤ rest.length
  · obtain ⟨size, tag, behind, split⟩ := header_split enough
    by_cases mark : tag = noneCode
    · by_cases last : size = 0
      · refine .inr (.inl ⟨behind, ?_⟩)
        rw [split, mark, last, endMark, List.append_assoc]
      · exact .inr (.inr ⟨_, .header split (.mark mark last)⟩)
    · by_cases least : 2 ≤ size.toNat
      · by_cases inside : size.toNat * 4 - 8 ≤ behind.length
        · refine .inl ⟨⟨size, tag, behind.take (size.toNat * 4 - 8), mark, least,
            List.length_take_of_le inside⟩, behind.drop (size.toNat * 4 - 8), ?_⟩
          simp only [split, TagRecord.bytes, List.append_assoc, List.take_append_drop]
        · exact .inr (.inr ⟨_, .header split (.short mark least (Nat.not_le.mp inside))⟩)
      · exact .inr (.inr ⟨_, .header split (.small mark (Nat.not_le.mp least))⟩)
  · exact .inr (.inr ⟨_, .cut (Nat.not_le.mp enough)⟩)

theorem walkFrom_fault {offset : Nat} {rest : Bytes} {error : TagError}
    (fault : Fault rest offset error) : walkFrom offset rest = [.error error] := by
  have failed := step_fault fault
  rw [walkFrom]
  split
  · rename_i ended
    rw [failed] at ended
    cases ended
  · rename_i other given
    rw [failed] at given
    cases given
    rfl
  · rename_i tag length found
    rw [failed] at found
    cases found

theorem allRead_records (records : List TagRecord) :
    AllRead (recordBytes records) (records.map TagRecord.meaning) := by
  induction records with
  | nil => exact fun offset rest => rfl
  | cons r rest ih => exact r.reads.all.append ih

theorem walk_records (records : List TagRecord) (rest : Bytes) :
    walk (recordBytes records ++ rest) =
      (records.map fun r => .ok r.meaning) ++ walkFrom (recordBytes records).length rest := by
  rw [walk, allRead_records records 0 rest, Nat.zero_add, List.map_map]
  rfl

theorem walk_list {buf : Bytes} {records : List TagRecord} (list : IsList buf records) :
    walk buf = records.map fun r => .ok r.meaning := by
  obtain ⟨behind, rfl⟩ := list
  have ended : walkFrom (recordBytes records).length (endMark ++ behind) = [] := by
    rw [endMark, List.append_assoc]
    exact walkFrom_endMark _ behind
  rw [walk_records, ended, List.append_nil]

def FailsBehind (buf : Bytes) (records : List TagRecord) (error : TagError) : Prop :=
  ∃ rest, buf = recordBytes records ++ rest ∧ Fault rest (recordBytes records).length error

theorem walk_fault {buf : Bytes} {records : List TagRecord} {error : TagError}
    (fails : FailsBehind buf records error) :
    walk buf = (records.map fun r => .ok r.meaning) ++ [.error error] := by
  obtain ⟨rest, rfl, fault⟩ := fails
  rw [walk_records, walkFrom_fault fault]

theorem recordBytes_append (records more : List TagRecord) :
    recordBytes (records ++ more) = recordBytes records ++ recordBytes more :=
  List.flatMap_append

theorem recordBytes_cons (r : TagRecord) (records : List TagRecord) :
    recordBytes (r :: records) = r.bytes ++ recordBytes records := List.flatMap_cons

/-- Every record is at least a header long, so cutting them off comes to an end. -/
theorem list_or_fault (buf : Bytes) :
    (∃ records, IsList buf records) ∨ ∃ records error, FailsBehind buf records error := by
  have cut : ∀ (size : Nat) (records : List TagRecord) (rest : Bytes), rest.length ≤ size →
      buf = recordBytes records ++ rest →
      (∃ records, IsList buf records) ∨ ∃ records error, FailsBehind buf records error := by
    intro size
    induction size using Nat.strongRecOn with
    | ind size ih =>
      intro records rest bound split
      rcases record_endMark_fault (recordBytes records).length rest with
        ⟨r, behind, rfl⟩ | ⟨behind, rfl⟩ | ⟨error, fault⟩
      · have least := r.least
        rw [List.length_append, r.bytes_length] at bound
        refine ih (size - 1) (by omega) (records ++ [r]) behind (by omega) ?_
        rw [recordBytes_append, recordBytes_cons, List.append_assoc, List.append_assoc, split]
        rfl
      · exact .inl ⟨records, behind, split⟩
      · exact .inr ⟨records, error, rest, split, fault⟩
  exact cut buf.length [] buf (Nat.le_refl _) rfl

theorem records_length (records : List TagRecord) :
    8 * records.length ≤ (recordBytes records).length := by
  induction records with
  | nil => exact Nat.le_refl 0
  | cons r rest ih =>
    have least := r.least
    rw [recordBytes_cons, List.length_append, r.bytes_length, List.length_cons]
    omega

theorem walk_length (buf : Bytes) : (walk buf).length ≤ buf.length / 8 + 1 := by
  rcases list_or_fault buf with ⟨records, list⟩ | ⟨records, error, fails⟩
  · rw [walk_list list, List.length_map]
    obtain ⟨behind, rfl⟩ := list
    have most := records_length records
    rw [List.length_append]
    omega
  · rw [walk_fault fails, List.length_append, List.length_map, List.length_singleton]
    obtain ⟨rest, rfl, _⟩ := fails
    have most := records_length records
    rw [List.length_append]
    omega

/-- Items that are records come first, so behind anything else there is nothing. -/
theorem walk_ends {buf : Bytes} {first later : Nat} (order : first < later)
    (stopped : ∀ tag, (walk buf)[first]? ≠ some (.ok tag)) : (walk buf)[later]? = none := by
  have early : ∀ (records : List TagRecord) (others : List (Except TagError Tag)),
      walk buf = (records.map fun r => .ok r.meaning) ++ others → records.length ≤ first := by
    intro records others walked
    apply Nat.not_lt.mp
    intro inside
    have found : (walk buf)[first]? = some (.ok records[first].meaning) := by
      rw [walked, List.getElem?_append_left (by rw [List.length_map]; exact inside),
        List.getElem?_map, List.getElem?_eq_getElem inside]
      rfl
    exact stopped _ found
  apply List.getElem?_eq_none
  rcases list_or_fault buf with ⟨records, list⟩ | ⟨records, error, fails⟩
  · have walked := walk_list list
    have least := early records [] (by rw [walked, List.append_nil])
    rw [walked, List.length_map]
    omega
  · have walked := walk_fault fails
    have least := early records [.error error] walked
    rw [walked, List.length_append, List.length_map, List.length_singleton]
    omega

/-- A walk meets no fault in just the buffers that are lists. -/
theorem walk_fine_iff (buf : Bytes) :
    (∀ item ∈ walk buf, ∃ tag, item = .ok tag) ↔ ∃ records, IsList buf records := by
  constructor
  · intro fine
    rcases list_or_fault buf with list | ⟨records, error, fails⟩
    · exact list
    · have last : Except.error error ∈ walk buf := by
        rw [walk_fault fails]
        exact List.mem_append_right _ (List.mem_singleton_self _)
      obtain ⟨tag, same⟩ := fine _ last
      cases same
  · rintro ⟨records, list⟩ item member
    rw [walk_list list] at member
    obtain ⟨r, _, rfl⟩ := List.mem_map.mp member
    exact ⟨r.meaning, rfl⟩

/-- The bytes that an item points to instead of copying them. -/
def view : Tag → Option Bytes
  | .commandLine line => some line
  | .unknown _ payload => some payload
  | _ => none

theorem ofPayload_view {tag : UInt32} {payload bytes : Bytes}
    (points : (ofPayload tag payload).view = some bytes) : bytes <+: payload := by
  unfold ofPayload at points
  split at points
  · cases points
  split at points
  · cases points
  split at points
  · cases points
  split at points
  · cases points
  split at points
  · cases points
    exact List.takeWhile_prefix _
  · cases points
    exact List.prefix_rfl

theorem record_payload (front behind : Bytes) (r : TagRecord) :
    slice (front ++ (r.bytes ++ behind)) (front.length + 8) r.payload.length = r.payload := by
  have header : (front ++ (le32 r.size ++ le32 r.tag)).length = front.length + 8 := by
    rw [List.length_append, pair_length]
  have split : front ++ (r.bytes ++ behind) =
      front ++ (le32 r.size ++ le32 r.tag) ++ (r.payload ++ behind) := by
    simp only [TagRecord.bytes, List.append_assoc]
  rw [split, slice_behind _ _ _ header, slice_front _ _ rfl]

/-- What an item points to lies in the payload of its own record. -/
theorem view_inside {buf rest bytes : Bytes} {before after : List TagRecord} {r : TagRecord}
    (split : buf = recordBytes (before ++ r :: after) ++ rest)
    (points : r.meaning.view = some bytes) :
    bytes.length ≤ r.payload.length ∧
      buf.slice ((recordBytes before).length + 8) bytes.length = bytes := by
  have bound := (ofPayload_view points).length_le
  obtain ⟨more, payload⟩ := ofPayload_view points
  have whole := record_payload (recordBytes before) (recordBytes after ++ rest) r
  have same : buf = recordBytes before ++ (r.bytes ++ (recordBytes after ++ rest)) := by
    rw [split, recordBytes_append, recordBytes_cons]
    simp only [List.append_assoc]
  rw [← same] at whole
  refine ⟨bound, ?_⟩
  have cut := congrArg (List.take bytes.length) whole
  rw [slice, List.take_take, Nat.min_eq_left bound, ← payload, List.take_left] at cut
  exact cut

end Tag

namespace TagWalker
open Tag

def items (w : TagWalker) : List (Except TagError Tag) :=
  if w.ended then [] else walkFrom w.offset w.rest

theorem next_items (w : TagWalker) : w.next.1 = w.items.head? ∧ w.next.2.items = w.items.tail := by
  cases w with
  | mk offset rest ended =>
    cases ended with
    | true => exact ⟨rfl, rfl⟩
    | false =>
      simp only [next, items, Bool.false_eq_true, ↓reduceIte]
      rw [walkFrom]
      split
      · rename_i done
        rw [done]
        exact ⟨rfl, rfl⟩
      · rename_i error failed
        rw [failed]
        exact ⟨rfl, rfl⟩
      · rename_i tag length found
        rw [found]
        exact ⟨rfl, rfl⟩

theorem answer_eq (calls : Nat) (w : TagWalker) : w.answer calls = w.items[calls]? := by
  induction calls generalizing w with
  | zero =>
    rw [answer, after, (next_items w).1, List.head?_eq_getElem?]
  | succ calls ih =>
    have later : w.answer (calls + 1) = w.next.2.answer calls := rfl
    rw [later, ih, (next_items w).2, List.getElem?_tail]

end TagWalker

namespace Tag
open Bytes

/-- A walker ends on every buffer, and then gives nothing any more. It meets no fault in just the
    buffers that are lists, and gives the meanings of their records; every other buffer has records
    in front of its first fault, and there the walk ends with the error of the fault. Where an item
    points to bytes, they are part of its record's payload. What a record means is what its tag and
    the words of its payload say. -/
theorem list_grammar (buf : Bytes) :
    (walk buf).length ≤ buf.length / 8 + 1 ∧
    (∀ calls, (TagWalker.start buf).answer calls = (walk buf)[calls]?) ∧
    (∀ first later, first < later →
      (∀ tag, (TagWalker.start buf).answer first ≠ some (.ok tag)) →
      (TagWalker.start buf).answer later = none) ∧
    ((∀ item ∈ walk buf, ∃ tag, item = .ok tag) ↔ ∃ records, IsList buf records) ∧
    (∀ records, IsList buf records → walk buf = records.map fun r => .ok r.meaning) ∧
    ((∃ records, IsList buf records) ∨ ∃ records error, FailsBehind buf records error) ∧
    (∀ records error, FailsBehind buf records error →
      walk buf = (records.map fun r => .ok r.meaning) ++ [.error error]) ∧
    (∀ before r after rest bytes, buf = recordBytes (before ++ r :: after) ++ rest →
      r.meaning.view = some bytes → bytes.length ≤ r.payload.length ∧
        buf.slice ((recordBytes before).length + 8) bytes.length = bytes) ∧
    ∀ (r : TagRecord) tag, Says r.tag r.payload tag ↔ r.meaning = tag := by
  have answers : ∀ calls, (TagWalker.start buf).answer calls = (walk buf)[calls]? :=
    fun calls => TagWalker.answer_eq calls (TagWalker.start buf)
  refine ⟨walk_length buf, answers, ?_, walk_fine_iff buf, fun records => walk_list,
    list_or_fault buf, fun records error => walk_fault, ?_, fun r => says_iff r.tag r.payload⟩
  · intro first later order stopped
    simp only [answers] at stopped ⊢
    exact walk_ends order stopped
  · intro before r after rest bytes split points
    exact view_inside split points

def lineRecord : TagRecord :=
  ⟨3, commandLineCode, [0x78, 0x79, 0, 0x7A], by decide, by decide, rfl⟩

def foreignRecord : TagRecord := ⟨4, 7, [1, 2, 3, 4, 5, 6, 7, 8], by decide, by decide, rfl⟩

/-- Behind the end mark nothing counts; a list that is cut in its second record has its fault there. -/
theorem list_grammar_cut :
    let buf := recordBytes [lineRecord, foreignRecord] ++ (endMark ++ [9])
    walk buf = [.ok (.commandLine [0x78, 0x79]), .ok (.unknown 7 [1, 2, 3, 4, 5, 6, 7, 8])] ∧
      (TagWalker.start buf).answer 3 = none ∧ buf.slice 8 2 = [0x78, 0x79] ∧
      walk (buf.take 24) = [.ok (.commandLine [0x78, 0x79]), .error (.unterminated 12)] := by
  intro buf
  obtain ⟨_, _, ends, _, listed, _, _, inside, meant⟩ := list_grammar buf
  have walked := listed [lineRecord, foreignRecord] ⟨[9], rfl⟩
  have line : lineRecord.meaning = .commandLine [0x78, 0x79] :=
    (meant lineRecord _).mp (@Says.commandLine [0x78, 0x79] [0, 0x7A] (by decide) (by simp))
  have foreign : foreignRecord.meaning = .unknown 7 [1, 2, 3, 4, 5, 6, 7, 8] :=
    (meant foreignRecord _).mp (.unknown (by decide) (by decide) (by decide))
  have text := (inside [] lineRecord [foreignRecord] (endMark ++ [9]) [0x78, 0x79] rfl
    (by decide +kernel)).2
  have short : BadHeader 4 7 [1, 2, 3, 4] 12 (.unterminated 12) :=
    .short (by decide) (by decide) (by decide)
  have cut : FailsBehind (buf.take 24) [lineRecord] (.unterminated 12) :=
    ⟨le32 4 ++ (le32 7 ++ [1, 2, 3, 4]), by decide +kernel, .header rfl short⟩
  have failed := (list_grammar (buf.take 24)).2.2.2.2.2.2.1 _ _ cut
  simp only [List.map_cons, List.map_nil, line, foreign] at walked failed
  have second : (TagWalker.start buf).answer 2 = none := by
    rw [(list_grammar buf).2.1, walked]
    rfl
  exact ⟨walked, ends 2 3 (by decide) (by simp [second]), text, failed⟩

end Tag
end KernelBoot
