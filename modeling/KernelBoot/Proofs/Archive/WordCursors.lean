import KernelBoot.Proofs.BootImage.WordLayout
import KernelBoot.Proofs.Archive.Writing

/-!
Cursors with 64-bit positions, over a buffer that is looked at and changed in place. A sum may wrap
around, a position may lie beyond the end of the buffer, and a writer has already moved on when its
window is cut out. The answers are those of `Reader` and `Writer`, call by call.
-/
namespace KernelBoot

/-- Bytes in memory: their number is a word. -/
structure HeldBytes where
  bytes : Bytes
  held : bytes.length < addressSpace

structure Edit where
  apply : Bytes → Bytes
  length_eq : ∀ window, (apply window).length = window.length

namespace Edit

def fill (byte : UInt8) : Edit := ⟨fun window => List.replicate window.length byte, by simp⟩

/-- Copies bytes into a window of just their length; no other window takes them. -/
def copy (bytes : Bytes) : Edit where
  apply window := if window.length = bytes.length then bytes else window
  length_eq window := by
    by_cases same : window.length = bytes.length
    · rw [if_pos same, same]
    · rw [if_neg same]

theorem slice_length (edit : Edit) {buf : Bytes} {position len : Nat}
    (fits : position + len ≤ buf.length) :
    (edit.apply (Bytes.slice buf position len)).length = len := by
  rw [edit.length_eq, Bytes.slice_length fits]

end Edit

namespace HeldBytes

def size (h : HeldBytes) : UInt64 := UInt64.ofNatLT h.bytes.length h.held

theorem size_toNat (h : HeldBytes) : h.size.toNat = h.bytes.length := UInt64.toNat_ofNatLT

def Covers (h : HeldBytes) (start stop : UInt64) : Prop := start ≤ stop ∧ stop ≤ h.size

instance (h : HeldBytes) (start stop : UInt64) : Decidable (h.Covers start stop) :=
  inferInstanceAs (Decidable (_ ∧ _))

theorem covers_iff (h : HeldBytes) (start stop : UInt64) :
    h.Covers start stop ↔ start.toNat ≤ stop.toNat ∧ stop.toNat ≤ h.bytes.length := by
  rw [Covers, UInt64.le_iff_toNat_le, UInt64.le_iff_toNat_le, size_toNat]

def window (h : HeldBytes) (start stop : UInt64) : Bytes :=
  Bytes.slice h.bytes start.toNat (stop.toNat - start.toNat)

theorem window_length {h : HeldBytes} {start stop : UInt64} (inside : h.Covers start stop) :
    (h.window start stop).length = stop.toNat - start.toNat := by
  have bounds := (h.covers_iff start stop).mp inside
  exact Bytes.slice_length (by omega)

theorem change_fits {h : HeldBytes} {start stop : UInt64} (inside : h.Covers start stop)
    (edit : Edit) :
    start.toNat + (edit.apply (h.window start stop)).length ≤ h.bytes.length := by
  have bounds := (h.covers_iff start stop).mp inside
  rw [edit.length_eq, window_length inside]
  omega

def change (h : HeldBytes) {start stop : UInt64} (inside : h.Covers start stop) (edit : Edit) :
    HeldBytes where
  bytes := Bytes.overwrite h.bytes start.toNat (edit.apply (h.window start stop))
  held := by
    rw [Bytes.overwrite_length _ _ _ (change_fits inside edit)]
    exact h.held

end HeldBytes

theorem addWord?_eq_some_iff {a b sum : UInt64} :
    addWord? a b = some sum ↔ sum.toNat = a.toNat + b.toNat := by
  have checked := addWord?_toNat a b
  rw [checkedAdd] at checked
  constructor
  · intro added
    rw [added, Option.map_some] at checked
    split at checked
    · exact Option.some.inj checked
    · cases checked
  · intro exact
    rw [if_pos (exact ▸ sum.toNat_lt), ← exact] at checked
    obtain ⟨found, added, same⟩ := Option.map_eq_some_iff.mp checked
    rw [added, UInt64.toNat_inj.mp same]

/-! Reading. -/

namespace Reader

theorem peek_seek (buf : Bytes) (position len : Nat) :
    (seek buf position).peek len =
      if position + len ≤ buf.length then .ok (Bytes.slice buf position len)
      else .error (.prematureEnd position len) := by
  have there : (decide (position ≤ buf.length) = true ∧
      ((buf.drop position).take len).length = len) ↔ position + len ≤ buf.length := by
    rw [decide_eq_true_eq, List.length_take, List.length_drop]
    omega
  simp only [peek, seek, there, Bytes.slice]

theorem take_seek (buf : Bytes) (position len : Nat) :
    (seek buf position).take len =
      if position + len ≤ buf.length then
        .ok (Bytes.slice buf position len, seek buf (position + len))
      else .error (.prematureEnd position len) := by
  rw [take, peek_seek]
  by_cases inside : position + len ≤ buf.length
  · simp [inside, Except.map, seek]
  · simp [inside, Except.map]

theorem skip_seek (buf : Bytes) (position len : Nat) :
    (seek buf position).skip len =
      if position + len ≤ buf.length then .ok (seek buf (position + len))
      else .error (.prematureEnd position len) := by
  rw [skip, take_seek]
  by_cases inside : position + len ≤ buf.length
  · simp [inside, Except.map]
  · simp [inside, Except.map]

end Reader

structure WordReader where
  buf : HeldBytes
  position : UInt64

namespace WordReader

def reader (r : WordReader) : Reader := .seek r.buf.bytes r.position.toNat

def peek (r : WordReader) (len : UInt64) : Except ArchiveError Bytes :=
  match addWord? r.position len with
  | none => .error (.prematureEnd r.position.toNat len.toNat)
  | some stop =>
    if r.buf.Covers r.position stop then .ok (r.buf.window r.position stop)
    else .error (.prematureEnd r.position.toNat len.toNat)

def take (r : WordReader) (len : UInt64) : Except ArchiveError Bytes × WordReader :=
  match r.peek len with
  | .error e => (.error e, r)
  | .ok bytes => (.ok bytes, { r with position := r.position + len })

def skip (r : WordReader) (len : UInt64) : Except ArchiveError Unit × WordReader :=
  let (result, r) := r.take len
  (result.map fun _ => (), r)

/-- A position and a length beyond the last word are refused like any others beyond the end. -/
theorem peek_eq (r : WordReader) (len : UInt64) :
    r.peek len = r.reader.peek len.toNat := by
  rw [reader, Reader.peek_seek, peek]
  cases added : addWord? r.position len with
  | none =>
    have outside : ¬ r.position.toNat + len.toNat ≤ r.buf.bytes.length := by
      intro inside
      have sum := toNat_add_exact (Nat.lt_of_le_of_lt inside r.buf.held)
      rw [addWord?_eq_some_iff.mpr sum] at added
      cases added
    rw [if_neg outside]
  | some stop =>
    have sum := addWord?_eq_some_iff.mp added
    have covers : r.buf.Covers r.position stop ↔
        r.position.toNat + len.toNat ≤ r.buf.bytes.length := by
      rw [HeldBytes.covers_iff, sum]
      omega
    have len_eq : r.position.toNat + len.toNat - r.position.toNat = len.toNat := by omega
    simp only [covers, HeldBytes.window, sum, len_eq]

/-- What a caller may ask of a reader. -/
inductive Call
  | peek (len : UInt64)
  | take (len : UInt64)
  | skip (len : UInt64)

namespace Call

def length : Call → UInt64
  | peek len => len
  | take len => len
  | skip len => len

def passed : Call → UInt64
  | peek _ => 0
  | take len => len
  | skip len => len

def given (r : WordReader) : Call → Bytes
  | peek len => Bytes.slice r.buf.bytes r.position.toNat len.toNat
  | take len => Bytes.slice r.buf.bytes r.position.toNat len.toNat
  | skip _ => []

def ask (r : Reader) : Call → Except ArchiveError (Bytes × Reader)
  | peek len => (r.peek len.toNat).map fun bytes => (bytes, r)
  | take len => r.take len.toNat
  | skip len => (r.skip len.toNat).map fun r => ([], r)

end Call

def call (r : WordReader) : Call → Except ArchiveError Bytes × WordReader
  | .peek len => (r.peek len, r)
  | .take len => r.take len
  | .skip len => (r.skip len).map (Except.map fun _ => []) id

theorem take_eq (r : WordReader) (len : UInt64) :
    r.take len =
      if r.position.toNat + len.toNat ≤ r.buf.bytes.length then
        (.ok (Bytes.slice r.buf.bytes r.position.toNat len.toNat), ⟨r.buf, r.position + len⟩)
      else (.error (.prematureEnd r.position.toNat len.toNat), r) := by
  rw [take, peek_eq, reader, Reader.peek_seek]
  by_cases inside : r.position.toNat + len.toNat ≤ r.buf.bytes.length
  · rw [if_pos inside, if_pos inside]
  · rw [if_neg inside, if_neg inside]

/-- A call succeeds just where the bytes it asks for are in the buffer. -/
theorem call_eq (r : WordReader) (c : Call) :
    r.call c =
      if r.position.toNat + c.length.toNat ≤ r.buf.bytes.length then
        (.ok (c.given r), ⟨r.buf, r.position + c.passed⟩)
      else (.error (.prematureEnd r.position.toNat c.length.toNat), r) := by
  cases c with
  | peek len =>
    have still : r.position + 0 = r.position := UInt64.add_zero _
    rw [call, peek_eq, reader, Reader.peek_seek, Call.length, Call.passed, still]
    split <;> rfl
  | take len =>
    rw [call, take_eq]
    rfl
  | skip len =>
    rw [call, skip, take_eq, Call.length]
    by_cases inside : r.position.toNat + len.toNat ≤ r.buf.bytes.length
    · rw [if_pos inside, if_pos inside]
      rfl
    · rw [if_neg inside, if_neg inside]
      rfl

theorem Call.passed_le (c : Call) : c.passed.toNat ≤ c.length.toNat := by
  cases c with
  | peek len => exact Nat.zero_le _
  | take len => exact Nat.le_refl _
  | skip len => exact Nat.le_refl _

/-- No position wraps around behind a call that succeeds. -/
theorem passed_toNat {r : WordReader} {c : Call}
    (inside : r.position.toNat + c.length.toNat ≤ r.buf.bytes.length) :
    (r.position + c.passed).toNat = r.position.toNat + c.passed.toNat := by
  have near := c.passed_le
  have held := r.buf.held
  exact toNat_add_exact (by omega)

theorem ask_eq (r : WordReader) (c : Call) :
    c.ask r.reader =
      if r.position.toNat + c.length.toNat ≤ r.buf.bytes.length then
        .ok (c.given r, .seek r.buf.bytes (r.position.toNat + c.passed.toNat))
      else .error (.prematureEnd r.position.toNat c.length.toNat) := by
  cases c with
  | peek len =>
    rw [Call.ask, reader, Reader.peek_seek, Call.length]
    split <;> rfl
  | take len =>
    rw [Call.ask, reader, Reader.take_seek, Call.length]
    split <;> rfl
  | skip len =>
    rw [Call.ask, reader, Reader.skip_seek, Call.length]
    split <;> rfl

theorem ask_reader (r : WordReader) (c : Call) :
    c.ask r.reader = (r.call c).1.map fun bytes => (bytes, (r.call c).2.reader) := by
  rw [ask_eq, call_eq]
  by_cases inside : r.position.toNat + c.length.toNat ≤ r.buf.bytes.length
  · rw [if_pos inside, if_pos inside, ← passed_toNat inside]
    rfl
  · rw [if_neg inside, if_neg inside]
    rfl

end WordReader

/-! Writing. -/

def addSaturating (a b : UInt64) : UInt64 := (addWord? a b).getD 0xFFFFFFFFFFFFFFFF

theorem addSaturating_toNat (a b : UInt64) :
    (addSaturating a b).toNat = min (a.toNat + b.toNat) 0xFFFFFFFFFFFFFFFF := by
  have boundA := a.toNat_lt
  have boundB := b.toNat_lt
  rw [addSaturating]
  cases added : addWord? a b with
  | some sum =>
    have exact := addWord?_eq_some_iff.mp added
    have bound := sum.toNat_lt
    rw [Option.getD_some]
    omega
  | none =>
    have outside : ¬ a.toNat + b.toNat < addressSpace := by
      intro inside
      rw [addWord?_eq_some_iff.mpr (toNat_add_exact inside)] at added
      cases added
    have last : (0xFFFFFFFFFFFFFFFF : UInt64).toNat = 0xFFFFFFFFFFFFFFFF := rfl
    rw [Option.getD_none, last]
    simp only [addressSpace] at outside
    omega

def padWord (n : UInt64) : UInt64 := (4 - (n &&& 3)) &&& 3

theorem and_three (n : UInt64) : (n &&& 3).toNat = n.toNat % 4 := by
  rw [UInt64.toNat_and]
  exact Nat.and_two_pow_sub_one_eq_mod n.toNat 2

theorem padWord_toNat (n : UInt64) : (padWord n).toNat = pad4 n.toNat := by
  have low := and_three n
  have under : n &&& 3 ≤ 4 := by
    rw [UInt64.le_iff_toNat_le, low]
    exact Nat.le_of_lt (Nat.mod_lt _ (by decide))
  rw [padWord, and_three, UInt64.toNat_sub_of_le _ _ under, low, pad4]
  rfl

structure WordWriter where
  buf : HeldBytes
  position : UInt64

namespace WordWriter

def writer (w : WordWriter) : Writer := ⟨w.buf.bytes, w.position.toNat⟩

/-- Stops at zero where the position lies beyond the end. -/
def remaining (w : WordWriter) : UInt64 :=
  if w.position ≤ w.buf.size then w.buf.size - w.position else 0

def reserve (w : WordWriter) (len : UInt64) : Except ArchiveError Unit :=
  if len > w.remaining then
    .error (.bufferTooSmall (addSaturating w.position len).toNat w.buf.size.toNat)
  else .ok ()

/-- Hands out the next `len` bytes to be changed in place. The position has moved on when they are
    looked for in the buffer. -/
def slot (w : WordWriter) (len : UInt64) (edit : Edit) : Except WindowError Unit × WordWriter :=
  match w.reserve len with
  | .error e => (.error (.full e), w)
  | .ok () =>
    let next := { w with position := w.position + len }
    if inside : next.buf.Covers w.position next.position then
      (.ok (), { next with buf := next.buf.change inside edit })
    else (.error (.outside w.position.toNat next.buf.size.toNat), next)

def put (w : WordWriter) (bytes : HeldBytes) : Except WindowError Unit × WordWriter :=
  w.slot bytes.size (.copy bytes.bytes)

def pad (w : WordWriter) : Except WindowError Unit × WordWriter :=
  w.slot (padWord w.position) (.fill 0)

theorem remaining_toNat (w : WordWriter) : w.remaining.toNat = w.writer.remaining := by
  rw [remaining, Writer.remaining, writer]
  by_cases inside : w.position ≤ w.buf.size
  · rw [if_pos inside, UInt64.toNat_sub_of_le _ _ inside, HeldBytes.size_toNat]
  · rw [if_neg inside, UInt64.toNat_zero]
    rw [UInt64.le_iff_toNat_le, HeldBytes.size_toNat] at inside
    simp only
    omega

theorem reserve_eq (w : WordWriter) (len : UInt64) :
    w.reserve len = w.writer.reserve len.toNat := by
  have same : len > w.remaining ↔ len.toNat > w.writer.remaining := by
    rw [← remaining_toNat, gt_iff_lt, UInt64.lt_iff_toNat_lt]
  rw [reserve, Writer.reserve, addSaturating_toNat, HeldBytes.size_toNat]
  simp only [same]
  rfl

/-- What comes of a request for `len` bytes, with what is to be done to them where they are handed
    out: they are there, or there is no room for them, or an empty window lies beyond the end. -/
inductive Outcome (w : WordWriter) (len : Nat) :
    Option Edit → Except WindowError Unit × WordWriter → Prop
  | reserved (enough : len = 0 ∨ w.position.toNat + len ≤ w.buf.bytes.length) :
      Outcome w len none (.ok (), w)
  | changed {edit : Edit} {after : WordWriter}
      (fits : w.position.toNat + len ≤ w.buf.bytes.length)
      (bytes : after.buf.bytes = Bytes.overwrite w.buf.bytes w.position.toNat
        (edit.apply (Bytes.slice w.buf.bytes w.position.toNat len)))
      (position : after.position.toNat = w.position.toNat + len) :
      Outcome w len (some edit) (.ok (), after)
  | full {edit : Option Edit} (some : 0 < len)
      (short : w.buf.bytes.length < w.position.toNat + len) :
      Outcome w len edit (.error (.full (.bufferTooSmall
        (min (w.position.toNat + len) 0xFFFFFFFFFFFFFFFF) w.buf.bytes.length)), w)
  | beyond {edit : Edit} (none : len = 0) (past : w.buf.bytes.length < w.position.toNat) :
      Outcome w len (some edit) (.error (.outside w.position.toNat w.buf.bytes.length), w)

theorem reserve_outcome (w : WordWriter) (len : UInt64) :
    Outcome w len.toNat none ((w.reserve len).mapError WindowError.full, w) := by
  rw [reserve_eq]
  by_cases enough : len.toNat = 0 ∨ w.position.toNat + len.toNat ≤ w.buf.bytes.length
  · have granted : w.writer.reserve len.toNat = .ok () := by
      rcases enough with none | room
      · rw [none, Writer.reserve_nothing]
      · exact Writer.reserve_ok room
    rw [granted]
    exact .reserved enough
  · have some : 0 < len.toNat := by omega
    have short : w.buf.bytes.length < w.position.toNat + len.toNat := by omega
    rw [Writer.reserve_full some short]
    exact .full some short

theorem slot_outcome (w : WordWriter) (len : UInt64) (edit : Edit) :
    Outcome w len.toNat (some edit) (w.slot len edit) := by
  rw [slot, reserve_eq]
  by_cases room : w.position.toNat + len.toNat ≤ w.buf.bytes.length
  · have sum := toNat_add_exact (Nat.lt_of_le_of_lt room w.buf.held)
    have inside : w.buf.Covers w.position (w.position + len) := by
      rw [HeldBytes.covers_iff, sum]
      omega
    have len_eq : w.position.toNat + len.toNat - w.position.toNat = len.toNat := by omega
    rw [Writer.reserve_ok room]
    simp only [dif_pos inside]
    refine .changed room ?_ sum
    simp only [HeldBytes.change, HeldBytes.window, sum, len_eq]
  · have short := Nat.not_le.mp room
    by_cases some : 0 < len.toNat
    · rw [Writer.reserve_full some short]
      exact .full some short
    · -- nothing was asked for, so the position that is looked up is the old one, beyond the end
      have none : len.toNat = 0 := by omega
      have still : w.position + len = w.position := by
        rw [UInt64.toNat_inj.mp (none.trans UInt64.toNat_zero.symm), UInt64.add_zero]
      have outside : ¬ w.buf.Covers w.position w.position := by
        rw [HeldBytes.covers_iff]
        omega
      rw [none, Writer.reserve_nothing]
      simp only [still, dif_neg outside, HeldBytes.size_toNat]
      exact .beyond rfl (by omega)

inductive Call
  | reserve (len : UInt64)
  | slot (len : UInt64) (edit : Edit)
  | put (bytes : HeldBytes)
  | pad

namespace Call

def length (position : UInt64) : Call → UInt64
  | reserve len => len
  | slot len _ => len
  | put bytes => bytes.size
  | pad => padWord position

/-- What is done to the window that is handed out. A reservation hands out none. -/
def edit : Call → Option Edit
  | reserve _ => none
  | slot _ edit => some edit
  | put bytes => some (.copy bytes.bytes)
  | pad => some (.fill 0)

def passed (position : UInt64) (c : Call) : Nat :=
  if c.edit.isSome then (c.length position).toNat else 0

end Call

def call (w : WordWriter) : Call → Except WindowError Unit × WordWriter
  | .reserve len => ((w.reserve len).mapError WindowError.full, w)
  | .slot len edit => w.slot len edit
  | .put bytes => w.put bytes
  | .pad => w.pad

theorem call_outcome (w : WordWriter) (c : Call) :
    Outcome w (c.length w.position).toNat c.edit (w.call c) := by
  cases c with
  | reserve len => exact w.reserve_outcome len
  | slot len edit => exact w.slot_outcome len edit
  | put bytes => exact w.slot_outcome bytes.size (.copy bytes.bytes)
  | pad => exact w.slot_outcome (padWord w.position) (.fill 0)

/-! On words and on numbers a writer answers the same. -/

def answer (outcome : Except WindowError Unit × WordWriter) : Except WindowError Writer :=
  outcome.1.map fun _ => outcome.2.writer

theorem Outcome.put {w : WordWriter} {len : Nat} {edit : Edit}
    {outcome : Except WindowError Unit × WordWriter} (o : Outcome w len (some edit) outcome)
    {bytes : Bytes} (length : bytes.length = len)
    (written : ∀ window : Bytes, window.length = len → edit.apply window = bytes) :
    w.writer.put bytes = answer outcome := by
  subst length
  cases o with
  | @changed _ after fits bytes' position =>
    rw [written _ (Bytes.slice_length fits)] at bytes'
    simp only [answer, writer, Except.map, bytes', position]
    exact Writer.put_ok fits
  | full some short => exact Writer.put_full some short
  | beyond none past => exact Writer.put_beyond none past

theorem answer_reserve (w : WordWriter) (len : UInt64) :
    answer (w.call (.reserve len)) =
      ((w.writer.reserve len.toNat).mapError WindowError.full).map fun _ => w.writer := by
  rw [answer, call, reserve_eq]

theorem answer_slot (w : WordWriter) (len : UInt64) (byte : UInt8) :
    answer (w.call (.slot len (.fill byte))) = w.writer.slot len.toNat byte := by
  rw [Writer.slot_eq_put]
  refine ((w.slot_outcome len (.fill byte)).put List.length_replicate ?_).symm
  intro window length
  simp only [Edit.fill, length]

theorem answer_put (w : WordWriter) (bytes : HeldBytes) :
    answer (w.call (.put bytes)) = w.writer.put bytes.bytes := by
  refine ((w.slot_outcome bytes.size (.copy bytes.bytes)).put bytes.size_toNat.symm ?_).symm
  intro window length
  rw [bytes.size_toNat] at length
  simp only [Edit.copy, if_pos length]

theorem answer_pad (w : WordWriter) : answer (w.call .pad) = w.writer.pad := by
  have zeros := answer_slot w (padWord w.position) 0
  rw [padWord_toNat] at zeros
  exact zeros

end WordWriter
end KernelBoot
