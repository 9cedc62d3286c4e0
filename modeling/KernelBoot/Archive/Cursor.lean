import KernelBoot.Archive.Header

/-!
Positions in a buffer. A reader and a writer move by exactly the bytes they hand out and never
past the end; a refused request leaves them where they are.
-/
namespace KernelBoot

/-- `ahead` holds the bytes from the position on. A position beyond the end of the buffer is
    possible; nothing can be taken there, not even zero bytes. -/
structure Reader where
  position : Nat
  ahead : Bytes
  inside : Bool

namespace Reader

def seek (buf : Bytes) (position : Nat) : Reader :=
  ⟨position, buf.drop position, position ≤ buf.length⟩

def start (buf : Bytes) : Reader := ⟨0, buf, true⟩

def remaining (r : Reader) : Nat := r.ahead.length

def isAtEnd (r : Reader) : Bool := r.ahead.isEmpty

def peek (r : Reader) (len : Nat) : Except ArchiveError Bytes :=
  if r.inside ∧ (r.ahead.take len).length = len then .ok (r.ahead.take len)
  else .error (.prematureEnd r.position len)

/-- Moves on without looking, also past the end. -/
def forward (r : Reader) (len : Nat) : Reader :=
  ⟨r.position + len, r.ahead.drop len, r.inside && len ≤ r.ahead.length⟩

def take (r : Reader) (len : Nat) : Except ArchiveError (Bytes × Reader) :=
  (r.peek len).map fun bytes => (bytes, ⟨r.position + len, r.ahead.drop len, true⟩)

def skip (r : Reader) (len : Nat) : Except ArchiveError Reader := (r.take len).map (·.2)

theorem take_remaining {r r' : Reader} {len : Nat} {bytes : Bytes}
    (h : r.take len = .ok (bytes, r')) : r'.remaining + len = r.remaining := by
  unfold take peek at h
  split at h
  · rename_i fits
    simp only [Except.map, Except.ok.injEq, Prod.mk.injEq] at h
    obtain ⟨_, rfl⟩ := h
    have enough := fits.2
    simp only [List.length_take] at enough
    simp only [remaining, List.length_drop]
    omega
  · cases h

theorem skip_remaining {r r' : Reader} {len : Nat} (h : r.skip len = .ok r') :
    r'.remaining + len = r.remaining := by
  unfold skip at h
  cases taken : r.take len with
  | error e => simp [taken, Except.map] at h
  | ok step =>
    simp only [taken, Except.map, Except.ok.injEq] at h
    subst h
    exact take_remaining taken

end Reader

/-- Why a writer hands out no window. From a position beyond the end even the empty window lies
    outside the buffer. -/
inductive WindowError where
  | full (error : ArchiveError)
  | outside (position size : Nat)

def WindowError.archive : WindowError → ArchiveError
  | .full error => error
  | .outside position size => .bufferTooSmall position size

structure Writer where
  buf : Bytes
  position : Nat

namespace Writer

def seek (buf : Bytes) (position : Nat) : Writer := ⟨buf, position⟩

def remaining (w : Writer) : Nat := w.buf.length - w.position

/-- The total size that a refusal names stops at the largest 64-bit number. -/
def reserve (w : Writer) (len : Nat) : Except ArchiveError Unit :=
  if len > w.remaining then
    .error (.bufferTooSmall (min (w.position + len) 0xFFFFFFFFFFFFFFFF) w.buf.length)
  else .ok ()

def put (w : Writer) (bytes : Bytes) : Except WindowError Writer :=
  match w.reserve bytes.length with
  | .error e => .error (.full e)
  | .ok () =>
    if w.position > w.buf.length then .error (.outside w.position w.buf.length)
    else .ok ⟨w.buf.overwrite w.position bytes, w.position + bytes.length⟩

def slot (w : Writer) (len : Nat) (fill : UInt8) : Except WindowError Writer :=
  match w.reserve len with
  | .error e => .error (.full e)
  | .ok () => w.put (List.replicate len fill)

def pad (w : Writer) : Except WindowError Writer := w.slot (pad4 w.position) 0

/-- One record. Its whole size is asked for first, so it is never written in part. -/
def record (w : Writer) (header : RecordHeader) (name data : Bytes) : Except WindowError Writer := do
  (w.reserve header.recordSize).mapError WindowError.full
  let w ← w.put header.encode
  let w ← w.put name
  let w ← w.put [0]
  let w ← w.pad
  let w ← w.put data
  w.pad

end Writer
end KernelBoot
