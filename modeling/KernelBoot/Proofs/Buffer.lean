import KernelBoot.Bytes

/-!
Windows of a buffer. Writes that follow each other come to one write of all their bytes, and what
a write leaves in front of its window and behind it is what was there. A write that fails may give
its error another meaning, which never makes it succeed. A field is read as what was written into
it, whatever stands in front of it and behind.
-/
namespace KernelBoot

theorem mapError_ok (f : ε → ε') (a : α) : (Except.ok a).mapError f = .ok a := rfl

theorem mapError_error (f : ε → ε') (e : ε) :
    (Except.error e : Except ε α).mapError f = .error (f e) := rfl

theorem mapError_eq_ok {f : ε → ε'} {r : Except ε α} {a : α} : r.mapError f = .ok a ↔ r = .ok a := by
  cases r with
  | error e => simp only [mapError_error, reduceCtorEq]
  | ok value => rw [mapError_ok, Except.ok.injEq, Except.ok.injEq]

theorem ok_bind (a : α) (f : α → Except ε β) : (Except.ok a >>= f) = f a := rfl

theorem bind_eq_ok {r : Except ε α} {f : α → Except ε β} {b : β} :
    r >>= f = .ok b ↔ ∃ a, r = .ok a ∧ f a = .ok b := by
  cases r with
  | error e => simp [bind, Except.bind]
  | ok value => simp [bind, Except.bind]

theorem map_eq_ok {r : Except ε α} {f : α → β} {b : β} :
    r.map f = .ok b ↔ ∃ a, r = .ok a ∧ b = f a := by
  cases r with
  | error e => simp [Except.map]
  | ok value => simp [Except.map, eq_comm]

namespace Bytes

@[simp] theorem zeros_length (n : Nat) : (zeros n).length = n := by simp [zeros]

theorem overwrite_append (buf first second : Bytes) (pos : Nat) (inside : pos ≤ buf.length) :
    overwrite (overwrite buf pos first) (pos + first.length) second =
      overwrite buf pos (first ++ second) := by
  have front : (buf.take pos ++ first).length = pos + first.length := by
    simp only [List.length_append, List.length_take]
    omega
  have kept : (buf.take pos ++ first ++ buf.drop (pos + first.length)).take (pos + first.length) =
      buf.take pos ++ first := List.take_left' front
  have behind : (buf.take pos ++ first ++ buf.drop (pos + first.length)).drop
      (pos + first.length + second.length) = buf.drop (pos + (first.length + second.length)) := by
    rw [← List.drop_drop, List.drop_left' front, List.drop_drop, Nat.add_assoc]
  simp only [overwrite, kept, behind, List.length_append]
  simp only [List.append_assoc]

theorem overwrite_start (buf bytes : Bytes) : overwrite buf 0 bytes = bytes ++ buf.drop bytes.length := by
  simp [overwrite]

theorem overwrite_nil (buf : Bytes) (pos : Nat) : overwrite buf pos [] = buf := by
  simp [overwrite]

theorem overwrite_outside {buf bytes : Bytes} {pos i : Nat}
    (inside : pos + bytes.length ≤ buf.length) (outside : i < pos ∨ pos + bytes.length ≤ i) :
    (overwrite buf pos bytes)[i]? = buf[i]? := by
  have front : (buf.take pos).length = pos := by
    rw [List.length_take]
    omega
  rw [overwrite, List.append_assoc]
  rcases outside with before | behind
  · rw [List.getElem?_append_left (by omega), List.getElem?_take_of_lt before]
  · rw [List.getElem?_append_right (by omega), front, List.getElem?_append_right (by omega),
      List.getElem?_drop]
    congr 1
    omega

theorem slice_getElem? (bs : Bytes) (start len i : Nat) :
    (slice bs start len)[i]? = if i < len then bs[start + i]? else none := by
  rw [slice, List.getElem?_take, List.getElem?_drop]

theorem slice_overwrite {buf bytes : Bytes} {pos : Nat} (inside : pos ≤ buf.length) :
    slice (overwrite buf pos bytes) pos bytes.length = bytes := by
  have front : (buf.take pos).length = pos := by
    rw [List.length_take]
    omega
  rw [slice, overwrite, List.append_assoc, List.drop_left' front, List.take_left' rfl]

theorem slice_length {bs : Bytes} {start len : Nat} (inside : start + len ≤ bs.length) :
    (slice bs start len).length = len := by
  rw [slice, List.length_take, List.length_drop]
  omega

theorem slice_slice (bs : Bytes) (start : Nat) {span skip len : Nat} (inside : skip + len ≤ span) :
    slice (slice bs start span) skip len = slice bs (start + skip) len := by
  have least : min len (span - skip) = len := by omega
  rw [slice, slice, slice, List.drop_take, List.take_take, List.drop_drop, least]

theorem slice_take (bs : Bytes) {start len stop : Nat} (inside : start + len ≤ stop) :
    slice (bs.take stop) start len = slice bs start len := by
  have least : min len (stop - start) = len := by omega
  rw [slice, slice, List.drop_take, List.take_take, least]

theorem slice_join (bs : Bytes) {start middle : Nat} (first second : Nat)
    (beside : start + first = middle) :
    slice bs start first ++ slice bs middle second = slice bs start (first + second) := by
  have rest : bs.drop middle = (bs.drop start).drop first := by
    rw [List.drop_drop, beside]
  rw [slice, slice, slice, rest, List.take_add]

/-- Bytes with nothing but zeros behind them, up to `stop`. -/
theorem take_zeros {buf bytes : Bytes} {stop : Nat} (front : slice buf 0 bytes.length = bytes)
    (within : bytes.length ≤ stop)
    (blank : ∀ i, bytes.length ≤ i → i < stop → buf[i]? = some 0) :
    buf.take stop = bytes ++ zeros (stop - bytes.length) := by
  apply List.ext_getElem?
  intro i
  by_cases early : i < bytes.length
  · have same := slice_getElem? buf 0 bytes.length i
    rw [front, if_pos early, Nat.zero_add] at same
    rw [List.getElem?_take_of_lt (by omega), List.getElem?_append_left early, same]
  · rw [List.getElem?_append_right (by omega), zeros, List.getElem?_replicate, List.getElem?_take]
    by_cases late : i < stop
    · rw [if_pos late, blank i (by omega) late, if_pos (by omega)]
    · rw [if_neg late, if_neg (by omega)]

/-! Fields in front of other bytes, and behind others. -/

theorem slice_front (bytes rest : Bytes) {len : Nat} (exact : bytes.length = len) :
    slice (bytes ++ rest) 0 len = bytes := by
  rw [slice, List.drop_zero, List.take_left' exact]

theorem slice_past (front bytes : Bytes) {start : Nat} (len : Nat) (past : front.length ≤ start) :
    slice (front ++ bytes) start len = slice bytes (start - front.length) len := by
  rw [slice, slice, List.drop_append, List.drop_of_length_le past, List.nil_append]

theorem slice_behind (front bytes : Bytes) {start : Nat} (len : Nat) (exact : front.length = start) :
    slice (front ++ bytes) start len = slice bytes 0 len := by
  rw [slice_past front bytes len (Nat.le_of_eq exact), exact, Nat.sub_self]

theorem word32_past (front bytes : Bytes) {start : Nat} (past : front.length ≤ start) :
    word32 (front ++ bytes) start = word32 bytes (start - front.length) := by
  rw [word32, word32, slice_past front bytes 4 past]

theorem word32_front {n : Nat} (fits : n < wordLimit) (rest : Bytes) :
    word32 (le 4 n ++ rest) 0 = UInt32.ofNat n := by
  rw [word32, slice_front _ _ (le_length 4 n), ofLe_le 4 n fits]

theorem word32?_front {n : Nat} (fits : n < wordLimit) (rest : Bytes) :
    word32? (le 4 n ++ rest) 0 = some (UInt32.ofNat n) := by
  rw [word32?, slice_front _ _ (le_length 4 n), if_pos (le_length 4 n), word32_front fits]

theorem word32?_behind {n : Nat} (fits : n < wordLimit) (front rest : Bytes)
    (exact : front.length = 4) : word32? (front ++ (le 4 n ++ rest)) 4 = some (UInt32.ofNat n) := by
  rw [← word32?_front fits rest]
  simp only [word32?, word32, slice_behind _ _ 4 exact]

theorem le32_length (w : UInt32) : (le32 w).length = 4 := le_length 4 w.toNat

theorem le32_lt (w : UInt32) : w.toNat < wordLimit := w.toNat_lt

theorem word32_le32 (w : UInt32) (rest : Bytes) : word32 (le32 w ++ rest) 0 = w := by
  rw [le32, word32_front (le32_lt w), UInt32.ofNat_toNat]

theorem pair_length (a b : UInt32) : (le32 a ++ le32 b).length = 8 := by
  rw [List.length_append, le32_length, le32_length]

theorem word32_pair (a b : UInt32) : word32 (le32 a ++ le32 b) 0 = a ∧
    word32 (le32 a ++ le32 b) 4 = b := by
  have second : slice (le32 a ++ le32 b) 4 4 = le32 b := by
    have only := slice_front (le32 b) [] (le32_length b)
    rw [List.append_nil] at only
    rw [slice_behind _ _ 4 (le32_length a)]
    exact only
  constructor
  · exact word32_le32 a _
  · rw [word32, second, le32, ofLe_le 4 _ (le32_lt b), UInt32.ofNat_toNat]

theorem le32_word32 {bs : Bytes} {offset : Nat} (inside : offset + 4 ≤ bs.length) :
    le32 (word32 bs offset) = slice bs offset 4 := by
  have length := slice_length inside
  have bound := ofLe_lt (slice bs offset 4)
  rw [length] at bound
  have number : (word32 bs offset).toNat = ofLe (slice bs offset 4) := by
    rw [word32, UInt32.toNat_ofNat_of_lt' bound]
  have written := le_ofLe (slice bs offset 4)
  rw [length] at written
  rw [le32, number, written]

theorem upToNul_zeros (bytes : Bytes) (zeroCount : Nat) :
    upToNul (bytes ++ zeros zeroCount) = upToNul bytes := by
  induction bytes with
  | nil => cases zeroCount <;> rfl
  | cons b rest ih =>
    simp only [upToNul, List.cons_append, List.takeWhile_cons] at ih ⊢
    rw [ih]

theorem nul_notMem_upToNul (bytes : Bytes) : (0 : UInt8) ∉ upToNul bytes := by
  intro member
  have kept := List.all_eq_true.mp List.all_takeWhile 0 member
  cases kept

theorem upToNul_plain {line : Bytes} (plain : (0 : UInt8) ∉ line) : upToNul line = line := by
  have inLine : ∀ b ∈ line, (b != 0) = true := by
    intro b member
    have differs : b ≠ 0 := fun same => plain (same ▸ member)
    simpa using differs
  have whole : (line ++ []).takeWhile (· != 0) = line ++ [] := List.takeWhile_append_of_pos inLine
  rw [List.append_nil] at whole
  exact whole

end Bytes
end KernelBoot
