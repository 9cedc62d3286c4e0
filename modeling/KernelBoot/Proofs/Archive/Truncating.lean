import KernelBoot.Proofs.Archive.Members

/-!
Looking for the trailer in a cut archive. The walk reads headers and names of records up to the
trailer and nothing behind it, so it finds the same trailer in every copy that still has that one.
-/
namespace KernelBoot

namespace Reader

/-- The same position in a buffer that ends `n` bytes ahead, or earlier. -/
def cut (r : Reader) (n : Nat) : Reader := { r with ahead := r.ahead.take n }

variable {r : Reader} {len n : Nat}

theorem cut_peek (enough : len ≤ n) : (r.cut n).peek len = r.peek len := by
  simp only [peek, cut, List.take_take, Nat.min_eq_left enough]

theorem cut_forward (enough : len ≤ n) :
    (r.cut n).forward len = (r.forward len).cut (n - len) := by
  have inside : len ≤ min n r.ahead.length ↔ len ≤ r.ahead.length := by omega
  simp only [forward, cut, List.length_take, List.drop_take, inside]

theorem cut_remaining (more : r.remaining ≠ 0) (room : 0 < n) : (r.cut n).remaining ≠ 0 := by
  simp only [remaining, cut, List.length_take] at more ⊢
  omega

theorem start_cut (buf : Bytes) (n : Nat) : (start buf).cut n = start (buf.take n) := rfl

end Reader

namespace Records
open RecordHeader

variable {r : Reader} {header : RecordHeader} {n : Nat}

theorem headerAhead_cut (enough : size ≤ n) : headerAhead (r.cut n) = headerAhead r := by
  rw [headerAhead, Reader.cut_peek enough]
  rfl

theorem fieldAhead_eq (described : headerAhead r = .ok header) :
    fieldAhead r = (r.forward size).peek header.nameSize.toNat := by
  simp only [fieldAhead, described, bind, Except.bind, pure, Except.pure, Reader.take]
  cases (r.forward size).peek header.nameSize.toNat <;> rfl

theorem fieldAhead_cut (described : headerAhead r = .ok header)
    (enough : size + header.nameSize.toNat ≤ n) : fieldAhead (r.cut n) = fieldAhead r := by
  have described' : headerAhead (r.cut n) = .ok header := by
    rw [headerAhead_cut (by omega), described]
  rw [fieldAhead_eq described', fieldAhead_eq described, Reader.cut_forward (by omega),
    Reader.cut_peek (by omega)]

theorem memberAhead_eq (r : Reader) :
    memberAhead r = (fieldAhead r).map fun field =>
      (if field.getLast? = some 0 then field.dropLast else field) != trailerName := by
  simp only [memberAhead, fieldAhead, bind, Except.bind, pure, Except.pure]
  cases headerAhead r with
  | error e => rfl
  | ok header =>
    simp only
    cases (r.forward size).take header.nameSize.toNat <;> rfl

theorem memberAhead_cut (described : headerAhead r = .ok header)
    (enough : size + header.nameSize.toNat ≤ n) : memberAhead (r.cut n) = memberAhead r := by
  rw [memberAhead_eq, memberAhead_eq, fieldAhead_cut described enough]

theorem trailer_field (last : memberAhead r = .ok false) :
    ∃ header, headerAhead r = .ok header ∧ header.nameSize.toNat ≤ trailerName.length + 1 := by
  cases described : headerAhead r with
  | error e =>
    simp only [memberAhead, described, bind, Except.bind] at last
    cases last
  | ok header =>
    rw [memberAhead_eq, fieldAhead_eq described] at last
    cases there : (r.forward size).peek header.nameSize.toNat with
    | error e =>
      rw [there] at last
      cases last
    | ok field =>
      rw [there] at last
      have same := Except.ok.inj last
      rw [bne_eq_false_iff_eq] at same
      have length := Reader.peek_length there
      refine ⟨header, rfl, ?_⟩
      rw [← length, ← same]
      split
      · rw [List.length_dropLast]
        omega
      · omega

theorem trailerFrom_le {offset : Nat} (found : trailerFrom r = .ok offset) : r.position ≤ offset := by
  fun_induction trailerFrom r with
  | case1 => cases found
  | case2 => cases found
  | case3 =>
    cases found
    exact Nat.le_refl _
  | case4 => cases found
  | case5 r _ _ header _ ih => exact Nat.le_trans (Nat.le_add_right _ _) (ih found)

theorem trailerFrom_cut {offset : Nat} (found : trailerFrom r = .ok offset)
    (enough : offset + size + (trailerName.length + 1) ≤ r.position + n) :
    trailerFrom (r.cut n) = .ok offset := by
  have head : size = 110 := rfl
  fun_induction trailerFrom r generalizing n with
  | case1 => cases found
  | case2 => cases found
  | case3 r more last =>
    cases found
    obtain ⟨header, described, short⟩ := trailer_field last
    rw [← memberAhead_cut (n := n) described (by omega)] at last
    exact trailerFrom_here (Reader.cut_remaining more (by omega)) last
  | case4 => cases found
  | case5 r more member header described ih =>
    have later := trailerFrom_le found
    have whole : size + header.nameSize.toNat ≤ header.recordSize := by
      simp only [recordSize, entrySize, align4, size]
      omega
    simp only [Reader.forward] at later
    rw [← memberAhead_cut (n := n) described (by omega)] at member
    rw [← headerAhead_cut (n := n) (by omega)] at described
    rw [trailerFrom_past (Reader.cut_remaining more (by omega)) member described,
      Reader.cut_forward (by omega)]
    refine ih found ?_
    simp only [Reader.forward]
    omega

/-- A copy that is cut behind the trailer's name has the same trailer. -/
theorem trailerOffset_take {buf : Bytes} {offset keep : Nat} (found : trailerOffset buf = .ok offset)
    (enough : offset + size + (trailerName.length + 1) ≤ keep) :
    trailerOffset (buf.take keep) = .ok offset := by
  rw [trailerOffset, ← Reader.start_cut]
  exact trailerFrom_cut found (by rw [Reader.start, Nat.zero_add]; exact enough)

end Records
end KernelBoot
