import KernelBoot.Proofs.Archive.RoundTrip

/-!
Writing what was read. A reading takes fields, paddings and ends of an archive that a writing never
produces, but what it finds can always be written, under the headers that it was found with. So an
archive settles in one pass: from then on neither its table nor its bytes change.
-/
namespace KernelBoot

theorem Entry.Found.writable {e : Entry} (found : e.Found) : e.Writable := by
  cases found with
  | @member header name data fits named _ =>
    have nameSize := header.nameSize.toNat_lt
    have fileSize := header.fileSize.toNat_lt
    rw [fits.nameSize] at nameSize
    rw [fits.fileSize] at fileSize
    exact ⟨named, nameSize, fileSize⟩

theorem Entry.Found.reread {e : Entry} (found : e.Found) : e.reread = e := by
  cases found with
  | @member header name data fits _ _ =>
    have nameSize : UInt32.ofNat (name.length + 1) = header.nameSize := by
      rw [← fits.nameSize, UInt32.ofNat_toNat]
    have fileSize : UInt32.ofNat data.length = header.fileSize := by
      rw [← fits.fileSize, UInt32.ofNat_toNat]
    simp only [Entry.reread, Entry.sizedHeader, Entry.template, Entry.decoded, Entry.nameSize,
      nameSize, fileSize]

namespace Archive

theorem reread_found {entries : List Entry} (found : ∀ e ∈ entries, e.Found) :
    entries.map Entry.reread = entries := by
  conv_rhs => rw [← List.map_id entries]
  exact List.map_congr_left fun e member => (found e member).reread

theorem decode_found {entries : List Entry} (found : ∀ e ∈ entries, e.Found) {capacity : Nat}
    (fits : entries.length ≤ capacity) :
    decode (records entries ++ trailerBytes) capacity = .ok ⟨entries, capacity⟩ := by
  have all : beforeTrailer entries = entries := by
    rw [beforeTrailer, List.takeWhile_eq_self_iff]
    intro e member
    simpa using (found e member).differs
  have read := decode_records entries (fun e member => (found e member).writable) [] capacity
    (by rw [all]; exact fits)
  rwa [List.append_nil, all, reread_found found] at read

/-- Whatever a reading accepts, its table can be written, is read again as the same table, and is
    written from then on as the same bytes. -/
theorem decode_settles {buf : Bytes} {capacity : Nat} {a : Archive}
    (ok : decode buf capacity = .ok a) {dest : Bytes} (exact : dest.length = a.encodedLength) :
    ∃ bytes, a.encode dest = (.ok a.encodedLength, bytes) ∧ bytes.length = a.encodedLength ∧
      decode bytes capacity = .ok a ∧
      ∀ again, decode bytes capacity = .ok again →
        ∀ other : Bytes, other.length = again.encodedLength →
          again.encode other = (.ok bytes.length, bytes) := by
  obtain ⟨rfl, fits, allLive, found⟩ := decode_ok ok
  have written : ∀ other : Bytes, other.length = a.encodedLength →
      a.encode other = (.ok a.encodedLength, records a.entries ++ trailerBytes) := by
    intro other size
    have done : (a.encode other).1 = .ok a.encodedLength :=
      (encode_eq_ok_iff a other _).mpr
        ⟨fun e member => (found e (allLive ▸ member)).writable, rfl, Nat.le_of_eq size.symm⟩
    have bytes := encode_written done
    rw [List.drop_of_length_le (Nat.le_of_eq size), List.append_nil, allLive] at bytes
    exact Prod.ext done bytes
  have length : (records a.entries ++ trailerBytes).length = a.encodedLength := by
    rw [← allLive]
    exact written_length a
  have read := decode_found found fits
  refine ⟨records a.entries ++ trailerBytes, written dest exact, length, read, ?_⟩
  intro again rereading other size
  rw [read] at rereading
  cases rereading
  rw [length]
  exact written other size

/-- Fields with blanks, upper case and garbage, a name without a NUL, paddings that are not zero,
    and no trailer. -/
def lenientArchive : Bytes :=
  Bytes.ofString "070701  0000ABzzzzzzzz0x000000       0 0000001        " ++
    Bytes.ofString "3 bytes 00000000000000000000000000000000" ++
    Bytes.ofString "3rest...!!!!!!!!" ++ Bytes.ofString "abcPADxyz?"

theorem decode_settles_lenient :
    let header : RecordHeader := ⟨0xAB, ⟨0⟩, 0, 0, 1, 0, 3, 0, 0, 0, 0, 3, 0⟩
    let a : Archive := ⟨[.decoded header (Bytes.ofString "ab") (Bytes.ofString "xyz")], 1⟩
    decode lenientArchive 1 = .ok a ∧
      ∃ bytes, a.encode (Bytes.zeros a.encodedLength) = (.ok a.encodedLength, bytes) ∧
        bytes.length = a.encodedLength ∧ decode bytes 1 = .ok a ∧
        ∀ again, decode bytes 1 = .ok again →
          ∀ other : Bytes, other.length = again.encodedLength →
            again.encode other = (.ok bytes.length, bytes) := by
  intro header a
  have readable : decode lenientArchive 1 = .ok a := by decide +kernel
  exact ⟨readable, decode_settles readable (Bytes.zeros_length _)⟩

end Archive
end KernelBoot
