import LunariaOS.Stdio.Stream

/-!
The position of a stream.

`ftell` and `fseek` leave the position to the handle of the kernel, which does not know of the byte that
was put back. The next byte of such a stream lies one place before the offset of its handle.
-/

namespace LunariaOS.Stdio

open LunariaOS.Lib LunariaOS.Fs

namespace Opened

/-- The position of the byte that `fgetc` returns next. -/
def position (w : Opened) (i : Fin 8) : ℤ :=
  (w.fs.handles i).offset - if w.file.ungot ≥ 0 then 1 else 0

/-- What the positioning calls are for: `ftell` gives the position, to move by 0 leaves the next byte as
it is, and to move from the current position is to move from the start to the sum. -/
structure Positioned (w : Opened) (i : Fin 8) : Prop where
  tell : w.ftell.1 = w.position i
  stay : (w.fseek 0 fsSeekCur).2.fgetc.1 = w.fgetc.1
  rel : ∀ k, -2147483648 ≤ k ∧ k < 2147483648 →
    -2147483648 ≤ w.position i + k ∧ w.position i + k < 2147483648 →
      w.fseek k fsSeekCur = w.fseek (w.position i + k) fsSeekSet

section Open

variable {w : Opened} {i : Fin 8} (hi : fdLookup w.fs w.file.fd = some i)

include hi

/-- A move to a place, or to none. -/
lemma fsSeek_to {base k whence pos : ℤ} (hbase : seekBase (w.fs.handles i) whence = some base)
    (hpos : i32 (base + k) = pos) :
    fsSeek w.fs w.file.fd k whence =
      if pos < 0 then (-1, w.fs) else (pos, w.fs.setHandle i ((w.fs.handles i).moveTo pos.toNat)) := by
  subst hpos
  unfold fsSeek
  rw [hi]
  dsimp only
  rw [hbase]
  rfl

/-- `ftell` gives the offset of the handle if it is an `int`. -/
lemma ftell_eq (hoff : (w.fs.handles i).offset < 4294967296) :
    w.ftell.1 =
      if (w.fs.handles i).offset < 2147483648 then ((w.fs.handles i).offset : ℤ) else -1 := by
  have hword : i32 (i32 (w.fs.handles i).offset + 0) =
      if (w.fs.handles i).offset < 2147483648 then ((w.fs.handles i).offset : ℤ)
      else (w.fs.handles i).offset - 4294967296 := by
    generalize (w.fs.handles i).offset = o at hoff ⊢
    unfold i32
    split_ifs <;> omega
  unfold ftell
  rw [fsSeek_to hi rfl hword]
  by_cases hlt : (w.fs.handles i).offset < 2147483648
  · rw [if_pos hlt, if_pos hlt, if_neg (by omega)]
  · rw [if_neg hlt, if_neg hlt, if_pos (by omega)]

/-- A move by 0 from an offset that is an `int`. -/
lemma fseek_zero (hoff : (w.fs.handles i).offset < 2147483648) :
    w.fseek 0 fsSeekCur = (0, ⟨{ w.file with eof := false, ungot := -1 }, w.fs⟩) := by
  have hword : i32 (i32 (w.fs.handles i).offset + 0) = (w.fs.handles i).offset := by
    rw [i32_of_lt hoff, add_zero, i32_of_lt hoff]
  have hnonneg : ¬ (((w.fs.handles i).offset : ℕ) : ℤ) < 0 := by omega
  unfold fseek
  rw [fsSeek_to hi rfl hword, if_neg hnonneg, Int.toNat_natCast, State.setHandle_stay]
  exact if_neg hnonneg

/-- **The position of a stream.** The positioning calls keep to the position of a stream that is open
exactly if no byte is put back and the offset of the handle is an `int`. -/
theorem positioned_iff (hoff : (w.fs.handles i).offset < 4294967296) :
    w.Positioned i ↔ w.file.ungot < 0 ∧ (w.fs.handles i).offset < 2147483648 := by
  constructor
  · intro h
    have htell := h.tell
    rw [ftell_eq hi hoff] at htell
    unfold position at htell
    constructor
    · by_contra hback
      rw [if_pos (not_lt.mp hback)] at htell
      split_ifs at htell <;> omega
    · by_contra hbig
      rw [if_neg hbig] at htell
      split_ifs at htell <;> omega
  · rintro ⟨hback, hsmall⟩
    have hpos : w.position i = (w.fs.handles i).offset := by
      unfold position
      rw [if_neg (not_le.mpr hback), sub_zero]
    refine ⟨?_, ?_, fun k _ _ => ?_⟩
    · rw [ftell_eq hi hoff, if_pos hsmall, hpos]
    · have hclear : ¬ ((-1 : ℤ) ≥ 0) := by decide
      rw [fseek_zero hi hsmall]
      unfold fgetc
      dsimp only
      rw [if_neg hclear, if_neg (not_le.mpr hback)]
      split_ifs <;> rfl
    · have hbase : i32 (w.fs.handles i).offset = (w.fs.handles i).offset := i32_of_lt hsmall
      obtain ⟨pos, hword⟩ : ∃ pos, i32 ((w.fs.handles i).offset + k) = pos := ⟨_, rfl⟩
      have hset : i32 (0 + (w.position i + k)) = pos := by rw [hpos, zero_add, hword]
      unfold fseek
      rw [fsSeek_to hi rfl (hbase.symm ▸ hword), fsSeek_to hi rfl hset]

end Open

section Back

variable {w : Opened} {i : Fin 8} {e : FileEntry} {p : Pushback UInt8} (h : Plays i e w p)

include h

lemma lookup_of_plays : fdLookup w.fs w.file.fd = some i := by
  obtain ⟨pos, -, hreads, -⟩ := h.reads
  rw [h.fd_eq, fdLookup_fdOf, if_pos hreads.used]

/-- The offset tells how much of the file is still to come. -/
lemma offset_of_plays : (w.fs.handles i).offset + p.rest.length = e.size := by
  obtain ⟨pos, hle, hreads, hrest⟩ := h.reads
  rw [hreads.offset_eq, hrest, List.length_drop, contents_length]
  omega

/-- A byte that is read and put back leaves the handle behind it. -/
lemma offset_put_back (hback : w.file.ungot < 0) (hread : w.fgetc.1 ≠ eofValue) :
    ((w.fgetc.2.ungetc w.fgetc.1).2.fs.handles i).offset = (w.fs.handles i).offset + 1 := by
  obtain ⟨hret, hplays, -⟩ := h.fgetc
  obtain ⟨-, hplays', -⟩ := hplays.ungetc hread
  have hold := offset_of_plays h
  have hnew := offset_of_plays hplays'
  obtain ⟨x, hx⟩ : ∃ x, p.next.1 = some x := Option.ne_none_iff_exists'.mp fun hnone =>
    hread (by rw [hret]; exact intOf_none.mpr hnone)
  have hlen := congrArg List.length (Pushback.rest_of_next (h.back_none hback) hx)
  have hput : ∀ b, (p.next.2.put b).rest = p.next.2.rest := fun _ => rfl
  rw [List.length_cons] at hlen
  rw [hput] at hnew
  omega

/-- **A byte that is read and put back** does not take `ftell` back to the place of the byte. -/
theorem ftell_put_back (hback : w.file.ungot < 0) (hread : w.fgetc.1 ≠ eofValue)
    (hsmall : (w.fs.handles i).offset + 1 < 2147483648) :
    (w.fgetc.2.ungetc w.fgetc.1).2.ftell.1 = w.ftell.1 + 1 := by
  have hoff := offset_put_back h hback hread
  obtain ⟨-, hplays, -⟩ := h.fgetc.2.1.ungetc hread
  rw [ftell_eq (lookup_of_plays hplays) (by omega), hoff, if_pos hsmall,
    ftell_eq (lookup_of_plays h) (by omega), if_pos (by omega)]
  omega

end Back

lemma plays_reading : Plays 0 (entry longF.sb longF.disk 0) readingStream
    ⟨contents longF.disk (entry longF.sb longF.disk 0), none⟩ where
  working := by
    show reading.disk.Working
    rw [reading_disk.1]
    exact longF_wellFormed.working
  fd_eq := rfl
  size_lt := Mem.ld32_lt _ _
  reads := by
    refine ⟨0, Nat.zero_le _, ?_, ?_⟩
    · rw [longF_entry.2.1, longF_entry.2.2]
      exact reading_reads
    · show _ = (contents reading.disk _).drop 0
      rw [reading_disk.1, List.drop_zero]
  back := rfl

lemma reading_some : readingStream.fgetc.1 ≠ eofValue := by
  rw [plays_reading.fgetc.1]
  intro hx
  obtain ⟨hnil, -⟩ := Pushback.next_eq_none (intOf_none.mp hx)
  have hlen := contents_length longF.disk (entry longF.sb longF.disk 0)
  have hempty : contents longF.disk (entry longF.sb longF.disk 0) = [] := hnil
  rw [hempty, longF_entry.2.2] at hlen
  cases hlen

/-- The stream behind the first byte, and with this byte put back. -/
theorem positioned_iff_reading :
    let w := readingStream.fgetc.2
    let w' := (w.ungetc readingStream.fgetc.1).2
    (w.Positioned 0 ↔ w.file.ungot < 0 ∧ (w.fs.handles 0).offset < 2147483648) ∧
      (w'.Positioned 0 ↔ w'.file.ungot < 0 ∧ (w'.fs.handles 0).offset < 2147483648) := by
  obtain ⟨-, hread, -⟩ := plays_reading.fgetc
  obtain ⟨-, hback, -⟩ := hread.ungetc reading_some
  have hsize : (entry longF.sb longF.disk 0).size = 700 := longF_entry.2.2
  have h := offset_of_plays hread
  have h' := offset_of_plays hback
  exact ⟨positioned_iff (lookup_of_plays hread) (by omega),
    positioned_iff (lookup_of_plays hback) (by omega)⟩

/-- After the first byte of a file is read and put back, `ftell` returns 1. -/
theorem ftell_behind_byte :
    ¬ ∀ (i : Fin 8) (e : FileEntry) (w : Opened) (p : Pushback UInt8), Plays i e w p →
      w.file.ungot < 0 → w.fgetc.1 ≠ eofValue →
        let w' := (w.fgetc.2.ungetc w.fgetc.1).2
        w'.ftell.1 = w.ftell.1 ∧ (w'.fseek 0 fsSeekCur).2.fgetc.1 = w.fgetc.1 := by
  intro hall
  have hoff : (readingStream.fs.handles 0).offset = 0 := reading_reads.offset_eq
  have htell := (hall _ _ _ _ plays_reading (by decide) reading_some).1
  rw [ftell_put_back plays_reading (by decide) reading_some (by rw [hoff]; decide)] at htell
  omega

end Opened

end LunariaOS.Stdio
