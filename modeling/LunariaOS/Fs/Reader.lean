import LunariaOS.Fs.ReadFaults
import LunariaOS.Fs.Spare
import LunariaOS.Fs.Writer

/-!
A read handle as a file that is read in memory.

The abstract file is the contents of the file and a position (`Editor`). As long as every other call
spares the file, each read delivers the next bytes and moves on by their number, and each seek moves
to the place asked for, or fails when there is no such place.
-/

namespace LunariaOS.Fs

open LunariaOS.Lib

/-- Move the position to a place that an `int` can hold. -/
def Editor.place (a : Editor) (off whence : ℤ) : ℤ × Editor :=
  match a.base whence with
  | none => (-1, a)
  | some base =>
    if 0 ≤ base + off ∧ base + off < 2147483648 then (base + off, ⟨a.bytes, (base + off).toNat⟩)
    else (-1, a)

/-- The handle number `i` reads the file `name` as `a` says. -/
structure Streams (s : State) (name : CStr) (k : ℕ) (e : FileEntry) (i : Fin 8) (a : Editor) :
    Prop where
  wf : WellFormed s.sb s.disk
  file : ∃ f, Holds s.sb s.disk name k e f ∧ f.bytes = a.bytes
  small : e.size < 2147483648
  reads : Reads s i e.lba e.size a.pos
  pos_lt : a.pos < 2147483648

section Calls

variable {s : State} {name : CStr} {k : ℕ} {e : FileEntry} {i : Fin 8} {a : Editor}
  (h : Streams s name k e i a)

include h

lemma Streams.length : a.bytes.length = e.size := by
  obtain ⟨f, hf, hb⟩ := h.file
  rw [← hb, ← hf.file_eq, fileAt_length, hf.entry_eq]

lemma Streams.byte {j : ℕ} (hj : j < a.bytes.length) : fileByte s.disk e.lba j = a.bytes[j] := by
  have hlt := h.small
  have hlen := h.length
  obtain ⟨f, hf, hb⟩ := h.file
  have hget : a.bytes = (fileAt s.sb s.disk k).bytes := by rw [← hb, hf.file_eq]
  simp only [hget]
  unfold fileAt
  rw [List.getElem_map, List.getElem_range, hf.entry_eq,
    if_pos (by rw [sectorsOf_eq (by omega)]; omega)]

/-- `fs_read` delivers the contents. -/
lemma Streams.whole (buf : Mem) {max : ℕ} (hmax : e.size ≤ max) :
    (List.range e.size).map (fsRead s.sb name buf max s.disk).2.1 = a.bytes := by
  have hlen := h.length
  obtain ⟨f, hf, -⟩ := h.file
  have hslot := hf.slot
  have hent := hf.entry_eq
  rw [fsRead_working h.wf.working, hslot]
  simp only [hent, if_pos hmax]
  refine List.ext_getElem (by simp [hlen]) fun j hj hj' => ?_
  rw [List.getElem_map, List.getElem_range, Mem.blit_of_in _ _ (by omega) (by omega), Nat.sub_zero,
    h.byte hj']

/-- Reads one after the other deliver the contents from the position on. -/
lemma Streams.pieces (ns : List ℕ) :
    (readSeq s (fdOf i) ns).1 = (a.bytes.drop a.pos).take ns.sum := by
  have hlen := h.length
  rw [readSeq_reads h.wf.working h.reads h.small]
  refine List.ext_getElem (by simp [hlen]) fun j hj hj' => ?_
  simp only [List.length_map, List.length_range] at hj
  rw [List.getElem_map, List.getElem_range, h.byte (by omega), List.getElem_take,
    List.getElem_drop]

/-- The relation after the handle has moved. -/
lemma Streams.move {o : ℕ} (ho : o < 2147483648) :
    Streams (s.setHandle i ((s.handles i).moveTo o)) name k e i ⟨a.bytes, o⟩ where
  wf := h.wf
  file := h.file
  small := h.small
  reads := by
    obtain ⟨hu, hwr, hl, hs, -⟩ := h.reads
    exact ⟨by simpa using hu, by simpa using hwr, by simpa using hl, by simpa using hs, by simp⟩
  pos_lt := ho

/-- **`fs_read_fd` delivers the next bytes.** -/
theorem Streams.read (n : ℕ) :
    ((fsReadFd s (fdOf i) (fun _ => 0) n).1, (List.range
        (fsReadFd s (fdOf i) (fun _ => 0) n).1.toNat).map (fsReadFd s (fdOf i) (fun _ => 0) n).2.1) =
      (((a.next n).length : ℤ), a.next n) ∧
      Streams (fsReadFd s (fdOf i) (fun _ => 0) n).2.2 name k e i (a.read n).2 := by
  have hlen := h.length
  have hsmall := h.small
  have hpos := h.pos_lt
  have hnext : (a.next n).length = min n (e.size - a.pos) := by
    simp [Editor.next, List.length_take, List.length_drop, hlen]
  rw [fsReadFd_reads h.wf.working h.reads h.small]
  rw [← hnext]
  refine ⟨?_, h.move (by omega)⟩
  rw [Int.toNat_natCast]
  congr 1
  refine List.ext_getElem (by simp) fun j hj hj' => ?_
  have hlt : a.pos + j < a.bytes.length := by omega
  rw [List.getElem_map, List.getElem_range]
  dsimp only
  rw [Mem.blit_of_in _ _ (by omega) (by omega), Nat.sub_zero, h.byte hlt]
  simp [Editor.next]

/-- **`fs_seek` moves to a place that there is.** -/
theorem Streams.seek {off : ℤ} (hoff : -2147483648 ≤ off ∧ off < 2147483648) (whence : ℤ) :
    (fsSeek s (fdOf i) off whence).1 = (a.place off whence).1 ∧
      Streams (fsSeek s (fdOf i) off whence).2 name k e i (a.place off whence).2 := by
  have hlen := h.length
  have hsmall := h.small
  have hpos := h.pos_lt
  obtain ⟨hu, hwr, -, hsize, hat⟩ := h.reads
  have hbase : seekBase (s.handles i) whence = a.base whence := by
    unfold seekBase Editor.base
    simp only [hwr, Bool.false_eq_true, if_false, hat, hsize, hlen]
    rw [i32_of_lt hpos, i32_of_lt hsmall]
  have hrange : ∀ base, a.base whence = some base → 0 ≤ base ∧ base < 2147483648 := by
    intro base hb
    unfold Editor.base at hb
    split_ifs at hb <;> obtain rfl := Option.some.inj hb <;> omega
  unfold fsSeek Editor.place
  rw [fdLookup_fdOf, if_pos hu]
  simp only [hbase]
  cases hb : a.base whence with
  | none => exact ⟨rfl, h⟩
  | some base =>
    obtain ⟨h1, h2⟩ := hrange base hb
    simp only
    by_cases hin : 0 ≤ base + off ∧ base + off < 2147483648
    · have hword : i32 (base + off) = base + off := by
        unfold i32
        omega
      rw [if_pos hin, hword, if_neg (by omega)]
      exact ⟨rfl, h.move (by omega)⟩
    · -- a sum past the range wraps to a negative number
      have hneg : i32 (base + off) < 0 := by
        unfold i32
        omega
      rw [if_neg hin, if_pos hneg]
      exact ⟨rfl, h⟩

/-- `fs_write_fd` fails on a read handle. -/
lemma Streams.write (buf : Mem) (n : ℕ) : fsWriteFd s (fdOf i) buf n = (-1, s) := by
  unfold fsWriteFd
  rw [fdLookup_fdOf, if_pos h.reads.used]
  simp [h.reads.reads]

/-- A call elsewhere that spares the file leaves the handle and the file alone. -/
theorem Streams.elsewhere {c : Call} (hc : c.Elsewhere (fdOf i)) (hfit : c.Fits s)
    (hspare : Spares s c name) : Streams (s.step c) name k e i a := by
  have hhandle := hc.handle h.reads.used
  obtain ⟨f, hf, hb⟩ := h.file
  obtain ⟨hu, hwr, hl, hs, ho⟩ := h.reads
  refine ⟨step_wellFormed h.wf hfit, ⟨f, ?_, hb⟩, h.small, ⟨?_, ?_, ?_, ?_, ?_⟩, h.pos_lt⟩
  · rw [step_sb s h.wf.working]
    exact step_spares h.wf hfit hspare hf
  all_goals rw [hhandle]; assumption

end Calls

/-! ### Sequences of calls -/

/-- A call on the abstract file of a read handle. -/
def Event.stream (a : Editor) : Event → Option (ℤ × List UInt8) × Editor
  | .read n =>
    let (out, a) := a.read n
    (some (out.length, out), a)
  | .write _ _ => (some (-1, []), a)
  | .seek off whence =>
    let (rc, a) := a.place off whence
    (some (rc, []), a)
  | .other _ => (none, a)

/-- An offset is an `int`, and a call that is not on the handle spares the file. -/
def Event.Spares (fd : ℤ) (name : CStr) (s : State) : Event → Prop
  | .seek off _ => -2147483648 ≤ off ∧ off < 2147483648
  | .other c => c.Elsewhere fd ∧ c.Fits s ∧ Fs.Spares s c name
  | _ => True

/-- One call gives the result of the abstract file. -/
theorem Streams.event {s : State} {name : CStr} {k : ℕ} {e : FileEntry} {i : Fin 8} {a : Editor}
    (h : Streams s name k e i a) {ev : Event} (hev : ev.Spares (fdOf i) name s) :
    (ev.exec (fdOf i) s).1 = (ev.stream a).1 ∧
      Streams (ev.exec (fdOf i) s).2 name k e i (ev.stream a).2 := by
  cases ev with
  | read n =>
    obtain ⟨h1, h2⟩ := h.read n
    exact ⟨congrArg some h1, h2⟩
  | write buf n =>
    have hw := h.write buf n
    unfold Event.exec
    simp only [hw]
    exact ⟨rfl, h⟩
  | seek off whence =>
    obtain ⟨h1, h2⟩ := h.seek hev whence
    exact ⟨congrArg (fun rc => some (rc, [])) h1, h2⟩
  | other c => exact ⟨rfl, h.elsewhere hev.1 hev.2.1 hev.2.2⟩

/-- **A read handle is an abstract file.** On a read handle of a file below `2^31` bytes, at any
position, reads of any lengths and seeks to anywhere give the results of the abstract file, with any
calls in between that spare the file. Afterwards the handle is where the abstract file says, and
reads in pieces of any sizes deliver what `fs_read` delivers from there on. -/
theorem reader_refines {s : State} (hs : WellFormed s.sb s.disk) {name : CStr} {k : ℕ}
    (hk : slotOf s.sb s.disk name = some k) (hsize : (entry s.sb s.disk k).size < 2147483648)
    {i : Fin 8} {p : ℕ}
    (hr : Reads s i (entry s.sb s.disk k).lba (entry s.sb s.disk k).size p) (hp : p < 2147483648)
    {es : List Event} (hes : Along (after (Event.exec (fdOf i)))
      (fun s e => e.Spares (fdOf i) name s) s es) :
    let code := trace (Event.exec (fdOf i)) s es
    let spec := trace Event.stream ⟨(fileAt s.sb s.disk k).bytes, p⟩ es
    code.1 = spec.1 ∧ (code.2.handles i).offset = spec.2.pos ∧
      ∀ ns buf max, (entry s.sb s.disk k).size ≤ max →
        (readSeq code.2 (fdOf i) ns).1 =
          (((List.range (entry s.sb s.disk k).size).map
            (fsRead code.2.sb name buf max code.2.disk).2.1).drop spec.2.pos).take ns.sum := by
  have h : Streams s name k (entry s.sb s.disk k) i ⟨(fileAt s.sb s.disk k).bytes, p⟩ :=
    ⟨hs, ⟨_, ⟨hk, rfl, rfl⟩, rfl⟩, hsize, hr, hp⟩
  obtain ⟨hout, hlast⟩ := trace_sim_along (f := Event.exec (fdOf i)) (g := Event.stream)
    (R := fun s' a => Streams s' name k _ i a) (fun s' a e h he => h.event he) h hes
  refine ⟨hout, hlast.reads.offset_eq, fun ns buf max hmax => ?_⟩
  rw [hlast.whole buf hmax]
  exact hlast.pieces ns

/-- A file that is read in pieces, with a seek and another open in between. -/
def readEvents : List Event :=
  [.other (.openFd pathF fsORdonly), .read 500, .seek (-10) fsSeekCur, .read 300]

lemma readEvents_spare :
    Along (after (Event.exec (fdOf 0))) (fun s e => e.Spares (fdOf 0) pathF s) reading readEvents := by
  refine ⟨⟨trivial, ⟨fun _ _ _ _ hx => (by cases hx), fun _ _ hx => (by cases hx)⟩, Or.inl ?_⟩, trivial,
    ⟨by decide, by decide⟩, trivial, trivial⟩
  refine (fsOpen_disk reading ?_ pathF fsORdonly).1
  rw [reading_disk.1]
  exact longF_wellFormed.working

theorem reader_refines_reading :
    let code := trace (Event.exec (fdOf 0)) reading readEvents
    let spec := trace Event.stream ⟨(fileAt reading.sb reading.disk 0).bytes, 0⟩ readEvents
    code.1 = spec.1 ∧ (code.2.handles 0).offset = spec.2.pos ∧
      ∀ ns buf max, (entry reading.sb reading.disk 0).size ≤ max →
        (readSeq code.2 (fdOf 0) ns).1 =
          (((List.range (entry reading.sb reading.disk 0).size).map
            (fsRead code.2.sb pathF buf max code.2.disk).2.1).drop spec.2.pos).take ns.sum := by
  have hwf : WellFormed reading.sb reading.disk := by
    rw [reading_disk.1, reading_disk.2]
    exact longF_wellFormed
  have hslot : slotOf reading.sb reading.disk pathF = some 0 := by
    rw [reading_disk.1, reading_disk.2]
    exact longF_entry.1
  have hlba : (entry reading.sb reading.disk 0).lba = 2 := by
    rw [reading_disk.1, reading_disk.2]
    exact longF_entry.2.1
  have hsize : (entry reading.sb reading.disk 0).size = 700 := by
    rw [reading_disk.1, reading_disk.2]
    exact longF_entry.2.2
  exact reader_refines hwf hslot (by rw [hsize]; decide) (by rw [hlba, hsize]; exact reading_reads)
    (by decide) readEvents_spare

end LunariaOS.Fs
