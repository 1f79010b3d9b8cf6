import LunariaOS.Fs.Durable
import LunariaOS.Fs.Frame

/-!
The writable handle as a file that is edited in memory.

What the handle stands for is a byte string and a position (`Editor`). `Edits` relates it to the
handle and the first bytes of the shared buffer, in which older files may have left anything past
the end. Every call on the handle keeps the relation and gives the result of the abstract file, every
call on another handle leaves it alone, and closing the handle writes the byte string back.
-/

namespace LunariaOS.Fs

open LunariaOS.Lib

/-! ### The abstract file -/

/-- An open file: its bytes and the position in it. -/
structure Editor where
  bytes : List UInt8
  pos : ℕ
  deriving DecidableEq

/-- The bytes `old` with `data` written over them from the byte `p` on, past the end after zeros. -/
def overwrite (old : List UInt8) (p : ℕ) (data : List UInt8) : List UInt8 :=
  (old ++ List.replicate (p - old.length) 0).take p ++ data ++ old.drop (p + data.length)

lemma overwrite_length (old : List UInt8) (p : ℕ) (data : List UInt8) :
    (overwrite old p data).length = max old.length (p + data.length) := by
  unfold overwrite
  simp only [List.length_append, List.length_take, List.length_replicate, List.length_drop]
  omega

lemma overwrite_getD (old : List UInt8) (p : ℕ) (data : List UInt8) (j : ℕ) :
    (overwrite old p data).getD j 0 =
      if p ≤ j ∧ j < p + data.length then data.getD (j - p) 0 else old.getD j 0 := by
  unfold overwrite
  have hpre : ((old ++ List.replicate (p - old.length) 0).take p).length = p := by
    simp only [List.length_append, List.length_take, List.length_replicate]
    omega
  by_cases h1 : j < p
  · rw [if_neg (by omega), List.append_assoc, List.getD_append _ _ _ _ (by omega)]
    simp only [List.getD_eq_getElem?_getD, List.getElem?_take, if_pos h1]
    by_cases h2 : j < old.length
    · rw [List.getElem?_append_left h2]
    · have hnone : old[j]? = none := List.getElem?_eq_none (by omega)
      rw [List.getElem?_append_right (by omega), hnone, List.getElem?_replicate]
      split_ifs <;> rfl
  · by_cases h2 : j < p + data.length
    · rw [if_pos ⟨by omega, h2⟩, List.append_assoc, List.getD_append_right _ _ _ _ (by omega),
        hpre, List.getD_append _ _ _ _ (by omega)]
    · rw [if_neg (by omega), List.getD_append_right _ _ _ _ (by simp [hpre]; omega)]
      simp only [List.length_append, hpre, List.getD_eq_getElem?_getD, List.getElem?_drop]
      congr 2
      omega

namespace Editor

/-- What an open for writing starts with. -/
def start (f : Option File) (flags : ℕ) : Editor :=
  let bytes := if flagSet flags fsOTrunc then [] else (f.map File.bytes).getD []
  { bytes := bytes, pos := if flagSet flags fsOAppend then bytes.length else 0 }

/-- Write at the position, unless the file would grow past 64K. -/
def write (a : Editor) (data : List UInt8) : ℤ × Editor :=
  if data.length > fdBufSize ∨ a.pos > fdBufSize - data.length then (-1, a)
  else (data.length, ⟨overwrite a.bytes a.pos data, a.pos + data.length⟩)

/-- The bytes that a read of `n` bytes gives. -/
def next (a : Editor) (n : ℕ) : List UInt8 := (a.bytes.drop a.pos).take n

/-- Read at the position. -/
def read (a : Editor) (n : ℕ) : List UInt8 × Editor :=
  (a.next n, ⟨a.bytes, a.pos + (a.next n).length⟩)

/-- The position that a move counts from. -/
def base (a : Editor) (whence : ℤ) : Option ℤ :=
  if whence = fsSeekSet then some 0
  else if whence = fsSeekCur then some a.pos
  else if whence = fsSeekEnd then some a.bytes.length
  else none

/-- Move the position. -/
def seek (a : Editor) (off whence : ℤ) : ℤ × Editor :=
  match a.base whence with
  | none => (-1, a)
  | some base =>
    let pos := i32 (base + off)
    if pos < 0 then (-1, a) else (pos, ⟨a.bytes, pos.toNat⟩)

end Editor

/-! ### The relation -/

/-- The handle number `i`, the only writable one, edits the file `name` as `a` says. -/
structure Edits (s : State) (i : Fin 8) (name : CStr) (a : Editor) : Prop where
  used : (s.handles i).used = true
  writable : (s.handles i).writable = true
  type_eq : (s.handles i).type = fsFile
  name_eq : (s.handles i).name = name
  wlen_eq : (s.handles i).wlen = a.bytes.length
  offset_eq : (s.handles i).offset = a.pos
  size_le : a.bytes.length ≤ fdBufSize
  pos_lt : a.pos < 2147483648
  /-- What the buffer holds past the end of the file does not matter. -/
  buf_eq : ∀ j < a.bytes.length, s.wbuf j = a.bytes.getD j 0
  alone : ∀ j, j ≠ i → (s.handles j).used = true → (s.handles j).writable = false

section Own

variable {s : State} {i : Fin 8} {name : CStr} {a : Editor} (h : Edits s i name a)

include h

/-- A call that replaces the handle, and with it the file and the buffer. -/
lemma Edits.replace {hd : Handle} {wbuf : Mem} {b : Editor} (hu : hd.used = true)
    (hw : hd.writable = true) (ht : hd.type = fsFile) (hn : hd.name = name)
    (hl : hd.wlen = b.bytes.length) (ho : hd.offset = b.pos) (hs : b.bytes.length ≤ fdBufSize)
    (hp : b.pos < 2147483648) (hb : ∀ j < b.bytes.length, wbuf j = b.bytes.getD j 0) :
    Edits ({ s with wbuf := wbuf }.setHandle i hd) i name b where
  used := by simpa using hu
  writable := by simpa using hw
  type_eq := by simpa using ht
  name_eq := by simpa using hn
  wlen_eq := by simpa using hl
  offset_eq := by simpa using ho
  size_le := hs
  pos_lt := hp
  buf_eq := hb
  alone := fun j hj hju => by
    rw [State.setHandle_ne _ _ hj] at hju ⊢
    exact h.alone j hj hju

/-- What `fs_write_fd` has done before it copies: the new length, and the old bytes with zeros in the
gap. -/
lemma Edits.gap (n : ℕ) {wbuf : Mem} {wlen : ℕ}
    (hg : (if (s.handles i).offset + n > (s.handles i).wlen then
        (if (s.handles i).offset > (s.handles i).wlen then
            s.wbuf.blit (s.handles i).wlen ((s.handles i).offset - (s.handles i).wlen) fun _ => 0
          else s.wbuf,
          (s.handles i).offset + n)
      else (s.wbuf, (s.handles i).wlen)) = (wbuf, wlen)) :
    wlen = max a.bytes.length (a.pos + n) ∧
      ∀ j < wlen, ¬ (a.pos ≤ j ∧ j < a.pos + n) → wbuf j = a.bytes.getD j 0 := by
  rw [h.offset_eq, h.wlen_eq] at hg
  by_cases hlong : a.pos + n > a.bytes.length
  · rw [if_pos hlong, Prod.mk.injEq] at hg
    obtain ⟨rfl, rfl⟩ := hg
    refine ⟨by omega, fun j hj hout => ?_⟩
    by_cases hold : j < a.bytes.length
    · rw [← h.buf_eq j hold]
      split_ifs
      · exact Mem.blit_of_out _ _ (by omega)
      · rfl
    · rw [if_pos (by omega), Mem.blit_of_in _ _ (by omega) (by omega),
        List.getD_eq_default _ _ (by omega)]
  · rw [if_neg hlong, Prod.mk.injEq] at hg
    obtain ⟨rfl, rfl⟩ := hg
    exact ⟨by omega, fun j hj _ => h.buf_eq j hj⟩

/-- **`fs_write_fd` writes at the position.** -/
theorem Edits.write (buf : Mem) (n : ℕ) :
    (fsWriteFd s (fdOf i) buf n).1 = (a.write ((List.range n).map buf)).1 ∧
      Edits (fsWriteFd s (fdOf i) buf n).2 i name (a.write ((List.range n).map buf)).2 := by
  have hs := h.size_le
  have hp := h.pos_lt
  unfold fdBufSize at hs
  have hdata : ((List.range n).map buf).length = n := by simp
  unfold fsWriteFd Editor.write
  rw [fdLookup_fdOf, if_pos h.used, hdata]
  simp only
  rw [if_neg (by simp [h.writable])]
  have hiff : (n > fdBufSize ∨ (s.handles i).offset > fdBufSize - n) ↔
      (n > fdBufSize ∨ a.pos > fdBufSize - n) := by rw [h.offset_eq]
  by_cases hfull : n > fdBufSize ∨ a.pos > fdBufSize - n
  · rw [if_pos hfull, if_pos (hiff.mpr hfull)]
    exact ⟨rfl, h⟩
  · rw [if_neg hfull, if_neg fun hf => hfull (hiff.mp hf)]
    generalize hg : (if (s.handles i).offset + n > (s.handles i).wlen then _ else _) = g
    obtain ⟨wbuf, wlen⟩ := g
    obtain ⟨hwlen, hold⟩ := h.gap n hg
    have hlen := overwrite_length a.bytes a.pos ((List.range n).map buf)
    rw [hdata] at hlen
    unfold fdBufSize at hfull
    refine ⟨i32_of_lt (by omega), h.replace h.used h.writable h.type_eq h.name_eq ?_ ?_ ?_ ?_
      fun j hj => ?_⟩
    · exact hwlen.trans hlen.symm
    · exact congrArg (· + n) h.offset_eq
    · exact hlen.trans_le (by unfold fdBufSize; omega)
    · change a.pos + n < 2147483648
      omega
    · change j < (overwrite a.bytes a.pos ((List.range n).map buf)).length at hj
      change wbuf.blit (s.handles i).offset n buf j = _
      rw [overwrite_getD, hdata, h.offset_eq]
      by_cases hin : a.pos ≤ j ∧ j < a.pos + n
      · rw [Mem.blit_of_in _ _ hin.1 hin.2, if_pos hin, List.getD_eq_getElem _ _ (by simp; omega)]
        simp
      · rw [Mem.blit_of_out _ _ (by omega), if_neg hin]
        exact hold j (by omega) hin

/-- **`fs_read_fd` reads at the position.** -/
theorem Edits.read (buf : Mem) (n : ℕ) :
    (fsReadFd s (fdOf i) buf n).1 = (a.next n).length ∧
      (fsReadFd s (fdOf i) buf n).2.1 =
        buf.blit 0 (a.next n).length (fun j => (a.next n).getD j 0) ∧
      Edits (fsReadFd s (fdOf i) buf n).2.2 i name (a.read n).2 := by
  have hs := h.size_le
  have hp := h.pos_lt
  unfold fdBufSize at hs
  have hlen : (a.next n).length = min n (a.bytes.length - a.pos) := by
    simp [Editor.next, List.length_take, List.length_drop]
  have hmin : (if n > (s.handles i).wlen - (s.handles i).offset then
      (s.handles i).wlen - (s.handles i).offset else n) = (a.next n).length := by
    rw [h.wlen_eq, h.offset_eq, hlen]
    split_ifs <;> omega
  unfold fsReadFd
  rw [fdLookup_fdOf, if_pos h.used]
  simp only [available_eq]
  rw [if_pos h.writable, hmin]
  refine ⟨i32_of_lt (by omega), ?_, ?_⟩
  · dsimp only
    refine Mem.blit_congr buf fun j hj => ?_
    rw [h.offset_eq, h.buf_eq _ (by omega), List.getD_eq_getElem _ _ hj,
      List.getD_eq_getElem _ _ (by omega)]
    simp [Editor.next]
  · refine h.replace h.used h.writable h.type_eq h.name_eq h.wlen_eq ?_ h.size_le ?_ h.buf_eq
    · change u32 ((s.handles i).offset + (a.next n).length) = a.pos + (a.next n).length
      rw [h.offset_eq]
      exact u32_of_lt (by omega)
    · change a.pos + (a.next n).length < 2147483648
      omega

/-- **`fs_seek` moves the position.** -/
theorem Edits.seek (off whence : ℤ) :
    (fsSeek s (fdOf i) off whence).1 = (a.seek off whence).1 ∧
      Edits (fsSeek s (fdOf i) off whence).2 i name (a.seek off whence).2 := by
  have hs := h.size_le
  unfold fdBufSize at hs
  have hbase : seekBase (s.handles i) whence = a.base whence := by
    unfold seekBase Editor.base
    rw [if_pos h.writable, h.offset_eq, h.wlen_eq, i32_of_lt h.pos_lt, i32_of_lt (by omega)]
  unfold fsSeek Editor.seek
  rw [fdLookup_fdOf, if_pos h.used]
  simp only [hbase]
  cases a.base whence with
  | none => exact ⟨rfl, h⟩
  | some base =>
    simp only
    by_cases hneg : i32 (base + off) < 0
    · rw [if_pos hneg, if_pos hneg]
      exact ⟨rfl, h⟩
    · rw [if_neg hneg, if_neg hneg]
      refine ⟨rfl, h.replace h.used h.writable h.type_eq h.name_eq h.wlen_eq rfl h.size_le ?_
        h.buf_eq⟩
      change (i32 (base + off)).toNat < 2147483648
      unfold i32
      omega

end Own

/-! ### The other handles -/

/-- A call on another handle than `fd`, or an attempt to open one more. -/
def Call.Aside (fd : ℤ) : Call → Prop
  | .openFd _ _ => True
  | .readFd fd' _ => fd' ≠ fd
  | .writeFd fd' _ _ => fd' ≠ fd
  | .seek fd' _ _ => fd' ≠ fd
  | .close fd' => fd' ≠ fd
  | _ => False

section Aside

variable {s : State} {i : Fin 8} {name : CStr} {a : Editor} (h : Edits s i name a)

include h

/-- A call that replaces another handle by one that is free or only reads. -/
lemma Edits.aside {j : Fin 8} (hj : j ≠ i) {hd : Handle}
    (hr : hd.used = true → hd.writable = false) : Edits (s.setHandle j hd) i name a := by
  have hi : (s.setHandle j hd).handles i = s.handles i := State.setHandle_ne _ _ hj.symm
  refine ⟨?_, ?_, ?_, ?_, ?_, ?_, h.size_le, h.pos_lt, h.buf_eq, fun k hk hu => ?_⟩
  · rw [hi, h.used]
  · rw [hi, h.writable]
  · rw [hi, h.type_eq]
  · rw [hi, h.name_eq]
  · rw [hi, h.wlen_eq]
  · rw [hi, h.offset_eq]
  · by_cases hkj : k = j
    · subst hkj
      rw [State.setHandle_same] at hu ⊢
      exact hr hu
    · rw [State.setHandle_ne _ _ hkj] at hu ⊢
      exact h.alone k hk hu

/-- A descriptor of another handle finds a handle that only reads. -/
lemma Edits.lookup_aside {fd : ℤ} (hfd : fd ≠ fdOf i) {j : Fin 8} (hj : fdLookup s fd = some j) :
    j ≠ i ∧ (s.handles j).writable = false := by
  obtain ⟨rfl, hu⟩ := fdLookup_some hj
  have hji : j ≠ i := fun e => hfd (by rw [e])
  exact ⟨hji, h.alone j hji hu⟩

/-- **No second writable handle opens.** -/
theorem Edits.second_writer (hw : s.disk.Working) (name' : CStr) {flags : ℕ}
    (hflags : flagSet flags (fsOWronly ||| fsORdwr) = true) :
    (fsOpen s name' flags).1 = -1 ∧ Edits (fsOpen s name' flags).2 i name a := by
  rcases fsOpen_cases hw name' flags with e | ⟨j, hj, -, -, -, e⟩
  · rw [e]
    exact ⟨rfl, h⟩
  · have hfree := freeHandle_some hj
    have hji : i ≠ j := by
      rintro rfl
      rw [h.used] at hfree
      exact absurd hfree (by decide)
    have hother : otherWriter s j = true := by
      unfold otherWriter
      rw [List.any_eq_true]
      exact ⟨i, List.mem_finRange i, by simp [hji, h.used, h.writable]⟩
    rw [e, if_pos hflags]
    unfold openWriter
    simp only
    rw [if_pos hother]
    exact ⟨rfl, h.aside hji.symm fun hu => by simp at hu⟩

/-- **A call on another handle leaves the file alone.** -/
theorem Edits.step_aside (hw : s.disk.Working) {c : Call} (hc : c.Aside (fdOf i)) :
    Edits (s.step c) i name a := by
  cases c with
  | write | mkdir | delete | append => exact hc.elim
  | openFd name' flags =>
    cases hflags : flagSet flags (fsOWronly ||| fsORdwr) with
    | true => exact (h.second_writer hw name' hflags).2
    | false =>
      change Edits (fsOpen s name' flags).2 i name a
      rcases fsOpen_cases hw name' flags with e | ⟨j, hj, -, -, -, e⟩
      · rw [e]
        exact h
      · have hfree := freeHandle_some hj
        have hji : j ≠ i := by
          rintro rfl
          rw [h.used] at hfree
          exact absurd hfree (by decide)
        rw [e, hflags]
        simp only [Bool.false_eq_true, if_false, openReader]
        split <;> exact h.aside hji fun _ => rfl
  | readFd fd n =>
    change Edits (fsReadFd s fd (fun _ => 0) n).2.2 i name a
    cases hj : fdLookup s fd with
    | none =>
      unfold fsReadFd
      rw [hj]
      exact h
    | some j =>
      obtain ⟨hji, hr⟩ := h.lookup_aside hc hj
      rcases fsReadFd_moves hw hj hr (fun _ => 0) n with e | ⟨o, e⟩
      · rw [e]
        exact h
      · rw [e]
        exact h.aside hji fun _ => hr
  | writeFd fd buf n =>
    change Edits (fsWriteFd s fd buf n).2 i name a
    unfold fsWriteFd
    cases hj : fdLookup s fd with
    | none => exact h
    | some j =>
      obtain ⟨-, hr⟩ := h.lookup_aside hc hj
      simp only [hr, Bool.not_false, if_true]
      exact h
  | seek fd off whence =>
    change Edits (fsSeek s fd off whence).2 i name a
    unfold fsSeek
    cases hj : fdLookup s fd with
    | none => exact h
    | some j =>
      obtain ⟨hji, hr⟩ := h.lookup_aside hc hj
      simp only
      split
      · exact h
      · split_ifs
        · exact h
        · exact h.aside hji fun _ => hr
  | close fd =>
    change Edits (fsClose s fd).2 i name a
    unfold fsClose
    cases hj : fdLookup s fd with
    | none => exact h
    | some j =>
      obtain ⟨hji, hr⟩ := h.lookup_aside hc hj
      simp only [hr, Bool.false_eq_true, if_false]
      exact h.aside hji fun hu => by simp at hu

end Aside

/-! ### Opening and closing -/

/-- A fresh writable handle. -/
lemma Edits.fresh {s : State} {i : Fin 8} (ho : otherWriter s i = false) {hd : Handle}
    {wbuf : Mem} {name : CStr} {a : Editor} (hu : hd.used = true)
    (hw : hd.writable = true) (ht : hd.type = fsFile) (hn : hd.name = name)
    (hl : hd.wlen = a.bytes.length) (hp : hd.offset = a.pos) (hs : a.bytes.length ≤ fdBufSize)
    (hlt : a.pos < 2147483648) (hb : ∀ j < a.bytes.length, wbuf j = a.bytes.getD j 0) :
    Edits ({ s with wbuf := wbuf }.setHandle i hd) i name a where
  used := by simpa using hu
  writable := by simpa using hw
  type_eq := by simpa using ht
  name_eq := by simpa using hn
  wlen_eq := by simpa using hl
  offset_eq := by simpa using hp
  size_le := hs
  pos_lt := hlt
  buf_eq := hb
  alone := fun j hj hju => by
    rw [State.setHandle_ne _ _ hj] at hju ⊢
    exact alone_of_otherWriter ho j hj hju

/-- **`fs_open` for writing** starts with the old contents, or with nothing. -/
theorem fsOpen_edits {s : State} (hw : s.disk.Working) {name : CStr} {flags : ℕ}
    (hflags : flagSet flags (fsOWronly ||| fsORdwr) = true) (hfd : 0 ≤ (fsOpen s name flags).1) :
    ∃ i, (fsOpen s name flags).1 = fdOf i ∧
      Edits (fsOpen s name flags).2 i name (Editor.start (view s.sb s.disk name) flags) := by
  rcases fsOpen_cases hw name flags with e | ⟨i, -, -, -, -, e⟩
  · rw [e] at hfd
    simp at hfd
  · rw [e, if_pos hflags] at hfd ⊢
    unfold openWriter at hfd ⊢
    simp only at hfd ⊢
    cases ho : otherWriter s i with
    | true => simp [ho] at hfd
    | false =>
      simp only [ho, Bool.false_eq_true, if_false] at hfd ⊢
      cases htr : flagSet flags fsOTrunc with
      | true =>
        simp only [htr, if_true] at hfd ⊢
        refine ⟨i, rfl, Edits.fresh ho rfl rfl rfl rfl ?_ ?_ ?_ ?_ fun j hj => ?_⟩
        all_goals simp [Editor.start, htr, Handle.zero, fdBufSize] at *
      | false =>
        cases hk : slotOf s.sb s.disk name with
        | none =>
          have hv : view s.sb s.disk name = none := view_eq_none.mpr hk
          simp only [htr, Bool.false_eq_true, if_false, Option.map_none] at hfd ⊢
          refine ⟨i, rfl, Edits.fresh ho rfl rfl rfl rfl ?_ ?_ ?_ ?_ fun j hj => ?_⟩
          all_goals simp [Editor.start, hv, Handle.zero, fdBufSize] at *
        | some k =>
          have hv : view s.sb s.disk name = some (fileAt s.sb s.disk k) := by simp [view, hk]
          simp only [htr, hk, Bool.false_eq_true, if_false, Option.map_some] at hfd ⊢
          by_cases hbig : (entry s.sb s.disk k).size > fdBufSize
          · simp [hbig] at hfd
          · have hsize : (entry s.sb s.disk k).size ≤ 65536 := not_lt.mp hbig
            have hpos : ¬ i32 ((entry s.sb s.disk k).size : ℕ) < 0 := by
              rw [i32_of_lt (by omega)]
              omega
            rw [if_neg hbig, fsRead_working hw, hk]
            simp only [if_pos (show (entry s.sb s.disk k).size ≤ fdBufSize from hsize), if_neg hpos]
            have hstart : Editor.start (view s.sb s.disk name) flags =
                ⟨(fileAt s.sb s.disk k).bytes,
                  if flagSet flags fsOAppend then (entry s.sb s.disk k).size else 0⟩ := by
              simp [Editor.start, htr, hv]
            rw [hstart]
            refine ⟨i, rfl, Edits.fresh ho rfl rfl rfl rfl ?_ rfl ?_ ?_ fun j hj => ?_⟩
            · simp
            · exact (fileAt_length k).trans_le hsize
            · simp only
              split_ifs <;> omega
            · simp only [fileAt_length] at hj
              have hc : j / 512 < sectorsOf (entry s.sb s.disk k).size := by
                rw [sectorsOf_eq (by omega)]
                omega
              rw [Mem.blit_of_in _ _ (by omega) (by omega), Nat.sub_zero,
                List.getD_eq_getElem _ _ (by simpa using hj)]
              simp [fileAt, hc]

/-- **`fs_close` writes the file back**, and `fs_read` then delivers it. -/
theorem Edits.close {s : State} {i : Fin 8} {name : CStr} {a : Editor} (h : Edits s i name a)
    (hs : WellFormed s.sb s.disk) (ha : Addressed s.sb s.disk) (hname : name.bytes ≠ [])
    (hrc : (fsClose s (fdOf i)).1 = 0) (buf : Mem) {max : ℕ} (hmax : a.bytes.length ≤ max) :
    fsRead s.sb name buf max (fsClose s (fdOf i)).2.disk =
      ((a.bytes.length : ℤ), buf.blit 0 a.bytes.length fun j => a.bytes.getD j 0,
        (fsClose s (fdOf i)).2.disk) := by
  have hlen := h.size_le
  unfold fdBufSize at hlen
  have hclose := fsClose_writer h.used h.writable
  rw [h.type_eq, h.name_eq, h.wlen_eq] at hclose
  rw [hclose.1] at hrc
  rw [hclose.2]
  have hfit := ha.fits hs name fsFile s.wbuf (show a.bytes.length < 4294967296 by omega)
  have hv := fsWrite_view hs hname fsFile s.wbuf (by omega) hfit hrc
  have hw := ((write_append_rule hs.layout (S := Set.univ) (fun _ _ _ _ => trivial)
    (B := fdBufSize) (by decide) (by decide) (P := fun _ => True) (fun _ _ _ _ _ => trivial)).1 name
    fsFile s.wbuf a.bytes.length s.disk trivial h.size_le hs.sound trivial hfit).1.working
  rw [fsRead_view hw hv (by simp; omega) buf max (by simpa using hmax)]
  simp only [List.length_map, List.length_range]
  rw [i32_of_lt (by omega)]
  congr 2
  refine Mem.blit_congr _ fun j hj => ?_
  rw [List.getD_eq_getElem _ _ (by simpa using hj)]
  simpa using h.buf_eq j hj

/-! ### Sequences of calls -/

/-- A call on the writable handle, or one on another handle. -/
inductive Event where
  | read (n : ℕ)
  | write (buf : Mem) (n : ℕ)
  | seek (off whence : ℤ)
  | other (c : Call)

/-- A call in the code: what it returns and the bytes it delivers, if it is on the handle `fd`. -/
def Event.exec (fd : ℤ) (s : State) : Event → Option (ℤ × List UInt8) × State
  | .read n =>
    let (rc, buf, s) := fsReadFd s fd (fun _ => 0) n
    (some (rc, (List.range rc.toNat).map buf), s)
  | .write buf n =>
    let (rc, s) := fsWriteFd s fd buf n
    (some (rc, []), s)
  | .seek off whence =>
    let (rc, s) := fsSeek s fd off whence
    (some (rc, []), s)
  | .other c => (none, s.step c)

/-- A call on the abstract file. -/
def Event.spec (a : Editor) : Event → Option (ℤ × List UInt8) × Editor
  | .read n =>
    let (out, a) := a.read n
    (some (out.length, out), a)
  | .write buf n =>
    let (rc, a) := a.write ((List.range n).map buf)
    (some (rc, []), a)
  | .seek off whence =>
    let (rc, a) := a.seek off whence
    (some (rc, []), a)
  | .other _ => (none, a)

/-- A call that is not on the handle `fd` is one on another handle. -/
def Event.Aside (fd : ℤ) : Event → Prop
  | .other c => c.Aside fd
  | _ => True

/-- One call gives the result of the abstract file. -/
theorem Edits.event {s : State} {i : Fin 8} {name : CStr} {a : Editor} (h : Edits s i name a)
    (hw : s.disk.Working) {e : Event} (he : e.Aside (fdOf i)) :
    (e.exec (fdOf i) s).1 = (e.spec a).1 ∧ Edits (e.exec (fdOf i) s).2 i name (e.spec a).2 ∧
      (e.exec (fdOf i) s).2.disk = s.disk ∧ (e.exec (fdOf i) s).2.sb = s.sb := by
  cases e with
  | read n =>
    obtain ⟨h1, h2, h3⟩ := h.read (fun _ => 0) n
    refine ⟨?_, h3, fsReadFd_disk s hw (fdOf i) (fun _ => 0) n⟩
    change some ((fsReadFd s (fdOf i) (fun _ => 0) n).1, (List.range
      (fsReadFd s (fdOf i) (fun _ => 0) n).1.toNat).map (fsReadFd s (fdOf i) (fun _ => 0) n).2.1) =
      some (((a.next n).length : ℤ), a.next n)
    rw [h1, h2, Int.toNat_natCast]
    congr 2
    refine List.ext_getElem (by simp) fun j hj hj' => ?_
    rw [List.getElem_map, List.getElem_range, Mem.blit_of_in _ _ (by omega) (by omega),
      Nat.sub_zero, List.getD_eq_getElem _ _ hj']
  | write buf n =>
    obtain ⟨h1, h2⟩ := h.write buf n
    exact ⟨congrArg (fun rc => some (rc, [])) h1, h2, fsWriteFd_disk s (fdOf i) buf n⟩
  | seek off whence =>
    obtain ⟨h1, h2⟩ := h.seek off whence
    exact ⟨congrArg (fun rc => some (rc, [])) h1, h2, fsSeek_disk s (fdOf i) off whence⟩
  | other c =>
    refine ⟨rfl, h.step_aside hw he, ?_, step_sb s hw c⟩
    change (s.step c).disk = s.disk
    rw [step_disk s hw c]
    cases c with
    | write | mkdir | delete | append => exact he.elim
    | openFd | readFd | writeFd | seek => rfl
    | close fd =>
      simp only [Call.writes]
      cases hj : fdLookup s fd with
      | none => rfl
      | some j => simp [(h.lookup_aside he hj).2]

/-- **The writable handle is an abstract file.** From a successful open for writing on, the calls on
the handle give the results of the abstract file, in every order and with any calls on other
handles in between; and if closing it returns 0, `fs_read` delivers the abstract file. -/
theorem writer_refines {s : State} (hs : WellFormed s.sb s.disk) (ha : Addressed s.sb s.disk)
    {name : CStr} (hname : name.bytes ≠ []) {flags : ℕ}
    (hflags : flagSet flags (fsOWronly ||| fsORdwr) = true) (hfd : 0 ≤ (fsOpen s name flags).1)
    {es : List Event} (hes : ∀ e ∈ es, e.Aside (fsOpen s name flags).1) :
    let fd := (fsOpen s name flags).1
    let code := trace (Event.exec fd) (fsOpen s name flags).2 es
    let spec := trace Event.spec (Editor.start (view s.sb s.disk name) flags) es
    code.1 = spec.1 ∧
      ((fsClose code.2 fd).1 = 0 → ∀ buf max, spec.2.bytes.length ≤ max →
        fsRead s.sb name buf max (fsClose code.2 fd).2.disk =
          ((spec.2.bytes.length : ℤ), buf.blit 0 spec.2.bytes.length fun j => spec.2.bytes.getD j 0,
            (fsClose code.2 fd).2.disk)) := by
  obtain ⟨i, hi, hedit⟩ := fsOpen_edits hs.working hflags hfd
  obtain ⟨hdisk, hsb⟩ := fsOpen_disk s hs.working name flags
  simp only
  rw [hi] at hes ⊢
  obtain ⟨hout, hlast, hdisk', hsb'⟩ := trace_sim
    (R := fun s' a => Edits s' i name a ∧ s'.disk = s.disk ∧ s'.sb = s.sb)
    (fun s' a e h he => by
      have hw : s'.disk.Working := by rw [h.2.1]; exact hs.working
      obtain ⟨h1, h2, h3, h4⟩ := h.1.event hw he
      exact ⟨h1, h2, h3.trans h.2.1, h4.trans h.2.2⟩)
    ⟨hedit, hdisk, hsb⟩ hes
  refine ⟨hout, fun hrc buf max hmax => ?_⟩
  have hread := hlast.close (by rw [hdisk', hsb']; exact hs) (by rw [hdisk', hsb']; exact ha) hname
    hrc buf hmax
  rwa [hsb'] at hread

/-- A new file that is written, with a gap, while another open for writing fails, and read back. -/
def editEvents : List Event :=
  [.write (fun _ => 5) 4, .seek 10 fsSeekSet, .other (.openFd pathF (fsOWronly ||| fsOCreat)),
    .write (fun _ => 6) 2, .seek 0 fsSeekSet, .read 20]

theorem writer_refines_blank :
    let fd := (fsOpen blank pathF (fsORdwr ||| fsOCreat)).1
    let code := trace (Event.exec fd) (fsOpen blank pathF (fsORdwr ||| fsOCreat)).2 editEvents
    let spec := trace Event.spec
      (Editor.start (view blank.sb blank.disk pathF) (fsORdwr ||| fsOCreat)) editEvents
    code.1 = spec.1 ∧
      ((fsClose code.2 fd).1 = 0 → ∀ buf max, spec.2.bytes.length ≤ max →
        fsRead blank.sb pathF buf max (fsClose code.2 fd).2.disk =
          ((spec.2.bytes.length : ℤ), buf.blit 0 spec.2.bytes.length fun j => spec.2.bytes.getD j 0,
            (fsClose code.2 fd).2.disk)) :=
  writer_refines blank_wellFormed blank_addressed (by decide) (by decide) (by decide +kernel)
    (by simp [editEvents, Event.Aside, Call.Aside])

end LunariaOS.Fs
