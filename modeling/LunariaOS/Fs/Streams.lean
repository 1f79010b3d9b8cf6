import LunariaOS.Fs.Refine

/-!
What the handle functions do on a working disk.

One lemma a function: `fs_open` puts a handle in a free slot or fails, `fs_read_fd` on a read handle
delivers a piece of its file, and on the writable one a piece of the shared buffer. The loop of
`fs_read_fd` goes from sector to sector, the first and the last of which it copies in part.
-/

namespace LunariaOS.Fs

open LunariaOS.Lib

variable {s : State}

/-! ### Descriptors -/

lemma fdLookup_fdOf (s : State) (i : Fin 8) :
    fdLookup s (fdOf i) = if (s.handles i).used then some i else none := by
  have h : 0 ≤ fdOf i - fsFdBase ∧ fdOf i - fsFdBase < fsMaxOpen := by
    have := i.isLt
    unfold fdOf fsMaxOpen
    omega
  unfold fdLookup
  rw [dif_pos h]
  have hi : (⟨(fdOf i - fsFdBase).toNat, by have := h.2; unfold fsMaxOpen at this; omega⟩ : Fin 8) =
      i := by
    ext
    simp [fdOf]
  simp only [hi]

lemma fdLookup_some {fd : ℤ} {i : Fin 8} (h : fdLookup s fd = some i) :
    fd = fdOf i ∧ (s.handles i).used = true := by
  unfold fdLookup at h
  split at h
  · simp only at h
    split_ifs at h with hu
    obtain rfl := Option.some.inj h
    refine ⟨?_, hu⟩
    unfold fdOf
    simp only
    omega
  · cases h

lemma fdOf_inj {i j : Fin 8} (h : fdOf i = fdOf j) : i = j := by
  unfold fdOf at h
  omega

/-- What `fs_close` does for a writable handle. -/
lemma fsClose_writer {i : Fin 8} (hu : (s.handles i).used = true)
    (hw : (s.handles i).writable = true) :
    (fsClose s (fdOf i)).1 = (fsWrite s.sb (s.handles i).name (s.handles i).type s.wbuf
        (s.handles i).wlen s.disk).1 ∧
      (fsClose s (fdOf i)).2.disk = (fsWrite s.sb (s.handles i).name (s.handles i).type s.wbuf
        (s.handles i).wlen s.disk).2 := by
  unfold fsClose
  rw [fdLookup_fdOf, if_pos hu]
  simp only
  rw [if_pos hw]
  exact ⟨rfl, rfl⟩

lemma freeHandle_some {i : Fin 8} (h : freeHandle s = some i) : (s.handles i).used = false := by
  simpa using List.find?_some h

lemma alone_of_otherWriter {i : Fin 8} (h : otherWriter s i = false) :
    ∀ j, j ≠ i → (s.handles j).used = true → (s.handles j).writable = false := by
  intro j hj hu
  unfold otherWriter at h
  rw [List.any_eq_false] at h
  simpa [hj, hu] using h j (List.mem_finRange j)

/-- A handle at another position. -/
def Handle.moveTo (h : Handle) (offset : ℕ) : Handle := { h with offset := offset }

@[simp] lemma Handle.moveTo_used (h : Handle) (n : ℕ) : (h.moveTo n).used = h.used := rfl
@[simp] lemma Handle.moveTo_writable (h : Handle) (n : ℕ) : (h.moveTo n).writable = h.writable := rfl
@[simp] lemma Handle.moveTo_lba (h : Handle) (n : ℕ) : (h.moveTo n).lba = h.lba := rfl
@[simp] lemma Handle.moveTo_size (h : Handle) (n : ℕ) : (h.moveTo n).size = h.size := rfl
@[simp] lemma Handle.moveTo_offset (h : Handle) (n : ℕ) : (h.moveTo n).offset = n := rfl

/-- A handle that stays where it is changes nothing. -/
lemma State.setHandle_stay (s : State) (i : Fin 8) :
    s.setHandle i ((s.handles i).moveTo (s.handles i).offset) = s := by
  change s.setHandle i (s.handles i) = s
  unfold State.setHandle
  congr 1
  funext j
  by_cases h : j = i <;> simp [h]

/-! ### Reading from a file -/

/-- **The loop of `fs_read_fd` copies a piece of the file.** -/
theorem readFdLoop_working {d : Disk} (hw : d.Working) (lba offset n done : ℕ) (buf : Mem)
    (hn : offset + n < 4294967296) (hdone : done ≤ n) :
    readFdLoop lba offset n done buf d =
      (n, true, buf.blit done (n - done) fun i => fileByte d lba (offset + done + i), d) := by
  induction h : n - done using Nat.strong_induction_on generalizing done buf with
  | _ r ih =>
    subst h
    rw [readFdLoop]
    by_cases hlt : done < n
    · rw [if_pos hlt]
      simp only [hw.read, u32_of_lt (show offset + done < 4294967296 by omega)]
      -- one step copies `take` bytes out of one sector
      set pos := offset + done with hpos
      set take := if 512 - pos % 512 > n - done then n - done else 512 - pos % 512 with htake
      have h1 : 0 < take := by rw [htake]; split_ifs <;> omega
      have h2 : take ≤ n - done := by rw [htake]; split_ifs <;> omega
      have h3 : take ≤ 512 - pos % 512 := by rw [htake]; split_ifs <;> omega
      rw [ih (n - (done + take)) (by omega) (done + take) _ (by omega) rfl]
      congr 3
      rw [Mem.blit_blit _ _ _ _ _ _ (fun i => fileByte d lba (pos + i)) (fun i hi => ?_)
        (fun i _ => ?_)]
      · rw [show take + (n - (done + take)) = n - done by omega]
      · unfold fileByte
        rw [show (pos + i) / 512 = pos / 512 by omega, show (pos + i) % 512 = pos % 512 + i by omega]
      · rw [show offset + (done + take) + i = pos + (take + i) by omega]
    · rw [if_neg hlt, show n - done = 0 by omega, Mem.blit_zero, show done = n by omega]

lemma available_eq (offset size : ℕ) : available offset size = size - offset := by
  unfold available
  split_ifs <;> omega

/-- A read handle: the file it streams, and its position. -/
structure Reads (s : State) (i : Fin 8) (lba size offset : ℕ) : Prop where
  used : (s.handles i).used = true
  reads : (s.handles i).writable = false
  lba_eq : (s.handles i).lba = lba
  size_eq : (s.handles i).size = size
  offset_eq : (s.handles i).offset = offset

/-- **`fs_read_fd` on a read handle** delivers the next bytes of the file and moves on by their
number. -/
theorem fsReadFd_reads (hw : s.disk.Working) {i : Fin 8} {lba size offset : ℕ}
    (h : Reads s i lba size offset) (hsize : size < 2147483648) (buf : Mem) (n : ℕ) :
    fsReadFd s (fdOf i) buf n =
      (((min n (size - offset) : ℕ) : ℤ),
        buf.blit 0 (min n (size - offset)) fun j => fileByte s.disk lba (offset + j),
        s.setHandle i ((s.handles i).moveTo (offset + min n (size - offset)))) := by
  obtain ⟨hu, hwr, rfl, rfl, rfl⟩ := h
  unfold fsReadFd
  rw [fdLookup_fdOf, if_pos hu]
  have hstay := s.setHandle_stay i
  set h := s.handles i with hh
  have hmin : (if n > h.size - h.offset then h.size - h.offset else n) =
      min n (h.size - h.offset) := by
    split_ifs <;> omega
  simp only [available_eq, ← hh]
  rw [if_neg (by simp [hwr]), hmin]
  set k := min n (h.size - h.offset) with hk
  by_cases h0 : k = 0
  · rw [if_pos h0, h0, Mem.blit_zero, Nat.add_zero, hstay]
    rfl
  · rw [if_neg h0, readFdLoop_working hw _ _ _ _ _ (by omega) (Nat.zero_le _)]
    simp only [Nat.sub_zero, Nat.add_zero]
    rw [i32_of_lt (by omega), u32_of_lt (by omega)]
    rfl

/-- A read on a read handle at most moves it. -/
lemma fsReadFd_moves (hw : s.disk.Working) {fd : ℤ} {i : Fin 8} (hi : fdLookup s fd = some i)
    (hr : (s.handles i).writable = false) (buf : Mem) (n : ℕ) :
    (fsReadFd s fd buf n).2.2 = s ∨
      ∃ o, (fsReadFd s fd buf n).2.2 = s.setHandle i ((s.handles i).moveTo o) := by
  unfold fsReadFd
  rw [hi]
  simp only
  generalize (if n > available (s.handles i).offset (s.handles i).size then
    available (s.handles i).offset (s.handles i).size else n) = k
  rw [if_neg (by simp [hr])]
  have hd := readFdLoop_disk hw (s.handles i).lba (s.handles i).offset k 0 buf
  split_ifs
  · exact Or.inl rfl
  · generalize readFdLoop (s.handles i).lba (s.handles i).offset k 0 buf s.disk = r at hd ⊢
    obtain ⟨done, ok, buf', d⟩ := r
    simp only at hd
    subst hd
    cases ok with
    | false => exact Or.inl rfl
    | true => exact Or.inr ⟨_, rfl⟩

/-- Read from a handle, one call after the other: the bytes delivered, and the state after it. -/
def readSeq (s : State) (fd : ℤ) : List ℕ → List UInt8 × State
  | [] => ([], s)
  | n :: ns =>
    let (rc, buf, s) := fsReadFd s fd (fun _ => 0) n
    let (out, s) := readSeq s fd ns
    ((List.range rc.toNat).map buf ++ out, s)

/-- **A read handle delivers its file**, whatever the sizes of the pieces. -/
theorem readSeq_reads (hw : s.disk.Working) {i : Fin 8} {lba size offset : ℕ}
    (h : Reads s i lba size offset) (hsize : size < 2147483648) (ns : List ℕ) :
    (readSeq s (fdOf i) ns).1 =
      (List.range (min ns.sum (size - offset))).map fun j => fileByte s.disk lba (offset + j) := by
  induction ns generalizing s offset with
  | nil => simp [readSeq]
  | cons n ns ih =>
    simp only [readSeq, List.sum_cons]
    rw [fsReadFd_reads hw h hsize]
    set k := min n (size - offset) with hk
    have hnext : Reads (s.setHandle i ((s.handles i).moveTo (offset + k))) i lba size
        (offset + k) := by
      obtain ⟨hu, hwr, hl, hs, -⟩ := h
      exact ⟨by simpa using hu, by simpa using hwr, by simpa using hl, by simpa using hs, by simp⟩
    simp only
    rw [ih (s := s.setHandle i _) hw hnext]
    rw [show min (n + ns.sum) (size - offset) = k + min ns.sum (size - (offset + k)) by omega,
      List.range_add, List.map_append, List.map_map]
    congr 1
    · refine List.map_congr_left fun j hj => ?_
      have hj' : j < k := by simpa using hj
      rw [Mem.blit_of_in _ _ (by omega) (by omega), Nat.sub_zero]
    · refine List.map_congr_left fun j _ => ?_
      simp only [State.setHandle_disk, Function.comp_apply]
      rw [Nat.add_assoc]

/-! ### Opening a file -/

/-- `fs_open` on a working disk. -/
theorem fsOpen_working (hw : s.disk.Working) (name : CStr) (flags : ℕ) :
    fsOpen s name flags =
      if name.length ≥ fsMaxName then (-1, s)
      else
        let e := (slotOf s.sb s.disk name).map (entry s.sb s.disk)
        if e.isNone && !flagSet flags fsOCreat then (-1, s)
        else if e.map FileEntry.type = some fsDir then (-1, s)
        else
          match freeHandle s with
          | none => (-1, s)
          | some i =>
            if flagSet flags (fsOWronly ||| fsORdwr) then openWriter s i name flags e
            else openReader s i name e := by
  unfold fsOpen
  rewrite [fsFind_working hw]
  rfl

/-- **All that `fs_open` does**: it fails and leaves the handles alone, or it sets up a handle in the
first free slot. -/
theorem fsOpen_cases (hw : s.disk.Working) (name : CStr) (flags : ℕ) :
    fsOpen s name flags = (-1, s) ∨
      ∃ i, freeHandle s = some i ∧ name.length < fsMaxName ∧
        (slotOf s.sb s.disk name = none → flagSet flags fsOCreat = true) ∧
        (∀ k, slotOf s.sb s.disk name = some k → (entry s.sb s.disk k).type ≠ fsDir) ∧
        fsOpen s name flags =
          if flagSet flags (fsOWronly ||| fsORdwr) then
            openWriter s i name flags ((slotOf s.sb s.disk name).map (entry s.sb s.disk))
          else openReader s i name ((slotOf s.sb s.disk name).map (entry s.sb s.disk)) := by
  rw [fsOpen_working hw]
  simp only
  by_cases h1 : name.length ≥ fsMaxName
  · exact Or.inl (if_pos h1)
  rw [if_neg h1]
  by_cases h2 : (((slotOf s.sb s.disk name).map (entry s.sb s.disk)).isNone &&
      !flagSet flags fsOCreat) = true
  · exact Or.inl (if_pos h2)
  rw [if_neg h2]
  by_cases h3 : ((slotOf s.sb s.disk name).map (entry s.sb s.disk)).map FileEntry.type = some fsDir
  · exact Or.inl (if_pos h3)
  rw [if_neg h3]
  cases hi : freeHandle s with
  | none => exact Or.inl rfl
  | some i =>
    refine Or.inr ⟨i, rfl, not_le.mp h1, fun h => ?_, fun k h => ?_, rfl⟩
    · simpa [h] using h2
    · simpa [h] using h3

/-- **`fs_open` for reading** an existing file gives a read handle at its start. -/
theorem fsOpen_reads (hw : s.disk.Working) {name : CStr} {flags : ℕ}
    (hflags : flagSet flags (fsOWronly ||| fsORdwr) = false) {k : ℕ}
    (hk : slotOf s.sb s.disk name = some k) (hfd : 0 ≤ (fsOpen s name flags).1) :
    ∃ i, (fsOpen s name flags).1 = fdOf i ∧
      Reads (fsOpen s name flags).2 i (entry s.sb s.disk k).lba (entry s.sb s.disk k).size 0 := by
  rcases fsOpen_cases hw name flags with h | ⟨i, -, -, -, -, h⟩
  · rw [h] at hfd
    simp at hfd
  · rw [h, hflags, hk]
    simp only [Bool.false_eq_true, if_false, Option.map_some, openReader]
    exact ⟨i, rfl, by simp, by simp [Handle.zero], by simp, by simp, by simp [Handle.zero]⟩

end LunariaOS.Fs
