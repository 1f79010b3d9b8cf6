import LunariaOS.Fs.Streams
import LunariaOS.Fs.WellFormed

/-!
The handle table, whatever the disk does.

The other files about handles assume a disk on which every transfer succeeds. Here a transfer may
fail at any point, and what is shown is the bookkeeping: which descriptors are out, that one handle
at most is writable, and that the code stays inside the buffer. A byte of the buffer counts as not
touched when no call changes it and no result depends on it.
-/

namespace LunariaOS.Fs

open LunariaOS.Lib

variable {s : State}

/-! ### Where the loops read and write -/

/-- `readLoop` overwrites the bytes it is asked for and reads none. -/
lemma readLoop_congr {P : ℕ → Prop} (lba off remaining : ℕ) {buf buf' : Mem} (d : Disk)
    (h : ∀ x, P x → buf' x = buf x) :
    ∃ w, readLoop lba off remaining buf' d =
        ((readLoop lba off remaining buf d).1, w, (readLoop lba off remaining buf d).2.2) ∧
      ∀ x, P x → w x = (readLoop lba off remaining buf d).2.1 x := by
  induction remaining using Nat.strong_induction_on generalizing off buf buf' d with
  | _ remaining ih =>
    rw [readLoop, readLoop]
    by_cases h0 : remaining = 0
    · rw [if_pos h0, if_pos h0]
      exact ⟨buf', rfl, h⟩
    · rw [if_neg h0, if_neg h0]
      cases hr : ataReadSectors d (u32 (lba + off / 512)) with
      | mk r d' =>
        cases r with
        | none => exact ⟨buf', rfl, h⟩
        | some sec =>
          apply ih
          · split <;> omega
          · intro x hx
            exact Mem.blit_agree (h x hx) _ _ _

lemma readLoop_out (lba off remaining : ℕ) (buf : Mem) (d : Disk) {x : ℕ}
    (hx : off + remaining ≤ x) : (readLoop lba off remaining buf d).2.1 x = buf x := by
  induction remaining using Nat.strong_induction_on generalizing off buf d with
  | _ remaining ih =>
    rw [readLoop]
    by_cases h0 : remaining = 0
    · rw [if_pos h0]
    · rw [if_neg h0]
      cases hr : ataReadSectors d (u32 (lba + off / 512)) with
      | mk r d' =>
        cases r with
        | none => rfl
        | some sec =>
          have hn : (if remaining < 512 then remaining else 512) ≤ remaining := by split <;> omega
          refine (ih _ ?_ _ _ d' (by omega)).trans (Mem.blit_of_out _ _ (by omega))
          split <;> omega

lemma fsRead_congr {P : ℕ → Prop} (sb : Superblock) (name : CStr) {buf buf' : Mem} (max : ℕ)
    (d : Disk) (h : ∀ x, P x → buf' x = buf x) :
    ∃ w, fsRead sb name buf' max d =
        ((fsRead sb name buf max d).1, w, (fsRead sb name buf max d).2.2) ∧
      ∀ x, P x → w x = (fsRead sb name buf max d).2.1 x := by
  unfold fsRead
  cases hf : fsFind sb name d with
  | mk e d' =>
    cases e with
    | none => exact ⟨buf', rfl, h⟩
    | some e =>
      simp only
      by_cases hsize : e.size > max
      · rw [if_pos hsize, if_pos hsize]
        exact ⟨buf', rfl, h⟩
      · rw [if_neg hsize, if_neg hsize]
        obtain ⟨w, hw, heq⟩ := readLoop_congr e.lba 0 e.size d' h
        rw [hw]
        cases hl : readLoop e.lba 0 e.size buf d' with
        | mk ok r =>
          rw [hl] at heq
          cases ok with
          | false => exact ⟨w, rfl, heq⟩
          | true => exact ⟨w, rfl, heq⟩

lemma fsRead_out (sb : Superblock) (name : CStr) (buf : Mem) (max : ℕ) (d : Disk) {x : ℕ}
    (hx : max ≤ x) : (fsRead sb name buf max d).2.1 x = buf x := by
  unfold fsRead
  cases hf : fsFind sb name d with
  | mk e d' =>
    cases e with
    | none => rfl
    | some e =>
      simp only
      by_cases hsize : e.size > max
      · rw [if_pos hsize]
      · rw [if_neg hsize]
        have hout : (readLoop e.lba 0 e.size buf d').2.1 x = buf x :=
          readLoop_out e.lba 0 e.size buf d' (by omega)
        cases hl : readLoop e.lba 0 e.size buf d' with
        | mk ok r =>
          rw [hl] at hout
          cases ok with
          | false => exact hout
          | true => exact hout

/-- A write depends on the bytes of the file only. -/
lemma padSector_congr {data data' : Mem} {size : ℕ} (h : ∀ x < size, data' x = data x) (k : ℕ) :
    padSector data' size k = padSector data size k := by
  unfold padSector
  refine Mem.blit_congr _ fun i hi => h _ ?_
  split at hi <;> omega

lemma writeLoop_congr {data data' : Mem} {size : ℕ} (h : ∀ x < size, data' x = data x)
    (lba n k : ℕ) (d : Disk) : writeLoop lba data' size n k d = writeLoop lba data size n k d := by
  induction n generalizing k d with
  | zero => rfl
  | succ n ih =>
    rw [writeLoop, writeLoop, padSector_congr h]
    cases ataWriteSectors d (u32 (lba + k)) (padSector data size k) with
    | mk ok d' =>
      cases ok with
      | false => rfl
      | true => exact ih (k + 1) d'

lemma fsWrite_congr {data data' : Mem} {size : ℕ} (h : ∀ x < size, data' x = data x)
    (sb : Superblock) (name : CStr) (type : UInt8) (d : Disk) :
    fsWrite sb name type data' size d = fsWrite sb name type data size d := by
  have hentry : writeEntry sb name type data' size d = writeEntry sb name type data size d := by
    unfold writeEntry
    simp only [writeLoop_congr h]
  rw [fsWrite, fsWrite, hentry]

/-! ### What each function does to the table -/

/-- The outcome of `fs_open`: it fails before it takes a slot, or it takes the free slot `i`, which
it gives back when it fails. It reads into the buffer only when no handle is writable. -/
def Opened (s : State) (rc : ℤ) (s' : State) : Prop :=
  (rc = -1 ∧ ∃ d, s' = { s with disk := d }) ∨
  ∃ i hd w d, (s.handles i).used = false ∧ s' = { s with disk := d, wbuf := w }.setHandle i hd ∧
    (∀ x, fdBufSize ≤ x → w x = s.wbuf x) ∧ (w = s.wbuf ∨ otherWriter s i = false) ∧
    ((rc = -1 ∧ hd.used = false) ∨
      (rc = fdOf i ∧ hd.used = true ∧
        (hd.writable = true → otherWriter s i = false ∧ hd.wlen ≤ fdBufSize)))

lemma openReader_opened {i : Fin 8} (hi : (s.handles i).used = false) (name : CStr)
    (e : Option FileEntry) (d : Disk) :
    Opened s (openReader { s with disk := d } i name e).1
      (openReader { s with disk := d } i name e).2 := by
  cases e with
  | none =>
    refine Or.inr ⟨i, _, s.wbuf, d, hi, rfl, fun _ _ => rfl, Or.inl rfl, Or.inr ⟨rfl, rfl, ?_⟩⟩
    intro hw
    cases hw
  | some e =>
    refine Or.inr ⟨i, _, s.wbuf, d, hi, rfl, fun _ _ => rfl, Or.inl rfl, Or.inr ⟨rfl, rfl, ?_⟩⟩
    intro hw
    cases hw

lemma openWriter_opened {i : Fin 8} (hi : (s.handles i).used = false) (name : CStr) (flags : ℕ)
    (e : Option FileEntry) (d : Disk) :
    Opened s (openWriter { s with disk := d } i name flags e).1
      (openWriter { s with disk := d } i name flags e).2 := by
  have hother : otherWriter { s with disk := d } i = otherWriter s i := rfl
  unfold openWriter
  simp only [hother]
  by_cases ho : otherWriter s i = true
  · rw [if_pos ho]
    exact Or.inr ⟨i, _, s.wbuf, d, hi, rfl, fun _ _ => rfl, Or.inl rfl, Or.inl ⟨rfl, rfl⟩⟩
  · have halone : otherWriter s i = false := by simpa using ho
    rw [if_neg ho]
    cases (if flagSet flags fsOTrunc then none else e) with
    | none =>
      exact Or.inr ⟨i, _, s.wbuf, d, hi, rfl, fun _ _ => rfl, Or.inl rfl,
        Or.inr ⟨rfl, rfl, fun _ => ⟨halone, Nat.zero_le _⟩⟩⟩
    | some e =>
      simp only
      by_cases hbig : e.size > fdBufSize
      · rw [if_pos hbig]
        exact Or.inr ⟨i, _, s.wbuf, d, hi, rfl, fun _ _ => rfl, Or.inl rfl, Or.inl ⟨rfl, rfl⟩⟩
      · rw [if_neg hbig]
        have hout : ∀ x, fdBufSize ≤ x → (fsRead s.sb name s.wbuf fdBufSize d).2.1 x = s.wbuf x :=
          fun x hx => fsRead_out s.sb name s.wbuf fdBufSize d hx
        by_cases hrc : (fsRead s.sb name s.wbuf fdBufSize d).1 < 0
        · rw [if_pos hrc]
          exact Or.inr ⟨i, _, _, _, hi, rfl, hout, Or.inr halone, Or.inl ⟨rfl, rfl⟩⟩
        · rw [if_neg hrc]
          exact Or.inr ⟨i, _, _, _, hi, rfl, hout, Or.inr halone,
            Or.inr ⟨rfl, rfl, fun _ => ⟨halone, Nat.le_of_not_lt hbig⟩⟩⟩

theorem fsOpen_opened (s : State) (name : CStr) (flags : ℕ) :
    Opened s (fsOpen s name flags).1 (fsOpen s name flags).2 := by
  unfold fsOpen
  by_cases hlen : name.length ≥ fsMaxName
  · rw [if_pos hlen]
    exact Or.inl ⟨rfl, s.disk, rfl⟩
  · rw [if_neg hlen]
    cases hf : fsFind s.sb name s.disk with
    | mk e d =>
      have hfree : freeHandle { s with disk := d } = freeHandle s := rfl
      simp only [hfree]
      split_ifs with h1 h2
      · exact Or.inl ⟨rfl, d, rfl⟩
      · exact Or.inl ⟨rfl, d, rfl⟩
      · cases hi : freeHandle s with
        | none => exact Or.inl ⟨rfl, d, rfl⟩
        | some i => exact openWriter_opened (freeHandle_some hi) name flags e d
      · cases hi : freeHandle s with
        | none => exact Or.inl ⟨rfl, d, rfl⟩
        | some i => exact openReader_opened (freeHandle_some hi) name e d

/-- `fs_read_fd` moves the handle that it reads, at most. -/
lemma fsReadFd_moved (s : State) (fd : ℤ) (buf : Mem) (n : ℕ) :
    (fsReadFd s fd buf n).2.2 = { s with disk := (fsReadFd s fd buf n).2.2.disk } ∨
    ∃ i off, fdLookup s fd = some i ∧ (fsReadFd s fd buf n).2.2 =
      { s with disk := (fsReadFd s fd buf n).2.2.disk }.setHandle i
        ((s.handles i).moveTo off) := by
  unfold fsReadFd
  cases hi : fdLookup s fd with
  | none => exact Or.inl rfl
  | some i =>
    simp only
    by_cases hw : (s.handles i).writable = true
    · rw [if_pos hw]
      exact Or.inr ⟨i, _, rfl, rfl⟩
    · rw [if_neg hw]
      split_ifs with h1 h0
      · exact Or.inl rfl
      · generalize readFdLoop _ _ _ _ _ _ = r
        obtain ⟨done, ok, buf', d⟩ := r
        cases ok with
        | false => exact Or.inl rfl
        | true => exact Or.inr ⟨i, _, rfl, rfl⟩
      · exact Or.inl rfl
      · generalize readFdLoop _ _ _ _ _ _ = r
        obtain ⟨done, ok, buf', d⟩ := r
        cases ok with
        | false => exact Or.inl rfl
        | true => exact Or.inr ⟨i, _, rfl, rfl⟩

/-- `fs_seek` moves one handle, at most. -/
lemma fsSeek_moved (s : State) (fd off whence : ℤ) :
    (fsSeek s fd off whence).2 = s ∨ ∃ i pos, fdLookup s fd = some i ∧
      (fsSeek s fd off whence).2 = s.setHandle i ((s.handles i).moveTo pos) := by
  unfold fsSeek
  cases hi : fdLookup s fd with
  | none => exact Or.inl rfl
  | some i =>
    simp only
    cases seekBase (s.handles i) whence with
    | none => exact Or.inl rfl
    | some base =>
      simp only
      split_ifs
      · exact Or.inl rfl
      · exact Or.inr ⟨i, _, rfl, rfl⟩

/-- `fs_write_fd` writes below the end of the buffer, and leaves the end of the file there. -/
lemma fsWriteFd_grown (s : State) (fd : ℤ) (buf : Mem) (n : ℕ) :
    (fsWriteFd s fd buf n).2 = s ∨ ∃ i hd w, fdLookup s fd = some i ∧
      (fsWriteFd s fd buf n).2 = { s with wbuf := w }.setHandle i hd ∧
      (∀ x, fdBufSize ≤ x → w x = s.wbuf x) ∧ hd.used = (s.handles i).used ∧
      hd.writable = (s.handles i).writable ∧
      (hd.wlen = (s.handles i).wlen ∨ hd.wlen ≤ fdBufSize) := by
  unfold fsWriteFd
  cases hi : fdLookup s fd with
  | none => exact Or.inl rfl
  | some i =>
    simp only
    by_cases hw : (!(s.handles i).writable) = true
    · rw [if_pos hw]
      exact Or.inl rfl
    · rw [if_neg hw]
      by_cases hfull : n > fdBufSize ∨ (s.handles i).offset > fdBufSize - n
      · rw [if_pos hfull]
        exact Or.inl rfl
      · rw [if_neg hfull]
        refine Or.inr ⟨i, _, _, rfl, rfl, fun x hx => ?_, rfl, rfl, ?_⟩
        · refine (Mem.blit_of_out _ _ ?_).trans ?_
          · omega
          · split_ifs
            · dsimp only
              exact Mem.blit_of_out _ _ (by omega)
            · rfl
            · rfl
        · dsimp only
          split_ifs
          · exact Or.inr (show (s.handles i).offset + n ≤ fdBufSize by omega)
          · exact Or.inr (show (s.handles i).offset + n ≤ fdBufSize by omega)
          · exact Or.inl rfl

/-- The state with the handle number `i` given back. -/
def State.release (s : State) (i : Fin 8) : State :=
  s.setHandle i { s.handles i with used := false }

/-- `fs_close` gives the handle back, whether or not the write succeeds. -/
lemma fsClose_released (s : State) (fd : ℤ) :
    (fdLookup s fd = none ∧ fsClose s fd = (-1, s)) ∨
    ∃ i d, fdLookup s fd = some i ∧ (fsClose s fd).2 = { s with disk := d }.release i := by
  unfold fsClose
  cases hi : fdLookup s fd with
  | none => exact Or.inl ⟨rfl, rfl⟩
  | some i =>
    simp only
    split_ifs
    · exact Or.inr ⟨i, _, rfl, rfl⟩
    · exact Or.inr ⟨i, s.disk, rfl, rfl⟩

/-- The loop of `fs_close_all` over some of the handles. -/
def closeEach (s : State) (l : List (Fin 8)) : State :=
  l.foldl (fun s i => if (s.handles i).used then (fsClose s (fdOf i)).2 else s) s

lemma closeEach_cons (s : State) (i : Fin 8) (l : List (Fin 8)) :
    closeEach s (i :: l) =
      closeEach (if (s.handles i).used then (fsClose s (fdOf i)).2 else s) l := rfl

lemma close_if_used (s : State) (i : Fin 8) :
    ∃ d, (if (s.handles i).used then (fsClose s (fdOf i)).2 else s) =
      { s with disk := d }.release i := by
  by_cases hu : (s.handles i).used = true
  · rw [if_pos hu]
    rcases fsClose_released s (fdOf i) with ⟨hno, -⟩ | ⟨j, d, hj, e⟩
    · rw [fdLookup_fdOf, if_pos hu] at hno
      cases hno
    · rw [fdLookup_fdOf, if_pos hu] at hj
      obtain rfl := Option.some.inj hj
      exact ⟨d, e⟩
  · rw [if_neg hu]
    have hfree : { s.handles i with used := false } = s.handles i := by
      cases h : s.handles i with
      | mk used =>
        rw [h] at hu
        simpa using hu
    refine ⟨s.disk, ?_⟩
    unfold State.release
    rw [hfree]
    exact (s.setHandle_stay i).symm

/-- **`fs_close_all` gives every handle back** and changes nothing else in the table. -/
lemma closeEach_eq (s : State) (l : List (Fin 8)) :
    ∃ d, closeEach s l = { s with
      disk := d
      handles := fun i => if i ∈ l then { s.handles i with used := false } else s.handles i } := by
  induction l generalizing s with
  | nil => exact ⟨s.disk, by simp [closeEach]⟩
  | cons i l ih =>
    obtain ⟨d, hd⟩ := close_if_used s i
    obtain ⟨d', hd'⟩ := ih ({ s with disk := d }.release i)
    rw [closeEach_cons, hd, hd']
    refine ⟨d', ?_⟩
    congr 1
    funext j
    by_cases hji : j = i
    · subst hji
      simp [State.release]
    · simp [State.release, State.setHandle, hji]

lemma fsCloseAll_eq (s : State) :
    ∃ d, fsCloseAll s =
      { s with disk := d, handles := fun i => { s.handles i with used := false } } := by
  obtain ⟨d, hd⟩ := closeEach_eq s (List.finRange 8)
  exact ⟨d, by simpa [fsCloseAll, closeEach] using hd⟩

/-! ### The calls on handles -/

/-- A call on the handles. A read delivers into the buffer `buf`. -/
inductive Op where
  | openFd (name : CStr) (flags : ℕ)
  | readFd (fd : ℤ) (buf : Mem) (n : ℕ)
  | writeFd (fd : ℤ) (buf : Mem) (n : ℕ)
  | seek (fd off whence : ℤ)
  | close (fd : ℤ)
  | closeAll

/-- The value returned, the buffer that was read into, and the state after the call. -/
def Op.exec (s : State) : Op → (ℤ × Option Mem) × State
  | .openFd name flags => let (rc, s) := fsOpen s name flags; ((rc, none), s)
  | .readFd fd buf n => let (rc, buf, s) := fsReadFd s fd buf n; ((rc, some buf), s)
  | .writeFd fd buf n => let (rc, s) := fsWriteFd s fd buf n; ((rc, none), s)
  | .seek fd off whence => let (rc, s) := fsSeek s fd off whence; ((rc, none), s)
  | .close fd => let (rc, s) := fsClose s fd; ((rc, none), s)
  | .closeAll => ((0, none), fsCloseAll s)

/-- The descriptor that a call is on. -/
def Op.fd : Op → Option ℤ
  | .readFd fd _ _ => some fd
  | .writeFd fd _ _ => some fd
  | .seek fd _ _ => some fd
  | .close fd => some fd
  | _ => none

/-- The handle number `i` is in use and writable. -/
def State.Writer (s : State) (i : Fin 8) : Prop :=
  (s.handles i).used = true ∧ (s.handles i).writable = true

/-- At most one handle is writable, and its file ends in the buffer. -/
structure State.OneWriter (s : State) : Prop where
  unique : ∀ i j, s.Writer i → s.Writer j → i = j
  wlen_le : ∀ i, s.Writer i → (s.handles i).wlen ≤ fdBufSize

/-- The call stays inside the buffer: it changes nothing past the end, and nothing that it returns or
leaves behind below the end depends on what is there. -/
def Op.Inside (s : State) (o : Op) : Prop :=
  (∀ x, fdBufSize ≤ x → (o.exec s).2.wbuf x = s.wbuf x) ∧
  ∀ w, (∀ x, x < fdBufSize → w x = s.wbuf x) →
    ∃ w', o.exec { s with wbuf := w } = ((o.exec s).1, { (o.exec s).2 with wbuf := w' }) ∧
      ∀ x, x < fdBufSize → w' x = (o.exec s).2.wbuf x

/-! ### Staying inside the buffer -/

lemma fsOpen_inside (s : State) (name : CStr) (flags : ℕ) {w : Mem}
    (h : ∀ x, x < fdBufSize → w x = s.wbuf x) :
    ∃ w', fsOpen { s with wbuf := w } name flags =
        ((fsOpen s name flags).1, { (fsOpen s name flags).2 with wbuf := w' }) ∧
      ∀ x, x < fdBufSize → w' x = (fsOpen s name flags).2.wbuf x := by
  unfold fsOpen
  by_cases hlen : name.length ≥ fsMaxName
  · rw [if_pos hlen, if_pos hlen]
    exact ⟨w, rfl, h⟩
  rw [if_neg hlen, if_neg hlen]
  cases hf : fsFind s.sb name s.disk with
  | mk e d =>
    simp only
    by_cases h1 : (e.isNone && !flagSet flags fsOCreat) = true
    · rw [if_pos h1, if_pos h1]
      exact ⟨w, rfl, h⟩
    rw [if_neg h1, if_neg h1]
    by_cases h2 : e.map FileEntry.type = some fsDir
    · rw [if_pos h2, if_pos h2]
      exact ⟨w, rfl, h⟩
    rw [if_neg h2, if_neg h2]
    have hfree : ∀ w, freeHandle { s with disk := d, wbuf := w } = freeHandle s := fun _ => rfl
    have hfree' : freeHandle { s with disk := d } = freeHandle s := rfl
    rw [hfree, hfree']
    cases freeHandle s with
    | none => exact ⟨w, rfl, h⟩
    | some i =>
      simp only
      by_cases h3 : flagSet flags (fsOWronly ||| fsORdwr) = true
      · rw [if_pos h3, if_pos h3]
        have hother : ∀ w, otherWriter { s with disk := d, wbuf := w } i = otherWriter s i :=
          fun _ => rfl
        unfold openWriter
        simp only [hother]
        by_cases ho : otherWriter s i = true
        · rw [if_pos ho, if_pos ho]
          exact ⟨w, rfl, h⟩
        rw [if_neg ho, if_neg ho]
        cases (if flagSet flags fsOTrunc then none else e) with
        | none => exact ⟨w, rfl, h⟩
        | some e =>
          simp only
          by_cases hbig : e.size > fdBufSize
          · rw [if_pos hbig, if_pos hbig]
            exact ⟨w, rfl, h⟩
          rw [if_neg hbig, if_neg hbig]
          obtain ⟨w', hw', heq⟩ := fsRead_congr s.sb name fdBufSize d h
          rw [hw']
          simp only
          by_cases hrc : (fsRead s.sb name s.wbuf fdBufSize d).1 < 0
          · rw [if_pos hrc, if_pos hrc]
            exact ⟨w', rfl, heq⟩
          · rw [if_neg hrc, if_neg hrc]
            exact ⟨w', rfl, heq⟩
      · rw [if_neg h3, if_neg h3]
        cases e with
        | none => exact ⟨w, rfl, h⟩
        | some e => exact ⟨w, rfl, h⟩

/-- A read of the writable handle takes bytes below the end of its file. -/
lemma fsReadFd_inside (hs : s.OneWriter) (fd : ℤ) (buf : Mem) (n : ℕ) {w : Mem}
    (h : ∀ x, x < fdBufSize → w x = s.wbuf x) :
    fsReadFd { s with wbuf := w } fd buf n =
      ((fsReadFd s fd buf n).1, (fsReadFd s fd buf n).2.1,
        { (fsReadFd s fd buf n).2.2 with wbuf := w }) ∧
      (fsReadFd s fd buf n).2.2.wbuf = s.wbuf := by
  have hlook : fdLookup { s with wbuf := w } fd = fdLookup s fd := rfl
  unfold fsReadFd
  rw [hlook]
  cases hi : fdLookup s fd with
  | none => exact ⟨rfl, rfl⟩
  | some i =>
    simp only
    by_cases hw : (s.handles i).writable = true
    · rw [if_pos hw, if_pos hw]
      have hwlen := hs.wlen_le i ⟨(fdLookup_some hi).2, hw⟩
      refine ⟨?_, rfl⟩
      congr 2
      refine Mem.blit_congr _ fun k hk => h _ ?_
      rw [available_eq] at hk
      split at hk <;> omega
    · rw [if_neg hw, if_neg hw]
      generalize (if n > _ then _ else n) = m
      by_cases h0 : m = 0
      · rw [if_pos h0, if_pos h0]
        exact ⟨rfl, rfl⟩
      · rw [if_neg h0, if_neg h0]
        generalize readFdLoop _ _ _ _ _ _ = r
        obtain ⟨done, ok, buf', d⟩ := r
        cases ok with
        | false => exact ⟨rfl, rfl⟩
        | true => exact ⟨rfl, rfl⟩

lemma fsWriteFd_inside (s : State) (fd : ℤ) (buf : Mem) (n : ℕ) {w : Mem}
    (h : ∀ x, x < fdBufSize → w x = s.wbuf x) :
    ∃ w', fsWriteFd { s with wbuf := w } fd buf n =
        ((fsWriteFd s fd buf n).1, { (fsWriteFd s fd buf n).2 with wbuf := w' }) ∧
      ∀ x, x < fdBufSize → w' x = (fsWriteFd s fd buf n).2.wbuf x := by
  have hlook : fdLookup { s with wbuf := w } fd = fdLookup s fd := rfl
  unfold fsWriteFd
  rw [hlook]
  cases hi : fdLookup s fd with
  | none => exact ⟨w, rfl, h⟩
  | some i =>
    simp only
    by_cases hw : (!(s.handles i).writable) = true
    · rw [if_pos hw, if_pos hw]
      exact ⟨w, rfl, h⟩
    rw [if_neg hw, if_neg hw]
    by_cases hfull : n > fdBufSize ∨ (s.handles i).offset > fdBufSize - n
    · rw [if_pos hfull, if_pos hfull]
      exact ⟨w, rfl, h⟩
    rw [if_neg hfull, if_neg hfull]
    by_cases hlong : (s.handles i).offset + n > (s.handles i).wlen
    · rw [if_pos hlong, if_pos hlong]
      refine ⟨_, rfl, fun x hx => ?_⟩
      refine Mem.blit_agree ?_ _ _ _
      dsimp only
      split_ifs
      · exact Mem.blit_agree (h x hx) _ _ _
      · exact h x hx
    · rw [if_neg hlong, if_neg hlong]
      refine ⟨_, rfl, fun x hx => ?_⟩
      exact Mem.blit_agree (h x hx) _ _ _

lemma fsSeek_inside (s : State) (fd off whence : ℤ) (w : Mem) :
    fsSeek { s with wbuf := w } fd off whence =
      ((fsSeek s fd off whence).1, { (fsSeek s fd off whence).2 with wbuf := w }) := by
  have hlook : fdLookup { s with wbuf := w } fd = fdLookup s fd := rfl
  unfold fsSeek
  rw [hlook]
  cases fdLookup s fd with
  | none => rfl
  | some i =>
    simp only
    cases seekBase (s.handles i) whence with
    | none => rfl
    | some base =>
      simp only
      split_ifs <;> rfl

/-- Closing a handle writes back bytes below the end of its file. -/
lemma fsClose_inside (hs : s.OneWriter) (fd : ℤ) {w : Mem}
    (h : ∀ x, x < fdBufSize → w x = s.wbuf x) :
    fsClose { s with wbuf := w } fd =
      ((fsClose s fd).1, { (fsClose s fd).2 with wbuf := w }) := by
  have hlook : fdLookup { s with wbuf := w } fd = fdLookup s fd := rfl
  unfold fsClose
  rw [hlook]
  cases hi : fdLookup s fd with
  | none => rfl
  | some i =>
    simp only
    by_cases hw : (s.handles i).writable = true
    · have hwlen := hs.wlen_le i ⟨(fdLookup_some hi).2, hw⟩
      rw [if_pos hw, if_pos hw, fsWrite_congr fun x hx => h x (by omega)]
      rfl
    · rw [if_neg hw, if_neg hw]
      rfl

lemma OneWriter.release (hs : s.OneWriter) (i : Fin 8) (d : Disk) :
    ({ s with disk := d }.release i).OneWriter := by
  have hwriter : ∀ j, ({ s with disk := d }.release i).Writer j → j ≠ i ∧ s.Writer j := by
    intro j hj
    by_cases hji : j = i
    · subst hji
      exact absurd hj.1 (by simp [State.release])
    · unfold State.Writer State.release at hj
      rw [State.setHandle_ne _ _ hji] at hj
      exact ⟨hji, hj⟩
  refine ⟨fun j k hj hk => hs.unique j k (hwriter j hj).2 (hwriter k hk).2, fun j hj => ?_⟩
  obtain ⟨hji, hw⟩ := hwriter j hj
  unfold State.release
  rw [State.setHandle_ne _ _ hji]
  exact hs.wlen_le j hw

lemma closeEach_inside (hs : s.OneWriter) {w : Mem} (h : ∀ x, x < fdBufSize → w x = s.wbuf x)
    (l : List (Fin 8)) :
    closeEach { s with wbuf := w } l = { closeEach s l with wbuf := w } := by
  induction l generalizing s with
  | nil => rfl
  | cons i l ih =>
    obtain ⟨d, hd⟩ := close_if_used s i
    rw [closeEach_cons, closeEach_cons, hd, ← ih (OneWriter.release hs i d) h, ← hd]
    congr 1
    by_cases hu : (s.handles i).used = true
    · rw [if_pos hu, if_pos hu, fsClose_inside hs _ h]
    · rw [if_neg hu, if_neg hu]

/-- **Every call stays inside the buffer.** -/
theorem Op.inside (hs : s.OneWriter) (o : Op) : o.Inside s := by
  cases o with
  | openFd name flags =>
    refine ⟨fun x hx => ?_, fun w hw => ?_⟩
    · change (fsOpen s name flags).2.wbuf x = s.wbuf x
      rcases fsOpen_opened s name flags with ⟨-, d, e⟩ | ⟨i, hd, w, d, -, e, hout, -⟩
      · rw [e]
      · rw [e]
        exact hout x hx
    · obtain ⟨w', e, heq⟩ := fsOpen_inside s name flags hw
      refine ⟨w', ?_, heq⟩
      simp only [Op.exec, e]
  | readFd fd buf n =>
    refine ⟨fun x _ => congrFun (fsReadFd_inside hs fd buf n fun _ _ => rfl).2 x, fun w hw => ?_⟩
    obtain ⟨e, hsame⟩ := fsReadFd_inside hs fd buf n hw
    refine ⟨w, ?_, fun x hx => ?_⟩
    · simp only [Op.exec, e]
    · simp only [Op.exec, hsame, hw x hx]
  | writeFd fd buf n =>
    refine ⟨fun x hx => ?_, fun w hw => ?_⟩
    · change (fsWriteFd s fd buf n).2.wbuf x = s.wbuf x
      rcases fsWriteFd_grown s fd buf n with e | ⟨i, hd, w, -, e, hout, -⟩
      · rw [e]
      · rw [e]
        exact hout x hx
    · obtain ⟨w', e, heq⟩ := fsWriteFd_inside s fd buf n hw
      refine ⟨w', ?_, heq⟩
      simp only [Op.exec, e]
  | seek fd off whence =>
    have hsame : (fsSeek s fd off whence).2.wbuf = s.wbuf := by
      rcases fsSeek_moved s fd off whence with e | ⟨i, pos, -, e⟩
      · rw [e]
      · rw [e]
        rfl
    refine ⟨fun x _ => congrFun hsame x, fun w hw => ⟨w, ?_, fun x hx => ?_⟩⟩
    · simp only [Op.exec, fsSeek_inside]
    · simp only [Op.exec, hsame, hw x hx]
  | close fd =>
    have hsame : (fsClose s fd).2.wbuf = s.wbuf := by
      rcases fsClose_released s fd with ⟨-, e⟩ | ⟨i, d, -, e⟩
      · rw [e]
      · rw [e]
        rfl
    refine ⟨fun x _ => congrFun hsame x, fun w hw => ⟨w, ?_, fun x hx => ?_⟩⟩
    · simp only [Op.exec, fsClose_inside hs fd hw]
    · simp only [Op.exec, hsame, hw x hx]
  | closeAll =>
    have hsame : (fsCloseAll s).wbuf = s.wbuf := by
      obtain ⟨d, e⟩ := fsCloseAll_eq s
      rw [e]
    refine ⟨fun x _ => congrFun hsame x, fun w hw => ⟨w, ?_, fun x hx => ?_⟩⟩
    · exact congrArg _ (closeEach_inside hs hw (List.finRange 8))
    · simp only [Op.exec, hsame, hw x hx]

/-! ### Runs -/

/-- The file system and the descriptors that a program has been given and has not closed. -/
structure Table where
  state : State
  held : List ℤ

/-- One call of a program. -/
def Table.step (t : Table) (o : Op) : Table where
  state := (o.exec t.state).2
  held :=
    match o with
    | .openFd name flags =>
      let fd := (fsOpen t.state name flags).1
      if fd = -1 then t.held else fd :: t.held
    | .close fd => t.held.erase fd
    | .closeAll => []
    | _ => t.held

/-- What holds of the table after every run. -/
structure Table.Ok (t : Table) : Prop where
  nodup : t.held.Nodup
  mem_iff : ∀ fd, fd ∈ t.held ↔ ∃ i, fd = fdOf i ∧ (t.state.handles i).used = true
  oneWriter : t.state.OneWriter

lemma fdOf_ne_neg (i : Fin 8) : fdOf i ≠ -1 := by
  unfold fdOf fsFdBase
  omega

/-- The table after a call that only moves or grows handles. -/
lemma Table.Ok.same {t : Table} (h : t.Ok) {s : State}
    (hused : ∀ i, (s.handles i).used = (t.state.handles i).used)
    (hwr : ∀ i, (s.handles i).writable = (t.state.handles i).writable)
    (hwlen : ∀ i, (s.handles i).wlen = (t.state.handles i).wlen ∨ (s.handles i).wlen ≤ fdBufSize) :
    Table.Ok { state := s, held := t.held } := by
  have hwriter : ∀ i, s.Writer i → t.state.Writer i := by
    intro i hi
    unfold State.Writer at hi ⊢
    rwa [← hused, ← hwr]
  refine ⟨h.nodup, fun fd => ?_, fun i j hi hj => ?_, fun i hi => ?_⟩
  · simp only [hused]
    exact h.mem_iff fd
  · exact h.oneWriter.unique i j (hwriter i hi) (hwriter j hj)
  · rcases hwlen i with e | hle
    · rw [e]
      exact h.oneWriter.wlen_le i (hwriter i hi)
    · exact hle

/-- A handle that is set anew with the same flags. -/
lemma Table.Ok.setHandle {t : Table} (h : t.Ok) {i : Fin 8} {hd : Handle} (d : Disk) (w : Mem)
    (hu : hd.used = (t.state.handles i).used) (hw : hd.writable = (t.state.handles i).writable)
    (hl : hd.wlen = (t.state.handles i).wlen ∨ hd.wlen ≤ fdBufSize) :
    Table.Ok { state := { t.state with disk := d, wbuf := w }.setHandle i hd, held := t.held } := by
  have key : ∀ j, ({ t.state with disk := d, wbuf := w }.setHandle i hd).handles j =
      if j = i then hd else t.state.handles j := fun j => rfl
  refine h.same (fun j => ?_) (fun j => ?_) fun j => ?_
  · rw [key]
    split_ifs with e
    · rw [e, hu]
    · rfl
  · rw [key]
    split_ifs with e
    · rw [e, hw]
    · rfl
  · rw [key]
    split_ifs with e
    · rw [e]
      exact hl
    · exact Or.inl rfl

/-- An open that fails gives nothing out, and one that succeeds a descriptor that is not out. -/
lemma Table.Ok.openFd {t : Table} (h : t.Ok) (name : CStr) (flags : ℕ) :
    (t.step (.openFd name flags)).Ok := by
  have hstate : (t.step (.openFd name flags)).state = (fsOpen t.state name flags).2 := rfl
  have hheld : (t.step (.openFd name flags)).held =
      if (fsOpen t.state name flags).1 = -1 then t.held
      else (fsOpen t.state name flags).1 :: t.held := rfl
  rcases fsOpen_opened t.state name flags with
    ⟨hrc, d, e⟩ | ⟨i, hd, w, d, hfree, e, -, -, ⟨hrc, hu⟩ | ⟨hrc, hu, hw⟩⟩
  · rw [hrc, if_pos rfl] at hheld
    have := h.same (s := { t.state with disk := d }) (fun _ => rfl) (fun _ => rfl)
      fun _ => Or.inl rfl
    rwa [← e, ← hstate, ← hheld] at this
  · -- the slot was free and is free again, with other fields
    rw [hrc, if_pos rfl] at hheld
    have hwriter : ∀ j, (fsOpen t.state name flags).2.Writer j → j ≠ i ∧ t.state.Writer j := by
      intro j hj
      rw [e] at hj
      by_cases hji : j = i
      · subst hji
        have := hj.1
        rw [State.setHandle_same, hu] at this
        cases this
      · unfold State.Writer at hj
        rw [State.setHandle_ne _ _ hji] at hj
        exact ⟨hji, hj⟩
    refine ⟨by rw [hheld]; exact h.nodup, fun fd => ?_, ?_⟩
    · rw [hheld, h.mem_iff, hstate, e]
      constructor
      · rintro ⟨j, hj, hju⟩
        have hji : j ≠ i := by
          rintro rfl
          rw [hfree] at hju
          cases hju
        exact ⟨j, hj, by rwa [State.setHandle_ne _ _ hji]⟩
      · rintro ⟨j, hj, hju⟩
        have hji : j ≠ i := by
          rintro rfl
          rw [State.setHandle_same, hu] at hju
          cases hju
        rw [State.setHandle_ne _ _ hji] at hju
        exact ⟨j, hj, hju⟩
    · rw [hstate]
      refine ⟨fun j k hj hk => h.oneWriter.unique j k (hwriter j hj).2 (hwriter k hk).2,
        fun j hj => ?_⟩
      rw [e, State.setHandle_ne _ _ (hwriter j hj).1]
      exact h.oneWriter.wlen_le j (hwriter j hj).2
  · rw [hrc, if_neg (fdOf_ne_neg i)] at hheld
    have hnew : fdOf i ∉ t.held := by
      intro hmem
      obtain ⟨j, hj, hju⟩ := (h.mem_iff _).mp hmem
      rw [← fdOf_inj hj, hfree] at hju
      cases hju
    have hwriter : ∀ j, (fsOpen t.state name flags).2.Writer j → j ≠ i → t.state.Writer j := by
      intro j hj hji
      rw [e] at hj
      unfold State.Writer at hj
      rwa [State.setHandle_ne _ _ hji] at hj
    have halone : (fsOpen t.state name flags).2.Writer i → ∀ j, j ≠ i → ¬ t.state.Writer j := by
      intro hi j hji hj
      rw [e] at hi
      have hi2 := hi.2
      rw [State.setHandle_same] at hi2
      have hno := alone_of_otherWriter (hw hi2).1 j hji hj.1
      rw [hj.2] at hno
      cases hno
    refine ⟨by rw [hheld]; exact List.nodup_cons.mpr ⟨hnew, h.nodup⟩, fun fd => ?_, ?_, ?_⟩
    · rw [hheld, List.mem_cons, h.mem_iff, hstate, e]
      constructor
      · rintro (rfl | ⟨j, hj, hju⟩)
        · exact ⟨i, rfl, by rwa [State.setHandle_same]⟩
        · have hji : j ≠ i := by
            rintro rfl
            rw [hfree] at hju
            cases hju
          exact ⟨j, hj, by rwa [State.setHandle_ne _ _ hji]⟩
      · rintro ⟨j, hj, hju⟩
        by_cases hji : j = i
        · rw [hj, hji]
          exact Or.inl rfl
        · rw [State.setHandle_ne _ _ hji] at hju
          exact Or.inr ⟨j, hj, hju⟩
    · intro j k hj hk
      by_cases hji : j = i
      · by_cases hki : k = i
        · rw [hji, hki]
        · subst hji
          exact absurd (hwriter k hk hki) (halone hj k hki)
      · by_cases hki : k = i
        · subst hki
          exact absurd (hwriter j hj hji) (halone hk j hji)
        · exact h.oneWriter.unique j k (hwriter j hj hji) (hwriter k hk hki)
    · intro j hj
      by_cases hji : j = i
      · subst hji
        have hj2 := hj.2
        rw [hstate, e, State.setHandle_same] at hj2 ⊢
        exact (hw hj2).2
      · have := h.oneWriter.wlen_le j (hwriter j hj hji)
        rwa [hstate, e, State.setHandle_ne _ _ hji]

lemma Table.Ok.close {t : Table} (h : t.Ok) (fd : ℤ) : (t.step (.close fd)).Ok := by
  have hstate : (t.step (.close fd)).state = (fsClose t.state fd).2 := rfl
  have hheld : (t.step (.close fd)).held = t.held.erase fd := rfl
  rcases fsClose_released t.state fd with ⟨hno, e⟩ | ⟨i, d, hi, e⟩
  · have hnot : fd ∉ t.held := by
      intro hmem
      obtain ⟨j, rfl, hju⟩ := (h.mem_iff fd).mp hmem
      rw [fdLookup_fdOf, if_pos hju] at hno
      cases hno
    rw [e] at hstate
    rw [List.erase_of_not_mem hnot] at hheld
    exact ⟨by rw [hheld]; exact h.nodup, by rw [hheld, hstate]; exact h.mem_iff,
      by rw [hstate]; exact h.oneWriter⟩
  · obtain ⟨rfl, hu⟩ := fdLookup_some hi
    refine ⟨by rw [hheld]; exact h.nodup.erase _, fun fd' => ?_, ?_⟩
    · rw [hheld, h.nodup.mem_erase_iff, h.mem_iff, hstate, e]
      unfold State.release
      constructor
      · rintro ⟨hne, j, rfl, hju⟩
        have hji : j ≠ i := fun e => hne (by rw [e])
        exact ⟨j, rfl, by rwa [State.setHandle_ne _ _ hji]⟩
      · rintro ⟨j, rfl, hju⟩
        have hji : j ≠ i := by
          rintro rfl
          rw [State.setHandle_same] at hju
          cases hju
        rw [State.setHandle_ne _ _ hji] at hju
        exact ⟨fun e => hji (fdOf_inj e), j, rfl, hju⟩
    · rw [hstate, e]
      exact OneWriter.release h.oneWriter i d

/-- **One call keeps the table in order.** -/
theorem Table.Ok.step {t : Table} (h : t.Ok) (o : Op) : (t.step o).Ok := by
  cases o with
  | openFd name flags => exact h.openFd name flags
  | readFd fd buf n =>
    change Table.Ok { state := (fsReadFd t.state fd buf n).2.2, held := t.held }
    rcases fsReadFd_moved t.state fd buf n with e | ⟨i, off, -, e⟩
    · rw [e]
      exact h.same (fun _ => rfl) (fun _ => rfl) fun _ => Or.inl rfl
    · rw [e]
      exact h.setHandle _ t.state.wbuf rfl rfl (Or.inl rfl)
  | writeFd fd buf n =>
    change Table.Ok { state := (fsWriteFd t.state fd buf n).2, held := t.held }
    rcases fsWriteFd_grown t.state fd buf n with e | ⟨i, hd, w, -, e, -, hu, hw, hl⟩
    · rw [e]
      exact h
    · rw [e]
      exact h.setHandle t.state.disk w hu hw hl
  | seek fd off whence =>
    change Table.Ok { state := (fsSeek t.state fd off whence).2, held := t.held }
    rcases fsSeek_moved t.state fd off whence with e | ⟨i, pos, -, e⟩
    · rw [e]
      exact h
    · rw [e]
      exact h.setHandle t.state.disk t.state.wbuf rfl rfl (Or.inl rfl)
  | close fd => exact h.close fd
  | closeAll =>
    obtain ⟨d, e⟩ := fsCloseAll_eq t.state
    have hfree : ∀ i, ((fsCloseAll t.state).handles i).used = false := by
      intro i
      rw [e]
    refine ⟨List.nodup_nil, fun fd => ?_, fun i j hi _ => ?_, fun i hi => ?_⟩
    · refine iff_of_false List.not_mem_nil ?_
      rintro ⟨i, -, hu⟩
      exact absurd ((hfree i).symm.trans hu) (by decide)
    · exact absurd ((hfree i).symm.trans hi.1) (by decide)
    · exact absurd ((hfree i).symm.trans hi.1) (by decide)

/-- The table of a program that has opened nothing. -/
def Table.start (s : State) : Table := { state := s, held := [] }

lemma Table.start_ok {s : State} (hs : ∀ i, (s.handles i).used = false) : (Table.start s).Ok := by
  refine ⟨List.nodup_nil, fun fd => ?_, fun i j hi _ => ?_, fun i hi => ?_⟩
  · refine iff_of_false List.not_mem_nil ?_
    rintro ⟨i, -, hu⟩
    exact absurd ((hs i).symm.trans hu) (by decide)
  · exact absurd ((hs i).symm.trans hi.1) (by decide)
  · exact absurd ((hs i).symm.trans hi.1) (by decide)

theorem run_table_ok {s : State} (hs : ∀ i, (s.handles i).used = false) (l : List Op) :
    (run Table.step (Table.start s) l).Ok :=
  run_inv_all (P := Table.Ok) (fun _ o h => h.step o) l (Table.start_ok hs)

/-- A call on one descriptor leaves every other handle as it is. -/
lemma Op.other_handle (s : State) {o : Op} {fd : ℤ} (ho : o.fd = some fd) {i : Fin 8}
    (hi : fd ≠ fdOf i) : (o.exec s).2.handles i = s.handles i := by
  have hne : ∀ j, fdLookup s fd = some j → i ≠ j := by
    rintro j hj rfl
    exact hi (fdLookup_some hj).1
  cases o with
  | openFd | closeAll => cases ho
  | readFd fd' buf n =>
    obtain rfl := Option.some.inj ho
    change (fsReadFd s fd' buf n).2.2.handles i = s.handles i
    rcases fsReadFd_moved s fd' buf n with e | ⟨j, off, hj, e⟩
    · rw [e]
    · rw [e, State.setHandle_ne _ _ (hne j hj)]
  | writeFd fd' buf n =>
    obtain rfl := Option.some.inj ho
    change (fsWriteFd s fd' buf n).2.handles i = s.handles i
    rcases fsWriteFd_grown s fd' buf n with e | ⟨j, hd, w, hj, e, -⟩
    · rw [e]
    · rw [e, State.setHandle_ne _ _ (hne j hj)]
  | seek fd' off whence =>
    obtain rfl := Option.some.inj ho
    change (fsSeek s fd' off whence).2.handles i = s.handles i
    rcases fsSeek_moved s fd' off whence with e | ⟨j, pos, hj, e⟩
    · rw [e]
    · rw [e, State.setHandle_ne _ _ (hne j hj)]
  | close fd' =>
    obtain rfl := Option.some.inj ho
    change (fsClose s fd').2.handles i = s.handles i
    rcases fsClose_released s fd' with ⟨-, e⟩ | ⟨j, d, hj, e⟩
    · rw [e]
    · rw [e]
      exact State.setHandle_ne _ _ (hne j hj)

/-- `fs_open` leaves every handle in use as it is. -/
lemma fsOpen_handles (s : State) (name : CStr) (flags : ℕ) {i : Fin 8}
    (hi : (s.handles i).used = true) : (fsOpen s name flags).2.handles i = s.handles i := by
  rcases fsOpen_opened s name flags with ⟨-, d, e⟩ | ⟨j, hd, w, d, hfree, e, -⟩
  · rw [e]
  · have hij : i ≠ j := by
      rintro rfl
      rw [hfree] at hi
      cases hi
    rw [e, State.setHandle_ne _ _ hij]

/-- An `fs_open` that fails takes no handle and leaves the file being written as it is. -/
lemma fsOpen_failed {s : State} {name : CStr} {flags : ℕ} (h : (fsOpen s name flags).1 = -1) :
    (∀ i, ((fsOpen s name flags).2.handles i).used = (s.handles i).used) ∧
      ∀ i, s.Writer i → (fsOpen s name flags).2.wbuf = s.wbuf := by
  refine ⟨fun i => ?_, fun i hi => ?_⟩
  · by_cases hu : (s.handles i).used = true
    · rw [fsOpen_handles s name flags hu]
    · rcases fsOpen_opened s name flags with
        ⟨-, d, e⟩ | ⟨j, hd, w, d, hfree, e, -, -, ⟨-, hun⟩ | ⟨hrc, -⟩⟩
      · rw [e]
      · rw [e]
        by_cases hij : i = j
        · subst hij
          rw [State.setHandle_same, hun, hfree]
        · rw [State.setHandle_ne _ _ hij]
      · exact absurd (hrc.symm.trans h) (fdOf_ne_neg j)
  · rcases fsOpen_opened s name flags with ⟨-, d, e⟩ | ⟨j, hd, w, d, hfree, e, -, hw | ho, -⟩
    · rw [e]
    · rw [e]
      exact hw
    · have hij : i ≠ j := by
        rintro rfl
        rw [hi.1] at hfree
        cases hfree
      have hno := alone_of_otherWriter ho i hij hi.1
      rw [hi.2] at hno
      cases hno

/-- **The handle table stays in order** over every sequence of calls, with any arguments and on any
disk. The descriptors out are distinct and among 3 to 10, one handle at most is writable and its file
ends in the buffer, no call leaves the buffer or changes another handle, and an open that fails
changes neither the handles in use nor the file being written. -/
theorem handle_table {s : State} (hs : ∀ i, (s.handles i).used = false) (l : List Op) :
    let t := run Table.step (Table.start s) l
    (t.held.Nodup ∧ ∀ fd ∈ t.held, 3 ≤ fd ∧ fd ≤ 10) ∧
    (∀ i j, t.state.Writer i → t.state.Writer j → i = j) ∧
    (∀ i, t.state.Writer i → (t.state.handles i).wlen ≤ 65536) ∧
    (∀ o : Op, o.Inside t.state) ∧
    (∀ o : Op, ∀ fd, o.fd = some fd → ∀ i, fd ≠ fdOf i →
      (o.exec t.state).2.handles i = t.state.handles i) ∧
    (∀ name flags i, (t.state.handles i).used = true →
      (fsOpen t.state name flags).2.handles i = t.state.handles i) ∧
    ∀ name flags, (fsOpen t.state name flags).1 = -1 →
      (∀ i, ((fsOpen t.state name flags).2.handles i).used = (t.state.handles i).used) ∧
      ∀ i, t.state.Writer i → ∀ j < (t.state.handles i).wlen,
        (fsOpen t.state name flags).2.wbuf j = t.state.wbuf j := by
  intro t
  have ht : t.Ok := run_table_ok hs l
  refine ⟨⟨ht.nodup, fun fd hfd => ?_⟩, ht.oneWriter.unique, ht.oneWriter.wlen_le,
    Op.inside ht.oneWriter, fun o fd ho i hi => Op.other_handle t.state ho hi,
    fun name flags i hi => fsOpen_handles t.state name flags hi, fun name flags hrc => ?_⟩
  · obtain ⟨i, rfl, -⟩ := (ht.mem_iff fd).mp hfd
    have := i.isLt
    unfold fdOf fsFdBase
    omega
  · obtain ⟨h1, h2⟩ := fsOpen_failed hrc
    exact ⟨h1, fun i hi j _ => congrFun (h2 i hi) j⟩

/-- Two opens for writing, the second of which fails, and a close of a descriptor that is not out. -/
def tableCalls : List Op :=
  [.openFd pathF (fsOWronly ||| fsOCreat), .openFd pathD (fsORdwr ||| fsOCreat),
    .writeFd 3 (fun _ => 7) 5, .close 9]

theorem handle_table_blank :
    (run Table.step (Table.start blank) tableCalls).held.Nodup ∧
      ∀ fd ∈ (run Table.step (Table.start blank) tableCalls).held, 3 ≤ fd ∧ fd ≤ 10 :=
  (handle_table (fun _ => rfl) tableCalls).1

end LunariaOS.Fs
