import LunariaOS.Lib.Run
import LunariaOS.Fs.Handle
import LunariaOS.Fs.Rule

/-!
The file system as a state machine: the calls it takes, and the invariant of every run.

On a working disk only three calls touch the disk: a write, an append and a delete, the closing of
a writable handle being a write. `step_rule` reduces a property of all runs to what single writes
and deletes keep.
-/

namespace LunariaOS.Fs

open LunariaOS.Lib

variable {sb : Superblock} {d d' : Disk}

/-! ### Deleting -/

/-- All that a delete does: the slot `k` is emptied. -/
structure Deleted (sb : Superblock) (d d' : Disk) (k : ℕ) : Prop where
  working : d'.Working
  slot_lt : k < slotCount sb
  gone : ¬ Live sb d' k
  entry_ne : ∀ j < slotCount sb, j ≠ k → entry sb d' j = entry sb d j
  old : ∀ l, sb.dataLba ≤ l → d'.sectors l = d.sectors l

/-- The disk after the name in the slot number `k` is cleared. -/
def clearSlot (sb : Superblock) (d : Disk) (k : ℕ) : Disk :=
  Disk.putSector sb d k ((slotMem sb d k).blit (32 * (k % 16)) 1 fun _ => 0)

/-- **`fs_delete` on a working disk.** -/
theorem fsDelete_working (hw : d.Working) (name : CStr) :
    fsDelete sb name d =
      match slotOf sb d name with
      | none => (-1, d)
      | some k => (0, clearSlot sb d k) := by
  unfold fsDelete
  rw [lookup_eq_slotOf hw]
  cases slotOf sb d name with
  | none => rfl
  | some k =>
    simp only [Option.map_some, hw.write]
    rfl

lemma clearSlot_deleted (hw : d.Working) (hL : Layout sb) {k : ℕ} (hk : k < slotCount sb) :
    Deleted sb d (clearSlot sb d k) k := by
  have hz : ∀ x, 512 ≤ x → (slotMem sb d k).blit (32 * (k % 16)) 1 (fun _ => 0) x = 0 :=
    blit_slot_zero (by omega) _
  refine ⟨hw, hk, ?_, fun j hj hjk => ?_, fun l hl => putSector_sectors hL hk _ hl⟩
  · unfold Live clearSlot
    rw [slotMem_putSector hL hk hz hk, if_pos rfl,
      Mem.blit_of_in _ _ le_rfl (by omega)]
    simp
  · exact entry_putSector_ne hL hk hz (fun x _ => Mem.blit_of_out _ _ (by omega)) hj hjk

section Deleted

variable {k : ℕ} (h : Deleted sb d d' k)

include h

lemma Deleted.live {j : ℕ} (hj : j < slotCount sb) : Live sb d' j ↔ Live sb d j ∧ j ≠ k := by
  by_cases hjk : j = k
  · subst hjk
    simpa using h.gone
  · rw [live_iff_name, live_iff_name, h.entry_ne j hj hjk]
    simp [hjk]

/-- **A delete keeps the directory well formed.** -/
theorem Deleted.sound (hd : Sound sb d) : Sound sb d' := by
  have he : ∀ {j}, j < slotCount sb → Live sb d' j → Live sb d j ∧ entry sb d' j = entry sb d j :=
    fun hj hl => ⟨((h.live hj).mp hl).1, h.entry_ne _ hj ((h.live hj).mp hl).2⟩
  refine ⟨h.working, ⟨fun j hj hl => ?_, fun i hi j hj li lj e => ?_, fun j hj hl hpos => ?_,
    fun i hi j hj li lj hij => ?_⟩, fun j hj hl => ?_⟩
  · obtain ⟨hl', e⟩ := he hj hl
    rw [e]
    exact hd.dirOk.term j hj hl'
  · obtain ⟨li', ei⟩ := he hi li
    obtain ⟨lj', ej⟩ := he hj lj
    unfold nameOf at e
    rw [ei, ej] at e
    exact hd.dirOk.uniq i hi j hj li' lj' e
  · obtain ⟨hl', e⟩ := he hj hl
    rw [e] at hpos ⊢
    exact hd.dirOk.above j hj hl' hpos
  · obtain ⟨li', ei⟩ := he hi li
    obtain ⟨lj', ej⟩ := he hj lj
    unfold extentOf
    rw [ei, ej]
    exact hd.dirOk.disj i hi j hj li' lj' hij
  · obtain ⟨hl', e⟩ := he hj hl
    rw [e]
    exact hd.ends j hj hl'

lemma Deleted.sizesOk (hz : SizesOk sb d) : SizesOk sb d' := by
  intro j hj hl
  obtain ⟨hl', hjk⟩ := (h.live hj).mp hl
  rw [h.entry_ne j hj hjk]
  exact hz j hj hl'

end Deleted

/-! ### The calls -/

/-- A call of the file system. A handle is read into a buffer that the call does not show. -/
inductive Call where
  | write (name : CStr) (type : UInt8) (data : Mem) (size : ℕ)
  | mkdir (name : CStr)
  | delete (name : CStr)
  | append (dir path : CStr)
  | openFd (name : CStr) (flags : ℕ)
  | readFd (fd : ℤ) (n : ℕ)
  | writeFd (fd : ℤ) (buf : Mem) (n : ℕ)
  | seek (fd off whence : ℤ)
  | close (fd : ℤ)

/-- A function of the disk, as a call of the file system. -/
def State.onDisk (s : State) (f : Superblock → Disk → ℤ × Disk) : ℤ × State :=
  ((f s.sb s.disk).1, { s with disk := (f s.sb s.disk).2 })

/-- What a call returns, and the state after it. -/
def Call.exec (s : State) : Call → ℤ × State
  | .write name type data size => s.onDisk fun sb => fsWrite sb name type data size
  | .mkdir name => s.onDisk fun sb => fsMkdir sb name
  | .delete name => s.onDisk fun sb => fsDelete sb name
  | .append dir path => s.onDisk fun sb => fsAppend sb dir path
  | .openFd name flags => fsOpen s name flags
  | .readFd fd n => let (rc, _, s) := fsReadFd s fd (fun _ => 0) n; (rc, s)
  | .writeFd fd buf n => fsWriteFd s fd buf n
  | .seek fd off whence => fsSeek s fd off whence
  | .close fd => fsClose s fd

/-- The state after a call. -/
def State.step (s : State) (c : Call) : State := (c.exec s).2

/-- The write that a call asks for: the name, the type, the data and the size. Closing a writable
handle writes its buffer back. -/
def Call.writes (s : State) : Call → Option (CStr × UInt8 × Mem × ℕ)
  | .write name type data size => some (name, type, data, size)
  | .mkdir name => some (name, fsDir, fun _ => 0, 0)
  | .close fd =>
    match fdLookup s fd with
    | none => none
    | some i =>
      let h := s.handles i
      if h.writable then some (h.name, h.type, s.wbuf, h.wlen) else none
  | _ => none

/-- The name whose entry a call writes or deletes. -/
def Call.target (s : State) : Call → Option CStr
  | .write name _ _ _ => some name
  | .mkdir name => some name
  | .delete name => some name
  | .append dir _ => some dir
  | .close fd =>
    match fdLookup s fd with
    | none => none
    | some i => if (s.handles i).writable then some (s.handles i).name else none
  | _ => none

/-- Every size the call asks for is at most `2^32 - 512`, and no end sector it computes exceeds
`2^32 - 1`. -/
def Call.Fits (s : State) (c : Call) : Prop :=
  (∀ name type data size, c.writes s = some (name, type, data, size) →
    size ≤ 4294966784 ∧ WriteFits s.sb name type data size s.disk) ∧
  ∀ dir path, c = .append dir path → AppendFits s.sb dir path s.disk

/-! ### What a call does to the disk -/

lemma fsRead_working (hw : d.Working) (name : CStr) (buf : Mem) (max : ℕ) :
    fsRead sb name buf max d =
      match slotOf sb d name with
      | none => (-1, buf, d)
      | some k =>
        if (entry sb d k).size ≤ max then
          (i32 (entry sb d k).size,
            buf.blit 0 (entry sb d k).size fun i => fileByte d (entry sb d k).lba i, d)
        else (-1, buf, d) := by
  unfold fsRead
  rw [fsFind_working hw]
  cases slotOf sb d name with
  | none => rfl
  | some k =>
    simp only [Option.map_some]
    rw [readLoop_working hw _ _ _ _ (dvd_zero _)]
    simp only [Nat.zero_add]
    by_cases h : (entry sb d k).size ≤ max
    · rw [if_neg (by omega), if_pos h]
    · rw [if_pos (by omega), if_neg h]

lemma fsRead_disk (hw : d.Working) (name : CStr) (buf : Mem) (max : ℕ) :
    (fsRead sb name buf max d).2.2 = d := by
  rw [fsRead_working hw]
  split
  · rfl
  · split_ifs <;> rfl

lemma openWriter_disk (s : State) (hw : s.disk.Working) (i : Fin 8) (name : CStr) (flags : ℕ)
    (e : Option FileEntry) :
    (openWriter s i name flags e).2.disk = s.disk ∧ (openWriter s i name flags e).2.sb = s.sb := by
  unfold openWriter
  simp only
  generalize (if flagSet flags fsOTrunc then none else e) = e'
  by_cases ho : otherWriter s i = true
  · rw [if_pos ho]
    exact ⟨rfl, rfl⟩
  · rw [if_neg ho]
    cases e' with
    | none => exact ⟨rfl, rfl⟩
    | some e =>
      simp only
      split_ifs
      · exact ⟨rfl, rfl⟩
      all_goals exact ⟨by simp [fsRead_disk hw], rfl⟩

lemma fsOpen_disk (s : State) (hw : s.disk.Working) (name : CStr) (flags : ℕ) :
    (fsOpen s name flags).2.disk = s.disk ∧ (fsOpen s name flags).2.sb = s.sb := by
  unfold fsOpen
  rw [fsFind_working hw]
  simp only
  split_ifs
  all_goals try exact ⟨rfl, rfl⟩
  all_goals
    cases freeHandle s with
    | none => exact ⟨rfl, rfl⟩
    | some i =>
      first
      | exact openWriter_disk s hw i name flags _
      | (simp only [openReader]; split <;> exact ⟨rfl, rfl⟩)

lemma readFdLoop_disk (hw : d.Working) (lba offset n done : ℕ) (buf : Mem) :
    (readFdLoop lba offset n done buf d).2.2.2 = d := by
  induction done, buf, d using readFdLoop.induct lba offset n with
  | case1 done buf d h pos d' hr =>
    rw [hw.read] at hr
    cases hr
  | case2 done buf d h pos sec d' hr take ih =>
    rw [hw.read] at hr
    cases hr
    rw [readFdLoop, if_pos h]
    simp only [hw.read]
    exact ih hw
  | case3 done buf d h =>
    rw [readFdLoop, if_neg h]

lemma fsReadFd_disk (s : State) (hw : s.disk.Working) (fd : ℤ) (buf : Mem) (n : ℕ) :
    (fsReadFd s fd buf n).2.2.disk = s.disk ∧ (fsReadFd s fd buf n).2.2.sb = s.sb := by
  unfold fsReadFd
  cases fdLookup s fd with
  | none => exact ⟨rfl, rfl⟩
  | some i =>
    simp only
    generalize hn : (if n > available (s.handles i).offset (s.handles i).size then
      available (s.handles i).offset (s.handles i).size else n) = n'
    by_cases hwr : (s.handles i).writable = true
    · rw [if_pos hwr]
      exact ⟨rfl, rfl⟩
    · rw [if_neg hwr]
      have hd := readFdLoop_disk hw (s.handles i).lba (s.handles i).offset n' 0 buf
      split_ifs
      · exact ⟨rfl, rfl⟩
      · split
        all_goals
          rename_i heq
          rw [heq] at hd
          exact ⟨hd, rfl⟩

lemma fsWriteFd_disk (s : State) (fd : ℤ) (buf : Mem) (n : ℕ) :
    (fsWriteFd s fd buf n).2.disk = s.disk ∧ (fsWriteFd s fd buf n).2.sb = s.sb := by
  unfold fsWriteFd
  cases fdLookup s fd with
  | none => exact ⟨rfl, rfl⟩
  | some i =>
    simp only
    split_ifs <;> exact ⟨rfl, rfl⟩

lemma fsSeek_disk (s : State) (fd off whence : ℤ) :
    (fsSeek s fd off whence).2.disk = s.disk ∧ (fsSeek s fd off whence).2.sb = s.sb := by
  unfold fsSeek
  cases fdLookup s fd with
  | none => exact ⟨rfl, rfl⟩
  | some i =>
    simp only
    cases seekBase (s.handles i) whence with
    | none => exact ⟨rfl, rfl⟩
    | some base =>
      simp only
      split_ifs <;> exact ⟨rfl, rfl⟩

lemma fsClose_disk (s : State) (fd : ℤ) :
    (fsClose s fd).2.disk =
      (match Call.writes s (.close fd) with
        | none => s.disk
        | some (name, type, data, size) => (fsWrite s.sb name type data size s.disk).2) ∧
      (fsClose s fd).2.sb = s.sb := by
  simp only [fsClose, Call.writes]
  cases fdLookup s fd with
  | none => exact ⟨rfl, rfl⟩
  | some i =>
    simp only
    by_cases hwr : (s.handles i).writable = true
    · simp only [if_pos hwr]
      exact ⟨rfl, rfl⟩
    · simp only [if_neg hwr]
      exact ⟨rfl, rfl⟩

/-! ### One call -/

section Step

variable (s : State) (hw : s.disk.Working)

include hw

/-- **All that a call does to the disk**: a delete, an append, a write, or nothing. -/
theorem step_disk (c : Call) :
    (s.step c).disk =
      match c with
      | .delete name => (fsDelete s.sb name s.disk).2
      | .append dir path => (fsAppend s.sb dir path s.disk).2
      | c =>
        match c.writes s with
        | none => s.disk
        | some (name, type, data, size) => (fsWrite s.sb name type data size s.disk).2 := by
  cases c with
  | write | mkdir | delete | append => rfl
  | openFd name flags => exact (fsOpen_disk s hw name flags).1
  | readFd fd n => exact (fsReadFd_disk s hw fd _ n).1
  | writeFd fd buf n => exact (fsWriteFd_disk s fd buf n).1
  | seek fd off whence => exact (fsSeek_disk s fd off whence).1
  | close fd => exact (fsClose_disk s fd).1

theorem step_sb (c : Call) : (s.step c).sb = s.sb := by
  cases c with
  | write | mkdir | delete | append => rfl
  | openFd name flags => exact (fsOpen_disk s hw name flags).2
  | readFd fd n => exact (fsReadFd_disk s hw fd _ n).2
  | writeFd fd buf n => exact (fsWriteFd_disk s fd buf n).2
  | seek fd off whence => exact (fsSeek_disk s fd off whence).2
  | close fd => exact (fsClose_disk s fd).2

end Step

lemma writes_target {s : State} {c : Call} {name : CStr} {type : UInt8} {data : Mem} {size : ℕ}
    (h : c.writes s = some (name, type, data, size)) : c.target s = some name := by
  cases c with
  | write | mkdir =>
    simp only [Call.writes, Option.some.injEq, Prod.mk.injEq] at h
    rw [← h.1]
    rfl
  | close fd =>
    unfold Call.writes at h
    unfold Call.target
    cases hf : fdLookup s fd with
    | none => simp [hf] at h
    | some i =>
      simp only [hf] at h ⊢
      split_ifs at h ⊢
      simp only [Option.some.injEq, Prod.mk.injEq] at h
      rw [h.1]
  | _ => simp [Call.writes] at h

section StepRule

variable {sb : Superblock} (hL : Layout sb) {S : Set CStr} (hS : Upward S) {P : Disk → Prop}
  (hwrite : ∀ {d d' n type data size k lba}, n ∈ S → size ≤ 4294966784 → Sound sb d → P d →
    Written sb d d' n type data size k lba → P d')
  (hdelete : ∀ {d d' n k}, n ∈ S → Sound sb d → P d → Named sb d n k → Deleted sb d d' k → P d')

include hL hS hwrite hdelete

/-- **The rule for calls.** What every single write and every single delete of a name of an upward
set keeps, a call that aims at a name of the set keeps. -/
theorem step_rule {s : State} (hsb : s.sb = sb) {c : Call}
    (hc : ∀ n, c.target s = some n → n ∈ S) (hfit : c.Fits s) (hd : Sound sb s.disk)
    (hP : P s.disk) : Sound sb (s.step c).disk ∧ P (s.step c).disk := by
  subst hsb
  have rule := write_append_rule hL hS (B := 4294966784) (by decide) (by omega) (P := P) hwrite
  rw [step_disk s hd.working]
  split
  · rename_i name
    rw [fsDelete_working hd.working]
    split
    · exact ⟨hd, hP⟩
    · rename_i k hk
      obtain ⟨hlt, hn⟩ := slotOf_some hk
      have hdel := clearSlot_deleted hd.working hL hlt
      exact ⟨hdel.sound hd, hdelete (hc name rfl) hd hP hn hdel⟩
  · rename_i dir path
    exact rule.2 dir path _ (hc dir rfl) hd hP (hfit.2 dir path rfl)
  · split
    · exact ⟨hd, hP⟩
    · rename_i name type data size hwr
      obtain ⟨hsize, hfits⟩ := hfit.1 name type data size hwr
      exact rule.1 name type data size _ (hc name (writes_target hwr)) hsize hd hP hfits

end StepRule

end LunariaOS.Fs
