import LunariaOS.Ata.Transfer

/-!
The driver and the drive are together the disk that the file system is written for.

Seen from above the ports there is an array of sectors and a pattern of transfers that fail. The
pattern is not any pattern: a drive that has shown an error is never sent a command again, so that
from the first failure on every transfer fails.
-/

namespace LunariaOS.Ata

open LunariaOS.Lib LunariaOS.Fs

/-- What a caller asks of the driver. -/
inductive Transfer where
  | read (lba : UInt32) (count : ℕ) (buf : Mem)
  | write (lba : UInt32) (count : ℕ) (buf : Mem)

def Transfer.count : Transfer → ℕ
  | .read _ count _ => count
  | .write _ count _ => count

def Transfer.buf : Transfer → Mem
  | .read _ _ buf => buf
  | .write _ _ buf => buf

/-- A call of the driver: whether it succeeded, the buffer, and the drive. -/
def Drive.transfer (d : Drive) : Transfer → (Bool × Mem) × Drive
  | .read lba count buf => Ata.ataReadSectors lba count buf d
  | .write lba count buf =>
    let (ok, d) := Ata.ataWriteSectors lba count buf d
    ((ok, buf), d)

/-! ### The disk above the driver -/

/-- The sectors of a disk, one after the other, into a buffer. -/
def readMany : ℕ → UInt32 → ℕ → Mem → Disk → (Bool × Mem) × Disk
  | 0, _, _, buf, d => ((true, buf), d)
  | count + 1, lba, ptr, buf, d =>
    match Fs.ataReadSectors d (place lba) with
    | (none, d) => ((false, buf), d)
    | (some s, d) => readMany count (lba + 1) (ptr + 512) (buf.blit ptr 512 s) d

/-- The sectors of a disk, one after the other, from a buffer. -/
def writeMany (buf : Mem) : ℕ → UInt32 → ℕ → Disk → Bool × Disk
  | 0, _, _, d => (true, d)
  | count + 1, lba, ptr, d =>
    match Fs.ataWriteSectors d (place lba) (fun i => buf (ptr + i)) with
    | (false, d) => (false, d)
    | (true, d) => writeMany buf count (lba + 1) (ptr + 512) d

/-- A transfer of the disk that the file system is written for. -/
def diskTransfer (d : Disk) : Transfer → (Bool × Mem) × Disk
  | .read lba count buf => readMany count lba 0 buf d
  | .write lba count buf =>
    let (ok, d) := writeMany buf count lba 0 d
    ((ok, buf), d)

def Outcome.bad : Outcome → Bool
  | .done => false
  | _ => true

/-- The disk that a drive is: a transfer fails when an error is shown or a command up to it does. -/
def Drive.disk (d : Drive) : Disk where
  sectors := d.sectors
  fault := fun n => d.err || (List.range (n + 1)).any fun m => (d.plan m).bad

/-- A drive at rest that finds no sector bad after it has taken its words. -/
structure Drive.Sound (d : Drive) : Prop where
  rests : d.Rests
  kept : ∀ n s, d.plan n ≠ .spoiled s

lemma Drive.disk_err {d : Drive} (h : d.err = true) : d.disk = ⟨d.sectors, fun _ => true⟩ := by
  simp [Drive.disk, h]

lemma Drive.fault_zero {d : Drive} (h : d.err = false) : d.disk.fault 0 = (d.plan 0).bad := by
  simp [Drive.disk, h]

/-- The disk after a transfer that has gone well. -/
lemma Drive.disk_later {d e : Drive} (hp : d.plan 0 = .done) (he : e.err = d.err)
    (hplan : e.plan = fun n => d.plan (n + 1)) :
    e.disk = ⟨e.sectors, fun n => d.disk.fault (n + 1)⟩ := by
  unfold Drive.disk
  simp only [he, hplan, Disk.mk.injEq, true_and]
  funext n
  rw [List.range_succ_eq_map (n := n + 1), List.any_cons, List.any_map, hp]
  rfl

/-- The disk after a command that has failed: all later transfers fail with it. -/
lemma Drive.disk_failed {d e : Drive} (he : d.err = false) (hp : (d.plan 0).bad = true)
    (hee : e.err = true) : e.disk = ⟨e.sectors, fun n => d.disk.fault (n + 1)⟩ := by
  have hall : ∀ n, d.disk.fault n = true := fun n => by
    simp only [Drive.disk, he, Bool.false_or, List.any_eq_true, List.mem_range]
    exact ⟨0, by omega, hp⟩
  simp only [hall]
  exact Drive.disk_err hee

section Refine

variable {d : Drive}

lemma Drive.Rests.of_later (h : d.Rests) (k : ℕ) {e : Drive} (hb : e.busy = [])
    (hp : e.phase = .idle) (ht : e.tempo = fun n => d.tempo (n + k)) : e.Rests :=
  ⟨hb, hp, fun n => by rw [ht]; exact h.prompt.soon (n + k),
    fun n => by rw [ht]; exact h.prompt.quiet (n + k)⟩

lemma Drive.Sound.of_later (h : d.Sound) (k : ℕ) {e : Drive} (hb : e.busy = [])
    (hp : e.phase = .idle) (ht : e.tempo = fun n => d.tempo (n + k))
    (hplan : e.plan = fun n => d.plan (n + 1)) : e.Sound :=
  ⟨h.rests.of_later k hb hp ht, fun n => by rw [hplan]; exact h.kept (n + 1)⟩

/-- One sector of a read, through the ports and of the disk. -/
lemma readOne_refines (h : d.Sound) (lba : UInt32) (ptr : ℕ) (buf : Mem) :
    (readOne lba ptr buf d).2.Sound ∧
      (readOne lba ptr buf d).2.disk = (Fs.ataReadSectors d.disk (place lba)).2 ∧
      (readOne lba ptr buf d).1 = match (Fs.ataReadSectors d.disk (place lba)).1 with
        | none => (false, buf)
        | some s => (true, buf.blit ptr 512 s) := by
  unfold readOne Fs.ataReadSectors
  cases he : d.err with
  | true =>
    rw [Drive.disk_err he]
    exact ⟨h, Drive.disk_err he, rfl⟩
  | false =>
    rw [Drive.fault_zero he]
    cases hp : d.plan 0 with
    | done => exact ⟨h.of_later 1 rfl rfl rfl rfl, Drive.disk_later hp rfl rfl, rfl⟩
    | spoiled s => exact absurd hp (h.kept 0 s)
    | refused =>
      exact ⟨h.of_later 1 rfl rfl rfl rfl, Drive.disk_failed he (by rw [hp]; rfl) rfl, rfl⟩

/-- One sector of a write, through the ports and of the disk. -/
lemma writeOne_refines (h : d.Sound) (lba : UInt32) (ptr : ℕ) (buf : Mem) :
    (writeOne lba ptr buf d).2.Sound ∧
      (writeOne lba ptr buf d).2.disk =
        (Fs.ataWriteSectors d.disk (place lba) fun i => buf (ptr + i)).2 ∧
      (writeOne lba ptr buf d).1 =
        (Fs.ataWriteSectors d.disk (place lba) fun i => buf (ptr + i)).1 := by
  unfold writeOne Fs.ataWriteSectors
  cases he : d.err with
  | true =>
    rw [Drive.disk_err he]
    exact ⟨h, Drive.disk_err he, rfl⟩
  | false =>
    rw [Drive.fault_zero he]
    cases hp : d.plan 0 with
    | done =>
      exact ⟨h.of_later 2 rfl rfl rfl rfl, Drive.disk_later hp rfl rfl, rfl⟩
    | spoiled s => exact absurd hp (h.kept 0 s)
    | refused =>
      exact ⟨h.of_later 1 rfl rfl rfl rfl, Drive.disk_failed he (by rw [hp]; rfl) rfl, rfl⟩

lemma readSectors_refines (h : d.Sound) (count : ℕ) (lba : UInt32) (ptr : ℕ) (buf : Mem) :
    (readSectors count lba ptr buf d).1 = (readMany count lba ptr buf d.disk).1 ∧
      (readSectors count lba ptr buf d).2.disk = (readMany count lba ptr buf d.disk).2 ∧
      (readSectors count lba ptr buf d).2.Sound := by
  induction count generalizing d lba ptr buf with
  | zero => exact ⟨rfl, rfl, h⟩
  | succ count ih =>
    obtain ⟨hs, hdisk, hval⟩ := readOne_refines h lba ptr buf
    rw [readSectors_succ h.rests, readMany]
    revert hdisk hval
    rcases Fs.ataReadSectors d.disk (place lba) with ⟨_ | s, k⟩
    · intro hdisk hval
      simp only [hval, Bool.false_eq_true, if_false]
      exact ⟨trivial, hdisk, hs⟩
    · rintro rfl hval
      simp only [hval, if_true]
      exact ih hs (lba + 1) (ptr + 512) _

lemma writeSectors_refines (h : d.Sound) (count : ℕ) (lba : UInt32) (ptr : ℕ) (buf : Mem) :
    (writeSectors buf count lba ptr d).1 = (writeMany buf count lba ptr d.disk).1 ∧
      (writeSectors buf count lba ptr d).2.disk = (writeMany buf count lba ptr d.disk).2 ∧
      (writeSectors buf count lba ptr d).2.Sound := by
  induction count generalizing d lba ptr with
  | zero => exact ⟨rfl, rfl, h⟩
  | succ count ih =>
    obtain ⟨hs, hdisk, hval⟩ := writeOne_refines h lba ptr buf
    rw [writeSectors_succ h.rests, writeMany]
    revert hdisk hval
    rcases Fs.ataWriteSectors d.disk (place lba) fun i => buf (ptr + i) with ⟨_ | _, k⟩
    · intro hdisk hval
      simp only [hval, Bool.false_eq_true, if_false]
      exact ⟨trivial, hdisk, hs⟩
    · rintro rfl hval
      simp only [hval, if_true]
      exact ih hs (lba + 1) (ptr + 512)

/-- **A call of the driver is a transfer of the disk.** -/
lemma transfer_refines (h : d.Sound) (t : Transfer) :
    (d.transfer t).1 = (diskTransfer d.disk t).1 ∧
      (d.transfer t).2.disk = (diskTransfer d.disk t).2 ∧ (d.transfer t).2.Sound := by
  cases t with
  | read lba count buf => exact readSectors_refines h count lba 0 buf
  | write lba count buf =>
    obtain ⟨h1, h2, h3⟩ := writeSectors_refines h count lba 0 buf
    exact ⟨congrArg (·, buf) h1, h2, h3⟩

/-- **No program can tell the driver from the disk.** A program that chooses each call from what the
calls before it have given gets the same answers from both, however long the drive takes and whichever
commands it refuses. -/
theorem driver_refines (h : d.Sound) (client : List (Bool × Mem) → Option Transfer) (n : ℕ) :
    (dialogue Drive.transfer client n [] d).1 = (dialogue diskTransfer client n [] d.disk).1 ∧
      (dialogue Drive.transfer client n [] d).2.disk =
        (dialogue diskTransfer client n [] d.disk).2 := by
  have hsim := dialogue_sim (f := Drive.transfer) (g := diskTransfer)
    (R := fun d k => d.disk = k ∧ d.Sound)
    (fun e k t ⟨hk, he⟩ => by
      subst hk
      exact transfer_refines he t) client n [] (s := d) (t := d.disk) ⟨rfl, h⟩
  exact ⟨hsim.1, hsim.2.1⟩

end Refine

/-- A drive with nothing on it that answers at once and carries every command out. -/
def idleDrive : Drive where
  sectors := fun _ _ => 0
  count := 0
  lo := 0
  mid := 0
  hi := 0
  sel := 0
  err := false
  phase := .idle
  busy := []
  tempo := fun _ => []
  plan := fun _ => .done

/-- A drive that is busy for some polls after each command, and refuses its second one. -/
def wornDrive : Drive :=
  { idleDrive with
    tempo := fun n => List.replicate (n % 7) 0x48
    plan := fun n => if n = 1 then .refused else .done }

lemma wornDrive_rests : wornDrive.Rests := by
  refine ⟨rfl, rfl, fun n => ?_, fun n b hb => ?_⟩
  · show (List.replicate (n % 7) (0x48 : UInt8)).length < polls
    unfold polls
    rw [List.length_replicate]
    omega
  · rw [(List.mem_replicate.mp hb).2]
    decide

lemma wornDrive_sound : wornDrive.Sound where
  rests := wornDrive_rests
  kept := fun n s h => by
    change (if n = 1 then Outcome.refused else .done) = .spoiled s at h
    split_ifs at h

/-- A sector is written, the next one is refused, and the first is to be read again. -/
def retryClient (answers : List (Bool × Mem)) : Option Transfer :=
  match answers.length with
  | 0 => some (.write 300 1 fun _ => 7)
  | 1 => some (.write 301 2 fun _ => 8)
  | 2 => some (.read 300 1 fun _ => 0)
  | _ => none

theorem driver_refines_worn :
    (dialogue Drive.transfer retryClient 4 [] wornDrive).1 =
        (dialogue diskTransfer retryClient 4 [] wornDrive.disk).1 ∧
      (dialogue Drive.transfer retryClient 4 [] wornDrive).2.disk =
        (dialogue diskTransfer retryClient 4 [] wornDrive.disk).2 ∧
      (dialogue Drive.transfer retryClient 4 [] wornDrive).1.map Prod.fst = [true, false, false] := by
  obtain ⟨h1, h2⟩ := driver_refines wornDrive_sound retryClient 4
  refine ⟨h1, h2, ?_⟩
  rw [h1]
  rfl

/-! ### After an error -/

section Error

variable {d : Drive}

lemma readOne_rests (h : d.Rests) (lba : UInt32) (ptr : ℕ) (buf : Mem) :
    (readOne lba ptr buf d).2.Rests ∧
      ((readOne lba ptr buf d).1.1 = false → (readOne lba ptr buf d).2.err = true) := by
  unfold readOne
  cases he : d.err with
  | true => exact ⟨h, fun _ => he⟩
  | false =>
    cases d.plan 0 with
    | done => exact ⟨h.of_later 1 rfl rfl rfl, fun hf => absurd hf (by simp)⟩
    | refused => exact ⟨h.of_later 1 rfl rfl rfl, fun _ => rfl⟩
    | spoiled s => exact ⟨h.of_later 1 rfl rfl rfl, fun _ => rfl⟩

lemma writeOne_rests (h : d.Rests) (lba : UInt32) (ptr : ℕ) (buf : Mem) :
    (writeOne lba ptr buf d).2.Rests ∧
      ((writeOne lba ptr buf d).1 = false → (writeOne lba ptr buf d).2.err = true) := by
  unfold writeOne
  cases he : d.err with
  | true => exact ⟨h, fun _ => he⟩
  | false =>
    cases d.plan 0 with
    | done => exact ⟨h.of_later 2 rfl rfl rfl, fun hf => absurd hf (by simp)⟩
    | refused => exact ⟨h.of_later 1 rfl rfl rfl, fun _ => rfl⟩
    | spoiled s => exact ⟨h.of_later 2 rfl rfl rfl, fun _ => rfl⟩

lemma readSectors_rests (h : d.Rests) (count : ℕ) (lba : UInt32) (ptr : ℕ) (buf : Mem) :
    (readSectors count lba ptr buf d).2.Rests ∧
      ((readSectors count lba ptr buf d).1.1 = false →
        (readSectors count lba ptr buf d).2.err = true) := by
  induction count generalizing d lba ptr buf with
  | zero => exact ⟨h, fun hf => absurd hf (by simp [readSectors])⟩
  | succ count ih =>
    obtain ⟨h1, h2⟩ := readOne_rests h lba ptr buf
    rw [readSectors_succ h]
    by_cases hok : (readOne lba ptr buf d).1.1 = true
    · simp only [hok, if_true]
      exact ih h1 _ _ _
    · simp only [hok]
      exact ⟨h1, h2⟩

lemma writeSectors_rests (h : d.Rests) (count : ℕ) (lba : UInt32) (ptr : ℕ) (buf : Mem) :
    (writeSectors buf count lba ptr d).2.Rests ∧
      ((writeSectors buf count lba ptr d).1 = false →
        (writeSectors buf count lba ptr d).2.err = true) := by
  induction count generalizing d lba ptr with
  | zero => exact ⟨h, fun hf => absurd hf (by simp [writeSectors])⟩
  | succ count ih =>
    obtain ⟨h1, h2⟩ := writeOne_rests h lba ptr buf
    rw [writeSectors_succ h]
    by_cases hok : (writeOne lba ptr buf d).1 = true
    · simp only [hok, if_true]
      exact ih h1 _ _
    · simp only [hok]
      exact ⟨h1, h2⟩

/-- A call that fails leaves a drive that shows an error. -/
lemma transfer_rests (h : d.Rests) (t : Transfer) :
    (d.transfer t).2.Rests ∧ ((d.transfer t).1.1 = false → (d.transfer t).2.err = true) := by
  cases t with
  | read lba count buf => exact readSectors_rests h count lba 0 buf
  | write lba count buf => exact writeSectors_rests h count lba 0 buf

/-- A drive that shows an error is not sent a command. -/
lemma transfer_err (h : d.Rests) (he : d.err = true) {t : Transfer} (ht : 0 < t.count) :
    d.transfer t = ((false, t.buf), d) := by
  obtain ⟨lba, count, buf⟩ | ⟨lba, count, buf⟩ := t
  · obtain ⟨k, rfl⟩ := Nat.exists_eq_succ_of_ne_zero ht.ne'
    have h1 : readOne lba 0 buf d = ((false, buf), d) := by simp [readOne, he]
    show readSectors (k + 1) lba 0 buf d = _
    rw [readSectors_succ h, h1]
    rfl
  · obtain ⟨k, rfl⟩ := Nat.exists_eq_succ_of_ne_zero ht.ne'
    have h1 : writeOne lba 0 buf d = (false, d) := by simp [writeOne, he]
    have h2 : writeSectors buf (k + 1) lba 0 d = (false, d) := by
      rw [writeSectors_succ h, h1]
      rfl
    simp only [Drive.transfer, Ata.ataWriteSectors, Nat.succ_eq_add_one, h2]
    rfl

lemma trace_rests (h : d.Rests) (l : List Transfer) : (trace Drive.transfer d l).2.Rests := by
  rw [trace_snd]
  exact run_inv_all (P := Drive.Rests) (fun d t h => (transfer_rests h t).1) l h

/-- **An error sticks.** After a call of the driver that has failed, every call that is to transfer a
sector fails, and nothing changes any more: not a sector, not even a register of the drive. -/
theorem error_sticks (h : d.Rests) (l : List Transfer) (t : Transfer)
    (ht : ((trace Drive.transfer d l).2.transfer t).1.1 = false) (l' : List Transfer)
    (hl' : ∀ u ∈ l', 0 < u.count) :
    trace Drive.transfer ((trace Drive.transfer d l).2.transfer t).2 l' =
      (l'.map fun u => (false, u.buf), ((trace Drive.transfer d l).2.transfer t).2) := by
  obtain ⟨hrest, herr⟩ := transfer_rests (trace_rests h l) t
  have herr := herr ht
  induction l' with
  | nil => rfl
  | cons u l' ih =>
    rw [trace, transfer_err hrest herr (hl' u List.mem_cons_self)]
    dsimp only
    rw [ih fun v hv => hl' v (List.mem_cons_of_mem _ hv)]
    rfl

end Error

theorem error_sticks_worn :
    let d := (wornDrive.transfer (.write 300 1 fun _ => 7)).2
    trace Drive.transfer (d.transfer (.read 301 1 fun _ => 0)).2
        [.write 302 1 fun _ => 7, .read 300 2 fun _ => 0] =
      ([(false, fun _ => 7), (false, fun _ => 0)], (d.transfer (.read 301 1 fun _ => 0)).2) := by
  refine error_sticks wornDrive_rests [.write 300 1 fun _ => 7] (.read 301 1 fun _ => 0) ?_
    [.write 302 1 fun _ => 7, .read 300 2 fun _ => 0] (by simp [Transfer.count])
  obtain ⟨-, hdisk, hsound⟩ := transfer_refines wornDrive_sound (.write 300 1 fun _ => 7)
  have hread := (transfer_refines hsound (.read 301 1 fun _ => 0)).1
  rw [hdisk] at hread
  show (((wornDrive.transfer (.write 300 1 fun _ => 7)).2).transfer (.read 301 1 fun _ => 0)).1.1 = false
  rw [hread]
  rfl

end LunariaOS.Ata
