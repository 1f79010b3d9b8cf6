import LunariaOS.Fs.Streams

/-!
A read handle under failing transfers.

`fs_read_fd` goes from sector to sector. When a transfer fails it returns what it has delivered so
far, and -1 when that is nothing; it moves the handle only after the last transfer. So a call whose
first transfer succeeds and a later one fails delivers bytes that the next call delivers again.
-/

namespace LunariaOS.Fs

open LunariaOS.Lib

variable {s : State} {i : Fin 8} {lba size offset : ℕ}

/-- The number of transfers for `k` bytes of a file from the byte `pos` on. -/
def transfers (pos k : ℕ) : ℕ := if k = 0 then 0 else (pos % 512 + k + 511) / 512

/-- None of the next `n` transfers fails. -/
def Disk.Serves (d : Disk) (n : ℕ) : Prop := ∀ j < n, d.fault j = false

lemma serves_succ (d : Disk) (n : ℕ) :
    d.Serves (n + 1) ↔ d.fault 0 = false ∧ ∀ j < n, d.fault (j + 1) = false := by
  refine ⟨fun h => ⟨h 0 (by omega), fun j hj => h (j + 1) (by omega)⟩, fun h j hj => ?_⟩
  cases j with
  | zero => exact h.1
  | succ j => exact h.2 j (by omega)

/-- What the loop of `fs_read_fd` leaves, for `n` bytes from `offset` on, of which `done` have been
delivered: `got` bytes in all, all of them exactly when no transfer fails, and none more exactly when
the next one does. -/
structure Delivered (d : Disk) (lba offset n done : ℕ) (buf : Mem) (r : ℕ × Bool × Mem × Disk) :
    Prop where
  done_le : done ≤ r.1
  le : r.1 ≤ n
  all : r.2.1 = true ↔ r.1 = n
  serves : r.2.1 = true ↔ d.Serves (transfers (offset + done) (n - done))
  none : done < n → (r.1 = done ↔ d.fault 0 = true)
  bytes : r.2.2.1 = buf.blit done (r.1 - done) fun j => fileByte d lba (offset + done + j)
  sectors : r.2.2.2.sectors = d.sectors

theorem readFdLoop_delivered (lba offset n done : ℕ) (buf : Mem) (d : Disk)
    (hn : offset + n < 4294967296) (hdone : done ≤ n) :
    Delivered d lba offset n done buf (readFdLoop lba offset n done buf d) := by
  induction h : n - done using Nat.strong_induction_on generalizing done buf d with
  | _ r ih =>
    subst h
    rw [readFdLoop]
    by_cases hlt : done < n
    · rw [if_pos hlt]
      unfold ataReadSectors
      simp only [u32_of_lt (show offset + done < 4294967296 by omega)]
      set pos := offset + done with hpos
      set take := if 512 - pos % 512 > n - done then n - done else 512 - pos % 512 with htake
      have h1 : 0 < take := by rw [htake]; split_ifs <;> omega
      have h2 : take ≤ n - done := by rw [htake]; split_ifs <;> omega
      have h3 : take ≤ 512 - pos % 512 := by rw [htake]; split_ifs <;> omega
      have hcount : transfers pos (n - done) =
          transfers (offset + (done + take)) (n - (done + take)) + 1 := by
        unfold transfers
        rw [if_neg (by omega)]
        split_ifs at htake ⊢ <;> omega
      cases hf : d.fault 0 with
      | true =>
        simp only [if_true]
        refine ⟨le_rfl, hdone, by simp; omega, ?_, fun _ => by simp [hf], ?_, rfl⟩
        · rw [hcount, serves_succ]
          simp [hf]
        · simp only [Nat.sub_self, Mem.blit_zero]
      | false =>
        simp only [Bool.false_eq_true, if_false]
        have hnext := ih (n - (done + take)) (by omega) (done + take)
          (buf.blit done take fun i => (d.sectors (u32 (lba + pos / 512))).mem (pos % 512 + i))
          { d with fault := fun k => d.fault (k + 1) } (by omega) rfl
        generalize readFdLoop lba offset n (done + take) _ _ = r at hnext ⊢
        refine ⟨by have := hnext.done_le; omega, hnext.le, hnext.all, ?_, fun _ => ?_, ?_,
          hnext.sectors⟩
        · rw [hcount, serves_succ, hnext.serves, hf]
          exact (and_iff_right rfl).symm
        · have := hnext.done_le
          simp [hf]
          omega
        · rw [hnext.bytes, Mem.blit_blit _ _ _ _ _ _ (fun j => fileByte d lba (pos + j))
            (fun j hj => ?_) (fun j _ => ?_)]
          · have := hnext.done_le
            rw [show take + (r.1 - (done + take)) = r.1 - done by omega]
          · unfold fileByte
            rw [show (pos + j) / 512 = pos / 512 by omega,
              show (pos + j) % 512 = pos % 512 + j by omega]
          · rw [show offset + (done + take) + j = pos + (take + j) by omega]
            rfl
    · rw [if_neg hlt]
      have hz : n - done = 0 := by omega
      refine ⟨le_rfl, by simp only; omega, by simp; omega, ?_, fun hx => absurd hx hlt, ?_, rfl⟩
      · rw [hz]
        refine ⟨fun _ j hj => ?_, fun _ => rfl⟩
        simp [transfers] at hj
      · simp only [Nat.sub_self, Mem.blit_zero]

/-- The bytes that a read of `n` at the position of a handle may deliver. -/
def reach (offset size n : ℕ) : ℕ := min n (size - offset)

/-- What `fs_read_fd` does on a read handle: it delivers `got` bytes, all it may when no transfer
fails, and then moves on; else it stays. -/
structure ReadResult (s : State) (i : Fin 8) (lba size offset : ℕ) (buf : Mem) (n got : ℕ) (ok : Bool)
    (d' : Disk) : Prop where
  le : got ≤ reach offset size n
  all : ok = true ↔ got = reach offset size n
  serves : ok = true ↔ s.disk.Serves (transfers offset (reach offset size n))
  none : 0 < reach offset size n → (got = 0 ↔ s.disk.fault 0 = true)
  sectors : d'.sectors = s.disk.sectors
  result : fsReadFd s (fdOf i) buf n =
    (if got = 0 ∧ ok = false then -1 else i32 got,
      buf.blit 0 got fun j => fileByte s.disk lba (offset + j),
      { s with disk := d' }.setHandle i
        ((s.handles i).moveTo (if ok then offset + got else offset)))

/-- **`fs_read_fd` on a read handle, under any faults.** -/
theorem fsReadFd_faults (h : Reads s i lba size offset) (hsize : size < 4294967296) (buf : Mem)
    (n : ℕ) : ∃ got ok d', ReadResult s i lba size offset buf n got ok d' := by
  obtain ⟨hu, hwr, rfl, rfl, rfl⟩ := h
  have hstay := s.setHandle_stay i
  set h := s.handles i with hh
  have hmin : (if n > h.size - h.offset then h.size - h.offset else n) =
      reach h.offset h.size n := by
    unfold reach
    split_ifs <;> omega
  have hfd : fdLookup s (fdOf i) = some i := by rw [fdLookup_fdOf, if_pos hu]
  have hle : reach h.offset h.size n ≤ h.size - h.offset := min_le_right _ _
  set k := reach h.offset h.size n with hk
  by_cases h0 : k = 0
  · refine ⟨0, true, s.disk, Nat.zero_le _, by simp [← hk, h0], ?_, fun hx => by omega, rfl, ?_⟩
    · rw [← hk, h0]
      refine ⟨fun _ j hj => ?_, fun _ => rfl⟩
      simp [transfers] at hj
    · unfold fsReadFd
      rw [hfd]
      simp only [available_eq, ← hh]
      rw [if_neg (by simp [hwr]), hmin, if_pos h0, Mem.blit_zero]
      simp only [if_true, Nat.add_zero]
      rw [hstay, if_neg (by simp)]
      rfl
  · have hr := readFdLoop_delivered h.lba h.offset k 0 buf s.disk (by omega) (Nat.zero_le _)
    generalize hrun : readFdLoop h.lba h.offset k 0 buf s.disk = r at hr
    obtain ⟨done, ok, buf', d'⟩ := r
    have hbytes : buf' = buf.blit 0 done fun j => fileByte s.disk h.lba (h.offset + j) := by
      simpa using hr.bytes
    have hdone : done ≤ k := hr.le
    refine ⟨done, ok, d', hdone, hr.all, by simpa using hr.serves, hr.none, hr.sectors, ?_⟩
    unfold fsReadFd
    rw [hfd]
    simp only [available_eq, ← hh]
    rw [if_neg (by simp [hwr]), hmin, if_neg h0, hrun, hbytes]
    cases ok with
    | false =>
      simp only [Bool.false_eq_true, if_false, and_true, ite_not]
      exact congrArg _ (congrArg _ (State.setHandle_stay { s with disk := d' } i).symm)
    | true =>
      simp only [if_true]
      rw [if_neg (by simp), u32_of_lt (by omega)]
      rfl

/-! ### Position, count and delivered bytes -/

/-- The call moves the handle by the number of bytes it reports, and by none when it returns -1. -/
def Advances (s : State) (i : Fin 8) (buf : Mem) (n : ℕ) : Prop :=
  let r := fsReadFd s (fdOf i) buf n
  ((r.2.2.handles i).offset : ℤ) = (s.handles i).offset + if r.1 = -1 then 0 else r.1

/-- No transfer of the call fails, and it delivers fewer than `2^31` bytes; or the first one fails. -/
def Steady (s : State) (i : Fin 8) (n : ℕ) : Prop :=
  let h := s.handles i
  let k := reach h.offset h.size n
  s.disk.Serves (transfers h.offset k) ∧ k < 2147483648 ∨ s.disk.fault 0 = true

lemma Reads.withDisk (h : Reads s i lba size offset) (d' : Disk) :
    Reads { s with disk := d' } i lba size offset :=
  ⟨h.used, h.reads, h.lba_eq, h.size_eq, h.offset_eq⟩

/-- The state of a read handle after it has moved on. -/
lemma Reads.moved (h : Reads s i lba size offset) (d' : Disk) (o : ℕ) :
    Reads ({ s with disk := d' }.setHandle i ((s.handles i).moveTo o)) i lba size o := by
  obtain ⟨hu, hwr, hl, hs, -⟩ := h
  exact ⟨by simpa using hu, by simpa using hwr, by simpa using hl, by simpa using hs, by simp⟩

lemma advances_iff (h : Reads s i lba size offset) (hsize : size < 4294967296) (buf : Mem) (n : ℕ) :
    Advances s i buf n ↔ Steady s i n := by
  obtain ⟨got, ok, d', hr⟩ := fsReadFd_faults h hsize buf n
  obtain ⟨-, -, rfl, rfl, rfl⟩ := h
  have hk : reach (s.handles i).offset (s.handles i).size n ≤ (s.handles i).size := by
    unfold reach
    omega
  have hle := hr.le
  have hall := hr.all
  have hnone := hr.none
  unfold Advances Steady
  simp only
  rw [hr.result, ← hr.serves]
  simp only [State.setHandle_same, Handle.moveTo_offset]
  cases ok with
  | true =>
    have hgot := hall.mp rfl
    simp only [if_true, Bool.true_eq_false, and_false, if_false, true_and]
    -- the count is returned as a signed word, and is the number of bytes below `2^31` only
    have hword : (((s.handles i).offset + got : ℕ) : ℤ) =
        (s.handles i).offset + (if i32 got = -1 then 0 else i32 got) ↔ got < 2147483648 := by
      unfold i32
      split_ifs <;> omega
    rw [hword, ← hgot]
    refine ⟨Or.inl, fun hx => hx.elim id fun hf => ?_⟩
    by_contra hbig
    have := (hnone (by omega)).mpr hf
    omega
  | false =>
    have hgot : got ≠ reach (s.handles i).offset (s.handles i).size n := fun hx =>
      absurd (hall.mpr hx) (by simp)
    simp only [Bool.false_eq_true, if_false, false_and, false_or, and_true]
    rw [← hnone (by omega)]
    -- fewer bytes than the size of a file, so the count is neither 0 nor -1
    have hword : ((s.handles i).offset : ℤ) = (s.handles i).offset +
        (if (if got = 0 then -1 else i32 got) = -1 then 0 else if got = 0 then -1 else i32 got) ↔
          got = 0 := by
      unfold i32
      split_ifs <;> omega
    exact hword

/-- The bytes of a file from a position on, as a list. -/
def bytesFrom (d : Disk) (lba offset k : ℕ) : List UInt8 :=
  (List.range k).map fun j => fileByte d lba (offset + j)

lemma bytesFrom_add (d : Disk) (lba offset j k : ℕ) :
    bytesFrom d lba offset (j + k) = bytesFrom d lba offset j ++ bytesFrom d lba (offset + j) k := by
  unfold bytesFrom
  rw [List.range_add, List.map_append, List.map_map]
  congr 1
  refine List.map_congr_left fun x _ => ?_
  simp only [Function.comp_apply, Nat.add_assoc]

lemma bytesFrom_congr {d d' : Disk} (h : d'.sectors = d.sectors) (lba offset k : ℕ) :
    bytesFrom d' lba offset k = bytesFrom d lba offset k := by
  unfold bytesFrom fileByte
  rw [h]

/-- One call of a run of reads that all start from an empty buffer. -/
def readStep (i : Fin 8) (s : State) (n : ℕ) : State := (fsReadFd s (fdOf i) (fun _ => 0) n).2.2

/-- **Calls that each advance by what they report deliver a piece of the file.** -/
lemma readSeq_steady (h : Reads s i lba size offset) (hsize : size < 4294967296) (ns : List ℕ)
    (hl : Along (readStep i) (fun s n => Steady s i n) s ns) :
    ∃ k ≤ size - offset, (readSeq s (fdOf i) ns).1 = bytesFrom s.disk lba offset k ∧
      Reads (readSeq s (fdOf i) ns).2 i lba size (offset + k) := by
  induction ns generalizing s offset with
  | nil => exact ⟨0, Nat.zero_le _, rfl, h⟩
  | cons n ns ih =>
    obtain ⟨got, ok, d', hr⟩ := fsReadFd_faults h hsize (fun _ => 0) n
    obtain ⟨hn, hl⟩ := hl
    have hle := hr.le
    have hall := hr.all
    have hreach : reach offset size n ≤ size - offset := min_le_right _ _
    -- the call delivers `got` bytes and moves on by as many
    have hgot : got < 2147483648 ∧ (ok = false → got = 0) := by
      obtain ⟨-, -, rfl, rfl, rfl⟩ := h
      rcases hn with ⟨hserve, hk⟩ | hf
      · have hok := hr.serves.mpr hserve
        exact ⟨by omega, fun hx => absurd hok (by simp [hx])⟩
      · rcases Nat.eq_zero_or_pos (reach (s.handles i).offset (s.handles i).size n) with h0 | hpos
        · exact ⟨by omega, fun _ => by omega⟩
        · have := (hr.none hpos).mpr hf
          exact ⟨by omega, fun _ => this⟩
    have hmove : (if ok then offset + got else offset) = offset + got := by
      cases ok with
      | true => rfl
      | false => rw [hgot.2 rfl]; rfl
    have hcount : (if got = 0 ∧ ok = false then -1 else i32 (got : ℤ)).toNat = got := by
      rw [i32_of_lt hgot.1]
      split_ifs with hx
      · rw [hx.1]; rfl
      · simp
    have hres := hr.result
    rw [hmove] at hres
    have hnext := h.moved d' (offset + got)
    have hstep : readStep i s n =
        { s with disk := d' }.setHandle i ((s.handles i).moveTo (offset + got)) :=
      congrArg (fun r => r.2.2) hres
    rw [hstep] at hl
    obtain ⟨k, hk, hout, hlast⟩ := ih hnext hl
    rw [← Nat.sub_sub] at hk
    simp only [readSeq]
    rw [hres]
    refine ⟨got + k, Nat.add_le_of_le_sub' (hle.trans hreach) hk, ?_, ?_⟩
    · simp only
      rw [hout, bytesFrom_add, hcount]
      congr 1
      · refine List.map_congr_left fun j hj => ?_
        have hj' := List.mem_range.mp hj
        rw [Mem.blit_of_in _ _ (Nat.zero_le j) (by rwa [Nat.zero_add]), Nat.sub_zero]
      · exact bytesFrom_congr hr.sectors lba _ k
    · rw [← Nat.add_assoc]
      exact hlast

/-- **Position, count and delivered bytes of a read handle.** A call moves the handle by the number
of bytes it reports exactly when it is steady; and steady calls, one after the other, deliver
together the bytes of the file from the position on, none twice and none left out. -/
theorem read_advances (h : Reads s i lba size offset) (hsize : size < 4294967296) :
    (∀ buf n, Advances s i buf n ↔ Steady s i n) ∧
      ∀ ns, Along (readStep i) (fun s n => Steady s i n) s ns →
        (readSeq s (fdOf i) ns).1 <+: bytesFrom s.disk lba offset (size - offset) ∧
        ((readSeq s (fdOf i) ns).2.handles i).offset =
          offset + (readSeq s (fdOf i) ns).1.length := by
  refine ⟨fun buf n => advances_iff h hsize buf n, fun ns hl => ?_⟩
  obtain ⟨k, hk, hout, hlast⟩ := readSeq_steady h hsize ns hl
  rw [hout, hlast.offset_eq]
  refine ⟨⟨bytesFrom s.disk lba (offset + k) (size - offset - k), ?_⟩, by simp [bytesFrom]⟩
  rw [← bytesFrom_add, Nat.add_sub_of_le hk]

/-- Opening a file for reading sets up the first free handle at its start. -/
lemma fsOpen_fresh (hw : s.disk.Working) {name : CStr} {flags k : ℕ}
    (hflags : flagSet flags (fsOWronly ||| fsORdwr) = false) (hname : name.length < fsMaxName)
    (hk : slotOf s.sb s.disk name = some k) (htype : (entry s.sb s.disk k).type ≠ fsDir)
    (hi : freeHandle s = some i) :
    (fsOpen s name flags).1 = fdOf i ∧
      Reads (fsOpen s name flags).2 i (entry s.sb s.disk k).lba (entry s.sb s.disk k).size 0 := by
  rw [fsOpen_working hw, if_neg (by omega)]
  simp only [hk, hi, hflags, Option.map_some, Option.isNone_some, Bool.false_and,
    Bool.false_eq_true, if_false, Option.some.injEq, if_neg htype, openReader]
  exact ⟨trivial, by simp, by simp [Handle.zero], by simp, by simp, by simp [Handle.zero]⟩

/-- The file `f` of 700 bytes. -/
def longF : State := blank.step (.write pathF fsFile (fun _ => 7) 700)

lemma longF_wellFormed : WellFormed longF.sb longF.disk :=
  step_wellFormed blank_wellFormed
    (blank_fits (l := [.write pathF fsFile (fun _ => 7) 700]) (by decide +kernel) (by decide)).1

lemma longF_entry : slotOf longF.sb longF.disk pathF = some 0 ∧
    (entry longF.sb longF.disk 0).lba = 2 ∧ (entry longF.sb longF.disk 0).size = 700 := by
  decide +kernel

/-- The file `f`, open for reading. -/
def reading : State := (fsOpen longF pathF fsORdonly).2

lemma reading_disk : reading.disk = longF.disk ∧ reading.sb = longF.sb :=
  fsOpen_disk longF longF_wellFormed.working pathF fsORdonly

lemma reading_reads : Reads reading 0 2 700 0 := by
  have hfree : freeHandle longF = some 0 := by decide +kernel
  have htype : (entry longF.sb longF.disk 0).type = fsFile := by decide +kernel
  have h := (fsOpen_fresh longF_wellFormed.working
    (show flagSet fsORdonly (fsOWronly ||| fsORdwr) = false from rfl) (by decide) longF_entry.1
    (by rw [htype]; decide) hfree).2
  rw [longF_entry.2.1, longF_entry.2.2] at h
  exact h

theorem read_advances_reading :
    (∀ buf n, Advances reading 0 buf n ↔ Steady reading 0 n) ∧
      ∀ ns, Along (readStep 0) (fun s n => Steady s 0 n) reading ns →
        (readSeq reading (fdOf 0) ns).1 <+: bytesFrom reading.disk 2 0 (700 - 0) ∧
        ((readSeq reading (fdOf 0) ns).2.handles 0).offset =
          0 + (readSeq reading (fdOf 0) ns).1.length :=
  read_advances reading_reads (by decide)

/-- The same, where the second transfer from now on fails. -/
def readingFaulty : State := { reading with disk := { reading.disk with fault := fun n => n == 1 } }

/-- A call whose second transfer fails ends at the first sector boundary, and the handle stays. -/
lemma fsReadFd_stops (h : Reads s i lba size offset) (hsize : size < 4294967296) (buf : Mem) {n : ℕ}
    (h0 : s.disk.fault 0 = false) (h1 : s.disk.fault 1 = true)
    (hk : 512 < offset % 512 + reach offset size n) :
    fsReadFd s (fdOf i) buf n =
      (((512 - offset % 512 : ℕ) : ℤ),
        buf.blit 0 (512 - offset % 512) fun j =>
          (s.disk.sectors (u32 (lba + offset / 512))).mem (offset % 512 + j),
        { s with disk := { s.disk with fault := fun k => s.disk.fault (k + 2) } }) := by
  obtain ⟨hu, hwr, rfl, rfl, rfl⟩ := h
  set h := s.handles i with hh
  have hmin : (if n > h.size - h.offset then h.size - h.offset else n) =
      reach h.offset h.size n := by
    unfold reach
    split_ifs <;> omega
  have hle : reach h.offset h.size n ≤ h.size - h.offset := min_le_right _ _
  set k := reach h.offset h.size n with hkdef
  have hlt : h.offset % 512 < 512 := Nat.mod_lt _ (by omega)
  unfold fsReadFd
  rw [fdLookup_fdOf, if_pos hu]
  simp only [available_eq, ← hh]
  rw [if_neg (by simp [hwr]), hmin, if_neg (by omega), readFdLoop, if_pos (by omega)]
  unfold ataReadSectors
  simp only [h0, Bool.false_eq_true, if_false, Nat.add_zero, Nat.sub_zero, Nat.zero_add]
  rw [u32_of_lt (by omega), if_neg (by omega), readFdLoop, if_pos (by omega)]
  unfold ataReadSectors
  simp only [h1, if_true]
  rw [if_pos (by omega), i32_of_lt (by omega)]

/-- **A read that fails at its second sector delivers the first one, and does not move the handle**:
the next call delivers the first sector again. -/
theorem read_repeats :
    Reads readingFaulty 0 2 700 0 ∧ (fsReadFd readingFaulty (fdOf 0) (fun _ => 0) 700).1 = 512 ∧
      ((fsReadFd readingFaulty (fdOf 0) (fun _ => 0) 700).2.2.handles 0).offset = 0 ∧
      ¬ Advances readingFaulty 0 (fun _ => 0) 700 ∧
      (readSeq readingFaulty (fdOf 0) [700, 700]).1.length = 512 + 700 := by
  have h : Reads readingFaulty 0 2 700 0 := reading_reads.withDisk _
  have hstop := fsReadFd_stops h (by decide) (fun _ => 0) (n := 700) rfl rfl (by decide)
  have hoff : (readingFaulty.handles 0).offset = 0 := h.offset_eq
  refine ⟨h, by rw [hstop]; rfl, by rw [hstop]; exact hoff, ?_, ?_⟩
  · rw [advances_iff h (by decide)]
    unfold Steady
    simp only [h.offset_eq, h.size_eq]
    rintro (⟨hserve, -⟩ | hf)
    · exact absurd (hserve 1 (by decide)) (by decide)
    · exact absurd hf (by decide)
  · -- the second call finds a working disk and starts at the same place
    rw [readSeq, hstop]
    have hseq := readSeq_reads (by funext k; rfl) (h.withDisk
      { readingFaulty.disk with fault := fun k => readingFaulty.disk.fault (k + 2) }) (by decide) [700]
    simp only [hseq]
    simp

end LunariaOS.Fs
