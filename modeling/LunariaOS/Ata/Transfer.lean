import LunariaOS.Ata.Ports

/-!
What a transfer of one sector does, seen through the ports.

A drive that waits for a command and shows no error either carries the transfer out, in the sector
that the low 28 bits of the number name, or shows an error from then on. A drive that shows an error
never gets another command, since both functions look at the status before they send one.
-/

namespace LunariaOS.Ata

open LunariaOS.Lib LunariaOS.Fs

/-! ### Bits -/

lemma busy_bsy (b : UInt8) : (ataStatusBsy ||| b) &&& ataStatusBsy ≠ 0 := by
  have h : ∀ b : BitVec 8, (0x80#8 ||| b) &&& 0x80#8 = 0x80#8 := by decide
  have e : (ataStatusBsy ||| b) &&& ataStatusBsy = ataStatusBsy :=
    UInt8.eq_of_toBitVec_eq (h b.toBitVec)
  rw [e]
  decide

lemma busy_err (b : UInt8) : (ataStatusBsy ||| b) &&& ataStatusErr = b &&& ataStatusErr := by
  have h : ∀ b : BitVec 8, (0x80#8 ||| b) &&& 1#8 = b &&& 1#8 := by decide
  exact UInt8.eq_of_toBitVec_eq (h b.toBitVec)

lemma word_lo (a b : UInt8) : (a.toUInt16 ||| b.toUInt16 <<< 8).toUInt8 = a := by
  apply UInt8.eq_of_toBitVec_eq
  ext i hi
  simp

lemma word_hi (a b : UInt8) : ((a.toUInt16 ||| b.toUInt16 <<< 8) >>> 8).toUInt8 = b := by
  apply UInt8.eq_of_toBitVec_eq
  ext i hi
  have h1 : 8 + i < 16 := by omega
  have h2 : i < 16 := by omega
  simp [h1, h2, BitVec.getLsbD_eq_getElem hi]

lemma byte_mask (w : UInt16) : (w &&& 0xFF).toUInt8 = w.toUInt8 := by
  apply UInt8.eq_of_toBitVec_eq
  ext i hi
  have h : ∀ i < 8, (255#8)[i]? = some true := by decide
  have h := h i hi
  rw [BitVec.getElem?_eq_getElem hi] at h
  simp [Option.some.inj h]

/-! ### The status -/

namespace Drive

variable (d : Drive)

lemma status_bsy : d.status &&& ataStatusBsy = 0 := by
  unfold status
  cases d.err <;> cases d.phase.waits <;> decide

lemma status_err : d.status &&& ataStatusErr ≠ 0 ↔ d.err = true := by
  unfold status
  cases d.err <;> cases d.phase.waits <;> decide

lemma status_drq : d.status &&& ataStatusDrq ≠ 0 ↔ d.phase.waits = true := by
  unfold status
  cases d.err <;> cases d.phase.waits <;> decide

/-- The drive with its busy time over. -/
def awake : Drive := { d with busy := [] }

variable {d}

lemma inb_nil (h : d.busy = []) : d.inb ataStatus = (d.status, d.awake) := by
  cases d
  dsimp only at h
  subst h
  rfl

lemma inb_cons {b : UInt8} {l : List UInt8} (h : d.busy = b :: l) :
    d.inb ataStatus = (ataStatusBsy ||| b, { d with busy := l }) := by
  simp [inb, h]

end Drive

/-- **`ata_wait` finds out whether the drive shows an error**, once the drive is no longer busy. -/
lemma waitLoop_eq {n : ℕ} {d : Drive} (h : d.busy.length < n) : waitLoop n d = (!d.err, d.awake) := by
  induction n generalizing d with
  | zero => omega
  | succ n ih =>
    cases hb : d.busy with
    | nil =>
      rw [waitLoop, Drive.inb_nil hb]
      simp only [d.status_bsy, if_true, d.status_err]
      cases d.err <;> rfl
    | cons b l =>
      rw [waitLoop, Drive.inb_cons hb]
      simp only [busy_bsy, if_false]
      rw [hb, List.length_cons] at h
      exact ih (d := { d with busy := l }) (by dsimp only; omega)

/-- **`ata_wait_drq` finds out whether the drive waits for words**, if it shows no error bit while it
is busy. -/
lemma waitDrqLoop_eq {n : ℕ} {d : Drive} (h : d.busy.length < n)
    (hq : ∀ b ∈ d.busy, b &&& ataStatusErr = 0) (he : d.err = true ∨ d.phase.waits = true) :
    waitDrqLoop n d = (!d.err, d.awake) := by
  induction n generalizing d with
  | zero => omega
  | succ n ih =>
    cases hb : d.busy with
    | nil =>
      rw [waitDrqLoop, Drive.inb_nil hb]
      simp only [d.status_err, d.status_bsy, d.status_drq, true_and]
      rcases he with he | he
      · simp [he]
      · cases d.err <;> simp [he]
    | cons b l =>
      have hb0 : b &&& ataStatusErr = 0 := hq b (by rw [hb]; exact List.mem_cons_self)
      rw [waitDrqLoop, Drive.inb_cons hb]
      simp only [busy_err, hb0, busy_bsy, ne_eq, not_true_eq_false, if_false, false_and]
      rw [hb, List.length_cons] at h
      exact ih (d := { d with busy := l }) (by dsimp only; omega)
        (fun c hc => hq c (by rw [hb]; exact List.mem_cons_of_mem _ hc)) he

/-! ### The registers -/

/-- The drive with its registers set for the sector `lba`. -/
def Drive.aim (d : Drive) (lba : UInt32) : Drive :=
  { d with
    sel := (0xE0 : UInt8) ||| ((lba >>> 24) &&& 0x0F).toUInt8
    count := 1
    lo := (lba &&& 0xFF).toUInt8
    mid := ((lba >>> 8) &&& 0xFF).toUInt8
    hi := ((lba >>> 16) &&& 0xFF).toUInt8 }

lemma request_eq (lba : UInt32) (cmd : UInt8) (d : Drive) :
    request lba cmd d = (d.aim lba).command cmd := rfl

/-- The sector that a transfer is about: the registers have room for 28 bits of its number. -/
def place (lba : UInt32) : ℕ := lba.toNat % 268435456

lemma lba_aim (d : Drive) (lba : UInt32) : (d.aim lba).lba = place lba := by
  have h8 : ∀ n : ℕ, n &&& 255 = n % 256 := Nat.and_two_pow_sub_one_eq_mod (n := 8)
  have h4 : ∀ n : ℕ, n &&& 15 = n % 16 := Nat.and_two_pow_sub_one_eq_mod (n := 4)
  have hor : ∀ n : ℕ, (224 ||| n) % 16 = n % 16 := fun n => by
    have h := Nat.or_mod_two_pow (a := 224) (b := n) (n := 4)
    simpa using h
  have hlt := lba.toNat_lt
  unfold Drive.lba Drive.aim place
  simp only [UInt8.toNat_or, UInt32.toNat_toUInt8, UInt32.toNat_and, UInt32.toNat_shiftRight]
  simp [h8, h4, hor, Nat.shiftRight_eq_div_pow]
  omega

/-! ### The words of a sector -/

/-- The two bytes of a word behind what is there of a run. -/
lemma pair_agree {got f : Mem} {i : ℕ} (h : ∀ k < i, got k = f k) :
    ∀ k < i + 2, Function.update (Function.update got i (f i)) (i + 1) (f (i + 1)) k = f k := by
  intro k hk
  by_cases h1 : k = i + 1
  · rw [h1, Function.update_self]
  · rw [Function.update_of_ne h1]
    by_cases h2 : k = i
    · rw [h2, Function.update_self]
    · rw [Function.update_of_ne h2]
      exact h k (by omega)

/-- The drive has the two bytes that a word of a write is made of. -/
lemma outw_pair {d : Drive} {n : ℕ} {got : Mem} (hp : d.phase = .dataOut (n + 1) got) (a b : UInt8) :
    d.outw ataData (a.toUInt16 ||| b.toUInt16 <<< 8) =
      if n = 0 then d.store (Function.update (Function.update got (2 * (255 - n)) a) (2 * (255 - n) + 1) b)
      else { d with
        phase := .dataOut n
          (Function.update (Function.update got (2 * (255 - n)) a) (2 * (255 - n) + 1) b) } := by
  unfold Drive.outw
  rw [hp]
  simp only [if_true, word_lo, word_hi]

/-- **The words of a write arrive**: when the last one has, the drive stores what was sent. -/
lemma sendWords_eq (buf : Mem) (ptr : ℕ) {n : ℕ} (hn : n < 256) {d : Drive} {got : Mem}
    (hp : d.phase = .dataOut (n + 1) got) (hgot : ∀ i < 2 * (255 - n), got i = buf (ptr + i)) :
    ∃ got', (∀ i < 512, got' i = buf (ptr + i)) ∧
      sendWords buf (n + 1) (ptr + 2 * (255 - n)) d = d.store got' := by
  induction n generalizing d got with
  | zero =>
    refine ⟨_, pair_agree (f := fun i => buf (ptr + i)) hgot, ?_⟩
    rw [sendWords, sendWords, outw_pair hp, if_pos rfl]
  | succ n ih =>
    have hnext := pair_agree (f := fun i => buf (ptr + i)) hgot
    have hlen : 2 * (255 - (n + 1)) + 2 = 2 * (255 - n) := by omega
    obtain ⟨got', h1, h2⟩ := ih (d := { d with phase := .dataOut (n + 1) _ }) (by omega) rfl
      (by rwa [hlen] at hnext)
    refine ⟨got', h1, Eq.trans ?_ h2⟩
    rw [sendWords, outw_pair hp, if_neg (Nat.succ_ne_zero n), Nat.add_assoc, hlen]
    rfl

lemma inw_pair {d : Drive} {n : ℕ} (hp : d.phase = .dataIn (n + 1)) :
    d.inw ataData =
      (((d.sectors d.lba).mem (2 * (255 - n))).toUInt16 |||
          ((d.sectors d.lba).mem (2 * (255 - n) + 1)).toUInt16 <<< 8,
        if n = 0 then { d with phase := .idle, plan := fun n => d.plan (n + 1) }
        else { d with phase := .dataIn n }) := by
  unfold Drive.inw
  rw [hp]
  simp only [if_true]

lemma blit_pair (buf : Mem) (p : ℕ) (f : ℕ → UInt8) :
    Function.update (Function.update buf p (f 0)) (p + 1) (f 1) = buf.blit p 2 f := by
  funext x
  unfold Mem.blit
  by_cases h1 : x = p + 1
  · subst h1
    rw [Function.update_self, if_pos (by omega), Nat.add_sub_cancel_left]
  · rw [Function.update_of_ne h1]
    by_cases h2 : x = p
    · subst h2
      rw [Function.update_self, if_pos (by omega), Nat.sub_self]
    · rw [Function.update_of_ne h2, if_neg (by omega)]

/-- **The words of a read arrive**, and after the last one the drive waits for a command. -/
lemma takeWords_eq (ptr : ℕ) {n : ℕ} (hn : n < 256) {d : Drive} {buf : Mem}
    (hp : d.phase = .dataIn (n + 1)) :
    takeWords (n + 1) (ptr + 2 * (255 - n)) buf d =
      (buf.blit (ptr + 2 * (255 - n)) (2 * (n + 1)) fun i =>
          (d.sectors d.lba).mem (2 * (255 - n) + i),
        { d with phase := .idle, plan := fun n => d.plan (n + 1) }) := by
  have hword := fun (k p : ℕ) (m : Mem) =>
    blit_pair m p fun i => (d.sectors d.lba).mem (k + i)
  simp only [Nat.add_zero] at hword
  induction n generalizing d buf with
  | zero =>
    rw [takeWords, inw_pair hp, if_pos rfl]
    simp only [takeWords, byte_mask, word_lo, word_hi, hword]
  | succ n ih =>
    have hlen : 2 * (255 - (n + 1)) + 2 = 2 * (255 - n) := by omega
    rw [takeWords, inw_pair hp, if_neg (Nat.succ_ne_zero n)]
    simp only [byte_mask, word_lo, word_hi, hword]
    rw [Nat.add_assoc, hlen, ih (d := { d with phase := .dataIn (n + 1) }) (by omega) rfl hword]
    refine Prod.ext ?_ rfl
    rw [← hlen, ← Nat.add_assoc, show 2 * (n + 1 + 1) = 2 + 2 * (n + 1) by omega]
    exact Mem.blit_blit _ _ 2 _ _ _ (fun i => (d.sectors d.lba).mem (2 * (255 - (n + 1)) + i))
      (fun i _ => rfl) fun i _ => congrArg (d.sectors d.lba).mem (Nat.add_assoc _ _ _)

lemma takeSector_eq (ptr : ℕ) (buf : Mem) {d : Drive} (hp : d.phase = .dataIn 256) :
    takeSector ptr buf d =
      (buf.blit ptr 512 (d.sectors d.lba).mem,
        { d with phase := .idle, plan := fun n => d.plan (n + 1) }) := by
  have h := @takeWords_eq ptr 255 (by omega) d buf hp
  unfold takeSector
  simpa using h

lemma sendSector_eq (buf : Mem) (ptr : ℕ) {d : Drive} {got : Mem} (hp : d.phase = .dataOut 256 got) :
    ∃ got', Sector.ofMem got' = Sector.ofMem (fun i => buf (ptr + i)) ∧
      sendSector buf ptr d = d.store got' := by
  obtain ⟨got', h1, h2⟩ := sendWords_eq buf ptr (n := 255) (by omega) hp (fun i hi => by omega)
  refine ⟨got', funext fun i => h1 i i.isLt, ?_⟩
  unfold sendSector
  simpa using h2

/-! ### Transfers of one sector -/

/-- The drive answers before the driver gives up, and shows no error bit while it is busy. -/
structure Drive.Prompt (d : Drive) : Prop where
  soon : ∀ n, (d.tempo n).length < polls
  quiet : ∀ n, ∀ b ∈ d.tempo n, b &&& ataStatusErr = 0

/-- The drive waits for a command, or shows the error of the last one. -/
structure Drive.Rests (d : Drive) : Prop where
  busy : d.busy = []
  phase : d.phase = .idle
  prompt : d.Prompt

/-- The drive after a command for the sector `lba` that has kept it busy `k` times. -/
def Drive.later (d : Drive) (lba : UInt32) (k : ℕ) : Drive :=
  { d.aim lba with
    busy := []
    phase := .idle
    tempo := fun n => d.tempo (n + k)
    plan := fun n => d.plan (n + 1) }

/-- The drive when a command for the sector `lba` has been accepted. -/
def Drive.begun (d : Drive) (lba : UInt32) (phase : Phase) : Drive :=
  { d.aim lba with
    err := false
    phase := phase
    busy := d.tempo 0
    tempo := fun n => d.tempo (n + 1) }

/-- The drive when a command for the sector `lba` has been refused. -/
def Drive.failed (d : Drive) (lba : UInt32) : Drive :=
  { d.later lba 1 with err := true, busy := d.tempo 0 }

lemma command_read_done (d : Drive) (lba : UInt32) (h : d.plan 0 = .done) :
    request lba ataCmdRead d = d.begun lba (.dataIn 256) := by
  rw [request_eq]
  unfold Drive.command
  rw [if_neg (by simp [Drive.hold, Drive.aim])]
  simp [Drive.hold, Drive.aim, h, Drive.begun]

lemma command_read_refused (d : Drive) (lba : UInt32) (h : d.plan 0 ≠ .done) :
    request lba ataCmdRead d = d.failed lba := by
  rw [request_eq]
  unfold Drive.command
  rw [if_neg (by simp [Drive.hold, Drive.aim])]
  cases hp : d.plan 0 with
  | done => exact absurd hp h
  | refused => simp [Drive.hold, Drive.aim, hp, Drive.failed, Drive.later]
  | spoiled s => simp [Drive.hold, Drive.aim, hp, Drive.failed, Drive.later]

lemma command_write_refused (d : Drive) (lba : UInt32) (h : d.plan 0 = .refused) :
    request lba ataCmdWrite d = d.failed lba := by
  rw [request_eq]
  unfold Drive.command
  rw [if_neg (by simp [Drive.hold, Drive.aim])]
  simp [Drive.hold, Drive.aim, h, Drive.failed, Drive.later]

lemma command_write_begun (d : Drive) (lba : UInt32) (h : d.plan 0 ≠ .refused) :
    request lba ataCmdWrite d = d.begun lba (.dataOut 256 fun _ => 0) := by
  have hne : ataCmdWrite ≠ ataCmdRead := by decide
  rw [request_eq]
  unfold Drive.command
  rw [if_neg (by simp [Drive.hold, Drive.aim])]
  cases hp : d.plan 0 with
  | done => simp [Drive.hold, Drive.aim, hp, Drive.begun, hne]
  | refused => exact absurd hp h
  | spoiled s => simp [Drive.hold, Drive.aim, hp, Drive.begun, hne]

section Rests

variable {d : Drive} (hd : d.Rests)

include hd

lemma Drive.Rests.awake : d.awake = d := by
  have hb := hd.busy
  cases d
  dsimp only at hb
  subst hb
  rfl

lemma Drive.Rests.wait : ataWait d = (!d.err, d) := by
  unfold ataWait
  rw [waitLoop_eq (by rw [hd.busy]; exact polls_pos), hd.awake]

lemma Drive.Rests.wait_begun (lba : UInt32) (phase : Phase) :
    ataWait (d.begun lba phase) = (true, (d.begun lba phase).awake) :=
  waitLoop_eq (d := d.begun lba phase) (hd.prompt.soon 0)

lemma Drive.Rests.wait_failed (lba : UInt32) :
    ataWait (d.failed lba) = (false, { d.later lba 1 with err := true }) :=
  waitLoop_eq (d := d.failed lba) (hd.prompt.soon 0)

lemma Drive.Rests.waitDrq_begun (lba : UInt32) (got : Mem) :
    ataWaitDrq (d.begun lba (.dataOut 256 got)) =
      (true, (d.begun lba (.dataOut 256 got)).awake) :=
  waitDrqLoop_eq (d := d.begun lba (.dataOut 256 got)) (hd.prompt.soon 0) (hd.prompt.quiet 0)
    (Or.inr rfl)

lemma Drive.Rests.waitDrq_failed (lba : UInt32) :
    ataWaitDrq (d.failed lba) = (false, { d.later lba 1 with err := true }) :=
  waitDrqLoop_eq (d := d.failed lba) (hd.prompt.soon 0) (hd.prompt.quiet 0) (Or.inl rfl)

end Rests

/-- The transfer of the first sector of a read. -/
def readOne (lba : UInt32) (ptr : ℕ) (buf : Mem) (d : Drive) : (Bool × Mem) × Drive :=
  if d.err then ((false, buf), d)
  else
    match d.plan 0 with
    | .done => ((true, buf.blit ptr 512 (d.sectors (place lba)).mem), d.later lba 1)
    | _ => ((false, buf), { d.later lba 1 with err := true })

/-- **A read, sector by sector.** -/
theorem readSectors_succ {d : Drive} (hd : d.Rests) (count : ℕ) (lba : UInt32) (ptr : ℕ) (buf : Mem) :
    readSectors (count + 1) lba ptr buf d =
      (let r := readOne lba ptr buf d
      if r.1.1 then readSectors count (lba + 1) (ptr + 512) r.1.2 r.2 else r) := by
  rw [readSectors, hd.wait, readOne]
  cases he : d.err with
  | true => simp
  | false =>
    have hfail : d.plan 0 ≠ .done → ataWait (request lba ataCmdRead d) =
        (false, { d.later lba 1 with err := true }) := fun h => by
      rw [command_read_refused d lba h, hd.wait_failed]
    cases hp : d.plan 0 with
    | refused => simp [hfail (by simp [hp])]
    | spoiled s => simp [hfail (by simp [hp])]
    | done =>
      have htake : takeSector ptr buf (d.begun lba (.dataIn 256)).awake =
          (buf.blit ptr 512 (d.sectors (place lba)).mem, d.later lba 1) := by
        rw [takeSector_eq ptr buf rfl]
        have hlba : (d.begun lba (.dataIn 256)).awake.lba = place lba := lba_aim d lba
        rw [hlba]
        exact Prod.ext rfl (by simp [Drive.begun, Drive.awake, Drive.later, Drive.aim, he])
      simp [command_read_done d lba hp, hd.wait_begun, htake]

/-- The transfer of the first sector of a write. -/
def writeOne (lba : UInt32) (ptr : ℕ) (buf : Mem) (d : Drive) : Bool × Drive :=
  let put s := fun l => if l = place lba then s else d.sectors l
  if d.err then (false, d)
  else
    match d.plan 0 with
    | .done =>
      (true, { d.later lba 2 with sectors := put (Sector.ofMem fun i => buf (ptr + i)) })
    | .refused => (false, { d.later lba 1 with err := true })
    | .spoiled s => (false, { d.later lba 2 with sectors := put s, err := true })

/-- **A write, sector by sector.** -/
theorem writeSectors_succ {d : Drive} (hd : d.Rests) (count : ℕ) (lba : UInt32) (ptr : ℕ) (buf : Mem) :
    writeSectors buf (count + 1) lba ptr d =
      (let r := writeOne lba ptr buf d
      if r.1 then writeSectors buf count (lba + 1) (ptr + 512) r.2 else r) := by
  rw [writeSectors, hd.wait, writeOne]
  cases he : d.err with
  | true => simp
  | false =>
    by_cases hr : d.plan 0 = .refused
    · simp [hr, command_write_refused d lba hr, hd.waitDrq_failed]
    · obtain ⟨got, hgot, hsend⟩ := sendSector_eq buf ptr
        (d := (d.begun lba (.dataOut 256 fun _ => 0)).awake) rfl
      have hlba : (d.begun lba (.dataOut 256 fun _ => 0)).awake.lba = place lba := lba_aim d lba
      have hlast : ∀ e : Drive, e.busy = d.tempo 1 → ataWait e = (!e.err, e.awake) := fun e hb =>
        waitLoop_eq (by rw [hb]; exact hd.prompt.soon 1)
      have hplan : (d.begun lba (.dataOut 256 fun _ => 0)).awake.plan 0 = d.plan 0 := rfl
      simp only [Bool.not_false, command_write_begun d lba hr, hd.waitDrq_begun, hsend]
      unfold Drive.store
      rw [hlba, hgot, hplan]
      cases hp : d.plan 0 with
      | refused => exact absurd hp hr
      | done =>
        dsimp only
        rw [hlast _ rfl]
        simp [Drive.hold, Drive.begun, Drive.awake, Drive.later, Drive.aim, he]
      | spoiled s =>
        dsimp only
        rw [hlast _ rfl]
        simp [Drive.hold, Drive.begun, Drive.awake, Drive.later, Drive.aim]

end LunariaOS.Ata
