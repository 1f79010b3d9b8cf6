import LunariaOS.Fs.Dir

/-!
What a write does to a working disk.

`writeEntry_working` gives `fs_write`, up to the update of the parent, as one equation: it fails and
leaves the disk alone, or it stores the data from the sector `lba` on (`putData`) and then the entry
in its slot (`putSlot`). `Target` says which slot and which sector these are. The lemmas after it
say what the two updates change and what they leave alone.
-/

namespace LunariaOS.Fs

open LunariaOS.Lib

variable {sb : Superblock} {d : Disk}

/-! ### The scan sees every slot -/

/-- The end of the files seen so far, after one more slot. -/
lemma Scan.Ok.ends {name : CStr} {m n : ℕ} {sc : Scan} (h : Scan.Ok sb d name m sc)
    (hlive : Live sb d m → n = max sc.nextFree (lastOf sb d m))
    (hfree : ¬ Live sb d m → n = sc.nextFree) :
    sb.dataLba ≤ n ∧ (∀ k, k < m + 1 → Live sb d k → lastOf sb d k ≤ n) ∧
      (n = sb.dataLba ∨ ∃ k, k < m + 1 ∧ Live sb d k ∧ n = lastOf sb d k) := by
  have hold : sc.nextFree = sb.dataLba ∨
      ∃ k, k < m + 1 ∧ Live sb d k ∧ sc.nextFree = lastOf sb d k :=
    h.next_eq.imp id fun ⟨k, hk, hlk, e⟩ => ⟨k, by omega, hlk, e⟩
  by_cases hl : Live sb d m
  · have hn := hlive hl
    refine ⟨?_, fun k hk hlk => ?_, ?_⟩
    · have := h.data_le
      omega
    · rcases Nat.lt_succ_iff_lt_or_eq.mp hk with hk | rfl
      · have := h.last_le k hk hlk
        omega
      · omega
    · rcases Nat.le_total (lastOf sb d m) sc.nextFree with hle | hle
      · rw [hn, max_eq_left hle]
        exact hold
      · rw [hn, max_eq_right hle]
        exact Or.inr ⟨m, by omega, hl, rfl⟩
  · rw [hfree hl]
    refine ⟨h.data_le, fun k hk hlk => ?_, hold⟩
    rcases Nat.lt_succ_iff_lt_or_eq.mp hk with hk | rfl
    · exact h.last_le k hk hlk
    · exact absurd hlk hl

/-- A free slot is kept if it is the first one. -/
lemma Scan.Ok.step_free {name : CStr} {m : ℕ} {sc : Scan} (h : Scan.Ok sb d name m sc)
    (hm : m / 16 < 4294967296) (hl : ¬ Live sb d m) :
    Scan.Ok sb d name (m + 1) (if sc.slotSec < 0 then
      { sc with slotSec := i32 (m / 16 : ℕ), slotI := (m % 16 : ℕ) } else sc) := by
  have hcast : 0 ≤ i32 (m / 16 : ℕ) → i32 (m / 16 : ℕ) = (m / 16 : ℕ) := i32_eq_of_nonneg hm
  have hneg : i32 (m / 16 : ℕ) < 0 ↔ 2147483648 ≤ m / 16 := by
    unfold i32
    omega
  obtain ⟨hdata, hlasts, hnext⟩ := h.ends (fun hlive => absurd hlive hl) fun _ => rfl
  have hmiss : sc.found = false → ∀ k, k < m + 1 → ¬ Named sb d name k := by
    intro e k hk
    rcases Nat.lt_succ_iff_lt_or_eq.mp hk with hk | rfl
    · exact h.miss e k hk
    · exact fun hn => hl hn.1
  split_ifs with hs0
  · refine ⟨hdata, hlasts, hnext, fun e => ?_, hmiss, fun _ h0 => ?_, fun _ hs k hk hk' => ?_⟩
    · -- the slot of the hit was out of the range of an `int`, and so is this later one
      obtain ⟨k, hk, h1, h2, h3, -, h5⟩ := h.hit e
      have h6 := h5 hs0
      have h7 : k / 16 ≤ m / 16 := Nat.div_le_div_right (by omega)
      have h8 := hneg.mpr (by omega)
      exact ⟨k, by omega, h1, h2, h3, fun h0 => absurd h0 (not_le.mpr h8), fun _ => h6⟩
    · exact ⟨m, by omega, hl, hcast h0, rfl⟩
    · have h6 := hneg.mp hs
      rcases Nat.lt_succ_iff_lt_or_eq.mp hk with hk | rfl
      · exact h.free ‹_› hs0 k hk hk'
      · omega
  · refine ⟨hdata, hlasts, hnext, fun e => ?_, hmiss, fun e h0 => ?_, fun _ hs => ?_⟩
    · obtain ⟨k, hk, hrest⟩ := h.hit e
      exact ⟨k, by omega, hrest⟩
    · obtain ⟨k, hk, hrest⟩ := h.slot e h0
      exact ⟨k, by omega, hrest⟩
    · exact absurd hs hs0

/-- A live entry moves the end of the files, and is the hit if it is the first of its name. -/
lemma Scan.Ok.step_live {name : CStr} {m : ℕ} {sc : Scan} (h : Scan.Ok sb d name m sc)
    (hm : m / 16 < 4294967296) (hl : Live sb d m) :
    Scan.Ok sb d name (m + 1) (if sc.found = false ∧ Named sb d name m then
      { sc with
        nextFree := max sc.nextFree (lastOf sb d m), found := true
        oldLba := (entry sb d m).lba, oldCap := sectorsOf (entry sb d m).size
        slotSec := i32 (m / 16 : ℕ), slotI := (m % 16 : ℕ) }
      else { sc with nextFree := max sc.nextFree (lastOf sb d m) }) := by
  have hcast : 0 ≤ i32 (m / 16 : ℕ) → i32 (m / 16 : ℕ) = (m / 16 : ℕ) := i32_eq_of_nonneg hm
  have hneg : i32 (m / 16 : ℕ) < 0 → 2147483648 ≤ m / 16 := by
    unfold i32
    omega
  obtain ⟨hdata, hlasts, hnext⟩ := h.ends (fun _ => rfl) fun hfree => absurd hl hfree
  split_ifs with hc
  · exact {
      data_le := hdata, last_le := hlasts, next_eq := hnext
      hit := fun _ => ⟨m, by omega, hc.2, rfl, rfl, fun h0 => ⟨hcast h0, rfl⟩, hneg⟩
      miss := fun e => by cases e
      slot := fun e => by cases e
      free := fun e => by cases e }
  · refine ⟨hdata, hlasts, hnext, fun e => ?_, fun e k hk => ?_, fun e h0 => ?_,
      fun e hs k hk hk' => ?_⟩
    · obtain ⟨k, hk, hrest⟩ := h.hit e
      exact ⟨k, by omega, hrest⟩
    · rcases Nat.lt_succ_iff_lt_or_eq.mp hk with hk | rfl
      · exact h.miss e k hk
      · exact fun hn => hc ⟨e, hn⟩
    · obtain ⟨k, hk, hrest⟩ := h.slot e h0
      exact ⟨k, by omega, hrest⟩
    · rcases Nat.lt_succ_iff_lt_or_eq.mp hk with hk | rfl
      · exact h.free e hs k hk hk'
      · exact hl

/-- One turn of the scan at a live entry. -/
lemma scanSlot_live {name : CStr} {m : ℕ} (sc : Scan) (hl : Live sb d m) :
    scanSlot sb d name sc m = if sc.found = false ∧ Named sb d name m then
      { sc with
        nextFree := max sc.nextFree (lastOf sb d m), found := true
        oldLba := (entry sb d m).lba, oldCap := sectorsOf (entry sb d m).size
        slotSec := i32 (m / 16 : ℕ), slotI := (m % 16 : ℕ) }
      else { sc with nextFree := max sc.nextFree (lastOf sb d m) } := by
  have hl' : ¬ slotMem sb d m (32 * (m % 16)) = 0 := hl
  have hnamed : strcmp (nameFrom (slotMem sb d m) (m % 16)) name.bytes = 0 ↔
      Named sb d name m := by
    rw [strcmp_eq_zero_iff, cstr_bytes]
    exact ⟨fun e => ⟨hl, e⟩, fun e => e.2⟩
  have hcond : ∀ b : Bool, (!b && strcmp (nameFrom (slotMem sb d m) (m % 16)) name.bytes == 0) =
      true ↔ b = false ∧ Named sb d name m := by
    intro b
    simp only [Bool.and_eq_true, Bool.not_eq_true', beq_iff_eq, hnamed]
  have hmax : (if lastOf sb d m > sc.nextFree then { sc with nextFree := lastOf sb d m } else sc) =
      { sc with nextFree := max sc.nextFree (lastOf sb d m) } := by
    split_ifs with hgt
    · rw [max_eq_right (le_of_lt hgt)]
    · rw [max_eq_left (not_lt.mp hgt)]
  unfold lastOf entry at hmax ⊢
  unfold scanSlot scanEntry
  simp only [if_neg hl', hmax, hcond]

lemma Scan.Ok.step {name : CStr} {m : ℕ} {sc : Scan} (h : Scan.Ok sb d name m sc)
    (hm : m / 16 < 4294967296) : Scan.Ok sb d name (m + 1) (scanSlot sb d name sc m) := by
  by_cases hl : Live sb d m
  · rw [scanSlot_live sc hl]
    exact h.step_live hm hl
  · have hl' : slotMem sb d m (32 * (m % 16)) = 0 := not_not.mp hl
    unfold scanSlot scanEntry
    simp only [if_pos hl']
    exact h.step_free hm hl

theorem scan_ok (hN : sb.dirSectors < 4294967296) (name : CStr) :
    Scan.Ok sb d name (slotCount sb) (scan sb d name) := by
  have key : ∀ m, m ≤ slotCount sb →
      Scan.Ok sb d name m ((List.range m).foldl (scanSlot sb d name) (Scan.init sb)) := by
    intro m
    induction m with
    | zero => exact fun _ => Scan.Ok.init name
    | succ m ih =>
      intro hm
      rw [List.range_succ, List.foldl_append]
      exact (ih (by omega)).step (by unfold slotCount at hm; omega)
  exact key _ le_rfl

/-! ### The data and the slot -/

/-- The disk after `n` sectors of data, from number `k` on, are stored at `lba`. -/
def Disk.putData (lba : ℕ) (data : Mem) (size : ℕ) : ℕ → ℕ → Disk → Disk
  | 0, _, d => d
  | n + 1, k, d =>
    Disk.putData lba data size n (k + 1)
      (d.put (u32 (lba + k)) (Sector.ofMem (padSector data size k)))

/-- The disk after the directory sector of the slot number `k` is replaced by the buffer `m`. -/
def Disk.putSector (sb : Superblock) (d : Disk) (k : ℕ) (m : Mem) : Disk :=
  d.put (u32 (sb.dirLba + k / 16)) (Sector.ofMem m)

/-- The disk after an entry is stored in the slot number `k`. -/
def Disk.putSlot (sb : Superblock) (d : Disk) (k : ℕ) (e : FileEntry) : Disk :=
  Disk.putSector sb d k (putEntry (slotMem sb d k) (k % 16) e)

lemma Disk.Working.putData {d : Disk} (h : d.Working) (lba : ℕ) (data : Mem) (size n k : ℕ) :
    (Disk.putData lba data size n k d).Working := by
  induction n generalizing d k with
  | zero => exact h
  | succ n ih => exact ih (h.put _ _) (k + 1)

lemma Disk.Working.putSlot {d : Disk} (h : d.Working) (k : ℕ) (e : FileEntry) :
    (Disk.putSlot sb d k e).Working := h

lemma writeLoop_working (hw : d.Working) (lba : ℕ) (data : Mem) (size n k : ℕ) :
    writeLoop lba data size n k d = (true, Disk.putData lba data size n k d) := by
  induction n generalizing d k with
  | zero => rfl
  | succ n ih =>
    simp only [writeLoop, hw.write]
    exact ih (hw.put _ _) (k + 1)

/-- **The data loop stores the padded sectors, and nothing else.** -/
theorem putData_sectors {lba n k : ℕ} (data : Mem) (size : ℕ) (d : Disk)
    (h : lba + k + n ≤ 4294967296) (l : ℕ) :
    (Disk.putData lba data size n k d).sectors l =
      if lba + k ≤ l ∧ l < lba + k + n then Sector.ofMem (padSector data size (l - lba))
      else d.sectors l := by
  induction n generalizing d k with
  | zero => simp [Disk.putData]
  | succ n ih =>
    simp only [Disk.putData]
    rw [ih _ (by omega), u32_of_lt (by omega)]
    by_cases h1 : lba + (k + 1) ≤ l ∧ l < lba + (k + 1) + n
    · rw [if_pos h1, if_pos (by omega)]
    · rw [if_neg h1, Disk.put_sectors]
      by_cases h2 : l = lba + k
      · rw [if_pos h2, if_pos (by omega), h2, Nat.add_sub_cancel_left]
      · rw [if_neg h2, if_neg (by omega)]

/-- The parent of `name`, if it has one, is in the directory. -/
def ParentFound (sb : Superblock) (d : Disk) (name : CStr) : Prop :=
  ∀ p, parentDir name = some p → slotOf sb d p ≠ none

instance (sb : Superblock) (d : Disk) (name : CStr) : Decidable (ParentFound sb d name) :=
  match h : parentDir name with
  | none => isTrue fun p hp => by rw [h] at hp; cases hp
  | some p =>
    if hs : slotOf sb d p = none then isFalse fun hf => hf p h hs
    else isTrue fun q hq => by rw [h] at hq; cases hq; exact hs

lemma parentExists_working (hw : d.Working) (name : CStr) :
    parentExists sb name d = (decide (ParentFound sb d name), d) := by
  unfold parentExists
  cases h : parentDir name with
  | none =>
    have : ParentFound sb d name := fun p hp => by rw [h] at hp; cases hp
    simp [this]
  | some p =>
    simp only [fsFind_working hw]
    cases hs : slotOf sb d p with
    | none =>
      have : ¬ ParentFound sb d name := fun hf => hf p h hs
      simp [this]
    | some k =>
      have : ParentFound sb d name := fun q hq => by
        rw [h] at hq; cases hq; rw [hs]; simp
      simp [this]

/-- The first sector that a write of `size` bytes under `name` uses. -/
def writeLba (sb : Superblock) (d : Disk) (name : CStr) (size : ℕ) : ℕ :=
  (scan sb d name).writeLba (sectorsOf size)

/-- The slot that a write under `name` uses. -/
def writeSlot (sb : Superblock) (d : Disk) (name : CStr) : ℕ :=
  16 * (scan sb d name).slotSec.toNat + (scan sb d name).slotI.toNat

/-- A write under `name` gets as far as its data. -/
def CanWrite (sb : Superblock) (d : Disk) (name : CStr) : Prop :=
  name.length < fsMaxName ∧ ParentFound sb d name ∧ 0 ≤ (scan sb d name).slotSec

instance (sb : Superblock) (d : Disk) (name : CStr) : Decidable (CanWrite sb d name) := by
  unfold CanWrite; infer_instance

/-- The disk after a write under `name`, before the update of the parent. -/
def writeDisk (sb : Superblock) (d : Disk) (name : CStr) (type : UInt8) (data : Mem) (size : ℕ) :
    Disk :=
  Disk.putSlot sb (Disk.putData (writeLba sb d name size) data size (sectorsOf size) 0 d)
    (writeSlot sb d name) (newEntry name type (writeLba sb d name size) size)

lemma slotI_lt (hN : sb.dirSectors < 4294967296) {name : CStr}
    (h : 0 ≤ (scan sb d name).slotSec) :
    0 ≤ (scan sb d name).slotI ∧ (scan sb d name).slotI < 16 := by
  have hok := scan_ok (d := d) hN name
  cases hf : (scan sb d name).found with
  | true =>
    obtain ⟨k, -, -, -, -, h4, -⟩ := hok.hit hf
    rw [(h4 h).2]
    omega
  | false =>
    obtain ⟨k, -, -, -, h4⟩ := hok.slot hf h
    rw [h4]
    omega

/-- **`fs_write` on a working disk, up to the update of the parent.** -/
theorem writeEntry_working (hw : d.Working) (hN : sb.dirSectors < 4294967296) (name : CStr)
    (type : UInt8) (data : Mem) (size : ℕ) :
    writeEntry sb name type data size d =
      if CanWrite sb d name then (true, writeDisk sb d name type data size) else (false, d) := by
  unfold writeEntry
  by_cases h1 : name.length < fsMaxName
  · rw [if_neg (not_le.mpr h1), parentExists_working hw]
    by_cases h2 : ParentFound sb d name
    · simp only [h2, decide_true, scanDir_eq_scan hw]
      by_cases h3 : 0 ≤ (scan sb d name).slotSec
      · have hi := slotI_lt hN h3
        have hdiv : writeSlot sb d name / 16 = (scan sb d name).slotSec.toNat := by
          unfold writeSlot
          omega
        have hmod : writeSlot sb d name % 16 = (scan sb d name).slotI.toNat := by
          unfold writeSlot
          omega
        have hd := hw.putData (writeLba sb d name size) data size (sectorsOf size) 0
        rw [if_neg (not_lt.mpr h3), if_pos ⟨h1, h2, h3⟩]
        simp only [writeLoop_working hw]
        rw [show (scan sb d name).writeLba (sectorsOf size) = writeLba sb d name size from rfl]
        simp only [hd.read, hd.write]
        unfold writeDisk Disk.putSlot Disk.putSector slotMem
        rewrite [hdiv, hmod]
        rfl
      · rw [if_pos (not_le.mp h3), if_neg fun h => h3 h.2.2]
    · simp only [h2, decide_false]
      rw [if_neg fun h => h2 h.2.1]
  · rw [if_pos (not_lt.mp h1), if_neg fun h => h1 h.1]

end LunariaOS.Fs
