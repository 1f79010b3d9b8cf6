import LunariaOS.Fs.Code

/-!
The directory as one array of slots, and what the functions of `fs.c` compute on a working disk.

The slot number `k` of the directory is the entry `k % 16` of its sector `k / 16`, and the nested
loops of the code visit the slots in order. So a lookup is the first slot of a name (`slotOf`), the
scan of `fs_write` is a fold over the slots (`scan`), and a write is two pure updates of the disk:
the data sectors (`putData`) and one slot (`putSlot`). `Scan.Ok` says what the scan knows about the
slots it has seen, and `writeEntry_cases` is all that a write can do.
-/

namespace LunariaOS.Fs

open LunariaOS.Lib

/-! ### Slots -/

section Slots

variable (sb : Superblock) (d : Disk)

/-- The number of slots of the directory. -/
def slotCount : ℕ := 16 * sb.dirSectors

/-- The directory sector of the slot number `k`, in a buffer. -/
def slotMem (k : ℕ) : Mem := (d.sectors (u32 (sb.dirLba + k / 16))).mem

/-- The entry in the slot number `k`. -/
def entry (k : ℕ) : FileEntry := entryAt (slotMem sb d k) (k % 16)

/-- The slot number `k` holds an entry: its name is not empty. -/
def Live (k : ℕ) : Prop := slotMem sb d k (32 * (k % 16)) ≠ 0

instance (k : ℕ) : Decidable (Live sb d k) := by unfold Live; infer_instance

/-- The slot number `k` holds the entry named `name`. -/
def Named (name : CStr) (k : ℕ) : Prop :=
  Live sb d k ∧ cstr (nameFrom (slotMem sb d k) (k % 16)) = name.bytes

instance (name : CStr) (k : ℕ) : Decidable (Named sb d name k) := by unfold Named; infer_instance

/-- The first slot of a name. -/
def slotOf (name : CStr) : Option ℕ :=
  (List.range (slotCount sb)).find? fun k => decide (Named sb d name k)

end Slots

variable {sb : Superblock} {d : Disk}

lemma slotMem_eq {sec i : ℕ} (hi : i < 16) :
    slotMem sb d (16 * sec + i) = (d.sectors (u32 (sb.dirLba + sec))).mem := by
  unfold slotMem
  rw [show (16 * sec + i) / 16 = sec by omega]

lemma named_eq (name : CStr) {sec i : ℕ} (hi : i < 16) :
    (slotMem sb d (16 * sec + i) (32 * i) != 0 &&
      strcmp (nameFrom (slotMem sb d (16 * sec + i)) i) name.bytes == 0) =
    decide (Named sb d name (16 * sec + i)) := by
  have hm : (16 * sec + i) % 16 = i := by omega
  rw [Bool.eq_iff_iff]
  simp only [Bool.and_eq_true, bne_iff_ne, beq_iff_eq, decide_eq_true_eq, strcmp_eq_zero_iff,
    cstr_bytes]
  unfold Named Live
  rw [hm]

/-- The inner loop of a lookup looks for the first slot of its sector with the name. -/
lemma matchIn_eq (name : CStr) (sec : ℕ) :
    (matchIn (d.sectors (u32 (sb.dirLba + sec))).mem name).map (16 * sec + ·) =
      (List.range' (16 * sec) 16).find? fun k => decide (Named sb d name k) := by
  unfold matchIn fsEntriesPerSector
  rw [List.range'_eq_map_range, List.find?_map]
  congr 1
  refine List.find?_congr fun i hi => ?_
  have hi' := List.mem_range.mp hi
  rw [← slotMem_eq hi', named_eq name hi']
  rfl

lemma matchIn_lt {buf : Mem} {name : CStr} {i : ℕ} (h : matchIn buf name = some i) : i < 16 :=
  List.mem_range.mp (List.mem_of_find?_eq_some h)

lemma range'_sectors (sec n : ℕ) :
    List.range' (16 * sec) (16 * (n + 1)) =
      List.range' (16 * sec) 16 ++ List.range' (16 * (sec + 1)) (16 * n) := by
  rw [show 16 * (n + 1) = 16 + 16 * n by omega, show 16 * (sec + 1) = 16 * sec + 16 by omega,
    ← List.range'_append_1]

/-- **A lookup finds the first slot of the name.** -/
theorem lookup_working (hw : d.Working) (name : CStr) (n sec : ℕ) :
    lookup sb name n sec d =
      (((List.range' (16 * sec) (16 * n)).find? fun k => decide (Named sb d name k)).map fun k =>
        (slotMem sb d k, k / 16, k % 16), d) := by
  induction n generalizing sec with
  | zero => rfl
  | succ n ih =>
    rw [range'_sectors, List.find?_append, ← matchIn_eq]
    simp only [lookup, hw.read]
    cases h : matchIn (d.sectors (u32 (sb.dirLba + sec))).mem name with
    | none => simpa [h] using ih (sec + 1)
    | some i =>
      have hi := matchIn_lt h
      simp only [Option.map_some, Option.some_or]
      rw [slotMem_eq hi, show (16 * sec + i) / 16 = sec by omega,
        show (16 * sec + i) % 16 = i by omega]

theorem lookup_eq_slotOf (hw : d.Working) (name : CStr) :
    lookup sb name sb.dirSectors 0 d =
      ((slotOf sb d name).map fun k => (slotMem sb d k, k / 16, k % 16), d) := by
  rw [lookup_working hw, slotOf, slotCount, List.range_eq_range']

lemma slotOf_some {name : CStr} {k : ℕ} (h : slotOf sb d name = some k) :
    k < slotCount sb ∧ Named sb d name k :=
  ⟨List.mem_range.mp (List.mem_of_find?_eq_some h), by simpa using List.find?_some h⟩

lemma slotOf_none {name : CStr} (h : slotOf sb d name = none) {k : ℕ} (hk : k < slotCount sb) :
    ¬ Named sb d name k := by
  have := List.find?_eq_none.mp h k (List.mem_range.mpr hk)
  simpa using this

/-- **`fs_find` on a working disk.** -/
theorem fsFind_working (hw : d.Working) (name : CStr) :
    fsFind sb name d = ((slotOf sb d name).map (entry sb d), d) := by
  unfold fsFind
  rw [lookup_eq_slotOf hw]
  cases h : slotOf sb d name <;> rfl

/-! ### The bytes of a file -/

/-- The byte number `i` of the file that starts at the sector `lba`. -/
def fileByte (d : Disk) (lba i : ℕ) : UInt8 := (d.sectors (u32 (lba + i / 512))).mem (i % 512)

/-- **The read loop copies the bytes of the file.** -/
theorem readLoop_working (hw : d.Working) (lba off remaining : ℕ) (buf : Mem) (h : 512 ∣ off) :
    readLoop lba off remaining buf d =
      (true, buf.blit off remaining fun i => fileByte d lba (off + i), d) := by
  induction remaining using Nat.strong_induction_on generalizing off buf with
  | _ remaining ih =>
    have hsec : ∀ i, i < 512 → (d.sectors (u32 (lba + off / 512))).mem i =
        fileByte d lba (off + i) := by
      intro i hi
      unfold fileByte
      rw [show (off + i) / 512 = off / 512 by omega, show (off + i) % 512 = i by omega]
    unfold readLoop
    split_ifs with h0 hlt
    · rw [h0, Mem.blit_zero]
    · -- the last sector, of which only a part is copied
      simp only [hw.read, Nat.sub_self]
      unfold readLoop
      rw [if_pos rfl]
      congr 2
      rw [← Mem.blit_zero (buf.blit off remaining _) (off + remaining) fun _ => 0]
      exact Mem.blit_blit _ _ _ _ _ _ _ (fun i hi => hsec i (by omega)) (fun i hi => by omega)
    · simp only [hw.read]
      rw [ih (remaining - 512) (by omega) (off + 512) _ (by omega)]
      congr 2
      rw [Mem.blit_blit _ _ _ _ _ _ (fun i => fileByte d lba (off + i))
        (fun i hi => hsec i hi) (fun i hi => by rw [Nat.add_assoc])]
      rw [show 512 + (remaining - 512) = remaining by omega]

/-! ### The scan of `fs_write` -/

/-- One slot of the scan. -/
def scanSlot (sb : Superblock) (d : Disk) (name : CStr) (sc : Scan) (k : ℕ) : Scan :=
  scanEntry name (slotMem sb d k) (k / 16) sc (k % 16)

/-- What the scan of the whole directory collects. -/
def scan (sb : Superblock) (d : Disk) (name : CStr) : Scan :=
  (List.range (slotCount sb)).foldl (scanSlot sb d name) (Scan.init sb)

lemma scanDir_working (hw : d.Working) (name : CStr) (n sec : ℕ) (sc : Scan) :
    scanDir sb name n sec sc d =
      (some ((List.range' (16 * sec) (16 * n)).foldl (scanSlot sb d name) sc), d) := by
  induction n generalizing sec sc with
  | zero => rfl
  | succ n ih =>
    simp only [scanDir, hw.read]
    rw [ih, range'_sectors, List.foldl_append]
    congr 3
    rw [List.range'_eq_map_range, List.foldl_map]
    unfold fsEntriesPerSector
    refine List.foldl_ext _ _ _ fun sc i hi => ?_
    have hi' := List.mem_range.mp hi
    unfold scanSlot
    rw [slotMem_eq hi', show (16 * sec + i) / 16 = sec by omega,
      show (16 * sec + i) % 16 = i by omega]

lemma scanDir_eq_scan (hw : d.Working) (name : CStr) :
    scanDir sb name sb.dirSectors 0 (Scan.init sb) d = (some (scan sb d name), d) := by
  rw [scanDir_working hw, scan, slotCount, List.range_eq_range']

/-- The first sector past the file in the slot number `k`, as the code computes it. -/
def lastOf (sb : Superblock) (d : Disk) (k : ℕ) : ℕ :=
  u32 ((entry sb d k).lba + sectorsOf (entry sb d k).size)

/-- What the scan has found out after the first `m` slots. The slot is kept in two `int`s, so a
sector number from `2^31` on counts as no slot. -/
structure Scan.Ok (sb : Superblock) (d : Disk) (name : CStr) (m : ℕ) (sc : Scan) : Prop where
  data_le : sb.dataLba ≤ sc.nextFree
  last_le : ∀ k, k < m → Live sb d k → lastOf sb d k ≤ sc.nextFree
  next_eq : sc.nextFree = sb.dataLba ∨ ∃ k, k < m ∧ Live sb d k ∧ sc.nextFree = lastOf sb d k
  hit : sc.found = true → ∃ k, k < m ∧ Named sb d name k ∧ sc.oldLba = (entry sb d k).lba ∧
    sc.oldCap = sectorsOf (entry sb d k).size ∧
    (0 ≤ sc.slotSec → sc.slotSec = (k / 16 : ℕ) ∧ sc.slotI = (k % 16 : ℕ)) ∧
    (sc.slotSec < 0 → 2147483648 ≤ k / 16)
  miss : sc.found = false → ∀ k, k < m → ¬ Named sb d name k
  slot : sc.found = false → 0 ≤ sc.slotSec → ∃ k, k < m ∧ ¬ Live sb d k ∧
    sc.slotSec = (k / 16 : ℕ) ∧ sc.slotI = (k % 16 : ℕ)
  free : sc.found = false → sc.slotSec < 0 → ∀ k, k < m → k / 16 < 2147483648 → Live sb d k

lemma Scan.Ok.init (name : CStr) : Scan.Ok sb d name 0 (Scan.init sb) where
  data_le := le_rfl
  last_le := fun k hk => absurd hk (by omega)
  next_eq := Or.inl rfl
  hit := fun h => by simp [Scan.init] at h
  miss := fun _ k hk => absurd hk (by omega)
  slot := fun _ h => by simp [Scan.init] at h
  free := fun _ _ k hk => absurd hk (by omega)

end LunariaOS.Fs
