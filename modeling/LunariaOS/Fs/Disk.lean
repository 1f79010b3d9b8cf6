import LunariaOS.Str

/-!
The disk under the file system, and what lies on it.

A disk is an array of 512-byte sectors together with the pattern of transfers that fail: the `n`-th
entry of `fault` says whether the `n`-th transfer from now on fails, and a transfer shifts the
pattern by one. On a working disk the pattern is constantly false, so a transfer does not change it.
A failed read delivers nothing, and a failed write leaves its sector as it was.

A directory sector holds sixteen entries of 32 bytes: a name of 23 bytes, a type byte, and the
first sector and the size of the file as little-endian words.
-/

namespace LunariaOS.Fs

open LunariaOS.Lib

/-! ### Constants -/

/-- `FS_SUPER_LBA`. -/
def fsSuperLba : ℕ := 128
/-- `FS_DIR_LBA`. -/
def fsDirLba : ℕ := 200
/-- `FS_DIR_SECTORS`. -/
def fsDirSectors : ℕ := 64
/-- `FS_DATA_LBA`. -/
def fsDataLba : ℕ := 300
/-- `FS_MAX_NAME`. -/
def fsMaxName : ℕ := 23
/-- `FS_ENTRIES_PER_SECTOR`. -/
def fsEntriesPerSector : ℕ := 16
/-- `FS_DIR`. -/
def fsDir : UInt8 := 1
/-- `FS_FILE`. -/
def fsFile : UInt8 := 0
/-- `DIR_BUF_SIZE`, the size of the buffer in which `fs_append` rewrites a directory. -/
def dirBufSize : ℕ := 2048

/-! ### Sectors and transfers -/

/-- A sector: its 512 bytes. -/
abbrev Sector := Fin 512 → UInt8

/-- A sector in a buffer. What lies past the buffer is not part of it and reads as zero. -/
def Sector.mem (s : Sector) : Mem := fun i => if h : i < 512 then s ⟨i, h⟩ else 0

/-- The sector at the start of a buffer. -/
def Sector.ofMem (m : Mem) : Sector := fun i => m i

/-- An array of sectors, and which of the next transfers fail. -/
structure Disk where
  sectors : ℕ → Sector
  fault : ℕ → Bool

/-- `ata_read_sectors(lba, 1, buf)`: the sector, or nothing when the transfer fails. -/
def ataReadSectors (d : Disk) (lba : ℕ) : Option Mem × Disk :=
  (if d.fault 0 then none else some (d.sectors lba).mem,
    { d with fault := fun n => d.fault (n + 1) })

/-- The disk with one sector replaced. -/
def Disk.put (d : Disk) (lba : ℕ) (s : Sector) : Disk :=
  { d with sectors := fun l => if l = lba then s else d.sectors l }

/-- `ata_write_sectors(lba, 1, buf)`: whether the transfer succeeded, and the disk after it. -/
def ataWriteSectors (d : Disk) (lba : ℕ) (buf : Mem) : Bool × Disk :=
  let d' : Disk := { d with fault := fun n => d.fault (n + 1) }
  if d.fault 0 then (false, d') else (true, d'.put lba (Sector.ofMem buf))

/-- Every transfer succeeds. -/
def Disk.Working (d : Disk) : Prop := d.fault = fun _ => false

lemma Sector.mem_of_lt (s : Sector) {i : ℕ} (h : i < 512) : s.mem i = s ⟨i, h⟩ := by
  unfold Sector.mem
  rw [dif_pos h]

lemma Sector.ofMem_mem (m : Mem) {i : ℕ} (h : i < 512) : (Sector.ofMem m).mem i = m i := by
  rw [Sector.mem_of_lt _ h]
  rfl

@[simp] lemma Disk.put_sectors (d : Disk) (lba l : ℕ) (s : Sector) :
    (d.put lba s).sectors l = if l = lba then s else d.sectors l := rfl

@[simp] lemma Disk.put_fault (d : Disk) (lba : ℕ) (s : Sector) : (d.put lba s).fault = d.fault := rfl

lemma Disk.Working.put {d : Disk} (h : d.Working) (lba : ℕ) (s : Sector) :
    (d.put lba s).Working := h

/-- A transfer leaves the fault pattern of a working disk as it is. -/
lemma Disk.Working.shift {d : Disk} (h : d.Working) :
    { d with fault := fun n => d.fault (n + 1) } = d := by
  obtain ⟨s, f⟩ := d
  unfold Disk.Working at h
  simp only at h
  subst h
  rfl

lemma Disk.Working.read {d : Disk} (h : d.Working) (lba : ℕ) :
    ataReadSectors d lba = (some (d.sectors lba).mem, d) := by
  unfold ataReadSectors
  rw [h.shift]
  unfold Disk.Working at h
  rw [h]
  simp

lemma Disk.Working.write {d : Disk} (h : d.Working) (lba : ℕ) (buf : Mem) :
    ataWriteSectors d lba buf = (true, d.put lba (Sector.ofMem buf)) := by
  unfold ataWriteSectors
  rw [h.shift]
  unfold Disk.Working at h
  rw [h]
  simp

/-! ### The superblock and the directory entries -/

/-- `struct superblock`, without the magic that only `fs_mount` reads. -/
structure Superblock where
  dirLba : ℕ
  dirSectors : ℕ
  dataLba : ℕ

/-- `struct file_entry`: the 23 bytes of the name, the type, the first sector and the size. -/
structure FileEntry where
  name : List UInt8
  type : UInt8
  lba : ℕ
  size : ℕ

/-- The entry number `i` of a directory sector. -/
def entryAt (buf : Mem) (i : ℕ) : FileEntry where
  name := (List.range fsMaxName).map fun k => buf (32 * i + k)
  type := buf (32 * i + 23)
  lba := buf.ld32 (32 * i + 24)
  size := buf.ld32 (32 * i + 28)

/-- The bytes that `strcmp` meets when it is handed `e->name`: from the name of the entry number
`i` on, to the end of the sector. -/
def nameFrom (buf : Mem) (i : ℕ) : List UInt8 :=
  (List.range (512 - 32 * i)).map fun k => buf (32 * i + k)

/-- The 32 bytes of an entry. -/
def FileEntry.byte (e : FileEntry) (k : ℕ) : UInt8 :=
  if k < 23 then e.name.getD k 0
  else if k = 23 then e.type
  else if k < 28 then leByte e.lba (k - 24)
  else leByte e.size (k - 28)

/-- Store an entry in the slot number `i` of a directory sector. -/
def putEntry (buf : Mem) (i : ℕ) (e : FileEntry) : Mem := buf.blit (32 * i) 32 e.byte

/-- The sectors that a file of `size` bytes takes up, as the code computes them. -/
def sectorsOf (size : ℕ) : ℕ := u32 (size + 511) / 512

lemma sectorsOf_le (size : ℕ) : sectorsOf size ≤ 8388607 := by
  have := u32_lt (size + 511)
  unfold sectorsOf
  omega

/-- No wrap-around happens up to `2^32 - 512` bytes: the count is the size over 512, rounded up. -/
lemma sectorsOf_eq {size : ℕ} (h : size ≤ 4294966784) : sectorsOf size = (size + 511) / 512 := by
  unfold sectorsOf
  rw [u32_of_lt (by omega)]

lemma entryAt_congr {m m' : Mem} {i : ℕ} (h : ∀ x, 32 * i ≤ x → x < 32 * i + 32 → m x = m' x) :
    entryAt m i = entryAt m' i := by
  unfold entryAt
  congr 1
  · refine List.map_congr_left fun k hk => ?_
    have hk' := List.mem_range.mp hk
    unfold fsMaxName at hk'
    exact h _ (by omega) (by omega)
  · exact h _ (by omega) (by omega)
  · exact Mem.ld32_congr fun x _ _ => h x (by omega) (by omega)
  · exact Mem.ld32_congr fun x _ _ => h x (by omega) (by omega)

lemma entryAt_putEntry (buf : Mem) (i : ℕ) {e : FileEntry} (hn : e.name.length = 23)
    (hl : e.lba < 4294967296) (hs : e.size < 4294967296) : entryAt (putEntry buf i e) i = e := by
  have key : ∀ k, k < 32 → putEntry buf i e (32 * i + k) = e.byte k := by
    intro k hk
    unfold putEntry
    rw [Mem.blit_of_in _ _ (by omega) (by omega), Nat.add_sub_cancel_left]
  have word : ∀ c v, c + 4 ≤ 32 → v < 4294967296 → (∀ j, j < 4 → e.byte (c + j) = leByte v j) →
      (putEntry buf i e).ld32 (32 * i + c) = v := by
    intro c v hc hv hb
    have hk : ∀ j, j < 4 → putEntry buf i e (32 * i + c + j) = leByte v j := by
      intro j hj
      rw [Nat.add_assoc, key _ (by omega), hb j hj]
    have h0 := hk 0 (by omega)
    rw [Nat.add_zero] at h0
    unfold Mem.ld32
    rw [h0, hk 1 (by omega), hk 2 (by omega), hk 3 (by omega)]
    exact leByte_sum hv
  obtain ⟨name, type, lba, size⟩ := e
  simp only at hn hl hs
  unfold entryAt
  congr 1
  · refine List.ext_getElem (by simp [fsMaxName, hn]) fun k h1 h2 => ?_
    rw [List.getElem_map, List.getElem_range, key k (by omega)]
    unfold FileEntry.byte
    rw [if_pos (by omega)]
    simp [h2]
  · exact key 23 (by omega)
  · refine word 24 lba (by omega) hl fun j hj => ?_
    unfold FileEntry.byte
    rw [if_neg (by omega), if_neg (by omega), if_pos (by omega)]
    congr 1
    omega
  · refine word 28 size (by omega) hs fun j hj => ?_
    unfold FileEntry.byte
    rw [if_neg (by omega), if_neg (by omega), if_neg (by omega)]
    congr 1
    omega

end LunariaOS.Fs
