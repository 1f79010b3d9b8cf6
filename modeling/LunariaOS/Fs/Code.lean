import LunariaOS.Fs.Disk

/-!
The directory and file functions of `fs.c`: `fs_find`, `fs_read`, `fs_delete`, `fs_write` and
`fs_append`, with their loops over directory sectors and entries and their error exits.

The superblock is a parameter, since nothing changes it after `fs_mount`. A function takes the disk
and gives back the disk after it, also when it fails. `fs_write` and `fs_append` call each other: a
write updates the parent directory by an append, and the append rewrites that directory.
-/

namespace LunariaOS.Fs

open LunariaOS.Lib

/-! ### Looking up a name -/

/-- The inner loop of `fs_find` and `fs_delete`: the first live entry of a directory sector whose
name is `name`. -/
def matchIn (buf : Mem) (name : CStr) : Option ℕ :=
  (List.range fsEntriesPerSector).find? fun i =>
    buf (32 * i) != 0 && strcmp (nameFrom buf i) name.bytes == 0

/-- The outer loop of `fs_find` and `fs_delete`, over the `n` directory sectors from number `sec`
on: the buffer, the sector number and the index of the first match. -/
def lookup (sb : Superblock) (name : CStr) : ℕ → ℕ → Disk → Option (Mem × ℕ × ℕ) × Disk
  | 0, _, d => (none, d)
  | n + 1, sec, d =>
    match ataReadSectors d (u32 (sb.dirLba + sec)) with
    | (none, d) => (none, d)
    | (some buf, d) =>
      match matchIn buf name with
      | some i => (some (buf, sec, i), d)
      | none => lookup sb name n (sec + 1) d

/-- `fs_find`: the entry, or nothing where the code returns -1. -/
def fsFind (sb : Superblock) (name : CStr) (d : Disk) : Option FileEntry × Disk :=
  match lookup sb name sb.dirSectors 0 d with
  | (none, d) => (none, d)
  | (some (buf, _, i), d) => (some (entryAt buf i), d)

/-- `fs_delete`. -/
def fsDelete (sb : Superblock) (name : CStr) (d : Disk) : ℤ × Disk :=
  match lookup sb name sb.dirSectors 0 d with
  | (none, d) => (-1, d)
  | (some (buf, sec, i), d) =>
    match ataWriteSectors d (u32 (sb.dirLba + sec)) (buf.blit (32 * i) 1 fun _ => 0) with
    | (false, d) => (-1, d)
    | (true, d) => (0, d)

/-! ### Reading a file -/

/-- The loop of `fs_read` and of `fs_append`: copy the `remaining` bytes of the file that starts at
the sector `lba`, from the byte `off` on, to the same place of the buffer. The flag is whether every
transfer succeeded. -/
def readLoop (lba off remaining : ℕ) (buf : Mem) (d : Disk) : Bool × Mem × Disk :=
  if remaining = 0 then (true, buf, d)
  else
    match ataReadSectors d (u32 (lba + off / 512)) with
    | (none, d) => (false, buf, d)
    | (some sec, d) =>
      let n := if remaining < 512 then remaining else 512
      readLoop lba (off + n) (remaining - n) (buf.blit off n sec) d
termination_by remaining
decreasing_by split <;> omega

/-- `fs_read`: the value returned, and the buffer after it. -/
def fsRead (sb : Superblock) (name : CStr) (buf : Mem) (max : ℕ) (d : Disk) : ℤ × Mem × Disk :=
  match fsFind sb name d with
  | (none, d) => (-1, buf, d)
  | (some e, d) =>
    if e.size > max then (-1, buf, d)
    else
      match readLoop e.lba 0 e.size buf d with
      | (false, buf, d) => (-1, buf, d)
      | (true, buf, d) => (i32 e.size, buf, d)

/-! ### Writing a file -/

/-- What the directory scan of `fs_write` collects. `found` is also `old_exists`, which the code
sets at the same place. -/
structure Scan where
  slotSec : ℤ
  slotI : ℤ
  found : Bool
  oldLba : ℕ
  oldCap : ℕ
  nextFree : ℕ

/-- The values before the scan. -/
def Scan.init (sb : Superblock) : Scan where
  slotSec := -1
  slotI := -1
  found := false
  oldLba := 0
  oldCap := 0
  nextFree := sb.dataLba

/-- One entry of the scan of `fs_write`: the body of the inner loop. -/
def scanEntry (name : CStr) (buf : Mem) (sec : ℕ) (sc : Scan) (i : ℕ) : Scan :=
  let e := entryAt buf i
  if buf (32 * i) = 0 then
    if sc.slotSec < 0 then { sc with slotSec := i32 sec, slotI := i } else sc
  else
    let last := u32 (e.lba + sectorsOf e.size)
    let sc := if last > sc.nextFree then { sc with nextFree := last } else sc
    if !sc.found && strcmp (nameFrom buf i) name.bytes == 0 then
      { sc with
        found := true, oldLba := e.lba, oldCap := sectorsOf e.size, slotSec := i32 sec, slotI := i }
    else sc

/-- The scan of `fs_write` over the `n` directory sectors from number `sec` on. -/
def scanDir (sb : Superblock) (name : CStr) : ℕ → ℕ → Scan → Disk → Option Scan × Disk
  | 0, _, sc, d => (some sc, d)
  | n + 1, sec, sc, d =>
    match ataReadSectors d (u32 (sb.dirLba + sec)) with
    | (none, d) => (none, d)
    | (some buf, d) =>
      scanDir sb name n (sec + 1)
        ((List.range fsEntriesPerSector).foldl (scanEntry name buf sec) sc) d

/-- The sector number `k` of the data: up to 512 bytes of it, padded with zeros. -/
def padSector (data : Mem) (size k : ℕ) : Mem :=
  let chunk := if size - k * 512 > 512 then 512 else size - k * 512
  Mem.blit (fun _ => 0) 0 chunk fun i => data (k * 512 + i)

/-- The data loop of `fs_write`: the `n` sectors from number `k` on. -/
def writeLoop (lba : ℕ) (data : Mem) (size : ℕ) : ℕ → ℕ → Disk → Bool × Disk
  | 0, _, d => (true, d)
  | n + 1, k, d =>
    match ataWriteSectors d (u32 (lba + k)) (padSector data size k) with
    | (false, d) => (false, d)
    | (true, d) => writeLoop lba data size n (k + 1) d

/-- The entry that `fs_write` stores. -/
def newEntry (name : CStr) (type : UInt8) (lba size : ℕ) : FileEntry where
  name := name.bytes ++ List.replicate (fsMaxName - name.length) 0
  type := type
  lba := lba
  size := size

/-- Where `fs_write` puts the data: in place when the old sectors hold it, else past every file. -/
def Scan.writeLba (sc : Scan) (sectors : ℕ) : ℕ :=
  if sc.found && decide (sectors ≤ sc.oldCap) then sc.oldLba else sc.nextFree

/-- The check of `fs_write` that the parent, if there is one, exists. -/
def parentExists (sb : Superblock) (name : CStr) (d : Disk) : Bool × Disk :=
  match parentDir name with
  | none => (true, d)
  | some p =>
    match fsFind sb p d with
    | (none, d) => (false, d)
    | (some _, d) => (true, d)

/-- `fs_write` up to the update of the parent directory: the checks, the scan, the data and the
directory slot. The flag is false where the code returns -1. -/
def writeEntry (sb : Superblock) (name : CStr) (type : UInt8) (data : Mem) (size : ℕ) (d : Disk) :
    Bool × Disk :=
  if name.length ≥ fsMaxName then (false, d)
  else
    match parentExists sb name d with
    | (false, d) => (false, d)
    | (true, d) =>
      match scanDir sb name sb.dirSectors 0 (Scan.init sb) d with
      | (none, d) => (false, d)
      | (some sc, d) =>
        if sc.slotSec < 0 then (false, d)
        else
          let sectors := sectorsOf size
          let lba := sc.writeLba sectors
          match writeLoop lba data size sectors 0 d with
          | (false, d) => (false, d)
          | (true, d) =>
            let slotLba := u32 (sb.dirLba + sc.slotSec.toNat)
            match ataReadSectors d slotLba with
            | (none, d) => (false, d)
            | (some buf, d) =>
              ataWriteSectors d slotLba (putEntry buf sc.slotI.toNat (newEntry name type lba size))

/-- The text that `fs_append` writes back: the old text, the path and a newline. -/
def appendLine (buf : Mem) (off : ℕ) (path : CStr) : Mem :=
  buf.blit off (path.length + 1) fun k => path.bytes.getD k 10

mutual

/-- `fs_write`. -/
def fsWrite (sb : Superblock) (name : CStr) (type : UInt8) (data : Mem) (size : ℕ) (d : Disk) :
    ℤ × Disk :=
  match writeEntry sb name type data size d with
  | (false, d) => (-1, d)
  | (true, d) =>
    -- the value of `fs_append` is not looked at
    match _h : parentDir name with
    | none => (0, d)
    | some parent => (0, (fsAppend sb parent name d).2)
termination_by 2 * name.length
decreasing_by
  have := parentDir_length _h
  omega

/-- `fs_append`. -/
def fsAppend (sb : Superblock) (dir path : CStr) (d : Disk) : ℤ × Disk :=
  match fsFind sb dir d with
  | (none, d) => (-1, d)
  | (some e, d) =>
    if e.size ≥ dirBufSize then (-1, d)
    else
      match readLoop e.lba 0 e.size (fun _ => 0) d with
      | (false, _, d) => (-1, d)
      | (true, buf, d) =>
        if e.size + path.length + 1 ≥ dirBufSize then (-1, d)
        else fsWrite sb dir fsDir (appendLine buf e.size path) (e.size + path.length + 1) d
termination_by 2 * dir.length + 1

end

/-- `fs_mkdir`. -/
def fsMkdir (sb : Superblock) (name : CStr) (d : Disk) : ℤ × Disk :=
  fsWrite sb name fsDir (fun _ => 0) 0 d

end LunariaOS.Fs
