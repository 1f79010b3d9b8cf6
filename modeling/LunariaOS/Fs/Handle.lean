import LunariaOS.Fs.Code

/-!
The open file handles of `fs.c`: `fs_open`, `fs_read_fd`, `fs_write_fd`, `fs_seek`, `fs_close` and
`fs_close_all`.

Eight handles share one 64K buffer, `wbuf`, which belongs to the writable handle. A read handle
streams from the disk; the writable one works in the buffer and writes it back when it is closed.
-/

namespace LunariaOS.Fs

open LunariaOS.Lib

/-- `FD_BUF_SIZE`. -/
def fdBufSize : ℕ := 65536
/-- `FS_MAX_OPEN`. -/
def fsMaxOpen : ℕ := 8
/-- `FS_FD_BASE`. -/
def fsFdBase : ℤ := 3
/-- `FS_O_RDONLY`. -/
def fsORdonly : ℕ := 0x0001
/-- `FS_O_WRONLY`. -/
def fsOWronly : ℕ := 0x0002
/-- `FS_O_RDWR`. -/
def fsORdwr : ℕ := 0x0004
/-- `FS_O_CREAT`. -/
def fsOCreat : ℕ := 0x0008
/-- `FS_O_TRUNC`. -/
def fsOTrunc : ℕ := 0x0010
/-- `FS_O_APPEND`. -/
def fsOAppend : ℕ := 0x0020
/-- `FS_SEEK_SET`. -/
def fsSeekSet : ℤ := 0
/-- `FS_SEEK_CUR`. -/
def fsSeekCur : ℤ := 1
/-- `FS_SEEK_END`. -/
def fsSeekEnd : ℤ := 2

/-- `struct fs_handle`. -/
structure Handle where
  used : Bool
  writable : Bool
  dirty : Bool
  type : UInt8
  name : CStr
  lba : ℕ
  size : ℕ
  wlen : ℕ
  offset : ℕ

/-- A handle after `memset(h, 0, sizeof *h)`. -/
def Handle.zero : Handle where
  used := false
  writable := false
  dirty := false
  type := 0
  name := CStr.empty
  lba := 0
  size := 0
  wlen := 0
  offset := 0

/-- The static data of the file system: the superblock, the disk, the handles and the buffer. -/
structure State where
  sb : Superblock
  disk : Disk
  handles : Fin 8 → Handle
  wbuf : Mem

namespace State

/-- The state with one handle replaced. -/
def setHandle (s : State) (i : Fin 8) (h : Handle) : State :=
  { s with handles := fun j => if j = i then h else s.handles j }

@[simp] lemma setHandle_sb (s : State) (i : Fin 8) (h : Handle) : (s.setHandle i h).sb = s.sb := rfl

@[simp] lemma setHandle_disk (s : State) (i : Fin 8) (h : Handle) :
    (s.setHandle i h).disk = s.disk := rfl

@[simp] lemma setHandle_wbuf (s : State) (i : Fin 8) (h : Handle) :
    (s.setHandle i h).wbuf = s.wbuf := rfl

@[simp] lemma setHandle_same (s : State) (i : Fin 8) (h : Handle) :
    (s.setHandle i h).handles i = h := by simp [setHandle]

lemma setHandle_ne (s : State) {i j : Fin 8} (h : Handle) (hij : j ≠ i) :
    (s.setHandle i h).handles j = s.handles j := by simp [setHandle, hij]

end State

/-- Whether some bit of `bits` is set in `flags`. -/
def flagSet (flags bits : ℕ) : Bool := flags &&& bits != 0

/-- The descriptor of the handle number `i`. -/
def fdOf (i : Fin 8) : ℤ := fsFdBase + (i : ℕ)

/-- `fd_lookup`: the handle of a descriptor, when it is in use. -/
def fdLookup (s : State) (fd : ℤ) : Option (Fin 8) :=
  if h : 0 ≤ fd - fsFdBase ∧ fd - fsFdBase < fsMaxOpen then
    let i : Fin 8 := ⟨(fd - fsFdBase).toNat, by unfold fsMaxOpen at h; omega⟩
    if (s.handles i).used then some i else none
  else none

/-- The loop of `fs_open` that looks for a free handle. -/
def freeHandle (s : State) : Option (Fin 8) :=
  (List.finRange 8).find? fun i => !(s.handles i).used

/-- The loop of `fs_open` that looks for a writable handle other than the number `i`. -/
def otherWriter (s : State) (i : Fin 8) : Bool :=
  (List.finRange 8).any fun j => j != i && (s.handles j).used && (s.handles j).writable

/-- The part of `fs_open` that sets up a read handle in the slot `i`. -/
def openReader (s : State) (i : Fin 8) (name : CStr) (e : Option FileEntry) : ℤ × State :=
  let h := { Handle.zero with used := true, name := name }
  match e with
  | none => (fdOf i, s.setHandle i h)
  | some e => (fdOf i, s.setHandle i { h with type := e.type, lba := e.lba, size := e.size })

/-- The part of `fs_open` that sets up the writable handle in the slot `i`. -/
def openWriter (s : State) (i : Fin 8) (name : CStr) (flags : ℕ) (e : Option FileEntry) :
    ℤ × State :=
  let h := { Handle.zero with used := true, writable := true, name := name }
  if otherWriter s i then (-1, s.setHandle i { h with used := false })
  else
    let h := { h with type := fsFile }
    match (if flagSet flags fsOTrunc then none else e) with
    | none => (fdOf i, s.setHandle i h)
    | some e =>
      if e.size > fdBufSize then (-1, s.setHandle i { h with used := false })
      else
        let (rc, wbuf, d) := fsRead s.sb name s.wbuf fdBufSize s.disk
        let s := { s with disk := d, wbuf := wbuf }
        if rc < 0 then (-1, s.setHandle i { h with used := false })
        else
          (fdOf i, s.setHandle i { h with
            wlen := e.size
            offset := if flagSet flags fsOAppend then e.size else 0 })

/-- `fs_open`. -/
def fsOpen (s : State) (name : CStr) (flags : ℕ) : ℤ × State :=
  if name.length ≥ fsMaxName then (-1, s)
  else
    let (e, d) := fsFind s.sb name s.disk
    let s := { s with disk := d }
    if e.isNone && !flagSet flags fsOCreat then (-1, s)
    else if e.map FileEntry.type = some fsDir then (-1, s)
    else
      match freeHandle s with
      | none => (-1, s)
      | some i =>
        if flagSet flags (fsOWronly ||| fsORdwr) then openWriter s i name flags e
        else openReader s i name e

/-- The loop of `fs_read_fd` for a read handle: from `done` bytes on, copy up to `n` bytes of the
file at the sector `lba` from its byte `offset` on. It gives the bytes copied, and whether every
transfer succeeded. -/
def readFdLoop (lba offset n done : ℕ) (buf : Mem) (d : Disk) : ℕ × Bool × Mem × Disk :=
  if done < n then
    let pos := u32 (offset + done)
    match ataReadSectors d (u32 (lba + pos / 512)) with
    | (none, d) => (done, false, buf, d)
    | (some sec, d) =>
      let take := if 512 - pos % 512 > n - done then n - done else 512 - pos % 512
      readFdLoop lba offset n (done + take) (buf.blit done take fun i => sec (pos % 512 + i)) d
  else (done, true, buf, d)
termination_by n - done
decreasing_by
  have : u32 (offset + done) % 512 < 512 := Nat.mod_lt _ (by omega)
  split <;> omega

/-- The bytes between the position and the end. -/
def available (offset size : ℕ) : ℕ := if offset < size then size - offset else 0

/-- `fs_read_fd`: the value returned, and the buffer after it. -/
def fsReadFd (s : State) (fd : ℤ) (buf : Mem) (n : ℕ) : ℤ × Mem × State :=
  match fdLookup s fd with
  | none => (-1, buf, s)
  | some i =>
    let h := s.handles i
    if h.writable then
      let avail := available h.offset h.wlen
      let n := if n > avail then avail else n
      (i32 n, buf.blit 0 n fun k => s.wbuf (h.offset + k),
        s.setHandle i { h with offset := u32 (h.offset + n) })
    else
      let avail := available h.offset h.size
      let n := if n > avail then avail else n
      if n = 0 then (0, buf, s)
      else
        match readFdLoop h.lba h.offset n 0 buf s.disk with
        | (done, false, buf, d) => (if done ≠ 0 then i32 done else -1, buf, { s with disk := d })
        | (done, true, buf, d) =>
          (i32 done, buf,
            { s with disk := d }.setHandle i { h with offset := u32 (h.offset + done) })

/-- `fs_write_fd`. -/
def fsWriteFd (s : State) (fd : ℤ) (buf : Mem) (n : ℕ) : ℤ × State :=
  match fdLookup s fd with
  | none => (-1, s)
  | some i =>
    let h := s.handles i
    if !h.writable then (-1, s)
    else if n > fdBufSize ∨ h.offset > fdBufSize - n then (-1, s)
    else
      let (wbuf, wlen) :=
        if h.offset + n > h.wlen then
          -- a seek past the end leaves a gap, filled with zeros
          (if h.offset > h.wlen then s.wbuf.blit h.wlen (h.offset - h.wlen) fun _ => 0 else s.wbuf,
            h.offset + n)
        else (s.wbuf, h.wlen)
      (i32 n,
        { s with wbuf := wbuf.blit h.offset n buf }.setHandle i
          { h with wlen := wlen, offset := h.offset + n, dirty := true })

/-- The position that `fs_seek` counts from. -/
def seekBase (h : Handle) (whence : ℤ) : Option ℤ :=
  if whence = fsSeekSet then some 0
  else if whence = fsSeekCur then some (i32 h.offset)
  else if whence = fsSeekEnd then some (i32 (if h.writable then h.wlen else h.size : ℕ))
  else none

/-- `fs_seek`. -/
def fsSeek (s : State) (fd off whence : ℤ) : ℤ × State :=
  match fdLookup s fd with
  | none => (-1, s)
  | some i =>
    let h := s.handles i
    match seekBase h whence with
    | none => (-1, s)
    | some base =>
      let pos := i32 (base + off)
      if pos < 0 then (-1, s) else (pos, s.setHandle i { h with offset := pos.toNat })

/-- `fs_close`. -/
def fsClose (s : State) (fd : ℤ) : ℤ × State :=
  match fdLookup s fd with
  | none => (-1, s)
  | some i =>
    let h := s.handles i
    if h.writable then
      let (rc, d) := fsWrite s.sb h.name h.type s.wbuf h.wlen s.disk
      (rc, { s with disk := d }.setHandle i { h with used := false })
    else (0, s.setHandle i { h with used := false })

/-- `fs_close_all`. -/
def fsCloseAll (s : State) : State :=
  (List.finRange 8).foldl (fun s i => if (s.handles i).used then (fsClose s (fdOf i)).2 else s) s

end LunariaOS.Fs
