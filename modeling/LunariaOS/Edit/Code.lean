import LunariaOS.Fs.Calls

/-!
The text editor `edit.c`: the buffer, the editing keys and the `:` command line, over the file system.

What is drawn is left out: the view follows the buffer and changes none of this. So is the message
line.
-/

namespace LunariaOS.Edit

open LunariaOS.Lib LunariaOS.Fs

def bufMax : ℕ := 65536
def tabW : ℕ := 4
def cmdMax : ℕ := 50

def keyUp : ℤ := 0xE0
def keyDown : ℤ := 0xE1
def keyLeft : ℤ := 0xE2
def keyRight : ℤ := 0xE3
def keyEsc : ℤ := 0x1B
def keyEnter : ℤ := 10
def keyBackspace : ℤ := 8

/-- The string that starts a list of bytes. -/
def strOf (l : List UInt8) : CStr := ⟨cstr l, zero_notMem_cstr l⟩

/-- The editor, with the disk under it. `cmd` is the command line without its NUL, so `cmd_len` is its
length. -/
structure State where
  buf : Mem
  len : ℕ
  pos : ℕ
  dirty : Bool
  cmdMode : Bool
  cmd : List UInt8
  quit : Bool
  fname : CStr
  disk : Disk

namespace State

/-- The bytes `buf[0..len)`. -/
def text (s : State) : List UInt8 := (List.range s.len).map s.buf

/-! ### Lines -/

/-- `line_begin`. -/
def lineBegin (buf : Mem) : ℕ → ℕ
  | 0 => 0
  | p + 1 => if buf p ≠ 10 then lineBegin buf p else p + 1

/-- `line_end`. -/
def lineEnd (buf : Mem) (len p : ℕ) : ℕ :=
  if p < len ∧ buf p ≠ 10 then lineEnd buf len (p + 1) else p
termination_by len - p

/-- How far the byte `b` moves the column `c`. -/
def width (b : UInt8) (c : ℕ) : ℕ := if b = 9 then tabW - c % tabW else 1

/-- `col_of`. -/
def colOf (buf : Mem) (p : ℕ) : ℕ :=
  (List.range' (lineBegin buf p) (p - lineBegin buf p)).foldl (fun c i => c + width (buf i) c) 0

/-- The loop of `pos_for_col`: the place and the column at which it stops. -/
def seekCol (buf : Mem) (target e i c : ℕ) : ℕ × ℕ :=
  if i < e ∧ c < target then seekCol buf target e (i + 1) (c + width (buf i) c) else (i, c)
termination_by e - i

/-- `pos_for_col`. -/
def posForCol (buf : Mem) (len start target : ℕ) : ℕ :=
  let (i, c) := seekCol buf target (lineEnd buf len start) start 0
  -- a wide tab was stepped over: sit on it
  if c > target ∧ i > start then i - 1 else i

/-! ### Editing -/

def doInsert (s : State) (c : UInt8) (n : ℕ) : State :=
  if s.len + n ≥ bufMax then s
  else
    { s with
      buf := (s.buf.blit (s.pos + n) (s.len - s.pos) fun i => s.buf (s.pos + i)).blit s.pos n
        fun _ => c
      pos := s.pos + n
      len := s.len + n
      dirty := true }

def doBackspace (s : State) : State :=
  if s.pos ≤ 0 then s
  else
    { s with
      buf := s.buf.blit (s.pos - 1) (s.len - s.pos) fun i => s.buf (s.pos + i)
      pos := s.pos - 1
      len := s.len - 1
      dirty := true }

def editKey (s : State) (k : ℤ) : State :=
  if k = keyEsc then { s with cmdMode := true, cmd := [] }
  else if k = keyLeft then (if s.pos > 0 then { s with pos := s.pos - 1 } else s)
  else if k = keyRight then (if s.pos < s.len then { s with pos := s.pos + 1 } else s)
  else if k = keyUp then
    let lb := lineBegin s.buf s.pos
    if lb > 0 then
      { s with pos := posForCol s.buf s.len (lineBegin s.buf (lb - 1)) (colOf s.buf s.pos) }
    else s
  else if k = keyDown then
    let e := lineEnd s.buf s.len s.pos
    if e < s.len then { s with pos := posForCol s.buf s.len (e + 1) (colOf s.buf s.pos) } else s
  else if k = keyBackspace then s.doBackspace
  else if k = 9 then s.doInsert 32 (tabW - colOf s.buf s.pos % tabW)
  else if k = 10 then s.doInsert 10 1
  else if 32 ≤ k ∧ k ≤ 126 then s.doInsert (UInt8.ofNat k.toNat) 1
  else s

/-! ### Files -/

/-- `load_into`: whether it succeeds, and the state after it. -/
def loadInto (sb : Superblock) (s : State) (name : CStr) : Bool × State :=
  match fsRead sb name s.buf (bufMax - 1) s.disk with
  | (n, buf, d) =>
    if n < 0 then (false, { s with buf := buf, disk := d })
    else
      (true,
        { s with
          buf := buf
          len := n.toNat
          pos := 0
          dirty := false
          fname := name
          disk := d })

/-- `save_file`. -/
def saveFile (sb : Superblock) (s : State) (name : CStr) : Bool × State :=
  if name.bytes = [] then (false, s)
  else if name.length ≥ fsMaxName then (false, s)
  else
    match fsWrite sb name fsFile s.buf s.len s.disk with
    | (rc, d) =>
      if rc ≠ 0 then (false, { s with disk := d })
      else (true, { s with fname := name, dirty := false, disk := d })

/-! ### The command line -/

/-- What a key does to the text that counts as kept: a file is loaded or saved, the buffer is emptied,
or the editor is left by force. -/
inductive Did
  | nothing
  | loaded
  | saved
  | reset
  | forced
  deriving DecidableEq

/-- `run_command`. -/
def runCommand (sb : Superblock) (s : State) : Did × State :=
  let c := ((cstr s.cmd).dropWhile (· == 32)).rdropWhile (· == 32)
  if c = [] then (.nothing, s)
  else if c = [113] then (.nothing, if s.dirty then s else { s with quit := true })
  else if c = [113, 33] then (.forced, { s with quit := true })
  else if c = [119] then
    match saveFile sb s s.fname with
    | (ok, s) => (if ok then .saved else .nothing, s)
  else if c = [119, 113] then
    match saveFile sb s s.fname with
    | (ok, s) => if ok then (.saved, { s with quit := true }) else (.nothing, s)
  else if c = [110] then
    if s.dirty then (.nothing, s)
    else (.reset, { s with len := 0, pos := 0, dirty := false, fname := CStr.empty })
  else if c.take 2 = [101, 32] then
    let arg := strOf ((c.drop 1).dropWhile (· == 32))
    if s.dirty then (.nothing, s)
    else if arg.length ≥ fsMaxName then (.nothing, s)
    else
      match loadInto sb s arg with
      | (ok, s) => (if ok then .loaded else .nothing, s)
  else if c.take 2 = [119, 32] then
    match saveFile sb s (strOf ((c.drop 1).dropWhile (· == 32))) with
    | (ok, s) => (if ok then .saved else .nothing, s)
  else (.nothing, s)

def cmdKey (sb : Superblock) (s : State) (k : ℤ) : Did × State :=
  if k = keyEsc then (.nothing, { s with cmdMode := false })
  else if k = keyEnter then runCommand sb { s with cmdMode := false }
  else if k = keyBackspace then
    (.nothing,
      if s.cmd.length > 0 then { s with cmd := s.cmd.dropLast } else { s with cmdMode := false })
  else if 32 ≤ k ∧ k ≤ 126 ∧ s.cmd.length < cmdMax then
    (.nothing, { s with cmd := s.cmd ++ [UInt8.ofNat k.toNat] })
  else (.nothing, s)

/-- One turn of the loop of `_start`, for the key `k`. After it has quit the editor is gone. -/
def key (sb : Superblock) (s : State) (k : ℤ) : Did × State :=
  if s.quit then (.nothing, s)
  else if s.cmdMode then cmdKey sb s k
  else (.nothing, s.editKey k)

/-! ### Startup -/

/-- The editor at the beginning of `_start`. -/
def loaded (d : Disk) : State where
  buf := fun _ => 0
  len := 0
  pos := 0
  dirty := false
  cmdMode := false
  cmd := []
  quit := false
  fname := CStr.empty
  disk := d

/-- `startup`, for the name that is typed; escape is no name. -/
def startup (sb : Superblock) (d : Disk) (name : CStr) : State :=
  if name.bytes = [] then loaded d
  else
    match loadInto sb (loaded d) name with
    | (ok, s) => if ok then s else { s with fname := name }

end State

end LunariaOS.Edit
