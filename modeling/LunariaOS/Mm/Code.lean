import LunariaOS.Lib.Pages
import LunariaOS.Str
import LunariaOS.Window

/-!
Physical frames, page tables and the address spaces of programs.

Memory is one array of bytes, in which the page directories and page tables and the bitmap of the
frames lie. The kernel runs identity mapped, so that its pointers are physical addresses. Of the
processor the model keeps the register that holds the directory in force.
-/

namespace LunariaOS.Mm

open LunariaOS.Lib

def lowEnd : ℕ := 0x100000

/-- What the linker fixes: the kernel's page directory, a page of its image, and the end of the
image, which lies in the low megabyte. -/
structure Image where
  pageDir : ℕ
  kernelEnd : ℕ
  aligned : 4096 ∣ pageDir
  nonNull : 0 < pageDir
  inside : pageDir + 4096 ≤ kernelEnd
  low : kernelEnd ≤ lowEnd

/-- `struct e820_entry`: an entry of the firmware's memory map, without the attributes, which
nothing reads. -/
structure E820Entry where
  baseLo : ℕ
  baseHi : ℕ
  lenLo : ℕ
  lenHi : ℕ
  type : ℕ
  baseLo_lt : baseLo < 4294967296
  lenLo_lt : lenLo < 4294967296

def e820Usable : ℕ := 1

/-- The entries that the kernel counts as memory. -/
def E820Entry.counts (e : E820Entry) : Bool := e.type = e820Usable ∧ e.baseHi = 0

def topUsable (table : List E820Entry) : ℕ :=
  table.foldl (fun top e =>
    if e.counts then
      let stop := u32 (e.baseLo + e.lenLo)
      let stop := if stop < e.baseLo then 0xFFFFFFFF else stop
      if stop > top then stop else top
    else top) 0

def inUsable (table : List E820Entry) (addr : ℕ) : Bool :=
  table.any fun e =>
    let diff := i32 (addr - e.baseLo : ℤ)
    e.counts ∧ diff ≥ 0 ∧ diff < e.lenLo

/-- The memory, the variables of the memory manager and the directory in force. -/
structure Vm where
  mem : Mem
  memTop : ℕ
  nframes : ℕ
  framesFree : ℕ
  bitmap : ℕ
  cr3 : ℕ
  curDir : ℕ
  brk : ℕ
  faultCount : ℕ

/-! ### Frames -/

def Vm.frameUsed (s : Vm) (i : ℕ) : Bool := s.mem.bit s.bitmap i

def Vm.frameSet (s : Vm) (i : ℕ) : Vm := { s with mem := s.mem.setBit s.bitmap i }

def Vm.frameClear (s : Vm) (i : ℕ) : Vm := { s with mem := s.mem.clearBit s.bitmap i }

/-- `frames_free--`. -/
def Vm.oneLess (s : Vm) : Vm := { s with framesFree := u32 (s.framesFree + 4294967295) }

/-- `frames_free++`. -/
def Vm.oneMore (s : Vm) : Vm := { s with framesFree := u32 (s.framesFree + 1) }

/-- `alloc_frame`: the address of the first frame that is free, now used; 0 when none is. -/
def Vm.allocFrame (s : Vm) : ℕ × Vm :=
  match (List.range s.nframes).find? fun i => !s.frameUsed i with
  | some i => (i * pageSize, (s.frameSet i).oneLess)
  | none => (0, s)

def Vm.freeFrame (s : Vm) (addr : ℕ) : Vm :=
  let i := addr / pageSize
  if i < s.nframes ∧ s.frameUsed i then (s.frameClear i).oneMore else s

/-! ### The start -/

/-- Frames that stay used: the low megabyte, the window, and what the map does not list. -/
def heldBack (table : List E820Entry) (idx : ℕ) : Bool :=
  let addr := idx * pageSize
  addr < lowEnd ∨ (addr ≥ userBase ∧ addr < userTop) ∨ !inUsable table addr

/-- The bytes of a bitmap of `n` bits. -/
def bitmapBytes (n : ℕ) : ℕ := (n + 7) / 8

def memoryInit (K : Image) (table : List E820Entry) (s : Vm) : Vm :=
  let top := topUsable table
  let n := top / pageSize
  let bmPhys := (K.kernelEnd + pageSize - 1) / pageSize * pageSize
  let bmBytes := bitmapBytes n
  let s := { s with
    memTop := top, nframes := n, bitmap := bmPhys, framesFree := 0
    mem := memset s.mem bmPhys 0xFF bmBytes }
  let s := (List.range n).foldl (fun s idx =>
    if heldBack table idx then s else (s.frameClear idx).oneMore) s
  -- the pages of the bitmap itself
  (List.range ((bmBytes + pageSize - 1) / pageSize)).foldl (fun s k =>
    let i := (bmPhys + k * pageSize) / pageSize
    if i < n ∧ !s.frameUsed i then (s.frameSet i).oneLess else s) s

/-- The address part of a directory or table entry. -/
def entryAddr (e : ℕ) : ℕ := e / 4096 * 4096

/-- Bit 0 of an entry. -/
def present (e : ℕ) : Bool := e % 2 = 1

/-- Where the directory at `dir` keeps its entry for the address `v`. -/
def pdeAt (dir v : ℕ) : ℕ := dir + 4 * (v / 4194304)

/-- Where the page table at `pt` keeps its entry for the address `v`. -/
def pteAt (pt v : ℕ) : ℕ := pt + 4 * (v / 4096 % 1024)

/-- The flag that opens an entry to ring 3. -/
def userFlag (user : Bool) : ℕ := if user then 0x4 else 0

/-- Make sure that the kernel directory has a page table for `v`; whether it has. -/
def Vm.tableFor (K : Image) (s : Vm) (v : ℕ) (user : Bool) : Bool × Vm :=
  let pde := s.mem.ld32 (pdeAt K.pageDir v)
  if !present pde then
    let (pt, s) := s.allocFrame
    if pt = 0 then (false, s)
    else
      let m := memset s.mem pt 0 pageSize
      (true, { s with mem := m.st32 (pdeAt K.pageDir v) (pt ||| 0x3 ||| userFlag user) })
  else if !user then
    -- bit 2 cleared
    (true, { s with mem := s.mem.st32 (pdeAt K.pageDir v) (pde - pde / 4 % 2 * 4) })
  else (true, s)

/-- One turn of the loop of `map_range`; whether the page table was there or could be allocated. -/
def Vm.mapPage (K : Image) (s : Vm) (v : ℕ) (user : Bool) : Bool × Vm :=
  let (ok, s) := s.tableFor K v user
  if !ok then (false, s)
  else
    let pt := entryAddr (s.mem.ld32 (pdeAt K.pageDir v))
    (true, { s with mem := s.mem.st32 (pteAt pt v) (v ||| 0x3 ||| userFlag user) })

/-- `map_range` from the page of `v` up to `stop`. The flag, which the code does not return, is
whether every page table could be allocated. -/
def Vm.mapRange (K : Image) (stop : ℕ) (user : Bool) : ℕ → ℕ → Vm → Option (Bool × Vm)
  | 0, _, _ => none
  | n + 1, v, s =>
    if v < stop then
      let (ok, s) := s.mapPage K v user
      if !ok then some (false, s) else mapRange K stop user n (u32 (v + pageSize)) s
    else some (true, s)

def Vm.mapSupervisor (K : Image) (n : ℕ) (start stop : ℕ) (s : Vm) : Option (Bool × Vm) :=
  if start ≥ stop then some (true, s)
  else do
    let (ok, s) ← (if start < userBase then
        s.mapRange K (if stop < userBase then stop else userBase) false n (entryAddr start)
      else some (true, s))
    let (ok', s) ← (if stop > userTop then
        s.mapRange K stop false n (entryAddr (if start > userTop then start else userTop))
      else some (true, s))
    some (ok && ok', s)

/-- The part of `map_usable` for one entry of the map. -/
def Vm.mapEntry (K : Image) (n : ℕ) (s : Vm) (e : E820Entry) : Option (Bool × Vm) :=
  if !e.counts then some (true, s)
  else
    let base := e.baseLo
    let len := e.lenLo
    if u32 (base + len) < base ∨ u32 (base + len) ≤ lowEnd then some (true, s)
    else
      let base := if base < lowEnd then lowEnd else base
      s.mapSupervisor K n base (u32 (base + len))

def Vm.mapUsable (K : Image) (n : ℕ) : List E820Entry → Vm → Option (Bool × Vm)
  | [], s => some (true, s)
  | e :: table, s => do
    let (ok, s) ← s.mapEntry K n e
    let (ok', s) ← mapUsable K n table s
    some (ok && ok', s)

def pagingInit (K : Image) (n : ℕ) (table : List E820Entry) (s : Vm) : Option (Bool × Vm) := do
  let s := { s with mem := memset s.mem K.pageDir 0 4096 }
  let (ok, s) ← s.mapRange K lowEnd false n 0
  let (ok', s) ← s.mapUsable K n table
  some (ok && ok', { s with cr3 := K.pageDir })

/-! ### The processor -/

/-- What the processor finds for an address: where its page lies, whether the page may be written and
whether ring 3 may use it. -/
structure Leaf where
  addr : ℕ
  writable : Bool
  user : Bool
deriving DecidableEq

/-- The walk of the processor through the directory at `dir`. -/
def Vm.walk (s : Vm) (dir v : ℕ) : Option Leaf :=
  let pde := s.mem.ld32 (pdeAt dir v)
  let pte := s.mem.ld32 (pteAt (entryAddr pde) v)
  if present pde ∧ present pte then
    some {
      addr := entryAddr pte
      writable := pde.testBit 1 && pte.testBit 1
      user := pde.testBit 2 && pte.testBit 2 }
  else none

/-! ### Address spaces -/

def userPde : ℕ := userBase / 4194304

def Vm.vmSwitch (s : Vm) (dir : ℕ) : Vm := { s with cr3 := dir }

def Vm.vmCreate (K : Image) (s : Vm) : ℕ × Vm :=
  let (d, s) := s.allocFrame
  if d = 0 then (0, s)
  else
    let s := { s with mem := memcpy s.mem d K.pageDir 4096 }
    -- the window has a single directory entry
    let (pt, s) := s.allocFrame
    if pt = 0 then (0, s.freeFrame d)
    else
      let m := memset s.mem pt 0 pageSize
      let m := m.st32 (d + 4 * userPde) (pt ||| 0x3 ||| 0x4)
      (d, { s with mem := m, brk := 0 })

/-- Free the frames that the page table at `pt` maps. -/
def Vm.freePages (s : Vm) (pt : ℕ) : Vm :=
  (List.range 1024).foldl (fun s j =>
    let pte := s.mem.ld32 (pt + 4 * j)
    if present pte then s.freeFrame (entryAddr pte) else s) s

def Vm.vmDestroy (K : Image) (s : Vm) (dir : ℕ) : Vm :=
  if dir = 0 ∨ dir = K.pageDir then s
  else
    let pde := s.mem.ld32 (dir + 4 * userPde)
    let s := if present pde then
        let s := s.freePages (entryAddr pde)
        let s := s.freeFrame (entryAddr (s.mem.ld32 (dir + 4 * userPde)))
        { s with mem := s.mem.st32 (dir + 4 * userPde) 0 }
      else s
    s.freeFrame dir

def Vm.vmAttach (s : Vm) (dir : ℕ) : Vm := Vm.vmSwitch { s with curDir := dir } dir

def Vm.vmDetach (K : Image) (s : Vm) : Vm :=
  let old := s.curDir
  if old = 0 then s
  else
    let s := Vm.vmSwitch { s with curDir := 0 } K.pageDir
    s.vmDestroy K old

/-- `vm_fault`: whether the page has been mapped. -/
def Vm.vmFault (s : Vm) (addr : ℕ) : Bool × Vm :=
  if addr < userBase ∨ addr ≥ userTop then (false, s)
  else
    let pde := s.mem.ld32 (pdeAt (entryAddr s.cr3) addr)
    if !present pde then (false, s)
    else
      let pte := pteAt (entryAddr pde) addr
      if present (s.mem.ld32 pte) then (false, s)
      else
        let (frame, s) := s.allocFrame
        if frame = 0 then (false, s)
        else
          let m := memset s.mem frame 0 pageSize
          let m := m.st32 pte (frame ||| 0x3 ||| 0x4)
          (true, { s with mem := m, faultCount := u32 (s.faultCount + 1) })

end LunariaOS.Mm
