import LunariaOS.Lib.Chain
import LunariaOS.Str
import LunariaOS.Window

/-!
The userspace heap: `malloc`, `calloc`, `realloc` and `free` of the C library over the program break.

A block is an address in the program's memory. Its first word is its size, header included; the word
after it is the link to the next free block. Every loop over the free list, and the retry loop of
`malloc`, counts down a number of steps and gives `none` when it runs out, so that a call that never
returns is one that gives `none` however many steps it has.
-/

namespace LunariaOS.Libc

open LunariaOS.Lib

/-! ### The state -/

def blockHdr : ℕ := 8
def minAlign : ℕ := 8

/-- The memory of the program, the variables of the allocator and the break the kernel keeps. -/
structure Heap where
  mem : Mem
  freelist : ℕ
  heapBrk : ℕ
  heapState : ℤ
  brk : ℕ

variable (hs : ℕ)

/-- `sys_sbrk`. -/
def Heap.sysSbrk (h : Heap) (inc : ℕ) : ℕ × Heap :=
  let brk := vmSbrk h.brk inc
  (brk, { h with brk := brk })

/-- Round up to the alignment; the addition wraps. -/
def align8 (n : ℕ) : ℕ := u32 (n + (minAlign - 1)) / minAlign * minAlign

/-- `heap_boot`, where `hs` is the address of `__heap_start`. -/
def Heap.heapBoot (h : Heap) : Heap :=
  let (cur, h) := h.sysSbrk 0
  let want := hs
  let (got, h) := if want > cur then h.sysSbrk (want - cur) else (cur, h)
  if want > cur ∧ got ≤ cur then { h with heapState := -1 }
  else
    let (top, h) := h.sysSbrk 0
    { h with heapBrk := top, heapState := 1 }

/-! ### Taking blocks -/

/-- The last block of the free list. -/
def lastBlock (m : Mem) : ℕ → ℕ → Option ℕ
  | 0, _ => none
  | n + 1, p => if m.ld32 (p + 4) = 0 then some p else lastBlock m n (m.ld32 (p + 4))

/-- The number of bytes that `morecore` asks for. -/
def coreSize (need : ℕ) : ℕ :=
  u32 ((if need > 4096 then need else 4096) + 4095) / 4096 * 4096

/-- Put the block `b`, above all others, at the end of the free list. -/
def Heap.addTail (h : Heap) (n b : ℕ) : Option Heap :=
  if h.freelist = 0 then some { h with freelist := b }
  else do
    let p ← lastBlock h.mem n h.freelist
    if u32 (p + h.mem.ld32 p) = b then
      some { h with mem := h.mem.st32 p (u32 (h.mem.ld32 p + h.mem.ld32 b)) }
    else some { h with mem := h.mem.st32 (p + 4) b }

/-- Grow the break by one free block; whether that worked. -/
def Heap.morecore (h : Heap) (n need : ℕ) : Option (Bool × Heap) :=
  let req := coreSize need
  let old := h.heapBrk
  let (got, h) := h.sysSbrk req
  if got ≠ u32 (old + req) then some (false, h)
  else do
    let m := h.mem.st32 old req
    let m := m.st32 (old + 4) 0
    let h ← Heap.addTail { h with heapBrk := got, mem := m } n old
    some (true, h)

/-- The first block from `b` on with room for `need` bytes, 0 when there is none, and the block
before it. -/
def findFit (m : Mem) (need : ℕ) : ℕ → ℕ → ℕ → Option (ℕ × ℕ)
  | 0, _, _ => none
  | n + 1, prev, b =>
    if b = 0 then some (prev, 0)
    else if m.ld32 b ≥ need then some (prev, b)
    else findFit m need n b (m.ld32 (b + 4))

/-- Point the link of `prev` at `v`, or the head of the list when there is no `prev`. -/
def Heap.link (h : Heap) (prev v : ℕ) : Heap :=
  if prev ≠ 0 then { h with mem := h.mem.st32 (prev + 4) v } else { h with freelist := v }

/-- The stores that cut the free block `b` after `need` bytes. -/
def split (m : Mem) (b need : ℕ) : Mem :=
  let next := m.ld32 (b + 4)
  let size := m.ld32 b
  let rest := u32 (b + need)
  let m := m.st32 rest (size - need)
  let m := m.st32 (rest + 4) next
  m.st32 b need

/-- Take `need` bytes from the free block `b`: the whole block, unless the rest of it has room for a
header and a payload. -/
def Heap.take (h : Heap) (need prev b : ℕ) : Heap :=
  if h.mem.ld32 b ≥ u32 (need + blockHdr + minAlign) then
    Heap.link { h with mem := split h.mem b need } prev (u32 (b + need))
  else h.link prev (h.mem.ld32 (b + 4))

/-- The retry loop of `malloc`. -/
def Heap.mallocLoop (need : ℕ) : ℕ → Heap → Option (ℕ × Heap)
  | 0, _ => none
  | n + 1, h => do
    let (prev, b) ← findFit h.mem need n 0 h.freelist
    if b ≠ 0 then some (u32 (b + blockHdr), h.take need prev b)
    else
      let (grown, h) ← h.morecore n need
      if grown then mallocLoop need n h else some (0, h)

/-- The bytes that a block for a payload of `size` bytes takes. -/
def needOf (size : ℕ) : ℕ := u32 (align8 size + blockHdr)

def Heap.malloc (h : Heap) (n size : ℕ) : Option (ℕ × Heap) :=
  let h := if h.heapState = 0 then h.heapBoot hs else h
  if h.heapState < 0 then some (0, h) else Heap.mallocLoop (needOf size) n h

/-! ### Giving blocks back -/

/-- The block whose payload starts at `ptr`. -/
def blockOf (ptr : ℕ) : ℕ := u32 (ptr + (4294967296 - blockHdr))

/-- The place of `b` in the free list: the last block below it, 0 when there is none, and the block
that follows. -/
def findPlace (m : Mem) (b : ℕ) : ℕ → ℕ → ℕ → Option (ℕ × ℕ)
  | 0, _, _ => none
  | n + 1, prev, cur =>
    if cur ≠ 0 ∧ cur < b then findPlace m b n cur (m.ld32 (cur + 4)) else some (prev, cur)

/-- Join the block `x` to the block `y` after it when the two touch. -/
def merge (m : Mem) (x y : ℕ) : Mem :=
  if u32 (x + m.ld32 x) = y then
    let m := m.st32 x (u32 (m.ld32 x + m.ld32 y))
    m.st32 (x + 4) (m.ld32 (y + 4))
  else m

/-- Join the block `b` to the block that follows, then to the one before. -/
def Heap.joins (h : Heap) (prev b cur : ℕ) : Heap :=
  let h := if cur ≠ 0 then { h with mem := merge h.mem b cur } else h
  if prev ≠ 0 then { h with mem := merge h.mem prev b } else h

def Heap.free (h : Heap) (n ptr : ℕ) : Option Heap :=
  if ptr = 0 then some h
  else do
    let b := blockOf ptr
    let (prev, cur) ← findPlace h.mem b n 0 h.freelist
    let h := { h with mem := h.mem.st32 (b + 4) cur }
    let h := h.link prev b
    some (h.joins prev b cur)

/-! ### Clearing and resizing -/

def Heap.calloc (h : Heap) (n count size : ℕ) : Option (ℕ × Heap) :=
  let total := u32 (count * size)
  if count ≠ 0 ∧ total / count ≠ size then some (0, h)
  else do
    let (p, h) ← h.malloc hs n total
    if p ≠ 0 then some (p, { h with mem := memset h.mem p 0 total }) else some (p, h)

/-- The payload bytes of the block at `ptr`. -/
def Heap.payload (h : Heap) (ptr : ℕ) : ℕ := u32 (h.mem.ld32 (blockOf ptr) + (4294967296 - blockHdr))

/-- The part of `realloc` that makes a block smaller in place. -/
def Heap.shrink (h : Heap) (n ptr size : ℕ) : Option Heap :=
  let b := blockOf ptr
  let need := needOf size
  if h.mem.ld32 b ≥ u32 (need + blockHdr + minAlign) then
    let rest := u32 (b + need)
    let m := h.mem.st32 rest (h.mem.ld32 b - need)
    let m := m.st32 b need
    Heap.free { h with mem := m } n (u32 (rest + blockHdr))
  else some h

def Heap.realloc (h : Heap) (n ptr size : ℕ) : Option (ℕ × Heap) :=
  if ptr = 0 then h.malloc hs n size
  else if size = 0 then do
    let h ← h.free n ptr
    some (0, h)
  else
    let payload := h.payload ptr
    if payload ≥ size then do
      let h ← h.shrink n ptr size
      some (ptr, h)
    else do
      let (p, h) ← h.malloc hs n size
      if p = 0 then some (0, h)
      else
        let h := { h with mem := memcpy h.mem p ptr payload }
        let h ← h.free n ptr
        some (p, h)

end LunariaOS.Libc
