import LunariaOS.Lib.Mem

/-!
The descriptor tables of an x86 processor in protected mode, as the processor reads them, and the ways
of a program to another privilege level.

A table is a run of eight-byte entries in a memory that begins with the table. A software interrupt goes
through an entry of the interrupt table, and a far jump or call through an entry of the segment table.
-/

namespace LunariaOS.Lib

/-- The 16-bit word at the address `a`. -/
def Mem.ld16 (m : Mem) (a : ℕ) : ℕ := (m a).toNat + 256 * (m (a + 1)).toNat

/-- An entry of the interrupt table. -/
structure GateDesc where
  selector : ℕ
  offset : ℕ
  kind : UInt8
  dpl : ℕ
  present : Bool
  deriving DecidableEq

/-- An entry of the segment table. -/
structure SegDesc where
  base : ℕ
  limit : ℕ
  kind : UInt8
  dpl : ℕ
  present : Bool
  /-- The limit counts pages. -/
  pages : Bool
  /-- The segment is one of 32 bits. -/
  wide : Bool
  deriving DecidableEq

/-- What the access byte says: the kind, with the bit for code and data, the level and the presence. -/
def accessKind (b : UInt8) : UInt8 := b &&& 0x1F
def accessDpl (b : UInt8) : ℕ := ((b >>> 5) &&& 3).toNat
def accessPresent (b : UInt8) : Bool := b &&& 0x80 != 0

/-- The gate number `v`. -/
def readGate (idt : Mem) (v : ℕ) : GateDesc where
  selector := idt.ld16 (8 * v + 2)
  offset := idt.ld16 (8 * v) + 65536 * idt.ld16 (8 * v + 6)
  kind := accessKind (idt (8 * v + 5))
  dpl := accessDpl (idt (8 * v + 5))
  present := accessPresent (idt (8 * v + 5))

/-- The segment number `i`. -/
def readSegment (gdt : Mem) (i : ℕ) : SegDesc where
  base := gdt.ld16 (8 * i + 2) + 65536 * (gdt (8 * i + 4)).toNat + 16777216 * (gdt (8 * i + 7)).toNat
  limit := gdt.ld16 (8 * i) + 65536 * ((gdt (8 * i + 6)).toNat % 16)
  kind := accessKind (gdt (8 * i + 5))
  dpl := accessDpl (gdt (8 * i + 5))
  present := accessPresent (gdt (8 * i + 5))
  pages := gdt (8 * i + 6) &&& 0x80 != 0
  wide := gdt (8 * i + 6) &&& 0x40 != 0

/-- The last byte of a segment. -/
def SegDesc.last (s : SegDesc) : ℕ := if s.pages then 4096 * s.limit + 4095 else s.limit

/-- The gate through which `int v` goes at the level `cpl`; none when it faults. `last` is the limit of
the table. -/
def softInt (idt : Mem) (last cpl v : ℕ) : Option GateDesc :=
  let g := readGate idt v
  if 8 * v + 7 ≤ last ∧ g.present ∧ cpl ≤ g.dpl then some g else none

/-- What a far jump or call does. -/
inductive Far
  | fault
  /-- It goes on in a code segment, at the level at which it is. -/
  | stays
  /-- It goes through a gate or to another task. -/
  | passes
  deriving DecidableEq

/-- A far jump or call to a selector at the level `cpl`, without a local table. -/
def farTo (gdt : Mem) (last cpl sel : ℕ) : Far :=
  let s := readSegment gdt (sel / 8)
  let rpl := sel % 4
  -- the null selector, and one of the local table
  if sel / 8 = 0 ∨ sel / 4 % 2 = 1 ∨ last < 8 * (sel / 8) + 7 ∨ ¬ s.present then .fault
  else if s.kind &&& 0x18 = 0x18 then
    if s.kind &&& 4 = 4 then (if s.dpl ≤ cpl then .stays else .fault)
    else if rpl ≤ cpl ∧ s.dpl = cpl then .stays
    else .fault
  else if s.kind &&& 0x10 = 0 ∧ max cpl rpl ≤ s.dpl then .passes
  else .fault

end LunariaOS.Lib
