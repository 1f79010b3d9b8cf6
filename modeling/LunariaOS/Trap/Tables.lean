import LunariaOS.Lib.Descriptor
import LunariaOS.Trap.Session

/-!
The tables that `gdt.c` and `idt.c` fill.

`idt_init` makes a gate for every vector, and only that of the vector 0x80 is open to ring 3; every
segment of `gdt_init` covers all of the memory, and none is a way out of ring 3. So a program has one door
into the kernel.
-/

namespace LunariaOS.Trap

open LunariaOS.Lib

/-! ### `idt.c` -/

/-- `struct idt_entry`. -/
structure IdtEntry where
  offsetLow : ℕ
  selector : ℕ
  zero : UInt8
  typeAttr : UInt8
  offsetHigh : ℕ

/-- The bytes of an entry. -/
def IdtEntry.bytes (e : IdtEntry) : List UInt8 :=
  [leByte e.offsetLow 0, leByte e.offsetLow 1, leByte e.selector 0, leByte e.selector 1, e.zero,
    e.typeAttr, leByte e.offsetHigh 0, leByte e.offsetHigh 1]

/-- An entry of eight bytes in a table. -/
def putEntry (m : Mem) (i : ℕ) (l : List UInt8) : Mem := m.blit (8 * i) 8 fun k => l.getD k 0

/-- `set_gate`. -/
def setGate (idt : Mem) (vector addr dpl : ℕ) (trap : Bool) : Mem :=
  putEntry idt vector (IdtEntry.bytes
    { offsetLow := addr &&& 0xFFFF
      selector := 0x08
      zero := 0
      typeAttr := UInt8.ofNat ((if trap then 0x8F else 0x8E) ||| dpl <<< 5)
      offsetHigh := (addr >>> 16) &&& 0xFFFF })

/-- The addresses of the stubs of `isr.asm`. -/
structure Stubs where
  isrDummy : ℕ
  isr0x20 : ℕ
  isr0x21 : ℕ
  isrfault0x0D : ℕ
  isrfault0x0E : ℕ
  isr0x80 : ℕ

/-- The table after `idt_init`. -/
def idtInit (a : Stubs) (idt : Mem) : Mem :=
  let idt := (List.range 256).foldl (fun idt i => setGate idt i a.isrDummy 0 false) idt
  let idt := setGate idt 0x20 a.isr0x20 0 false
  let idt := setGate idt 0x21 a.isr0x21 0 false
  let idt := setGate idt 0x0D a.isrfault0x0D 0 false
  let idt := setGate idt 0x0E a.isrfault0x0E 0 false
  setGate idt 0x80 a.isr0x80 3 true

/-- `ptr.limit`. -/
def idtLimit : ℕ := 2047

/-- The stub of a vector. -/
def Stubs.of (a : Stubs) (v : ℕ) : ℕ :=
  if v = 0x80 then a.isr0x80
  else if v = 0x0E then a.isrfault0x0E
  else if v = 0x0D then a.isrfault0x0D
  else if v = 0x21 then a.isr0x21
  else if v = 0x20 then a.isr0x20
  else a.isrDummy

/-- The gate that `set_gate` stands for. -/
def gateOf (addr dpl : ℕ) (trap : Bool) : GateDesc :=
  ⟨kernelCode.toNat, addr, if trap then 0x0F else 0x0E, dpl, true⟩

section Idt

variable {m : Mem} {l : List UInt8} {i j : ℕ}

lemma putEntry_same (m : Mem) (l : List UInt8) (i : ℕ) {k : ℕ} (hk : k < 8) :
    putEntry m i l (8 * i + k) = l.getD k 0 := by
  unfold putEntry
  rw [Mem.blit_of_in _ _ (by omega) (by omega), Nat.add_sub_cancel_left]

lemma putEntry_ne (m : Mem) (l : List UInt8) (h : j ≠ i) {k : ℕ} (hk : k < 8) :
    putEntry m i l (8 * j + k) = m (8 * j + k) := by
  unfold putEntry
  rw [Mem.blit_of_out _ _ (by omega)]

/-- A gate lies in its eight bytes. -/
lemma readGate_congr {m m' : Mem} (h : ∀ k < 8, m' (8 * j + k) = m (8 * j + k)) :
    readGate m' j = readGate m j := by
  have h0 : m' (8 * j) = m (8 * j) := h 0 (by omega)
  unfold readGate Mem.ld16
  simp only [Nat.add_assoc, Nat.reduceAdd, h0, h 1 (by omega), h 2 (by omega), h 3 (by omega),
    h 5 (by omega), h 6 (by omega), h 7 (by omega)]

lemma readGate_ne (m : Mem) (l : List UInt8) (h : j ≠ i) :
    readGate (putEntry m i l) j = readGate m j :=
  readGate_congr fun _ hk => putEntry_ne m l h hk

/-- Two bytes are put together again. -/
lemma leByte_pair {v : ℕ} (hv : v < 65536) : (leByte v 0).toNat + 256 * (leByte v 1).toNat = v := by
  simp only [leByte_toNat, pow_zero, pow_one, Nat.div_one]
  omega

lemma access_gate (trap : Bool) {dpl : ℕ} (h : dpl < 4) :
    let b := UInt8.ofNat ((if trap then 0x8F else 0x8E) ||| dpl <<< 5)
    accessKind b = (if trap then 0x0F else 0x0E) ∧ accessDpl b = dpl ∧ accessPresent b = true := by
  cases trap <;> interval_cases dpl <;> decide

/-- **The processor reads the gate that `set_gate` has stored.** -/
lemma readGate_setGate (m : Mem) (v : ℕ) {addr dpl : ℕ} (trap : Bool) (haddr : addr < 4294967296)
    (hdpl : dpl < 4) : readGate (setGate m v addr dpl trap) v = gateOf addr dpl trap := by
  have hb : ∀ k < 8, setGate m v addr dpl trap (8 * v + k) = _ := fun k hk => putEntry_same m _ v hk
  have h0 : setGate m v addr dpl trap (8 * v) = _ := hb 0 (by omega)
  have hlow : addr &&& 0xFFFF = addr % 65536 := Nat.and_two_pow_sub_one_eq_mod addr 16
  have hhigh : (addr >>> 16) &&& 0xFFFF = addr / 65536 := by
    rw [Nat.and_two_pow_sub_one_eq_mod _ 16, Nat.shiftRight_eq_div_pow]
    omega
  obtain ⟨hkind, hlevel, hpresent⟩ := access_gate trap hdpl
  unfold readGate Mem.ld16 gateOf
  simp only [Nat.add_assoc, Nat.reduceAdd, h0, hb 1 (by omega), hb 2 (by omega), hb 3 (by omega),
    hb 5 (by omega), hb 6 (by omega), hb 7 (by omega), IdtEntry.bytes, List.getD_cons_zero,
    List.getD_cons_succ, hlow, hhigh, hkind, hlevel, hpresent]
  have hsel : (leByte 8 0).toNat + 256 * (leByte 8 1).toNat = kernelCode.toNat := leByte_pair (by omega)
  have hlo : (leByte (addr % 65536) 0).toNat + 256 * (leByte (addr % 65536) 1).toNat = addr % 65536 :=
    leByte_pair (by omega)
  have hhi : (leByte (addr / 65536) 0).toNat + 256 * (leByte (addr / 65536) 1).toNat = addr / 65536 :=
    leByte_pair (by omega)
  rw [hsel, hhi, ← Nat.add_assoc, hlo]
  congr 1
  omega

lemma readGate_set (m : Mem) (i v : ℕ) {addr dpl : ℕ} (trap : Bool) (haddr : addr < 4294967296)
    (hdpl : dpl < 4) : readGate (setGate m i addr dpl trap) v =
      if v = i then gateOf addr dpl trap else readGate m v := by
  split_ifs with h
  · subst h
    exact readGate_setGate m v trap haddr hdpl
  · exact readGate_ne m _ h

/-- The stubs lie in the memory. -/
structure Stubs.Ok (a : Stubs) : Prop where
  isrDummy : a.isrDummy < 4294967296
  isr0x20 : a.isr0x20 < 4294967296
  isr0x21 : a.isr0x21 < 4294967296
  isrfault0x0D : a.isrfault0x0D < 4294967296
  isrfault0x0E : a.isrfault0x0E < 4294967296
  isr0x80 : a.isr0x80 < 4294967296

variable {a : Stubs}

/-- The first loop of `idt_init`. -/
lemma readGate_loop (ha : a.Ok) (m : Mem) {n v : ℕ} (hv : v < n) :
    readGate ((List.range n).foldl (fun idt i => setGate idt i a.isrDummy 0 false) m) v =
      gateOf a.isrDummy 0 false := by
  induction n with
  | zero => omega
  | succ n ih =>
    rw [List.range_succ, List.foldl_append, List.foldl_cons, List.foldl_nil,
      readGate_set _ _ _ _ ha.isrDummy (by omega)]
    split_ifs with h
    · rfl
    · exact ih (by omega)

/-- **The gates after `idt_init`**: every vector has its stub, and one gate is open to ring 3. -/
theorem idt_gates (ha : a.Ok) (m : Mem) {v : ℕ} (hv : v < 256) :
    readGate (idtInit a m) v = gateOf (a.of v) (if v = 0x80 then 3 else 0) (v = 0x80) := by
  unfold idtInit Stubs.of
  dsimp only
  rw [readGate_set _ _ _ _ ha.isr0x80 (by omega), readGate_set _ _ _ _ ha.isrfault0x0E (by omega),
    readGate_set _ _ _ _ ha.isrfault0x0D (by omega), readGate_set _ _ _ _ ha.isr0x21 (by omega),
    readGate_set _ _ _ _ ha.isr0x20 (by omega), readGate_loop ha _ hv]
  by_cases h80 : v = 0x80
  · rw [if_pos h80, if_pos h80, if_pos h80, decide_eq_true h80]
  · rw [if_neg h80, if_neg h80, if_neg h80, decide_eq_false h80]
    split_ifs <;> rfl

end Idt

/-! ### `gdt.c` -/

/-- `struct gdt_entry`. -/
structure GdtEntry where
  limitLow : ℕ
  baseLow : ℕ
  baseMid : ℕ
  access : UInt8
  flagsLimitHigh : UInt8
  baseHigh : ℕ

def GdtEntry.bytes (e : GdtEntry) : List UInt8 :=
  [leByte e.limitLow 0, leByte e.limitLow 1, leByte e.baseLow 0, leByte e.baseLow 1, leByte e.baseMid 0,
    e.access, e.flagsLimitHigh, leByte e.baseHigh 0]

/-- `set_gdt_entry`. -/
def setGdtEntry (gdt : Mem) (index base limit : ℕ) (access flags : UInt8) : Mem :=
  putEntry gdt index (GdtEntry.bytes
    { limitLow := limit &&& 0xFFFF
      baseLow := base &&& 0xFFFF
      baseMid := (base >>> 16) &&& 0xFF
      access := access
      flagsLimitHigh := UInt8.ofNat (((limit >>> 16) &&& 0x0F) ||| (flags.toNat &&& 0xF0))
      baseHigh := (base >>> 24) &&& 0xFF })

/-- `sizeof(struct tss)`. -/
def tssSize : ℕ := 104

/-- The table after `gdt_init`; `t` is the address of `tss`. -/
def gdtInit (t : ℕ) (gdt : Mem) : Mem :=
  let gdt := setGdtEntry gdt 0 0 0 0 0
  let gdt := setGdtEntry gdt 1 0 0xFFFFF 0x9A 0xC0
  let gdt := setGdtEntry gdt 2 0 0xFFFFF 0x92 0xC0
  let gdt := setGdtEntry gdt 3 0 0xFFFFF 0xFA 0xC0
  let gdt := setGdtEntry gdt 4 0 0xFFFFF 0xF2 0xC0
  setGdtEntry gdt 5 t (tssSize - 1) 0x89 0x00

/-- `ptr.limit`. -/
def gdtLimit : ℕ := 47

/-- The segment that `set_gdt_entry` stands for. -/
def segmentOf (base limit : ℕ) (access flags : UInt8) : SegDesc :=
  ⟨base, limit, accessKind access, accessDpl access, accessPresent access, flags &&& 0x80 != 0,
    flags &&& 0x40 != 0⟩

section Gdt

variable {m : Mem}

/-- A mask of the byte that the flags share with the limit. -/
lemma and_shared (a f c : UInt8) :
    (a ||| (f &&& 0xF0)) &&& c = (a &&& c) ||| (f &&& (0xF0 &&& c)) := by
  rw [← UInt8.and_assoc]
  apply UInt8.toBitVec_inj.mp
  simp only [UInt8.toBitVec_and, UInt8.toBitVec_or]
  exact BitVec.and_or_distrib_right

/-- The byte that the flags share with the limit. -/
lemma flags_byte {a f : ℕ} (ha : a < 16) :
    let b := UInt8.ofNat (a ||| (f &&& 0xF0))
    b.toNat % 16 = a ∧ b &&& 0x80 = UInt8.ofNat f &&& 0x80 ∧ b &&& 0x40 = UInt8.ofNat f &&& 0x40 := by
  have hb : UInt8.ofNat (a ||| (f &&& 0xF0)) = UInt8.ofNat a ||| (UInt8.ofNat f &&& 0xF0) := by
    rw [UInt8.ofNat_or, UInt8.ofNat_and]
    rfl
  -- the limit takes the low half only
  have hlow : UInt8.ofNat a &&& 0x0F = UInt8.ofNat a ∧ UInt8.ofNat a &&& 0x80 = 0 ∧
      UInt8.ofNat a &&& 0x40 = 0 := by
    interval_cases a <;> decide
  dsimp only
  rw [hb]
  refine ⟨?_, ?_, ?_⟩
  · have hmod : ∀ x : UInt8, x.toNat % 16 = (x &&& 0x0F).toNat := fun x => by
      rw [UInt8.toNat_and]
      exact (Nat.and_two_pow_sub_one_eq_mod x.toNat 4).symm
    rw [hmod, and_shared, hlow.1, show (0xF0 : UInt8) &&& 0x0F = 0 by decide, UInt8.and_zero,
      UInt8.or_zero, UInt8.toNat_ofNat', Nat.mod_eq_of_lt (by omega)]
  · rw [and_shared, hlow.2.1, UInt8.zero_or]
    rfl
  · rw [and_shared, hlow.2.2, UInt8.zero_or]
    rfl

/-- **The processor reads the segment that `set_gdt_entry` has stored.** -/
lemma readSegment_setGdtEntry (m : Mem) (i : ℕ) {base limit : ℕ} (access flags : UInt8)
    (hbase : base < 4294967296) (hlimit : limit < 1048576) :
    readSegment (setGdtEntry m i base limit access flags) i = segmentOf base limit access flags := by
  have hb : ∀ k < 8, setGdtEntry m i base limit access flags (8 * i + k) = _ :=
    fun k hk => putEntry_same m _ i hk
  have h0 : setGdtEntry m i base limit access flags (8 * i) = _ := hb 0 (by omega)
  have hlow : ∀ x, x &&& 0xFFFF = x % 65536 := fun x => Nat.and_two_pow_sub_one_eq_mod x 16
  have hbyte : ∀ x, x &&& 0xFF = x % 256 := fun x => Nat.and_two_pow_sub_one_eq_mod x 8
  have hhigh : (limit >>> 16) &&& 0x0F = limit / 65536 := by
    rw [Nat.and_two_pow_sub_one_eq_mod _ 4, Nat.shiftRight_eq_div_pow]
    omega
  obtain ⟨hmod, hpages, hwide⟩ := flags_byte (a := limit / 65536) (f := flags.toNat) (by omega)
  rw [UInt8.ofNat_toNat] at hpages hwide
  unfold readSegment Mem.ld16 segmentOf
  simp only [Nat.add_assoc, Nat.reduceAdd, h0, hb 1 (by omega), hb 2 (by omega), hb 3 (by omega),
    hb 4 (by omega), hb 5 (by omega), hb 6 (by omega), hb 7 (by omega), GdtEntry.bytes,
    List.getD_cons_zero, List.getD_cons_succ, hlow, hbyte, hhigh, hmod, hpages, hwide]
  have hl : (leByte (limit % 65536) 0).toNat + 256 * (leByte (limit % 65536) 1).toNat = limit % 65536 :=
    leByte_pair (by omega)
  have hbl : (leByte (base % 65536) 0).toNat + 256 * (leByte (base % 65536) 1).toNat = base % 65536 :=
    leByte_pair (by omega)
  have hone : ∀ x, x < 256 → (leByte x 0).toNat = x := fun x hx => by
    rw [leByte_toNat, pow_zero, Nat.div_one, Nat.mod_eq_of_lt hx]
  rw [hone _ (Nat.mod_lt _ (by omega)), hone _ (Nat.mod_lt _ (by omega)), Nat.shiftRight_eq_div_pow,
    Nat.shiftRight_eq_div_pow]
  congr 1
  · omega
  · omega

lemma readSegment_ne (m : Mem) (l : List UInt8) {i j : ℕ} (h : j ≠ i) :
    readSegment (putEntry m i l) j = readSegment m j := by
  have hb : ∀ k < 8, putEntry m i l (8 * j + k) = m (8 * j + k) := fun k hk => putEntry_ne m l h hk
  have h0 : putEntry m i l (8 * j) = m (8 * j) := hb 0 (by omega)
  unfold readSegment Mem.ld16
  simp only [Nat.add_assoc, Nat.reduceAdd, h0, hb 1 (by omega), hb 2 (by omega), hb 3 (by omega),
    hb 4 (by omega), hb 5 (by omega), hb 6 (by omega), hb 7 (by omega)]

lemma readSegment_set (m : Mem) (i j : ℕ) {base limit : ℕ} (access flags : UInt8)
    (hbase : base < 4294967296) (hlimit : limit < 1048576) :
    readSegment (setGdtEntry m i base limit access flags) j =
      if j = i then segmentOf base limit access flags else readSegment m j := by
  split_ifs with h
  · subst h
    exact readSegment_setGdtEntry m j access flags hbase hlimit
  · exact readSegment_ne m _ h

/-- The segment number `j` after `gdt_init`. -/
def segmentAt (t j : ℕ) : SegDesc :=
  if j = 5 then segmentOf t (tssSize - 1) 0x89 0x00
  else if j = 4 then segmentOf 0 0xFFFFF 0xF2 0xC0
  else if j = 3 then segmentOf 0 0xFFFFF 0xFA 0xC0
  else if j = 2 then segmentOf 0 0xFFFFF 0x92 0xC0
  else if j = 1 then segmentOf 0 0xFFFFF 0x9A 0xC0
  else segmentOf 0 0 0 0

/-- **The segments after `gdt_init`.** -/
theorem gdt_segments {t : ℕ} (ht : t < 4294967296) (m : Mem) {j : ℕ} (hj : j < 6) :
    readSegment (gdtInit t m) j = segmentAt t j := by
  have hsize : tssSize - 1 < 1048576 := by decide
  unfold gdtInit segmentAt
  dsimp only
  rw [readSegment_set _ _ _ _ _ ht hsize, readSegment_set _ _ _ _ _ (by omega) (by omega),
    readSegment_set _ _ _ _ _ (by omega) (by omega), readSegment_set _ _ _ _ _ (by omega) (by omega),
    readSegment_set _ _ _ _ _ (by omega) (by omega), readSegment_set _ _ _ _ _ (by omega) (by omega)]
  split_ifs
  · rfl
  · rfl
  · rfl
  · rfl
  · rfl
  · rfl
  · omega

/-- A segment of 2^20 pages. -/
lemma last_pages (access : UInt8) : (segmentOf 0 0xFFFFF access 0xC0).last = 4294967295 := by
  have hpages : (segmentOf 0 0xFFFFF access 0xC0).pages = true :=
    (by decide : ((0xC0 : UInt8) &&& 0x80 != 0) = true)
  have hlimit : (segmentOf 0 0xFFFFF access 0xC0).limit = 1048575 := rfl
  unfold SegDesc.last
  rw [if_pos hpages, hlimit]

/-- The segments of code and data cover all of the memory. -/
theorem segments_flat {t : ℕ} (ht : t < 4294967296) (m : Mem) {j : ℕ} (h1 : 1 ≤ j) (h4 : j ≤ 4) :
    (readSegment (gdtInit t m) j).base = 0 ∧ (readSegment (gdtInit t m) j).last = 4294967295 := by
  have hflat : ∃ access, segmentAt t j = segmentOf 0 0xFFFFF access 0xC0 := by
    interval_cases j
    · exact ⟨0x9A, rfl⟩
    · exact ⟨0x92, rfl⟩
    · exact ⟨0xFA, rfl⟩
    · exact ⟨0xF2, rfl⟩
  obtain ⟨access, hseg⟩ := hflat
  rw [gdt_segments ht m (by omega), hseg]
  exact ⟨rfl, last_pages access⟩

/-- No far jump or call leaves ring 3. -/
lemma far_ring3 {t : ℕ} (ht : t < 4294967296) (m : Mem) (sel : ℕ) :
    farTo (gdtInit t m) gdtLimit 3 sel ≠ .passes := by
  unfold farTo
  dsimp only
  by_cases hlast : gdtLimit < 8 * (sel / 8) + 7
  · rw [if_pos (by simp [hlast])]
    exact fun h => by cases h
  · have hj : sel / 8 < 6 := by
      unfold gdtLimit at hlast
      omega
    rw [gdt_segments ht m hj]
    have hlevel : ¬ (segmentAt t (sel / 8)).kind &&& 0x10 = 0 ∨ (segmentAt t (sel / 8)).dpl = 0 := by
      generalize sel / 8 = j at hj
      interval_cases j
      · exact Or.inr rfl
      · exact Or.inr rfl
      · exact Or.inr rfl
      · exact Or.inl (by decide : ¬ accessKind 0xFA &&& 0x10 = 0)
      · exact Or.inl (by decide : ¬ accessKind 0xF2 &&& 0x10 = 0)
      · exact Or.inr rfl
    split_ifs with h1 h2 h3 h4 h5 h6
    · exact fun h => by cases h
    · exact fun h => by cases h
    · exact fun h => by cases h
    · exact fun h => by cases h
    · exact fun h => by cases h
    · rcases hlevel with h | h
      · exact absurd h6.1 h
      · have := h6.2
        omega
    · exact fun h => by cases h

end Gdt

/-! ### The door -/

section Door

variable {a : Stubs} {t : ℕ}

/-- The gate as it is taken. -/
def gateTaken (g : GateDesc) : Gate :=
  ⟨UInt32.ofNat g.selector, UInt32.ofNat g.offset, g.kind == 0x0F⟩

/-- **A program has one door into the kernel**: of all software interrupts only `int 0x80` is taken in
ring 3, and to `isr0x80`; no far jump or call leaves ring 3. The gates of the other vectors are those of
their stubs. -/
theorem one_door (ha : a.Ok) (ht : t < 4294967296) (m g : Mem) :
    (∀ v < 256, softInt (idtInit a m) idtLimit 3 v =
      if v = 0x80 then some (gateOf a.isr0x80 3 true) else none) ∧
    (∀ sel, farTo (gdtInit t g) gdtLimit 3 sel ≠ .passes) ∧
    (∀ v < 256, v ≠ 0x80 → gateTaken (readGate (idtInit a m) v) = gate (UInt32.ofNat (a.of v))) := by
  refine ⟨fun v hv => ?_, far_ring3 ht g, fun v hv h80 => ?_⟩
  · unfold softInt
    rw [idt_gates ha m hv]
    have hlast : 8 * v + 7 ≤ idtLimit := by
      unfold idtLimit
      omega
    by_cases h80 : v = 0x80
    · subst h80
      rfl
    · rw [if_neg h80, if_neg h80]
      exact if_neg fun h => absurd (h.2.2 : 3 ≤ 0) (by decide)
  · rw [idt_gates ha m hv, if_neg h80, decide_eq_false h80]
    rfl

theorem one_door_low :
    (∀ v < 256, softInt (idtInit ⟨1, 2, 3, 4, 5, 6⟩ fun _ => 0) idtLimit 3 v =
      if v = 0x80 then some (gateOf 6 3 true) else none) ∧
    (∀ sel, farTo (gdtInit 7 fun _ => 0) gdtLimit 3 sel ≠ .passes) ∧
    (∀ v < 256, v ≠ 0x80 → gateTaken (readGate (idtInit ⟨1, 2, 3, 4, 5, 6⟩ fun _ => 0) v) =
      gate (UInt32.ofNat (Stubs.of ⟨1, 2, 3, 4, 5, 6⟩ v))) :=
  one_door ⟨by decide, by decide, by decide, by decide, by decide, by decide⟩ (by decide) _ _

end Door

end LunariaOS.Trap
