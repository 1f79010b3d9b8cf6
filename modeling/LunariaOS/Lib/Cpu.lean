import LunariaOS.Lib.Mem

/-!
A 32-bit processor with a stack in memory, as far as entry code in assembly needs it.

The registers hold 32-bit words, and the memory is the one that the addresses of the code are about.
An interrupt from ring 3 changes to the stack that the task state segment names, and an `iretd` that
goes back to ring 3 changes back. `Top` says which words lie on the stack; what an instruction that
pushes or pops does to it is all that a proof about a piece of entry code needs.

The flags that no instruction here looks at are not kept apart: an arithmetic instruction leaves all
of them clear but the zero flag.
-/

namespace LunariaOS.Lib

/-- The general registers. -/
inductive Reg where
  | eax | ecx | edx | ebx | esp | ebp | esi | edi
  deriving DecidableEq

/-- The processor and the memory it sees. -/
@[ext] structure Cpu where
  reg : Reg → UInt32
  eip : UInt32
  cs : UInt32
  ss : UInt32
  eflags : UInt32
  cr2 : UInt32
  mem : Mem

namespace Cpu

variable (s : Cpu)

/-- Write a register. -/
def set (r : Reg) (v : UInt32) : Cpu := { s with reg := Function.update s.reg r v }

/-- The word at an address. -/
def ld (a : UInt32) : UInt32 := UInt32.ofNat (s.mem.ld32 a.toNat)

/-- Write the word at an address. -/
def st (a v : UInt32) : Cpu := { s with mem := s.mem.st32 a.toNat v.toNat }

def push (v : UInt32) : Cpu := (s.set .esp (s.reg .esp - 4)).st (s.reg .esp - 4) v

/-- What a pop leaves. The word it gives is `s.ld (s.reg .esp)`. -/
def drop : Cpu := s.set .esp (s.reg .esp + 4)

/-- Pop into a register. -/
def pop (r : Reg) : Cpu := (s.drop).set r (s.ld (s.reg .esp))

def pushad : Cpu :=
  (((((((s.push (s.reg .eax)).push (s.reg .ecx)).push (s.reg .edx)).push (s.reg .ebx)).push
    (s.reg .esp)).push (s.reg .ebp)).push (s.reg .esi)).push (s.reg .edi)

/-- `popad` throws the saved stack pointer away. -/
def popad : Cpu :=
  (((((((s.pop .edi).pop .esi).pop .ebp).drop).pop .ebx).pop .edx).pop .ecx).pop .eax

/-- The zero flag. -/
def zf : Bool := s.eflags &&& 0x40 ≠ 0

/-- The flags after an arithmetic instruction with the result `v`. -/
def setFlags (v : UInt32) : Cpu :=
  { s with eflags := (s.eflags &&& 0xFFFFF72A) ||| (if v = 0 then 0x40 else 0) }

/-- The privilege level. -/
def cpl : UInt32 := s.cs &&& 3

/-- `iretd`. -/
def iret : Cpu :=
  let t := ((s.drop).drop).drop
  let cs := s.drop.ld (s.drop.reg .esp)
  let t' : Cpu := { t with
    eip := s.ld (s.reg .esp)
    cs := cs
    eflags := (s.drop.drop).ld (s.drop.drop.reg .esp) }
  if s.cpl < cs &&& 3 then
    { t' with
      reg := Function.update t.reg .esp (t.ld (t.reg .esp))
      ss := t.drop.ld (t.drop.reg .esp) }
  else t'

end Cpu

/-- The instructions. The jumps go forward, over the next `k` instructions. A `call` is given what the
function that it calls does: the state when it has returned, if it does. -/
inductive Instr where
  | mov (d r : Reg)
  | load (d b : Reg) (n : UInt32)
  | store (b : Reg) (n : UInt32) (r : Reg)
  | storeAt (a : UInt32) (r : Reg)
  | storeImm (a n : UInt32)
  | orTop (n : UInt32)
  | movCr2 (d : Reg)
  | lea (d b : Reg) (n : UInt32)
  | push (r : Reg)
  | pushImm (n : UInt32)
  | pushfd
  | pushad
  | popad
  | add (d : Reg) (n : UInt32)
  | xor (d r : Reg)
  | test (d r : Reg)
  | jz (k : ℕ)
  | jnz (k : ℕ)
  | call (back : UInt32) (f : Cpu → Option Cpu)
  | cli
  | hlt
  | ret
  | jmp (r : Reg)
  | iretd

/-- An instruction that goes on to the next one. -/
def Cpu.step (s : Cpu) : Instr → Cpu
  | .mov d r => s.set d (s.reg r)
  | .load d b n => s.set d (s.ld (s.reg b + n))
  | .store b n r => s.st (s.reg b + n) (s.reg r)
  | .storeAt a r => s.st a (s.reg r)
  | .storeImm a n => s.st a n
  | .orTop n => (s.st (s.reg .esp) (s.ld (s.reg .esp) ||| n)).setFlags (s.ld (s.reg .esp) ||| n)
  | .movCr2 d => s.set d s.cr2
  | .lea d b n => s.set d (s.reg b + n)
  | .push r => s.push (s.reg r)
  | .pushImm n => s.push n
  | .pushfd => s.push s.eflags
  | .pushad => s.pushad
  | .popad => s.popad
  | .add d n => (s.set d (s.reg d + n)).setFlags (s.reg d + n)
  | .xor d r => (s.set d (s.reg d ^^^ s.reg r)).setFlags (s.reg d ^^^ s.reg r)
  | .test d r => s.setFlags (s.reg d &&& s.reg r)
  | .cli => { s with eflags := s.eflags &&& 0xFFFFFDFF }
  | _ => s

/-- Execute a piece of code that ends in a jump out of it, from behind its first `k` instructions on.
There is no state after it when the processor is stopped in it or a function does not return. -/
def exec : List Instr → ℕ → Cpu → Option Cpu
  | [], _, _ => none
  | _ :: l, k + 1, s => exec l k s
  | .jz k :: l, 0, s => exec l (if s.zf then k else 0) s
  | .jnz k :: l, 0, s => exec l (if s.zf then 0 else k) s
  | .call back f :: l, 0, s => (f (s.push back)).bind fun s => exec l 0 s
  | .hlt :: _, 0, _ => none
  | .ret :: _, 0, s => some { s.drop with eip := s.ld (s.reg .esp) }
  | .jmp r :: _, 0, s => some { s with eip := s.reg r }
  | .iretd :: _, 0, s => some s.iret
  | i :: l, 0, s => exec l 0 (s.step i)

/-- The instructions that go on to the next one. -/
def Instr.goesOn : Instr → Bool
  | .jz _ | .jnz _ | .call _ _ | .hlt | .ret | .jmp _ | .iretd => false
  | _ => true

/-- Instructions that are executed one after the other. -/
lemma exec_append {l : List Instr} (hl : ∀ i ∈ l, i.goesOn) (rest : List Instr) (s : Cpu) :
    exec (l ++ rest) 0 s = exec rest 0 (l.foldl Cpu.step s) := by
  induction l generalizing s with
  | nil => rfl
  | cons i l ih =>
    rw [List.foldl_cons, ← ih (fun j hj => hl j (List.mem_cons_of_mem _ hj))]
    have hi := hl i List.mem_cons_self
    cases i <;> first | rfl | exact absurd hi Bool.false_ne_true

/-- An entry of the interrupt table: the code segment, the first instruction, and whether interrupts
stay enabled. -/
structure Gate where
  cs : UInt32
  eip : UInt32
  trap : Bool

/-- The stack on which an interrupt from ring 3 is taken. -/
structure Tss where
  esp0 : UInt32
  ss0 : UInt32

/-- The processor takes an interrupt, a trap or a fault through a gate to ring 0. A fault may push an
error code. -/
def Cpu.enter (s : Cpu) (tss : Tss) (g : Gate) (code : Option UInt32) : Cpu :=
  let t : Cpu :=
    if s.cpl = 0 then s
    else (({ s.set .esp tss.esp0 with ss := tss.ss0 } : Cpu).push s.ss).push (s.reg .esp)
  let t := ((t.push s.eflags).push s.cs).push s.eip
  let t := match code with
    | none => t
    | some c => t.push c
  { t with cs := g.cs, eip := g.eip, eflags := if g.trap then s.eflags else s.eflags &&& 0xFFFFFDFF }

/-! ### Words on the stack -/

/-- The words of a list lie in memory from `a` on. -/
def Stacked (m : Mem) : ℕ → List UInt32 → Prop
  | _, [] => True
  | a, v :: l => m.ld32 a = v.toNat ∧ Stacked m (a + 4) l

lemma Stacked.congr {m m' : Mem} {a : ℕ} {l : List UInt32} (h : Stacked m a l)
    (hm : ∀ x, a ≤ x → x < a + 4 * l.length → m' x = m x) : Stacked m' a l := by
  induction l generalizing a with
  | nil => trivial
  | cons v l ih =>
    rw [List.length_cons] at hm
    refine ⟨?_, ih h.2 fun x h1 h2 => hm x (by omega) (by omega)⟩
    rw [← h.1]
    exact Mem.ld32_congr fun x h1 h2 => hm x h1 (by omega)

lemma Stacked.append {m : Mem} {a : ℕ} {l l' : List UInt32} :
    Stacked m a (l ++ l') ↔ Stacked m a l ∧ Stacked m (a + 4 * l.length) l' := by
  induction l generalizing a with
  | nil => simp [Stacked]
  | cons v l ih =>
    rw [List.cons_append, Stacked, Stacked, ih, and_assoc, List.length_cons]
    ring_nf

/-- Store the words of a list from `a` on. -/
def Mem.store (m : Mem) (a : ℕ) : List UInt32 → Mem
  | [] => m
  | v :: l => (m.st32 a v.toNat).store (a + 4) l

lemma Mem.store_of_out (m : Mem) {a x : ℕ} (l : List UInt32) (h : x < a ∨ a + 4 * l.length ≤ x) :
    m.store a l x = m x := by
  induction l generalizing m a with
  | nil => rfl
  | cons v l ih =>
    rw [List.length_cons] at h
    exact (ih _ (by omega)).trans (m.st32_of_out _ (by omega))

lemma Mem.ld32_store_of_out (m : Mem) {a b : ℕ} (l : List UInt32)
    (h : b + 4 ≤ a ∨ a + 4 * l.length ≤ b) : (m.store a l).ld32 b = m.ld32 b :=
  Mem.ld32_congr fun x _ _ => m.store_of_out l (by omega)

lemma stacked_store (m : Mem) (a : ℕ) (l : List UInt32) : Stacked (m.store a l) a l := by
  induction l generalizing m a with
  | nil => trivial
  | cons v l ih =>
    refine ⟨?_, ih _ _⟩
    exact (Mem.ld32_store_of_out _ l (Or.inl le_rfl)).trans (Mem.ld32_st32 _ _ v.toNat_lt)

namespace Cpu

variable {s : Cpu}

@[simp] lemma set_same (r : Reg) (v : UInt32) : (s.set r v).reg r = v := Function.update_self ..

@[simp] lemma set_ne {r q : Reg} (v : UInt32) (h : q ≠ r) : (s.set r v).reg q = s.reg q :=
  Function.update_of_ne h ..

@[simp] lemma set_mem (r : Reg) (v : UInt32) : (s.set r v).mem = s.mem := rfl
@[simp] lemma st_reg (a v : UInt32) : (s.st a v).reg = s.reg := rfl
@[simp] lemma setFlags_reg (v : UInt32) : (s.setFlags v).reg = s.reg := rfl
@[simp] lemma drop_mem : s.drop.mem = s.mem := rfl
@[simp] lemma drop_esp : s.drop.reg .esp = s.reg .esp + 4 := set_same ..
@[simp] lemma push_esp (v : UInt32) : (s.push v).reg .esp = s.reg .esp - 4 := by simp [push]

@[simp] lemma drop_ne {r : Reg} (h : r ≠ .esp) : s.drop.reg r = s.reg r := set_ne _ h
@[simp] lemma push_ne (v : UInt32) {r : Reg} (h : r ≠ .esp) : (s.push v).reg r = s.reg r := set_ne _ h

@[simp] lemma pushad_esp : s.pushad.reg .esp = s.reg .esp - 32 := by
  simp only [pushad, push_esp]
  grind

@[simp] lemma pushad_ne {r : Reg} (h : r ≠ .esp) : s.pushad.reg r = s.reg r := by
  simp [pushad, h]

/-- The zero flag says whether the last result was zero. -/
lemma zf_setFlags (s : Cpu) (v : UInt32) : (s.setFlags v).zf = decide (v = 0) := by
  have hclear : s.eflags &&& 0xFFFFF72A &&& 0x40 = 0 := by
    rw [UInt32.and_assoc]
    exact UInt32.and_zero
  have hor : ∀ x y z : UInt32, (x ||| y) &&& z = x &&& z ||| y &&& z := fun _ _ _ =>
    UInt32.toBitVec_inj.1 BitVec.and_or_distrib_right
  by_cases hv : v = 0 <;> simp [zf, setFlags, hv, hor, hclear]

/-- The words of the list are on top of the stack, and there is room for `n` bytes below them. -/
structure Top (s : Cpu) (n : ℕ) (l : List UInt32) : Prop where
  words : Stacked s.mem (s.reg .esp).toNat l
  inside : (s.reg .esp).toNat + 4 * l.length < 4294967296
  free : n ≤ (s.reg .esp).toNat

variable {n : ℕ} {l : List UInt32} {v : UInt32}

lemma Top.of_eq {t : Cpu} (h : s.Top n l) (hm : t.mem = s.mem) (he : t.reg .esp = s.reg .esp) :
    t.Top n l := ⟨by rw [hm, he]; exact h.words, by rw [he]; exact h.inside, by rw [he]; exact h.free⟩

lemma Top.of_free (h : s.Top n l) {k : ℕ} (hk : k ≤ (s.reg .esp).toNat) : s.Top k l :=
  ⟨h.words, h.inside, hk⟩

lemma toNat_sub_four (h : 4 ≤ (s.reg .esp).toNat) :
    (s.reg .esp - 4).toNat = (s.reg .esp).toNat - 4 :=
  UInt32.toNat_sub_of_le _ _ (UInt32.le_iff_toNat_le.mpr h)

/-- What a push writes. -/
lemma push_mem (v : UInt32) (h : 4 ≤ (s.reg .esp).toNat) :
    (s.push v).mem = s.mem.st32 ((s.reg .esp).toNat - 4) v.toNat := by
  rw [← toNat_sub_four h]
  rfl

lemma Top.push (h : s.Top (n + 4) l) (v : UInt32) : (s.push v).Top n (v :: l) := by
  have hi := h.inside
  have hf := h.free
  have hroom : 4 ≤ (s.reg .esp).toNat := by omega
  constructor
  · rw [push_esp, toNat_sub_four hroom, push_mem v hroom]
    refine ⟨Mem.ld32_st32 _ _ v.toNat_lt, ?_⟩
    rw [Nat.sub_add_cancel hroom]
    exact h.words.congr fun x h1 _ => Mem.st32_of_out _ _ (by omega)
  · rw [push_esp, toNat_sub_four hroom, List.length_cons]
    omega
  · rw [push_esp, toNat_sub_four hroom]
    omega

lemma Top.top (h : s.Top n (v :: l)) : s.ld (s.reg .esp) = v := by
  unfold ld
  rw [h.words.1]
  exact UInt32.ofNat_toNat

lemma Top.esp_drop (h : s.Top n (v :: l)) : (s.drop.reg .esp).toNat = (s.reg .esp).toNat + 4 := by
  have hi := h.inside
  rw [List.length_cons] at hi
  have hadd : (s.reg .esp + 4).toNat = ((s.reg .esp).toNat + 4) % 4294967296 := UInt32.toNat_add ..
  rw [drop_esp, hadd]
  omega

lemma Top.drop (h : s.Top n (v :: l)) : s.drop.Top (n + 4) l := by
  have hi := h.inside
  have hf := h.free
  rw [List.length_cons] at hi
  refine ⟨?_, by rw [h.esp_drop]; omega, by rw [h.esp_drop]; omega⟩
  rw [h.esp_drop]
  exact h.words.2

lemma Top.pop (h : s.Top n (v :: l)) (r : Reg) : s.pop r = s.drop.set r v := by
  unfold Cpu.pop
  rw [h.top]

lemma Top.set (h : s.Top n l) {r : Reg} (hr : r ≠ .esp) (v : UInt32) : (s.set r v).Top n l :=
  h.of_eq rfl (set_ne v hr.symm)

lemma Top.pushad (h : s.Top (n + 32) l) :
    s.pushad.Top n (s.reg .edi :: s.reg .esi :: s.reg .ebp :: s.reg .esp :: s.reg .ebx ::
      s.reg .edx :: s.reg .ecx :: s.reg .eax :: l) :=
  (((((((h.push _).push _).push _).push _).push _).push _).push _).push _

/-- The registers that a `popad` leaves, for the words that it finds on the stack. -/
def popped (di si bp bx dx cx ax sp : UInt32) : Reg → UInt32
  | .edi => di
  | .esi => si
  | .ebp => bp
  | .ebx => bx
  | .edx => dx
  | .ecx => cx
  | .eax => ax
  | .esp => sp

lemma Top.popad {di si bp x bx dx cx ax : UInt32}
    (h : s.Top n (di :: si :: bp :: x :: bx :: dx :: cx :: ax :: l)) :
    s.popad = { s with reg := popped di si bp bx dx cx ax (s.reg .esp + 32) } ∧
      s.popad.Top (n + 32) l := by
  have h1 := h.drop.set (r := .edi) (by decide) di
  have h2 := h1.drop.set (r := .esi) (by decide) si
  have h3 := h2.drop.set (r := .ebp) (by decide) bp
  have h4 := h3.drop
  have h5 := h4.drop.set (r := .ebx) (by decide) bx
  have h6 := h5.drop.set (r := .edx) (by decide) dx
  have h7 := h6.drop.set (r := .ecx) (by decide) cx
  have h8 := h7.drop.set (r := .eax) (by decide) ax
  have hreg : s.popad = { s with reg := popped di si bp bx dx cx ax (s.reg .esp + 32) } := by
    unfold Cpu.popad
    rw [h.pop, h1.pop, h2.pop, h4.pop, h5.pop, h6.pop, h7.pop]
    refine Cpu.ext (funext fun r => ?_) rfl rfl rfl rfl rfl rfl
    cases r <;> simp [popped, UInt32.add_assoc]
  refine ⟨hreg, ?_⟩
  rw [hreg]
  exact h8.of_eq rfl (by simp [popped, UInt32.add_assoc])

lemma Top.orTop (h : s.Top n (v :: l)) (k : UInt32) : (s.step (.orTop k)).Top n ((v ||| k) :: l) := by
  have hmem : (s.step (.orTop k)).mem = s.mem.st32 (s.reg .esp).toNat (v ||| k).toNat := by
    rw [← h.top]
    rfl
  refine ⟨?_, h.inside, h.free⟩
  rw [hmem]
  exact ⟨Mem.ld32_st32 _ _ (v ||| k).toNat_lt,
    h.words.2.congr fun x h1 _ => Mem.st32_of_out _ _ (Or.inr h1)⟩

/-- An `iretd` to an outer ring takes the stack from the frame. -/
lemma Top.iret_outer {ip cs fl sp ss : UInt32} (h : s.Top n (ip :: cs :: fl :: sp :: ss :: l))
    (hcpl : s.cpl < cs &&& 3) :
    s.iret = { s with
      reg := Function.update s.reg .esp sp, eip := ip, cs := cs, ss := ss, eflags := fl } := by
  unfold Cpu.iret
  simp only [h.top, h.drop.top, h.drop.drop.top, h.drop.drop.drop.top, h.drop.drop.drop.drop.top,
    if_pos hcpl]
  refine Cpu.ext (funext fun r => ?_) rfl rfl rfl rfl rfl rfl
  by_cases hr : r = .esp
  · subst hr
    simp
  · simp [Function.update_of_ne hr, drop_ne hr]

/-- An `iretd` inside a ring goes on on the stack that is there. -/
lemma Top.iret_same {ip cs fl : UInt32} (h : s.Top n (ip :: cs :: fl :: l))
    (hcpl : ¬ s.cpl < cs &&& 3) :
    s.iret = { s with
      reg := Function.update s.reg .esp (s.reg .esp + 12), eip := ip, cs := cs, eflags := fl } := by
  unfold Cpu.iret
  simp only [h.top, h.drop.top, h.drop.drop.top, if_neg hcpl]
  refine Cpu.ext (funext fun r => ?_) rfl rfl rfl rfl rfl rfl
  by_cases hr : r = .esp
  · subst hr
    simp [UInt32.add_assoc]
  · simp [Function.update_of_ne hr, drop_ne hr]

/-- What the entry code finds when a program in an outer ring is interrupted. -/
lemma enter_outer {T : Tss} {g : Gate} (hcpl : s.cpl ≠ 0) (h : n + 20 ≤ T.esp0.toNat) :
    (s.enter T g none).Top n [s.eip, s.cs, s.eflags, s.reg .esp, s.ss] := by
  have h0 : ({ s.set .esp T.esp0 with ss := T.ss0 } : Cpu).Top (n + 20) [] := by
    refine ⟨trivial, ?_, ?_⟩
    · simpa using T.esp0.toNat_lt
    · simpa using h
  have h1 := ((((h0.push s.ss).push (s.reg .esp)).push s.eflags).push s.cs).push s.eip
  unfold Cpu.enter
  rw [if_neg hcpl]
  exact h1.of_eq rfl rfl

/-- What the entry code finds when ring 0 itself is interrupted. -/
lemma enter_same {T : Tss} {g : Gate} (hcpl : s.cpl = 0) (h : s.Top (n + 12) l) :
    (s.enter T g none).Top n (s.eip :: s.cs :: s.eflags :: l) := by
  have h1 := ((h.push s.eflags).push s.cs).push s.eip
  unfold Cpu.enter
  rw [if_pos hcpl]
  exact h1.of_eq rfl rfl

lemma enter_ne (T : Tss) (g : Gate) {r : Reg} (h : r ≠ .esp) :
    (s.enter T g none).reg r = s.reg r := by
  unfold Cpu.enter
  split_ifs <;> simp [h]

lemma enter_outer_esp {T : Tss} {g : Gate} (hcpl : s.cpl ≠ 0) :
    (s.enter T g none).reg .esp = T.esp0 - 20 := by
  unfold Cpu.enter
  rw [if_neg hcpl]
  simp only [push_esp, set_same]
  grind

lemma enter_same_esp {T : Tss} {g : Gate} (hcpl : s.cpl = 0) :
    (s.enter T g none).reg .esp = s.reg .esp - 12 := by
  unfold Cpu.enter
  rw [if_pos hcpl]
  simp only [push_esp]
  grind

/-- A fault pushes its error code on top of the frame. -/
lemma enter_code (T : Tss) (g : Gate) (c : UInt32) :
    (s.enter T g (some c)).mem = ((s.enter T g none).push c).mem ∧
      (s.enter T g (some c)).reg = ((s.enter T g none).push c).reg := ⟨rfl, rfl⟩

/-- Words are taken off the stack by an addition. -/
lemma Top.add {w : List UInt32} (h : s.Top n (w ++ l)) :
    (s.step (.add .esp (UInt32.ofNat (4 * w.length)))).Top (n + 4 * w.length) l := by
  have hi := h.inside
  have hf := h.free
  rw [List.length_append] at hi
  have hesp : ((s.step (.add .esp (UInt32.ofNat (4 * w.length)))).reg .esp).toNat =
      (s.reg .esp).toNat + 4 * w.length := by
    have hreg : (s.step (.add .esp (UInt32.ofNat (4 * w.length)))).reg .esp =
        s.reg .esp + UInt32.ofNat (4 * w.length) := by simp [step]
    rw [hreg, UInt32.toNat_add, UInt32.toNat_ofNat']
    omega
  refine ⟨?_, by rw [hesp]; omega, by rw [hesp]; omega⟩
  rw [hesp]
  exact (Stacked.append.mp h.words).2

/-- The stack of `t` is `k` bytes longer than that of `s`, and what lies above it in `s` is in memory
still. -/
structure Grew (s t : Cpu) (k : ℕ) : Prop where
  esp : (t.reg .esp).toNat + k = (s.reg .esp).toNat
  above : ∀ x, (s.reg .esp).toNat ≤ x → t.mem x = s.mem x

variable {t : Cpu} {k : ℕ}

lemma Grew.push (h : s.Grew t k) (hk : k + 4 ≤ (s.reg .esp).toNat) (v : UInt32) :
    s.Grew (t.push v) (k + 4) := by
  have he := h.esp
  have hroom : 4 ≤ (t.reg .esp).toNat := by omega
  refine ⟨?_, fun x hx => ?_⟩
  · rw [push_esp, toNat_sub_four hroom]
    omega
  · rw [push_mem v hroom, Mem.st32_of_out _ _ (by omega)]
    exact h.above x hx

lemma Grew.set (h : s.Grew t k) {r : Reg} (hr : r ≠ .esp) (v : UInt32) : s.Grew (t.set r v) k :=
  ⟨by rw [set_ne v hr.symm]; exact h.esp, h.above⟩

lemma Grew.st (h : s.Grew t k) {a : UInt32} (ha : a.toNat + 4 ≤ (s.reg .esp).toNat) (v : UInt32) :
    s.Grew (t.st a v) k :=
  ⟨h.esp, fun x hx => (Mem.st32_of_out _ _ (by omega)).trans (h.above x hx)⟩

lemma Grew.pushad (h : s.Grew t k) (hk : k + 32 ≤ (s.reg .esp).toNat) :
    s.Grew t.pushad (k + 32) :=
  (((((((h.push (by omega) _).push (by omega) _).push (by omega) _).push (by omega) _).push
    (by omega) _).push (by omega) _).push (by omega) _).push (by omega) _

/-- By how much an instruction lengthens the stack, when it writes nothing else above the address
`low`. -/
def growth (low : ℕ) : Instr → Option ℕ
  | .mov d _ | .load d _ _ | .movCr2 d | .lea d _ _ => if d = .esp then none else some 0
  | .storeAt a _ | .storeImm a _ => if a.toNat + 4 ≤ low then some 0 else none
  | .push _ | .pushImm _ => some 4
  | .pushad => some 32
  | .cli => some 0
  | _ => none

lemma Grew.step {low j : ℕ} (h : s.Grew t k) {i : Instr} (hi : growth low i = some j)
    (hlow : low ≤ (s.reg .esp).toNat) (hk : k + j ≤ (s.reg .esp).toNat) :
    s.Grew (t.step i) (k + j) := by
  cases i <;> simp only [growth, Option.ite_none_left_eq_some, Option.ite_none_right_eq_some,
    Option.some.injEq, reduceCtorEq] at hi
  case mov => exact hi.2 ▸ h.set hi.1 _
  case load => exact hi.2 ▸ h.set hi.1 _
  case movCr2 => exact hi.2 ▸ h.set hi.1 _
  case lea => exact hi.2 ▸ h.set hi.1 _
  case storeAt => exact hi.2 ▸ h.st (by omega) _
  case storeImm => exact hi.2 ▸ h.st (by omega) _
  case push => subst hi; exact h.push hk _
  case pushImm => subst hi; exact h.push hk _
  case pushad => subst hi; exact h.pushad hk
  case cli => subst hi; exact ⟨h.esp, h.above⟩

/-- By how much a list of instructions lengthens the stack. -/
def growths (low : ℕ) (l : List Instr) : Option ℕ :=
  l.foldr (fun i n => (growth low i).bind fun k => n.map (k + ·)) (some 0)

lemma Grew.foldl {low : ℕ} {l : List Instr} {j : ℕ} (hl : growths low l = some j) (h : s.Grew t k)
    (hlow : low ≤ (s.reg .esp).toNat) (hk : k + j ≤ (s.reg .esp).toNat) :
    s.Grew (l.foldl Cpu.step t) (k + j) := by
  induction l generalizing t k j with
  | nil =>
    obtain rfl := Option.some.inj hl
    exact h
  | cons i l ih =>
    obtain ⟨m, hm, hj⟩ := Option.bind_eq_some_iff.mp hl
    obtain ⟨j', hj', rfl⟩ := Option.map_eq_some_iff.mp hj
    rw [← Nat.add_assoc]
    exact ih hj' (h.step hm hlow (by omega)) (by omega)

/-- An interrupt of a program writes below the end of the stack of the kernel only. -/
lemma enter_outer_above {T : Tss} (g : Gate) (code : Option UInt32) (hcpl : s.cpl ≠ 0)
    (hroom : 24 ≤ T.esp0.toNat) :
    ∃ k ≤ 24, (s.set .esp T.esp0).Grew (s.enter T g code) k := by
  have h0 : (s.set .esp T.esp0).Grew ({ s.set .esp T.esp0 with ss := T.ss0 } : Cpu) 0 :=
    ⟨rfl, fun _ _ => rfl⟩
  have hesp : ((s.set .esp T.esp0).reg .esp).toNat = T.esp0.toNat := by rw [set_same]
  have h5 := ((((h0.push (by omega) s.ss).push (by omega) (s.reg .esp)).push (by omega)
    s.eflags).push (by omega) s.cs).push (by omega) s.eip
  unfold Cpu.enter
  rw [if_neg hcpl]
  cases code with
  | none => exact ⟨20, by omega, h5.esp, h5.above⟩
  | some c =>
    have h6 := h5.push (by omega) c
    exact ⟨24, le_rfl, h6.esp, h6.above⟩

end Cpu

/-! ### Calls -/

/-- The words that lie in memory from `a` on. -/
def wordsAt (m : Mem) : ℕ → ℕ → List UInt32
  | _, 0 => []
  | a, k + 1 => UInt32.ofNat (m.ld32 a) :: wordsAt m (a + 4) k

lemma wordsAt_length (m : Mem) (a k : ℕ) : (wordsAt m a k).length = k := by
  induction k generalizing a with
  | zero => rfl
  | succ k ih => simp [wordsAt, ih]

lemma stacked_wordsAt (m : Mem) (a k : ℕ) : Stacked m a (wordsAt m a k) := by
  induction k generalizing a with
  | zero => trivial
  | succ k ih =>
    refine ⟨?_, ih _⟩
    rw [UInt32.toNat_ofNat', Nat.mod_eq_of_lt (m.ld32_lt a)]

lemma wordsAt_getElem? (m : Mem) (a : ℕ) {k j : ℕ} (hj : j < k) :
    (wordsAt m a k)[j]? = some (UInt32.ofNat (m.ld32 (a + 4 * j))) := by
  induction k generalizing a j with
  | zero => omega
  | succ k ih =>
    cases j with
    | zero => rfl
    | succ j =>
      rw [wordsAt, List.getElem?_cons_succ, ih _ (by omega)]
      ring_nf

lemma Stacked.getElem? {m : Mem} {a : ℕ} {l : List UInt32} (h : Stacked m a l) {j : ℕ}
    (hj : j < l.length) : l[j]? = some (UInt32.ofNat (m.ld32 (a + 4 * j))) := by
  induction l generalizing a j with
  | nil => exact absurd hj (Nat.not_lt_zero _)
  | cons v l ih =>
    cases j with
    | zero =>
      rw [Nat.mul_zero, Nat.add_zero, h.1, UInt32.ofNat_toNat]
      rfl
    | succ j =>
      rw [List.getElem?_cons_succ, ih h.2 (by simpa using hj)]
      ring_nf

/-- The word number `i` of the stack. -/
lemma Cpu.Top.ld {s : Cpu} {n : ℕ} {l : List UInt32} (h : s.Top n l) (i : ℕ) {v : UInt32}
    (hi : l[i]? = some v) : s.ld (s.reg .esp + UInt32.ofNat (4 * i)) = v := by
  have hin := h.inside
  obtain ⟨hlt, -⟩ := List.getElem?_eq_some_iff.mp hi
  have hadd : (s.reg .esp + UInt32.ofNat (4 * i)).toNat = (s.reg .esp).toNat + 4 * i := by
    rw [UInt32.toNat_add, UInt32.toNat_ofNat']
    omega
  unfold Cpu.ld
  rw [hadd]
  exact Option.some.inj ((h.words.getElem? hlt).symm.trans hi)

/-- A load of the word number `i`. -/
lemma Cpu.Top.load {s : Cpu} {n : ℕ} {l : List UInt32} (h : s.Top n l) (i : ℕ) {v : UInt32}
    (hi : l[i]? = some v) (r : Reg) :
    s.step (.load r .esp (UInt32.ofNat (4 * i))) = s.set r v := by
  change s.set r (s.ld (s.reg .esp + UInt32.ofNat (4 * i))) = _
  rw [h.ld i hi]

/-- A register that has just been loaded is stored. -/
lemma Cpu.step_storeAt (s : Cpu) (r : Reg) (v a : UInt32) :
    (s.set r v).step (.storeAt a r) = (s.set r v).st a v := by
  change (s.set r v).st a ((s.set r v).reg r) = _
  rw [set_same]

/-- A store below the stack. -/
lemma Cpu.Top.st {s : Cpu} {n : ℕ} {l : List UInt32} (h : s.Top n l) {a : UInt32}
    (ha : a.toNat + 4 ≤ (s.reg .esp).toNat) (v : UInt32) : (s.st a v).Top n l :=
  ⟨h.words.congr fun _ h1 _ => Mem.st32_of_out _ _ (by omega), h.inside, h.free⟩

/-- A C function with `args` words of arguments has been called in the state `s` and has returned in
the state `t`, on a stack that ends at `top`. It has taken its return address off the stack and nothing
else, and of the words above its arguments it has written at most those that `may` numbers, to which it
has been given pointers. -/
structure Cdecl (top args : ℕ) (may : ℕ → Prop) (s t : Cpu) : Prop where
  esp : t.reg .esp = s.reg .esp + 4
  cs : t.cs = s.cs
  ss : t.ss = s.ss
  keeps : ∀ x, (s.reg .esp).toNat + 4 * (args + 1) ≤ x → x < top →
    ¬ may ((x - ((s.reg .esp).toNat + 4 * (args + 1))) / 4) → t.mem x = s.mem x

/-- A store through a pointer to the word number `k` above the arguments. -/
lemma Cdecl.st {top args : ℕ} {may : ℕ → Prop} {s t : Cpu} (h : Cdecl top args may s t) {k : ℕ}
    {a : UInt32} (ha : a.toNat = (s.reg .esp).toNat + 4 * (args + 1) + 4 * k) (v : UInt32) :
    Cdecl top args (fun j => may j ∨ j = k) s (t.st a v) := by
  refine ⟨h.esp, h.cs, h.ss, fun x h1 h2 h3 => ?_⟩
  rw [← h.keeps x h1 h2 fun hm => h3 (Or.inl hm)]
  refine Mem.st32_of_out _ _ ?_
  by_contra hx
  exact h3 (Or.inr (by omega))

/-- **What a call leaves on the stack.** -/
lemma Cdecl.returns {top args : ℕ} {may : ℕ → Prop} {s t : Cpu} (hf : Cdecl top args may s t) {n : ℕ}
    {back : UInt32} {w l : List UInt32} (h : s.Top n (back :: (w ++ l))) (hargs : w.length = args)
    (htop : (s.reg .esp).toNat + 4 * (args + 1 + l.length) ≤ top) :
    ∃ w' l', w'.length = args ∧ l'.length = l.length ∧ (∀ j, ¬ may j → l'[j]? = l[j]?) ∧
      (∀ j < l.length, l'[j]? =
        some (UInt32.ofNat (t.mem.ld32 ((s.reg .esp).toNat + 4 * (args + 1) + 4 * j)))) ∧
      t.Top (n + 4) (w' ++ l') := by
  have hi := h.inside
  have hfree := h.free
  simp only [List.length_cons, List.length_append] at hi
  have hesp : (t.reg .esp).toNat = (s.reg .esp).toNat + 4 := by
    rw [hf.esp, ← h.esp_drop, Cpu.drop_esp]
  have hbase : (t.reg .esp).toNat + 4 * args = (s.reg .esp).toNat + 4 * (args + 1) := by omega
  refine ⟨wordsAt t.mem (t.reg .esp).toNat args,
    wordsAt t.mem ((s.reg .esp).toNat + 4 * (args + 1)) l.length, wordsAt_length _ _ _,
    wordsAt_length _ _ _, fun j hj => ?_, fun j hj => wordsAt_getElem? _ _ hj, ?_⟩
  · by_cases hlt : j < l.length
    · have hold : Stacked s.mem ((s.reg .esp).toNat + 4 * (args + 1)) l := by
        have hall : Stacked s.mem (s.reg .esp).toNat ((back :: w) ++ l) := h.words
        have := (Stacked.append.mp hall).2
        rwa [List.length_cons, hargs] at this
      rw [wordsAt_getElem? _ _ hlt, hold.getElem? hlt]
      congr 2
      refine Mem.ld32_congr fun x h1 h2 => hf.keeps x (by omega) (by omega) ?_
      have : (x - ((s.reg .esp).toNat + 4 * (args + 1))) / 4 = j := by omega
      rwa [this]
    · rw [List.getElem?_eq_none (by rw [wordsAt_length]; omega),
        List.getElem?_eq_none (by omega)]
  · refine ⟨Stacked.append.mpr ⟨stacked_wordsAt _ _ _, ?_⟩, ?_, by omega⟩
    · rw [wordsAt_length, hbase]
      exact stacked_wordsAt _ _ _
    · rw [List.length_append, wordsAt_length, wordsAt_length]
      omega

end LunariaOS.Lib
