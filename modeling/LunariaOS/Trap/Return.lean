import LunariaOS.Trap.Code

/-!
What an interrupted program notices.

The entry code builds the frame, calls C and takes the frame off again. The C functions keep to the
calling convention: they may change their arguments and, for a system call, the words that they are
handed pointers to. Everything else of the frame is as it was, so that `popad` and `iretd` load what
was saved.
-/

namespace LunariaOS.Trap

open LunariaOS.Lib

/-! ### The way out -/

/-- The end of the entry code: the arguments are dropped, and the frame is loaded. -/
lemma exec_tail {t : Cpu} {n : ℕ} {as l : List UInt32} {di si bp x bx dx cx ax ip cs fl k : UInt32}
    (h : t.Top n (as ++ di :: si :: bp :: x :: bx :: dx :: cx :: ax :: ip :: cs :: fl :: l))
    (hk : k = UInt32.ofNat (4 * as.length)) :
    ∃ u : Cpu, exec [.add .esp k, .popad, .iretd] 0 t = some u.iret ∧
      u.Top (n + 4 * as.length + 32) (ip :: cs :: fl :: l) ∧ u.cs = t.cs ∧ u.mem = t.mem ∧
      u.cr2 = t.cr2 ∧ u.ss = t.ss ∧
      u.reg = Cpu.popped di si bp bx dx cx ax (t.reg .esp + k + 32) := by
  subst hk
  obtain ⟨hpop, htop⟩ := h.add.popad
  refine ⟨(t.step (.add .esp (UInt32.ofNat (4 * as.length)))).popad, rfl, htop, ?_⟩
  rw [hpop]
  refine ⟨rfl, rfl, rfl, rfl, ?_⟩
  simp [Cpu.step]

/-- The state in which `isr_common_handler` is entered. -/
def isrEntry (v back : UInt32) (s : Cpu) : Cpu := (s.pushad.push v).push back

lemma exec_isr (v back : UInt32) (f : Cpu → Option Cpu) (s : Cpu) :
    exec (isr v back f) 0 s =
      (f (isrEntry v back s)).bind fun t => exec [.add .esp 4, .popad, .iretd] 0 t := rfl

/-- The state in which `syscall_handler` is entered. -/
def syscallEntry (back : UInt32) (s : Cpu) : Cpu :=
  let t := (s.pushad.set .eax (s.pushad.reg .esp)).set .edx (s.pushad.reg .esp + 32)
  ((t.push (s.pushad.reg .esp + 32)).push (s.pushad.reg .esp)).push back

lemma exec_isr0x80 (back : UInt32) (f : Cpu → Option Cpu) (s : Cpu) :
    exec (isr0x80 back f) 0 s =
      (f (syscallEntry back s)).bind fun t => exec [.add .esp 8, .popad, .iretd] 0 t := by
  unfold isr0x80
  simp only [exec, Cpu.step]
  congr 1

lemma cpl_ne {u : Cpu} (hu : 0 < u.cs &&& 3) : u.cpl ≠ 0 := fun h => by
  rw [show u.cs &&& 3 = 0 from h] at hu
  exact absurd hu (by decide)

/-- The frame of a program is loaded. -/
lemma iret_user {u w : Cpu} {n : ℕ} (hu : 0 < u.cs &&& 3) (hw : w.cs = kernelCode)
    (h : w.Top n [u.eip, u.cs, u.eflags, u.reg .esp, u.ss])
    (hreg : ∀ r, r ≠ .esp → w.reg r = u.reg r) :
    w.iret = { u with mem := w.mem, cr2 := w.cr2 } := by
  have hcpl : w.cpl < u.cs &&& 3 := by
    unfold Cpu.cpl
    rw [hw]
    exact hu
  rw [h.iret_outer hcpl]
  exact Cpu.ext (Function.update_eq_iff.mpr ⟨rfl, hreg⟩) rfl rfl rfl rfl rfl rfl

/-- The frame of the kernel is loaded, and the words below it are on top of the stack again. -/
lemma iret_kernel {u w : Cpu} {l : List UInt32} {n k : ℕ} (hu : u.cpl = 0) (hss : w.ss = u.ss)
    (h : w.Top n (u.eip :: u.cs :: u.eflags :: l)) (hesp : w.reg .esp = u.reg .esp - 12)
    (hreg : ∀ r, r ≠ .esp → w.reg r = u.reg r) (hk : k ≤ (u.reg .esp).toNat) :
    w.iret = { u with mem := w.mem, cr2 := w.cr2 } ∧
      Cpu.Top { u with mem := w.mem, cr2 := w.cr2 } k l := by
  have hcpl : ¬ w.cpl < u.cs &&& 3 := by
    rw [show u.cs &&& 3 = 0 from hu]
    exact fun h => absurd h (by simp)
  have hback : w.reg .esp + 12 = u.reg .esp := by
    rw [hesp]
    grind
  refine ⟨?_, (h.drop.drop.drop.of_eq (t := { u with mem := w.mem, cr2 := w.cr2 }) rfl ?_).of_free hk⟩
  · rw [h.iret_same hcpl]
    exact Cpu.ext (Function.update_eq_iff.mpr ⟨hback, hreg⟩) rfl rfl hss rfl rfl rfl
  · simp only [Cpu.drop_esp, ← hback]
    grind

lemma enter_same_ss {u : Cpu} (g : Gate) (code : Option UInt32) (hu : u.cpl = 0) :
    (u.enter tss g code).ss = u.ss := by
  unfold Cpu.enter
  rw [if_pos hu]
  cases code <;> rfl

/-- A program that calls the system call `n`. -/
def calling (n : UInt32) : Cpu :=
  { reg := fun r => if r = .esp then 0x7FEFF0 else if r = .eax then n else 0
    eip := 0x400000
    cs := userCode
    ss := userData
    eflags := 0x202
    cr2 := 0
    mem := fun _ => 0 }

/-- The kernel with nothing on its stack. -/
def idle : Cpu :=
  { calling 0 with
    reg := fun r => if r = .esp then 0x90000 else 0
    eip := 0x10000
    cs := kernelCode
    ss := kernelData }

/-- The kernel calls `enter_user(0x400000, 0x7FEFF0)`. -/
def starting : Cpu :=
  { idle with
    reg := fun r => if r = .esp then 0x8FF00 else 0
    mem := Mem.store (fun _ => 0) 0x8FF00 [0x10000, 0x400000, 0x7FEFF0] }

lemma starting_top {n : ℕ} (hn : n ≤ 0x8FF00) : starting.Top n [0x10000, 0x400000, 0x7FEFF0] :=
  ⟨stacked_store _ _ _, by decide, hn⟩

/-- A function that leaves a value in a register keeps to the calling convention. -/
lemma cdecl_set (args : ℕ) (s : Cpu) {r : Reg} (hr : r ≠ .esp) (v : UInt32) :
    Cdecl stackTop args (fun _ => False) s (s.drop.set r v) :=
  ⟨by rw [Cpu.set_ne _ hr.symm, Cpu.drop_esp], rfl, rfl, fun _ _ _ _ => rfl⟩

/-- A function that stores a word below the stack and leaves a value in a register does too. -/
lemma cdecl_store (args : ℕ) {s : Cpu} {a : UInt32} (ha : a.toNat + 4 ≤ (s.reg .esp).toNat) (v w : UInt32)
    {r : Reg} (hr : r ≠ .esp) :
    Cdecl stackTop args (fun _ => False) s ((s.drop.st a v).set r w) := by
  refine ⟨?_, rfl, rfl, fun x h1 _ _ => Mem.st32_of_out _ _ (by omega)⟩
  rw [Cpu.set_ne _ hr.symm]
  exact Cpu.drop_esp

section Isr

variable {f : Cpu → Option Cpu} {e : Cpu}

/-- The state before the `iretd` of an interrupt. -/
lemma isr_frame {n : ℕ} {l : List UInt32} {ip cs fl : UInt32} (v back : UInt32)
    (h : e.Top (n + 40) (ip :: cs :: fl :: l))
    (htop : (e.reg .esp).toNat + 4 * (l.length + 3) ≤ stackTop) {t : Cpu}
    (hst : f (isrEntry v back e) = some t) (hf : Cdecl stackTop 1 (fun _ => False) (isrEntry v back e) t) :
    ∃ u : Cpu, exec (isr v back f) 0 e = some u.iret ∧ u.Top (n + 40) (ip :: cs :: fl :: l) ∧
      u.cs = e.cs ∧ u.mem = t.mem ∧ u.cr2 = t.cr2 ∧ u.ss = e.ss ∧ u.reg = e.reg := by
  have hfree := h.free
  have hin := ((h.pushad (n := n + 8)).push v).push back
  have hesp : (isrEntry v back e).reg .esp = e.reg .esp - 40 := by
    simp only [isrEntry, Cpu.push_esp, Cpu.pushad_esp]
    grind
  have hbelow : (e.reg .esp - 40).toNat = (e.reg .esp).toNat - 40 :=
    UInt32.toNat_sub_of_le _ _ (UInt32.le_iff_toNat_le.mpr (by change 40 ≤ _; omega))
  obtain ⟨as, l', has, hlen, hsame, -, hout⟩ := hf.returns (w := [v]) hin rfl
    (by rw [hesp, hbelow]
        simp only [List.length_cons]
        omega)
  have hl' := List.ext_getElem? (fun j => hsame j not_false)
  subst hl'
  obtain ⟨u, h1, h2, h3, h4, h5, h6, h7⟩ := exec_tail (k := 4) hout (by rw [has]; rfl)
  have hreg : u.reg = e.reg := by
    rw [h7, hf.esp, hesp]
    funext r
    cases r
    case esp =>
      simp only [Cpu.popped]
      grind
    all_goals rfl
  refine ⟨u, ?_, h2.of_free ?_, ?_, h4, h5, ?_, hreg⟩
  · rw [exec_isr, hst]
    exact h1
  · rw [hreg]
    exact hfree
  · rw [h3, hf.cs]
    rfl
  · rw [h6, hf.ss]
    rfl

/-- **A program that is interrupted does not notice.** Whatever the handler does, the program goes on
with every register and flag as it was, on its own stack. -/
theorem isr_user {u : Cpu} (hu : 0 < u.cs &&& 3) (v back : UInt32) {g : Gate}
    (hg : g.cs = kernelCode)
    (hf : ∀ t, f (isrEntry v back (u.enter tss g none)) = some t →
      Cdecl stackTop 1 (fun _ => False) (isrEntry v back (u.enter tss g none)) t) :
    exec (isr v back f) 0 (u.enter tss g none) =
      (f (isrEntry v back (u.enter tss g none))).map fun t =>
        { u with mem := t.mem, cr2 := t.cr2 } := by
  have hcpl := cpl_ne hu
  cases hst : f (isrEntry v back (u.enter tss g none)) with
  | none => rw [exec_isr, hst]; rfl
  | some t =>
    have hesp : ((u.enter tss g none).reg .esp).toNat = 589804 := by
      rw [Cpu.enter_outer_esp hcpl]
      rfl
    obtain ⟨w, h1, h2, h3, h4, h5, -, h7⟩ := isr_frame (n := 0) v back
      (Cpu.enter_outer hcpl (by decide)) (by rw [hesp]; change 589804 + 4 * 5 ≤ 589824; decide) hst
      (hf t hst)
    rw [h1, iret_user hu (h3.trans hg) h2 fun r hr => by rw [h7, Cpu.enter_ne _ _ hr], h4, h5]
    rfl

/-- **The kernel that is interrupted does not notice** either, and the words on its stack stay. -/
theorem isr_kernel {u : Cpu} {l : List UInt32} (hu : u.cpl = 0) (h : u.Top 64 l)
    (htop : (u.reg .esp).toNat + 4 * l.length ≤ stackTop) (v back : UInt32) {g : Gate}
    {t : Cpu} (hst : f (isrEntry v back (u.enter tss g none)) = some t)
    (hf : Cdecl stackTop 1 (fun _ => False) (isrEntry v back (u.enter tss g none)) t) :
    exec (isr v back f) 0 (u.enter tss g none) = some { u with mem := t.mem, cr2 := t.cr2 } ∧
      Cpu.Top { u with mem := t.mem, cr2 := t.cr2 } 64 l := by
  have hfree := h.free
  have hesp : ((u.enter tss g none).reg .esp).toNat = (u.reg .esp).toNat - 12 := by
    rw [Cpu.enter_same_esp hu]
    exact UInt32.toNat_sub_of_le _ _ (UInt32.le_iff_toNat_le.mpr (by change 12 ≤ _; omega))
  obtain ⟨w, h1, h2, h3, h4, h5, h6, h7⟩ := isr_frame (n := 12) v back
    (Cpu.enter_same (n := 52) hu h) (by rw [hesp]; omega) hst hf
  obtain ⟨hback, hwords⟩ := iret_kernel hu (h6.trans (enter_same_ss g none hu)) h2
    (by rw [h7, Cpu.enter_same_esp hu]) (fun r hr => by rw [h7, Cpu.enter_ne _ _ hr]) hfree
  rw [h4, h5] at hback hwords
  exact ⟨by rw [h1, hback], hwords⟩

/-- A handler that counts the interrupts at `0x20000` and leaves 7 in `ecx`. -/
def tick (s : Cpu) : Option Cpu := some ((s.drop.st 0x20000 (s.ld 0x20000 + 1)).set .ecx 7)

theorem isr_kernel_starting :
    let s := isrEntry 0x20 0 (starting.enter tss ⟨kernelCode, 0, false⟩ none)
    exec (isr 0x20 0 tick) 0 (starting.enter tss ⟨kernelCode, 0, false⟩ none) =
        some { starting with mem := s.mem.st32 0x20000 (s.ld 0x20000 + 1).toNat } ∧
      Cpu.Top { starting with mem := s.mem.st32 0x20000 (s.ld 0x20000 + 1).toNat } 64
        [0x10000, 0x400000, 0x7FEFF0] :=
  isr_kernel (f := tick) rfl (starting_top (by decide)) (by decide) 0x20 0 rfl
    (cdecl_store 1 (by decide) _ 7 (by decide))

end Isr

/-! ### System calls -/

section Syscall

variable {f : Cpu → Option Cpu} {e : Cpu}

/-- The state before the `iretd` of a system call. The handler may have changed `r->eax`, `frame[0]`
and `frame[1]`. -/
lemma syscall_frame {n : ℕ} {l : List UInt32} {ip cs fl : UInt32} (back : UInt32) {may : ℕ → Prop}
    (hmay : ∀ j, may j → j = 7 ∨ j = 8 ∨ j = 9) (h : e.Top (n + 44) (ip :: cs :: fl :: l))
    (htop : (e.reg .esp).toNat + 4 * (l.length + 3) ≤ stackTop) {t : Cpu}
    (hst : f (syscallEntry back e) = some t) (hf : Cdecl stackTop 2 may (syscallEntry back e) t) :
    ∃ (u : Cpu) (ip' cs' : UInt32), exec (isr0x80 back f) 0 e = some u.iret ∧
      u.Top (n + 44) (ip' :: cs' :: fl :: l) ∧ u.cs = e.cs ∧ u.mem = t.mem ∧ u.cr2 = t.cr2 ∧
      u.ss = e.ss ∧
      u.reg = Function.update e.reg .eax (UInt32.ofNat (t.mem.ld32 ((e.reg .esp).toNat - 4))) ∧
      ip' = UInt32.ofNat (t.mem.ld32 (e.reg .esp).toNat) ∧
      cs' = UInt32.ofNat (t.mem.ld32 ((e.reg .esp).toNat + 4)) ∧
      (¬ may 7 → UInt32.ofNat (t.mem.ld32 ((e.reg .esp).toNat - 4)) = e.reg .eax) ∧
      (¬ may 8 → ip' = ip) ∧ (¬ may 9 → cs' = cs) := by
  have hfree := h.free
  have hpushed := h.pushad (n := n + 12)
  have hregs := (hpushed.set (r := .eax) (by decide) (e.pushad.reg .esp)).set (r := .edx) (by decide)
    (e.pushad.reg .esp + 32)
  have hin : (syscallEntry back e).Top n _ := ((hregs.push _).push _).push back
  have hesp : (syscallEntry back e).reg .esp = e.reg .esp - 44 := by
    unfold syscallEntry
    simp only [Cpu.push_esp, ne_eq, reduceCtorEq, not_false_eq_true, Cpu.set_ne, Cpu.pushad_esp]
    grind
  have hbelow : (e.reg .esp - 44).toNat = (e.reg .esp).toNat - 44 :=
    UInt32.toNat_sub_of_le _ _ (UInt32.le_iff_toNat_le.mpr (by change 44 ≤ _; omega))
  have hbase : ((syscallEntry back e).reg .esp).toNat + 4 * (2 + 1) = (e.reg .esp).toNat - 32 := by
    rw [hesp, hbelow]
    omega
  obtain ⟨as, l', has, hlen, hsame, hval, hout⟩ := hf.returns
    (w := [e.pushad.reg .esp, e.pushad.reg .esp + 32]) hin rfl
    (by rw [hesp, hbelow]
        simp only [List.length_cons]
        omega)
  rw [hbase] at hval
  have hkeep : ∀ j, j ≠ 7 → j ≠ 8 → j ≠ 9 → ¬ may j := fun j h7 h8 h9 hm => by
    rcases hmay j hm with h | h | h <;> omega
  -- the words that the handler has pointers to are what they are now, the others what they were
  have hl' : l' = e.reg .edi :: e.reg .esi :: e.reg .ebp :: e.reg .esp :: e.reg .ebx :: e.reg .edx ::
      e.reg .ecx :: UInt32.ofNat (t.mem.ld32 ((e.reg .esp).toNat - 4)) ::
      UInt32.ofNat (t.mem.ld32 (e.reg .esp).toNat) ::
      UInt32.ofNat (t.mem.ld32 ((e.reg .esp).toNat + 4)) :: fl :: l := by
    refine List.ext_getElem? fun j => ?_
    match j with
    | 7 =>
      rw [hval 7 (by simp), show (e.reg .esp).toNat - 32 + 4 * 7 = (e.reg .esp).toNat - 4 by omega]
      rfl
    | 8 =>
      rw [hval 8 (by simp), show (e.reg .esp).toNat - 32 + 4 * 8 = (e.reg .esp).toNat by omega]
      rfl
    | 9 =>
      rw [hval 9 (by simp), show (e.reg .esp).toNat - 32 + 4 * 9 = (e.reg .esp).toNat + 4 by omega]
      rfl
    | 0 | 1 | 2 | 3 | 4 | 5 | 6 => exact hsame _ (hkeep _ (by decide) (by decide) (by decide))
    | j + 10 => exact hsame _ (hkeep _ (by omega) (by omega) (by omega))
  have hax : ¬ may 7 → UInt32.ofNat (t.mem.ld32 ((e.reg .esp).toNat - 4)) = e.reg .eax := fun hm => by
    have h7 := hsame 7 hm
    rw [hl'] at h7
    exact Option.some.inj h7
  have hip : ¬ may 8 → UInt32.ofNat (t.mem.ld32 (e.reg .esp).toNat) = ip := fun hm => by
    have h8 := hsame 8 hm
    rw [hl'] at h8
    exact Option.some.inj h8
  have hcs : ¬ may 9 → UInt32.ofNat (t.mem.ld32 ((e.reg .esp).toNat + 4)) = cs := fun hm => by
    have h9 := hsame 9 hm
    rw [hl'] at h9
    exact Option.some.inj h9
  rw [hl'] at hout
  obtain ⟨u, h1, h2, h3, h4, h5, h6, h7⟩ := exec_tail (k := 8) hout (by rw [has]; rfl)
  have hreg : u.reg = Function.update e.reg .eax
      (UInt32.ofNat (t.mem.ld32 ((e.reg .esp).toNat - 4))) := by
    rw [h7, hf.esp, hesp]
    refine (Function.update_eq_iff.mpr ⟨rfl, fun r hr => ?_⟩).symm
    cases r
    case esp =>
      simp only [Cpu.popped]
      grind
    all_goals first | rfl | exact absurd rfl hr
  refine ⟨u, _, _, ?_, h2.of_free ?_, ?_, h4, h5, ?_, hreg, rfl, rfl, hax, hip, hcs⟩
  · rw [exec_isr0x80, hst]
    exact h1
  · rw [hreg, Function.update_of_ne (by decide)]
    exact hfree
  · rw [h3, hf.cs]
    rfl
  · rw [h6, hf.ss]
    rfl

/-- The state in which `syscall_handler` is entered by a program. -/
def callEntry (back : UInt32) (g : Gate) (u : Cpu) : Cpu := syscallEntry back (u.enter tss g none)

variable {u : Cpu} {back : UInt32} {g : Gate}

lemma enter_esp (hu : 0 < u.cs &&& 3) : u.cpl ≠ 0 ∧ (u.enter tss g none).reg .esp = 589804 := by
  exact ⟨cpl_ne hu, Cpu.enter_outer_esp (cpl_ne hu)⟩

/-- What `syscall_handler` finds on the stack: the return address, its two pointers, and what they point
to. -/
lemma callEntry_top (hu : 0 < u.cs &&& 3) :
    (callEntry back g u).Top 0 (back :: 589772 :: 589804 :: u.reg .edi :: u.reg .esi ::
      u.reg .ebp :: 589804 :: u.reg .ebx :: u.reg .edx :: u.reg .ecx :: u.reg .eax ::
      [u.eip, u.cs, u.eflags, u.reg .esp, u.ss]) ∧ (callEntry back g u).reg .esp = 589760 := by
  obtain ⟨hcpl, hesp⟩ := enter_esp (g := g) hu
  have hp : (u.enter tss g none).pushad.reg .esp = 589772 := by
    rw [Cpu.pushad_esp, hesp]
    rfl
  have h := (Cpu.enter_outer (n := 44) (g := g) (T := tss) hcpl (by decide)).pushad (n := 12)
  have h := (((h.set (r := .eax) (by decide) 589772).set (r := .edx) (by decide)
    589804).push 589804).push 589772
  have h := h.push back
  rw [hesp] at h
  simp only [Cpu.enter_ne, ne_eq, reduceCtorEq, not_false_eq_true] at h
  have hentry : callEntry back g u = ((((((u.enter tss g none).pushad.set .eax 589772).set .edx
      589804).push 589804).push 589772).push back) := by
    unfold callEntry syscallEntry
    rw [hp]
    rfl
  rw [hentry]
  refine ⟨h, ?_⟩
  simp only [Cpu.push_esp, ne_eq, reduceCtorEq, not_false_eq_true, Cpu.set_ne, hp]
  rfl

/-- The two pointers of `syscall_handler`, and the number of the call. -/
lemma callEntry_words (hu : 0 < u.cs &&& 3) :
    (callEntry back g u).ld ((callEntry back g u).reg .esp + 4) = 589772 ∧
      (callEntry back g u).ld ((callEntry back g u).reg .esp + 8) = 589804 ∧
      (callEntry back g u).ld (589772 + 28) = u.reg .eax := by
  obtain ⟨h, hesp⟩ := @callEntry_top u back g hu
  refine ⟨h.ld 1 rfl, h.ld 2 rfl, ?_⟩
  have := h.ld 10 rfl
  rwa [hesp] at this

/-- What `syscall_handler` does when a program has called it. -/
lemma syscallHandler_callEntry (hu : 0 < u.cs &&& 3) (exitTarget : UInt32)
    (body : Cpu → Option (UInt32 × Cpu)) :
    syscallHandler exitTarget body (callEntry back g u) =
      (body (callEntry back g u)).map fun (v, t) =>
        if u.reg .eax = 2 then (t.st 589804 exitTarget).st 589808 kernelCode
        else if returning (u.reg .eax) then t.st 589800 v
        else t := by
  obtain ⟨h1, h2, h3⟩ := @callEntry_words u back g hu
  unfold syscallHandler
  simp only [h1, h2, h3]
  rfl

/-- The rest of `syscall_handler` keeps to the calling convention when a program has called it. -/
def Obeys (body : Cpu → Option (UInt32 × Cpu)) (entry : Cpu) : Prop :=
  ∀ v t, body entry = some (v, t) → Cdecl stackTop 2 (fun _ => False) entry t

variable {body : Cpu → Option (UInt32 × Cpu)}

/-- **A system call changes `eax` only.** When the call is not the one that ends the program, the
program goes on behind it with every register as it was, but for the value of the call in `eax` when it
has one. -/
theorem syscall_returns (hu : 0 < u.cs &&& 3) (hn : u.reg .eax ≠ 2) (hg : g.cs = kernelCode)
    (exitTarget : UInt32) (hbody : Obeys body (callEntry back g u)) :
    exec (isr0x80 back (syscallHandler exitTarget body)) 0 (u.enter tss g none) =
      (body (callEntry back g u)).map fun (v, t) =>
        { u with
          reg := if returning (u.reg .eax) then Function.update u.reg .eax v else u.reg
          mem := if returning (u.reg .eax) then t.mem.st32 589800 v.toNat else t.mem
          cr2 := t.cr2 } := by
  obtain ⟨hcpl, hesp⟩ := enter_esp (g := g) hu
  have hesp' : ((u.enter tss g none).reg .esp).toNat = 589804 := by rw [hesp]; rfl
  have hcall := @syscallHandler_callEntry u back g hu exitTarget body
  simp only [if_neg hn] at hcall
  cases hb : body (callEntry back g u) with
  | none =>
    rw [exec_isr0x80, show syscallEntry back (u.enter tss g none) = callEntry back g u from rfl, hcall,
      hb]
    rfl
  | some vt =>
    obtain ⟨v, t⟩ := vt
    rw [hb, Option.map_some] at hcall
    dsimp only at hcall
    have hbase := (@callEntry_top u back g hu).2
    have hc := hbody v t hb
    have hc' : Cdecl stackTop 2 (fun j => returning (u.reg .eax) = true ∧ j = 7) (callEntry back g u)
        (if returning (u.reg .eax) then t.st 589800 v else t) := by
      split_ifs with hr
      · have h := hc.st (k := 7) (a := 589800) (by rw [hbase]; rfl) v
        exact ⟨h.esp, h.cs, h.ss, fun x h1 h2 h3 => h.keeps x h1 h2 fun hm =>
          h3 ⟨hr, hm.resolve_left id⟩⟩
      · exact ⟨hc.esp, hc.cs, hc.ss, fun x h1 h2 _ => hc.keeps x h1 h2 not_false⟩
    obtain ⟨w, ip, cs, h1, h2, h3, h4, h5, -, h7, -, -, hax, h8, h9⟩ := syscall_frame back
      (fun j hj => Or.inl hj.2) (Cpu.enter_outer (n := 44) hcpl (by decide))
      (by rw [hesp']; change 589804 + 4 * 5 ≤ 589824; decide) hcall hc'
    obtain rfl := h8 fun h => absurd h.2 (by decide)
    obtain rfl := h9 fun h => absurd h.2 (by decide)
    have hwcpl : w.cpl < u.cs &&& 3 := by
      unfold Cpu.cpl
      rw [h3, show (u.enter tss g none).cs = g.cs from rfl, hg]
      exact hu
    have hval : UInt32.ofNat ((if returning (u.reg .eax) then t.st 589800 v else t).mem.ld32
        (((u.enter tss g none).reg .esp).toNat - 4)) =
          if returning (u.reg .eax) then v else u.reg .eax := by
      split_ifs with hr
      · rw [hesp']
        have hld : (t.st 589800 v).mem.ld32 589800 = v.toNat := Mem.ld32_st32 _ _ v.toNat_lt
        rw [show 589804 - 4 = 589800 from rfl, hld, UInt32.ofNat_toNat]
      · rw [if_neg hr] at hax
        rw [hax fun h => hr h.1]
        exact Cpu.enter_ne _ _ (by decide)
    rw [h1, h2.iret_outer hwcpl, Option.map_some]
    congr 1
    refine Cpu.ext ?_ rfl rfl rfl rfl ?_ ?_
    · rw [h7, hval]
      refine Function.update_eq_iff.mpr ⟨by split_ifs <;> rfl, fun r hr => ?_⟩
      by_cases hra : r = .eax
      · subst hra
        split_ifs <;> simp
      · rw [Function.update_of_ne hra, Cpu.enter_ne _ _ hr]
        split_ifs
        · exact (Function.update_of_ne hra _ _).symm
        · rfl
    · rw [h5]
      split_ifs <;> rfl
    · rw [h4]
      split_ifs <;> rfl

/-- `write_fd(0, 0, 0)` gives -1. -/
theorem syscall_returns_write :
    exec (isr0x80 0 (syscallHandler 0 fun s => some (0xFFFFFFFF, s.drop.set .edx 9))) 0
        ((calling 14).enter tss ⟨kernelCode, 0, true⟩ none) =
      some { calling 14 with
        reg := Function.update (calling 14).reg .eax 0xFFFFFFFF
        mem := (callEntry 0 ⟨kernelCode, 0, true⟩ (calling 14)).mem.st32 589800 0xFFFFFFFF } :=
  syscall_returns (u := calling 14) (by decide) (by decide) rfl 0 fun v t h => by
    obtain ⟨-, rfl⟩ := Prod.mk.inj (Option.some.inj h)
    exact cdecl_set 2 _ (by decide) 9

end Syscall

end LunariaOS.Trap
