import LunariaOS.Trap.Return

/-!
Page faults.

The entry code hands `fault_handler` the address, the error code and the saved registers. When the
handler has mapped the page, the instruction that faulted is executed again, and it has to find every
register as it left it: `eax` among them, which the entry code itself uses.
-/

namespace LunariaOS.Trap

open LunariaOS.Lib

/-! ### The way in -/

/-- The instructions that copy the frame into the cells from `0x6000` on. -/
def capture : List Instr :=
  [.load .eax .esp 32, .storeAt 0x6008 .eax, .load .eax .esp 36, .storeAt 0x600C .eax,
    .load .eax .esp 40, .storeAt 0x6010 .eax, .movCr2 .eax, .storeImm 0x6000 0x0E,
    .storeAt 0x6004 .eax]

/-- The instructions that push the arguments of `fault_handler`. -/
def arguments : List Instr :=
  [.load .eax .esp 32, .movCr2 .edx, .pushImm 0x0E, .push .eax, .push .edx, .lea .eax .esp 12,
    .push .eax]

/-- The state in which `fault_handler` is entered. -/
def faultEntry (back : UInt32) (s : Cpu) : Cpu :=
  (arguments.foldl Cpu.step (capture.foldl Cpu.step (s.step .cli).pushad)).push back

lemma exec_fault (back : UInt32) (f : Cpu → Option Cpu) (s : Cpu) :
    exec (isrfault0x0E back f) 0 s =
      (f (faultEntry back s)).bind fun t => exec [.add .esp 16, .test .eax .eax, .jz 3, .popad,
        .add .esp 4, .iretd, .cli, .hlt] 0 t := by
  have h : isrfault0x0E back f = ([.cli, .pushad] ++ capture ++ arguments) ++ .call back f ::
    [.add .esp 16, .test .eax .eax, .jz 3, .popad, .add .esp 4, .iretd, .cli, .hlt] := rfl
  rw [h, exec_append (by decide), List.foldl_append, List.foldl_append]
  rfl

section Entry

variable {s : Cpu} {n : ℕ} {r0 r1 r2 r3 r4 r5 r6 r7 code ip cs : UInt32} {l : List UInt32}

/-- What the copies leave. -/
lemma capture_top
    (h : s.Top n (r0 :: r1 :: r2 :: r3 :: r4 :: r5 :: r6 :: r7 :: code :: ip :: cs :: l))
    (hlow : 0x6014 ≤ (s.reg .esp).toNat) :
    (capture.foldl Cpu.step s).Top n
        (r0 :: r1 :: r2 :: r3 :: r4 :: r5 :: r6 :: r7 :: code :: ip :: cs :: l) ∧
      (capture.foldl Cpu.step s).reg .esp = s.reg .esp ∧
      (capture.foldl Cpu.step s).cs = s.cs ∧ (capture.foldl Cpu.step s).ss = s.ss ∧
      (capture.foldl Cpu.step s).cr2 = s.cr2 := by
  have h1 := (h.set (r := .eax) (by decide) code).st (a := 0x6008) (by simp; omega) code
  have h2 := (h1.set (r := .eax) (by decide) ip).st (a := 0x600C) (by simp; omega) ip
  have h3 := (h2.set (r := .eax) (by decide) cs).st (a := 0x6010) (by simp; omega) cs
  have h4 := ((h3.set (r := .eax) (by decide) s.cr2).st (a := 0x6000) (by simp; omega) 0x0E).st
    (a := 0x6004) (by simp; omega) s.cr2
  have e1 : s.step (.load .eax .esp 32) = s.set .eax code := h.load 8 rfl .eax
  have e2 := h1.load 9 rfl .eax
  have e3 := h2.load 10 rfl .eax
  have hcap : capture.foldl Cpu.step s = ((((((((s.set .eax code).st 0x6008 code).set .eax ip).st
      0x600C ip).set .eax cs).st 0x6010 cs).set .eax s.cr2).st 0x6000 0x0E).st 0x6004 s.cr2 := by
    simp only [capture, List.foldl_cons, List.foldl_nil]
    rw [e1, Cpu.step_storeAt, show 36 = UInt32.ofNat (4 * 9) from rfl, e2, Cpu.step_storeAt,
      show 40 = UInt32.ofNat (4 * 10) from rfl, e3, Cpu.step_storeAt]
    rfl
  rw [hcap]
  exact ⟨h4, by simp, rfl, rfl, rfl⟩

/-- What `fault_handler` finds on the stack. -/
lemma faultEntry_top (back : UInt32) (h : s.Top (n + 52) (code :: ip :: cs :: l))
    (hlow : 0x6100 ≤ (s.reg .esp).toNat) :
    (faultEntry back s).Top n (back :: (s.reg .esp - 32) :: s.cr2 :: code :: 0x0E ::
        s.reg .edi :: s.reg .esi :: s.reg .ebp :: s.reg .esp :: s.reg .ebx :: s.reg .edx ::
        s.reg .ecx :: s.reg .eax :: code :: ip :: cs :: l) ∧
      (faultEntry back s).reg .esp = s.reg .esp - 52 ∧ (faultEntry back s).cs = s.cs ∧
      (faultEntry back s).ss = s.ss := by
  have hcli : (s.step .cli).Top (n + 52) (code :: ip :: cs :: l) := h.of_eq rfl rfl
  have hp := hcli.pushad (n := n + 20)
  have hesp : (s.step .cli).pushad.reg .esp = s.reg .esp - 32 := Cpu.pushad_esp
  have hbelow : (s.reg .esp - 32).toNat = (s.reg .esp).toNat - 32 :=
    UInt32.toNat_sub_of_le _ _ (UInt32.le_iff_toNat_le.mpr (by change 32 ≤ _; omega))
  obtain ⟨hq, hqesp, hqcs, hqss, hqcr2⟩ := capture_top hp (by rw [hesp, hbelow]; omega)
  rw [hesp] at hqesp
  rw [show (s.step .cli).pushad.cs = s.cs from rfl] at hqcs
  rw [show (s.step .cli).pushad.ss = s.ss from rfl] at hqss
  rw [show (s.step .cli).pushad.cr2 = s.cr2 from rfl] at hqcr2
  unfold faultEntry
  generalize capture.foldl Cpu.step (s.step .cli).pushad = q at hq hqesp hqcr2 hqcs hqss ⊢
  have e1 : q.step (.load .eax .esp 32) = q.set .eax code := hq.load 8 rfl .eax
  have h3 := (((hq.set (r := .eax) (by decide) code).set (r := .edx) (by decide) q.cr2).push 0x0E)
  have h5 := (h3.push code).push q.cr2
  have h7 := ((h5.set (r := .eax) (by decide) (q.reg .esp)).push (q.reg .esp)).push back
  have hargs : arguments.foldl Cpu.step q = ((((((q.set .eax code).set .edx q.cr2).push 0x0E).push
      code).push q.cr2).set .eax (q.reg .esp)).push (q.reg .esp) := by
    have hlea : q.reg .esp - 4 - 4 - 4 + 12 = q.reg .esp := by grind
    conv_rhs => rw [← hlea]
    simp only [arguments, List.foldl_cons, List.foldl_nil, e1]
    rfl
  rw [hargs]
  rw [hqesp, hqcr2] at h7
  rw [hqesp, hqcr2]
  refine ⟨h7, ?_, hqcs, hqss⟩
  simp only [Cpu.push_esp, ne_eq, reduceCtorEq, not_false_eq_true, Cpu.set_ne, hqesp]
  grind

end Entry

/-! ### The way out -/

/-- The end of the entry code, when the handler gives up. -/
lemma exec_fatal {t : Cpu} (ht : t.reg .eax = 0) :
    exec [.add .esp 16, .test .eax .eax, .jz 3, .popad, .add .esp 4, .iretd, .cli, .hlt] 0 t =
      none := by
  have hz : ((t.step (.add .esp 16)).step (.test .eax .eax)).zf = true := by
    change (Cpu.setFlags _ (t.reg .eax &&& t.reg .eax)).zf = true
    rw [Cpu.zf_setFlags, UInt32.and_self, ht]
    rfl
  change exec _ (if ((t.step (.add .esp 16)).step (.test .eax .eax)).zf then 3 else 0) _ = none
  rw [hz]
  rfl

/-- The end of the entry code, when the handler has mapped the page. -/
lemma exec_retry {t : Cpu} {n : ℕ} {a b c d di si bp x bx dx cx ax code ip cs fl : UInt32}
    {l : List UInt32} (ht : t.reg .eax ≠ 0)
    (h : t.Top n (a :: b :: c :: d :: di :: si :: bp :: x :: bx :: dx :: cx :: ax :: code :: ip ::
      cs :: fl :: l)) :
    ∃ u : Cpu, exec [.add .esp 16, .test .eax .eax, .jz 3, .popad, .add .esp 4, .iretd, .cli, .hlt]
        0 t = some u.iret ∧ u.Top (n + 52) (ip :: cs :: fl :: l) ∧ u.cs = t.cs ∧ u.mem = t.mem ∧
      u.cr2 = t.cr2 ∧ u.ss = t.ss ∧
      u.reg = Cpu.popped di si bp bx dx cx ax (t.reg .esp + 52) := by
  have hadd := Cpu.Top.add (w := [a, b, c, d]) h
  have htest : ((t.step (.add .esp 16)).step (.test .eax .eax)).Top (n + 16) _ :=
    hadd.of_eq rfl rfl
  have hz : ((t.step (.add .esp 16)).step (.test .eax .eax)).zf = false := by
    change (Cpu.setFlags _ (t.reg .eax &&& t.reg .eax)).zf = false
    rw [Cpu.zf_setFlags, UInt32.and_self]
    exact decide_eq_false ht
  have hesp : ((t.step (.add .esp 16)).step (.test .eax .eax)).reg .esp = t.reg .esp + 16 := rfl
  obtain ⟨hpop, htop⟩ := htest.popad
  have hout := Cpu.Top.add (w := [code]) htop
  refine ⟨_, ?_, hout, ?_⟩
  · change exec _ (if ((t.step (.add .esp 16)).step (.test .eax .eax)).zf then 3 else 0) _ = _
    rw [hz]
    rfl
  · rw [hpop]
    refine ⟨rfl, rfl, rfl, rfl, funext fun r => ?_⟩
    cases r
    case esp =>
      change (t.reg .esp + 16 + 32) + 4 = t.reg .esp + 52
      grind
    all_goals rfl

section Fault

variable {f : Cpu → Option Cpu} {e : Cpu}

/-- The state before the `iretd` of a page fault. -/
lemma fault_frame {n : ℕ} {l : List UInt32} {code ip cs fl : UInt32} (back : UInt32)
    (h : e.Top (n + 52) (code :: ip :: cs :: fl :: l)) (hlow : 0x6100 ≤ (e.reg .esp).toNat)
    (htop : (e.reg .esp).toNat + 4 * (l.length + 4) ≤ stackTop) {t : Cpu}
    (hst : f (faultEntry back e) = some t) (ht : t.reg .eax ≠ 0)
    (hf : Cdecl stackTop 4 (fun _ => False) (faultEntry back e) t) :
    ∃ u : Cpu, exec (isrfault0x0E back f) 0 e = some u.iret ∧ u.Top (n + 56) (ip :: cs :: fl :: l) ∧
      u.cs = e.cs ∧ u.mem = t.mem ∧ u.cr2 = t.cr2 ∧ u.ss = e.ss ∧
      u.reg = Function.update e.reg .esp (e.reg .esp + 4) := by
  obtain ⟨hin, hesp, hcs, hss⟩ := faultEntry_top back h hlow
  have hbelow : (e.reg .esp - 52).toNat = (e.reg .esp).toNat - 52 :=
    UInt32.toNat_sub_of_le _ _ (UInt32.le_iff_toNat_le.mpr (by change 52 ≤ _; omega))
  obtain ⟨as, l', has, hlen, hsame, -, hout⟩ := hf.returns
    (w := [e.reg .esp - 32, e.cr2, code, 0x0E]) hin rfl
    (by rw [hesp, hbelow]
        simp only [List.length_cons]
        omega)
  have hl' := List.ext_getElem? (fun j => hsame j not_false)
  subst hl'
  match as, has with
  | [a, b, c, d], _ =>
    obtain ⟨u, h1, h2, h3, h4, h5, h6, h7⟩ := exec_retry ht hout
    have hfree := h2.free
    refine ⟨u, ?_, h2.of_free (by omega), h3.trans (hf.cs.trans hcs), h4, h5,
      h6.trans (hf.ss.trans hss), ?_⟩
    · rw [exec_fault, hst]
      exact h1
    · rw [h7, hf.esp, hesp]
      refine (Function.update_eq_iff.mpr ⟨?_, fun r hr => ?_⟩).symm
      · change e.reg .esp + 4 = e.reg .esp - 52 + 4 + 52
        grind
      · cases r
        case esp => exact absurd rfl hr
        all_goals rfl

variable {u : Cpu} {back code : UInt32} {g : Gate}

lemma exec_fault_zero {t : Cpu} (hst : f (faultEntry back e) = some t) (ht : t.reg .eax = 0) :
    exec (isrfault0x0E back f) 0 e = none := by
  rw [exec_fault, hst]
  exact exec_fatal ht

lemma enter_cr2 (u : Cpu) (g : Gate) (c : Option UInt32) : (u.enter tss g c).cr2 = u.cr2 := by
  unfold Cpu.enter
  cases c <;> split_ifs <;> rfl

/-- What the entry code finds when a program has faulted. -/
lemma enter_fault_top (hu : 0 < u.cs &&& 3) :
    (u.enter tss g (some code)).Top 52 (code :: [u.eip, u.cs, u.eflags, u.reg .esp, u.ss]) ∧
      (u.enter tss g (some code)).reg .esp = 589800 := by
  refine ⟨((Cpu.enter_outer (n := 52 + 4) (T := tss) (g := g) (cpl_ne hu) (by decide)).push
    code).of_eq (Cpu.enter_code tss g code).1 (congrFun (Cpu.enter_code tss g code).2 _), ?_⟩
  rw [(Cpu.enter_code tss g code).2, Cpu.push_esp, (enter_esp hu).2]
  rfl

/-- **A page fault in a program is not noticed by it.** When the handler has mapped the page, the
instruction that faulted is executed again, with every register and flag as it was; when it has not, the
processor is stopped. -/
theorem fault_user (hu : 0 < u.cs &&& 3) (hg : g.cs = kernelCode)
    (hf : ∀ t, f (faultEntry back (u.enter tss g (some code))) = some t →
      Cdecl stackTop 4 (fun _ => False) (faultEntry back (u.enter tss g (some code))) t) :
    exec (isrfault0x0E back f) 0 (u.enter tss g (some code)) =
      (f (faultEntry back (u.enter tss g (some code)))).bind fun t =>
        if t.reg .eax = 0 then none else some { u with mem := t.mem, cr2 := t.cr2 } := by
  obtain ⟨hin, hcode⟩ := @enter_fault_top u code g hu
  cases hst : f (faultEntry back (u.enter tss g (some code))) with
  | none => rw [exec_fault, hst]; rfl
  | some t =>
    by_cases ht : t.reg .eax = 0
    · rw [exec_fault_zero hst ht, Option.bind_some, if_pos ht]
    obtain ⟨w, h1, h2, h3, h4, h5, -, h7⟩ := fault_frame (n := 0) back hin (by rw [hcode]; decide)
      (by rw [hcode]; change 589800 + 4 * 6 ≤ 589824; decide) hst ht (hf t hst)
    rw [h1, iret_user hu (h3.trans hg) h2 fun r hr => ?_, Option.bind_some, if_neg ht, h4, h5]
    rw [h7, Function.update_of_ne hr, (Cpu.enter_code tss g code).2, Cpu.push_ne _ hr,
      Cpu.enter_ne _ _ hr]

/-- What the entry code finds when the kernel has faulted. -/
lemma enter_fault_kernel {l : List UInt32} (hu : u.cpl = 0) (h : u.Top 0x7000 l) :
    (u.enter tss g (some code)).Top 52 (code :: u.eip :: u.cs :: u.eflags :: l) ∧
      (u.enter tss g (some code)).reg .esp = u.reg .esp - 16 := by
  have hfree := h.free
  refine ⟨(((Cpu.enter_same (n := 52 + 4) (T := tss) (g := g) hu
    (h.of_free (k := 68) (by omega))).push code).of_eq (Cpu.enter_code tss g code).1
    (congrFun (Cpu.enter_code tss g code).2 _)), ?_⟩
  rw [(Cpu.enter_code tss g code).2, Cpu.push_esp, Cpu.enter_same_esp hu]
  grind

/-- **The kernel too may touch a page of the program that is not mapped yet**: it goes on as it was, and
the words on its stack stay. -/
theorem fault_kernel {l : List UInt32} (hu : u.cpl = 0) (h : u.Top 0x7000 l)
    (htop : (u.reg .esp).toNat + 4 * l.length ≤ stackTop) {t : Cpu}
    (hst : f (faultEntry back (u.enter tss g (some code))) = some t)
    (hf : Cdecl stackTop 4 (fun _ => False) (faultEntry back (u.enter tss g (some code))) t) :
    (t.reg .eax = 0 → exec (isrfault0x0E back f) 0 (u.enter tss g (some code)) = none) ∧
    (t.reg .eax ≠ 0 →
      exec (isrfault0x0E back f) 0 (u.enter tss g (some code)) =
          some { u with mem := t.mem, cr2 := t.cr2 } ∧
        Cpu.Top { u with mem := t.mem, cr2 := t.cr2 } 0x7000 l) := by
  refine ⟨exec_fault_zero hst, fun ht => ?_⟩
  have hfree := h.free
  obtain ⟨hin, hcode⟩ := @enter_fault_kernel u code g _ hu h
  have hbelow : (u.reg .esp - 16).toNat = (u.reg .esp).toNat - 16 :=
    UInt32.toNat_sub_of_le _ _ (UInt32.le_iff_toNat_le.mpr (by change 16 ≤ _; omega))
  obtain ⟨w, h1, h2, h3, h4, h5, h6, h7⟩ := fault_frame (n := 0) back hin
    (by rw [hcode, hbelow]; omega) (by rw [hcode, hbelow]; omega) hst ht hf
  obtain ⟨hback, hwords⟩ := iret_kernel hu (h6.trans (enter_same_ss g (some code) hu)) h2
    (by rw [h7, Function.update_self, hcode]; grind)
    (fun r hr => by rw [h7, Function.update_of_ne hr, (Cpu.enter_code tss g code).2,
      Cpu.push_ne _ hr, Cpu.enter_ne _ _ hr]) hfree
  rw [h4, h5] at hback hwords
  exact ⟨by rw [h1, hback], hwords⟩

/-- A handler that notes the address and says that it has mapped the page, if that is in the window. -/
def mend (s : Cpu) : Option Cpu :=
  some ((s.drop.st 0x21000 (s.ld (s.reg .esp + 8))).set .eax
    (if 0x400000 ≤ s.ld (s.reg .esp + 8) ∧ s.ld (s.reg .esp + 8) < 0x800000 then 1 else 0))

/-- The handler finds the address of the fault in its second argument. -/
lemma mend_entry {a ip cs : UInt32} {l : List UInt32} {n : ℕ} (h : e.Top (n + 52) (code :: ip :: cs :: l))
    (hlow : 0x6100 ≤ (e.reg .esp).toNat) (ha : e.cr2 = a) (hin : 0x400000 ≤ a ∧ a < 0x800000) :
    mend (faultEntry back e) = some (((faultEntry back e).drop.st 0x21000 a).set .eax 1) := by
  have harg : (faultEntry back e).ld ((faultEntry back e).reg .esp + 8) = e.cr2 :=
    (faultEntry_top back h hlow).1.ld 2 rfl
  rw [ha] at harg
  generalize faultEntry back e = s at harg
  unfold mend
  rw [harg, if_pos hin]

/-- The kernel with a fault in the window. -/
def faulting : Cpu := { starting with cr2 := 0x400010 }

/-- The kernel touches a page of the window that is not mapped. -/
theorem fault_kernel_faulting :
    let s := faultEntry 0 (faulting.enter tss ⟨kernelCode, 0, false⟩ (some 2))
    exec (isrfault0x0E 0 mend) 0 (faulting.enter tss ⟨kernelCode, 0, false⟩ (some 2)) =
        some { faulting with mem := s.mem.st32 0x21000 0x400010, cr2 := s.cr2 } ∧
      Cpu.Top { faulting with mem := s.mem.st32 0x21000 0x400010, cr2 := s.cr2 } 0x7000
        [0x10000, 0x400000, 0x7FEFF0] := by
  intro s
  have hu : faulting.cpl = 0 := by decide
  have hreg : faulting.reg .esp = 0x8FF00 := rfl
  have htop : faulting.Top 0x7000 [0x10000, 0x400000, 0x7FEFF0] :=
    (starting_top (by decide)).of_eq rfl rfl
  obtain ⟨hin, hesp⟩ := @enter_fault_kernel faulting 2 ⟨kernelCode, 0, false⟩ _ hu htop
  have hlow : 0x6100 ≤ ((faulting.enter tss ⟨kernelCode, 0, false⟩ (some 2)).reg .esp).toNat := by
    rw [hesp, hreg]
    decide
  have hst := @mend_entry _ 0 2 0x400010 _ _ _ 0 hin hlow (enter_cr2 _ _ _) ⟨by decide, by decide⟩
  have hroom : (0x21000 : UInt32).toNat + 4 ≤ (s.reg .esp).toNat := by
    rw [(faultEntry_top (n := 0) 0 hin hlow).2.1, hesp, hreg]
    decide
  have hret := @cdecl_store 4 s 0x21000 hroom 0x400010 1 .eax (by decide)
  have hone : ((s.drop.st 0x21000 0x400010).set .eax 1).reg .eax ≠ 0 := by
    rw [Cpu.set_same]
    decide
  have hmem : ∀ s : Cpu, ((s.drop.st 0x21000 0x400010).set .eax 1).mem = s.mem.st32 0x21000 0x400010 :=
    fun _ => rfl
  have hcr2 : ∀ s : Cpu, ((s.drop.st 0x21000 0x400010).set .eax 1).cr2 = s.cr2 := fun _ => rfl
  have hback := (fault_kernel hu htop (by rw [hreg]; decide) hst hret).2 hone
  rw [hmem, hcr2] at hback
  exact hback

end Fault

end LunariaOS.Trap
