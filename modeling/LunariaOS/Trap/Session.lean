import LunariaOS.Trap.Fault
import LunariaOS.Window
import LunariaOS.Lib.Run

/-!
A program among interrupts, from `enter_user` to the call that ends it.

The program is any function on what the processor holds in ring 3, as long as it depends on nothing
but the registers and the window. Interrupts come between any two of its instructions, and so do faults
whose page the kernel maps, which are then executed again, and the program makes system calls. However
they come, the program computes what it computes when it is left alone with the answers to its calls.
-/

namespace LunariaOS.Trap

open LunariaOS.Lib

/-- The two states look the same to a program. -/
structure Seen (u v : Cpu) : Prop where
  reg : u.reg = v.reg
  eip : u.eip = v.eip
  cs : u.cs = v.cs
  ss : u.ss = v.ss
  eflags : u.eflags = v.eflags
  mem : ∀ x, userBase ≤ x → x < userTop → u.mem x = v.mem x

lemma Seen.refl (u : Cpu) : Seen u u := ⟨rfl, rfl, rfl, rfl, rfl, fun _ _ _ => rfl⟩

lemma Seen.trans {u v w : Cpu} (h : Seen u v) (h' : Seen v w) : Seen u w :=
  ⟨h.reg.trans h'.reg, h.eip.trans h'.eip, h.cs.trans h'.cs, h.ss.trans h'.ss,
    h.eflags.trans h'.eflags, fun x h1 h2 => (h.mem x h1 h2).trans (h'.mem x h1 h2)⟩

/-- The C functions behind the entry code: `body` is what `syscall_handler` does besides its stores
through its two pointers, and `exitTarget` what `exit_target` holds. -/
structure Handlers where
  isrCommonHandler : Cpu → Option Cpu
  faultHandler : Cpu → Option Cpu
  body : Cpu → Option (UInt32 × Cpu)
  exitTarget : UInt32

/-- What happens to a program: it executes an instruction, it is interrupted, an instruction of it
faults at the address `a` with the error code `code`, or it makes a system call, which the kernel answers
with `value` and with `window` in the window. -/
inductive Event where
  | instr
  | interrupt (v back : UInt32)
  | dummy
  | fault (a code back : UInt32)
  | call (back value : UInt32) (window : Mem)

/-- The gate of a handler at `eip`: `set_gate` with privilege level 0 and no trap. -/
def gate (eip : UInt32) : Gate := ⟨kernelCode, eip, false⟩

/-- The gate of the system calls. -/
def callGate : Gate := ⟨kernelCode, 0, true⟩

/-- What an event does to the processor. -/
def Handlers.event (H : Handlers) (prog : Cpu → Cpu) (u : Cpu) : Event → Option Cpu
  | .instr => some (prog u)
  | .interrupt v back => exec (isr v back H.isrCommonHandler) 0 (u.enter tss (gate v) none)
  | .dummy => exec isrDummy 0 (u.enter tss (gate 0) none)
  | .fault a code back =>
    exec (isrfault0x0E back H.faultHandler) 0 (({ u with cr2 := a } : Cpu).enter tss (gate 0) (some code))
  | .call back _ _ =>
    exec (isr0x80 back (syscallHandler H.exitTarget H.body)) 0 (u.enter tss callGate none)

/-- A C function with `args` words of arguments has been called in the state `s` and has returned in the
state `t`, by the calling convention and without a write to what it has no pointer to on the stack. -/
abbrev Returns (args : ℕ) (s t : Cpu) : Prop := Cdecl stackTop args (fun _ => False) s t

/-- Nothing was written to the window. -/
def LeavesWindow (s t : Cpu) : Prop := ∀ x, userBase ≤ x → x < userTop → t.mem x = s.mem x

/-- An event is served in the state in which it comes: the C function returns, and leaves the window
alone. A fault is mended. A system call does not end the program, and is answered as the event says. -/
def Handlers.Serves (H : Handlers) (u : Cpu) : Event → Prop
  | .instr | .dummy => True
  | .interrupt v back =>
    let s := isrEntry v back (u.enter tss (gate v) none)
    ∃ t, H.isrCommonHandler s = some t ∧ Returns 1 s t ∧ LeavesWindow s t
  | .fault a code back =>
    let s := faultEntry back (({ u with cr2 := a } : Cpu).enter tss (gate 0) (some code))
    ∃ t, H.faultHandler s = some t ∧ t.reg .eax ≠ 0 ∧ Returns 4 s t ∧ LeavesWindow s t
  | .call back value window =>
    u.reg .eax ≠ 2 ∧ ∃ t, H.body (callEntry back callGate u) = some (value, t) ∧
      Returns 2 (callEntry back callGate u) t ∧ ∀ x, userBase ≤ x → x < userTop → t.mem x = window x

/-- Every event of the run is served in the state in which it comes. -/
def Handlers.ServesAll (H : Handlers) (prog : Cpu → Cpu) : Cpu → List Event → Prop
  | _, [] => True
  | u, e :: es => H.Serves u e ∧ ∀ w, H.event prog u e = some w → H.ServesAll prog w es

variable {H : Handlers} {u : Cpu}

/-- Entry code that lengthens the stack of the kernel writes nothing to the window. -/
lemma entry_window (hu : 0 < u.cs &&& 3) (g : Gate) (code : Option UInt32) {l : List Instr} {j : ℕ}
    (hl : Cpu.growths 0x6014 l = some j) (hj : j ≤ 500000) {x : ℕ} (hx : userBase ≤ x) :
    (l.foldl Cpu.step (u.enter tss g code)).mem x = u.mem x := by
  obtain ⟨k, hk, h⟩ := Cpu.enter_outer_above (T := tss) g code (cpl_ne hu) (by decide)
  have hesp : ((u.set .esp tss.esp0).reg .esp).toNat = 589824 := by
    rw [Cpu.set_same]
    rfl
  exact (Cpu.Grew.foldl hl h (by omega) (by omega)).above x (by unfold userBase at hx; omega)

lemma isrEntry_spec (hu : 0 < u.cs &&& 3) (v back : UInt32) (g : Gate) :
    (isrEntry v back (u.enter tss g none)).reg .esp = 589764 ∧
      ∀ x, userBase ≤ x → (isrEntry v back (u.enter tss g none)).mem x = u.mem x := by
  refine ⟨?_, fun x hx => entry_window hu g none (l := [.pushad, .pushImm v, .pushImm back])
    (j := 40) rfl (by decide) hx⟩
  unfold isrEntry
  rw [Cpu.push_esp, Cpu.push_esp, Cpu.pushad_esp, Cpu.enter_outer_esp (cpl_ne hu)]
  rfl

lemma faultEntry_spec (hu : 0 < u.cs &&& 3) (back code : UInt32) (g : Gate) :
    (faultEntry back (u.enter tss g (some code))).reg .esp = 589748 ∧
      ∀ x, userBase ≤ x → (faultEntry back (u.enter tss g (some code))).mem x = u.mem x := by
  obtain ⟨hin, hcode⟩ := @enter_fault_top u code g hu
  refine ⟨?_, fun x hx => ?_⟩
  · rw [(faultEntry_top (n := 0) back hin (by rw [hcode]; decide)).2.1, hcode]
    rfl
  · have hargs : faultEntry back (u.enter tss g (some code)) =
        List.foldl Cpu.step (u.enter tss g (some code))
          ([.cli, .pushad] ++ capture ++ arguments ++ [.pushImm back]) := by
      rw [List.foldl_append, List.foldl_append, List.foldl_append]
      rfl
    rw [hargs]
    exact entry_window hu g (some code) (j := 52) rfl (by decide) hx

lemma callEntry_window (hu : 0 < u.cs &&& 3) (back : UInt32) (g : Gate) {x : ℕ} (hx : userBase ≤ x) :
    (callEntry back g u).mem x = u.mem x := by
  have hfold : ∀ e : Cpu, List.foldl Cpu.step e [.pushad, .mov .eax .esp, .lea .edx .eax 32, .push .edx,
      .push .eax, .pushImm back] = syscallEntry back e := fun _ => rfl
  unfold callEntry
  rw [← hfold]
  exact entry_window hu g none (j := 44) rfl (by decide) hx

/-- What one event does, when the program is alone with its instructions and the answers to its calls. -/
def alone (prog : Cpu → Cpu) (u : Cpu) : Event → Cpu
  | .instr => prog u
  | .call _ value window =>
    { u with
      reg := if returning (u.reg .eax) then Function.update u.reg .eax value else u.reg
      mem := fun x => if userBase ≤ x ∧ x < userTop then window x else u.mem x }
  | _ => u

variable {prog : Cpu → Cpu}

lemma alone_ring (hring : ∀ u, 0 < u.cs &&& 3 → 0 < (prog u).cs &&& 3) (hu : 0 < u.cs &&& 3) (e : Event) :
    0 < (alone prog u e).cs &&& 3 := by
  cases e with
  | instr => exact hring u hu
  | interrupt | dummy | fault | call => exact hu

/-- A call that has returned has obeyed. -/
lemma obeys_of_returns {s t : Cpu} {v : UInt32} (h : H.body s = some (v, t)) (hc : Returns 2 s t) :
    Obeys H.body s := fun v' t' h' => by
  obtain ⟨-, rfl⟩ := Prod.mk.inj (Option.some.inj (h.symm.trans h'))
  exact hc

/-- The program sees of an event what it sees when it is alone. -/
lemma event_seen (hu : 0 < u.cs &&& 3) {e : Event} (he : H.Serves u e) :
    ∃ w, H.event prog u e = some w ∧ Seen w (alone prog u e) := by
  cases e with
  | instr => exact ⟨_, rfl, Seen.refl _⟩
  | interrupt v back =>
    obtain ⟨t, ht, hc, hw⟩ := he
    refine ⟨{ u with mem := t.mem, cr2 := t.cr2 }, ?_, rfl, rfl, rfl, rfl, rfl, fun x h1 h2 => ?_⟩
    · change exec (isr v back H.isrCommonHandler) 0 (u.enter tss (gate v) none) = _
      rw [isr_user hu v back rfl fun t' ht' => by
        obtain rfl := Option.some.inj (ht.symm.trans ht')
        exact hc, ht, Option.map_some]
    · exact (hw x h1 h2).trans ((isrEntry_spec hu v back (gate v)).2 x h1)
  | dummy =>
    have h := Cpu.enter_outer (n := 0) (T := tss) (g := gate 0) (cpl_ne hu) (by decide)
    refine ⟨(u.enter tss (gate 0) none).iret, rfl, ?_⟩
    rw [iret_user hu rfl h fun r hr => Cpu.enter_ne _ _ hr]
    exact ⟨rfl, rfl, rfl, rfl, rfl, fun x h1 _ =>
      entry_window hu (gate 0) none (l := []) (j := 0) rfl (by decide) h1⟩
  | fault a code back =>
    have hu' : 0 < ({ u with cr2 := a } : Cpu).cs &&& 3 := hu
    obtain ⟨t, ht, hne, hc, hw⟩ := he
    refine ⟨{ u with mem := t.mem, cr2 := t.cr2 }, ?_, rfl, rfl, rfl, rfl, rfl, fun x h1 h2 => ?_⟩
    · change exec (isrfault0x0E back H.faultHandler) 0
        (({ u with cr2 := a } : Cpu).enter tss (gate 0) (some code)) = _
      rw [fault_user hu' rfl fun t' ht' => by
        obtain rfl := Option.some.inj (ht.symm.trans ht')
        exact hc, ht, Option.bind_some, if_neg hne]
    · exact (hw x h1 h2).trans ((faultEntry_spec hu' back code (gate 0)).2 x h1)
  | call back value window =>
    obtain ⟨hn, t, ht, hc, hw⟩ := he
    have hret := syscall_returns hu hn rfl H.exitTarget (obeys_of_returns ht hc)
    rw [ht, Option.map_some] at hret
    refine ⟨_, hret, rfl, rfl, rfl, rfl, rfl, fun x h1 h2 => ?_⟩
    have hout : (t.mem.st32 589800 value.toNat) x = t.mem x :=
      Mem.st32_of_out _ _ (by unfold userBase at h1; omega)
    have hseen : (if userBase ≤ x ∧ x < userTop then window x else u.mem x) = t.mem x := by
      rw [if_pos ⟨h1, h2⟩, hw x h1 h2]
    refine Eq.trans ?_ hseen.symm
    dsimp only
    split_ifs
    · exact hout
    · rfl

/-- Two states that look the same look the same after an event. -/
lemma alone_seen (hprog : ∀ u v, Seen u v → Seen (prog u) (prog v)) {u v : Cpu} (h : Seen u v)
    (e : Event) : Seen (alone prog u e) (alone prog v e) := by
  cases e with
  | instr => exact hprog u v h
  | interrupt | dummy | fault => exact h
  | call back value window =>
    obtain ⟨hreg, hip, hcs, hss, hfl, -⟩ := h
    refine ⟨?_, hip, hcs, hss, hfl, fun x h1 h2 => ?_⟩
    · unfold alone
      rw [hreg]
    · unfold alone
      dsimp only
      rw [if_pos ⟨h1, h2⟩, if_pos ⟨h1, h2⟩]

/-- However many events there are, the program has computed what it computes when it is left alone. -/
lemma events_seen (hring : ∀ u, 0 < u.cs &&& 3 → 0 < (prog u).cs &&& 3)
    (hprog : ∀ u v, Seen u v → Seen (prog u) (prog v)) {es : List Event} {u v : Cpu}
    (hu : 0 < u.cs &&& 3) (hes : H.ServesAll prog u es) (h : Seen u v) :
    ∃ w, es.foldlM (H.event prog) u = some w ∧ 0 < w.cs &&& 3 ∧ Seen w (run (alone prog) v es) := by
  induction es generalizing u v with
  | nil => exact ⟨u, rfl, hu, h⟩
  | cons e es ih =>
    obtain ⟨he, hes⟩ := hes
    obtain ⟨w, hw, hseen⟩ := @event_seen H u prog hu e he
    have hcs : 0 < w.cs &&& 3 := by
      rw [hseen.cs]
      exact alone_ring hring hu e
    rw [List.foldlM_cons, hw]
    exact ih hcs (hes w hw) (hseen.trans (alone_seen hprog h e))

/-- **A program does not notice what comes between its instructions.** However many interrupts, page
faults and system calls there are, and wherever they come, every one of them returns, and the program has
computed what it computes when it is left alone with the answers to its calls. -/
theorem program_undisturbed (hring : ∀ u, 0 < u.cs &&& 3 → 0 < (prog u).cs &&& 3)
    (hprog : ∀ u v, Seen u v → Seen (prog u) (prog v)) (hu : 0 < u.cs &&& 3) {es : List Event}
    (hes : H.ServesAll prog u es) :
    ∃ w, es.foldlM (H.event prog) u = some w ∧ Seen w (run (alone prog) u es) := by
  obtain ⟨w, hw, -, hseen⟩ := events_seen hring hprog hu hes (Seen.refl u)
  exact ⟨w, hw, hseen⟩

/-- Events that come as they should in the run of the program alone are all served, by handlers that serve
such an event in every state. -/
lemma serves_of_alone (hring : ∀ u, 0 < u.cs &&& 3 → 0 < (prog u).cs &&& 3)
    (hprog : ∀ u v, Seen u v → Seen (prog u) (prog v)) {Good : Cpu → Event → Prop}
    (hserve : ∀ u e, 0 < u.cs &&& 3 → Good u e → H.Serves u e)
    (hgood : ∀ u v e, Seen u v → Good v e → Good u e) {es : List Event} {u v : Cpu}
    (hu : 0 < u.cs &&& 3) (h : Seen u v) (hes : Along (alone prog) Good v es) : H.ServesAll prog u es := by
  induction es generalizing u v with
  | nil => trivial
  | cons e es ih =>
    obtain ⟨he, hes⟩ := hes
    have hserves := hserve u e hu (hgood u v e h he)
    refine ⟨hserves, fun w hw => ?_⟩
    obtain ⟨w', hw', hseen⟩ := @event_seen H u prog hu e hserves
    obtain rfl := Option.some.inj (hw'.symm.trans hw)
    have hcs : 0 < w'.cs &&& 3 := by
      rw [hseen.cs]
      exact alone_ring hring hu e
    exact ih hcs (hseen.trans (alone_seen hprog h e)) hes

/-- Handlers that count the interrupts, mend the faults in the window, and serve a call of
`write_fd(0, 0, 0)`, which gives -1. -/
def ticking : Handlers where
  isrCommonHandler := tick
  faultHandler := mend
  body s := some (0xFFFFFFFF, s.drop.set .edx 9)
  exitTarget := 0x12345

/-- What `ticking` serves. -/
def Ticks (u : Cpu) : Event → Prop
  | .instr | .interrupt _ _ | .dummy => True
  | .fault a _ _ => 0x400000 ≤ a ∧ a < 0x800000
  | .call _ value window =>
    u.reg .eax ≠ 2 ∧ value = 0xFFFFFFFF ∧ ∀ x, userBase ≤ x → x < userTop → window x = u.mem x

/-- A store below the stack of the kernel is not one to the window. -/
lemma leavesWindow_store {s : Cpu} {a : UInt32} (ha : a.toNat + 4 ≤ userBase) (v w : UInt32) (r : Reg) :
    LeavesWindow s ((s.drop.st a v).set r w) := fun _ h1 _ => Mem.st32_of_out _ _ (by omega)

lemma ticking_serves (u : Cpu) (e : Event) (hu : 0 < u.cs &&& 3) (h : Ticks u e) :
    ticking.Serves u e := by
  cases e with
  | instr | dummy => trivial
  | interrupt v back =>
    obtain ⟨hesp, -⟩ := isrEntry_spec hu v back (gate v)
    exact ⟨_, rfl, cdecl_store 1 (by rw [hesp]; decide) _ 7 (by decide),
      leavesWindow_store (by decide) _ 7 .ecx⟩
  | fault a code back =>
    have hu' : 0 < ({ u with cr2 := a } : Cpu).cs &&& 3 := hu
    obtain ⟨hesp, -⟩ := faultEntry_spec hu' back code (gate 0)
    obtain ⟨hin, hcode⟩ := @enter_fault_top _ code (gate 0) hu'
    exact ⟨_, mend_entry (n := 0) hin (by rw [hcode]; decide) (enter_cr2 _ _ _) h,
      by rw [Cpu.set_same]; decide, cdecl_store 4 (by rw [hesp]; decide) a 1 (by decide),
      leavesWindow_store (by decide) a 1 .eax⟩
  | call back value window =>
    obtain ⟨hn, rfl, hw⟩ := h
    have hmem : ∀ x, userBase ≤ x → (callEntry back callGate u).mem x = u.mem x := fun x =>
      callEntry_window hu back callGate
    have hret := fun s => @cdecl_set 2 s .edx (by decide) 9
    generalize hs : callEntry back callGate u = s at hmem
    refine ⟨hn, s.drop.set .edx 9, by rw [hs]; rfl, by rw [hs]; exact hret s, fun x h1 h2 => ?_⟩
    exact (hmem x h1).trans (hw x h1 h2).symm

lemma ticks_seen (u v : Cpu) (e : Event) (h : Seen u v) (hv : Ticks v e) : Ticks u e := by
  cases e with
  | instr | interrupt | dummy => trivial
  | fault => exact hv
  | call back value window =>
    obtain ⟨hn, hval, hw⟩ := hv
    exact ⟨by rw [h.reg]; exact hn, hval, fun x h1 h2 => (hw x h1 h2).trans (h.mem x h1 h2).symm⟩

/-- A program that counts in `eax` and in the first byte of the window. -/
def counting (u : Cpu) : Cpu :=
  { u with
    reg := Function.update u.reg .eax (u.reg .eax + 1)
    mem := Function.update u.mem 0x400000 (u.mem 0x400000 + 1) }

lemma counting_seen (u v : Cpu) (h : Seen u v) : Seen (counting u) (counting v) := by
  obtain ⟨hreg, hip, hcs, hss, hfl, hmem⟩ := h
  refine ⟨?_, hip, hcs, hss, hfl, fun x h1 h2 => ?_⟩
  · unfold counting
    rw [hreg]
  · unfold counting
    dsimp only
    rw [Function.update_apply, Function.update_apply, hmem x h1 h2, hmem 0x400000 (by decide) (by decide)]

lemma counting_ring (u : Cpu) (h : 0 < u.cs &&& 3) : 0 < (counting u).cs &&& 3 := h

/-- The count is interrupted, faults at its page, and `write_fd(0, 0, 0)` is called between. -/
def busy : List Event :=
  [.interrupt 0x20 0, .fault 0x400000 6 0, .instr,
    .call 0 0xFFFFFFFF (Function.update (fun _ => 0) 0x400000 1), .dummy, .instr, .interrupt 0x21 0]

theorem program_undisturbed_busy :
    ∃ w, busy.foldlM (ticking.event counting) (calling 13) = some w ∧
      Seen w (run (alone counting) (calling 13) busy) ∧ w.reg .eax = 0 ∧ w.mem 0x400000 = 2 := by
  have hes : ticking.ServesAll counting (calling 13) busy :=
    serves_of_alone counting_ring counting_seen ticking_serves ticks_seen (by decide) (Seen.refl _)
      ⟨trivial, ⟨by decide, by decide⟩, trivial, ⟨by decide, rfl, fun x _ _ => rfl⟩, trivial, trivial, trivial,
        trivial⟩
  obtain ⟨w, hw, hseen⟩ := program_undisturbed counting_ring counting_seen (by decide) hes
  exact ⟨w, hw, hseen, by rw [hseen.reg]; decide, by rw [hseen.mem _ (by decide) (by decide)]; decide⟩

end LunariaOS.Trap
