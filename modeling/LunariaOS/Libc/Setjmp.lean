import LunariaOS.Lib.Cpu

/-!
`setjmp` and `longjmp`.

Between the two calls anything may have happened, also to the stack. What matters is that the six words
of the `jmp_buf` are still what `setjmp` has put there.
-/

namespace LunariaOS.Libc

open LunariaOS.Lib

def setjmp : List Instr :=
  [.load .eax .esp 4, .store .eax 0 .ebx, .store .eax 4 .esi, .store .eax 8 .edi,
    .store .eax 12 .ebp, .lea .ecx .esp 4, .store .eax 16 .ecx, .load .ecx .esp 0,
    .store .eax 20 .ecx, .xor .eax .eax, .ret]

def longjmp : List Instr :=
  [.load .eax .esp 4, .load .edx .esp 8, .test .edx .edx, .jnz 1, .add .edx 1,
    .load .ebx .eax 0, .load .esi .eax 4, .load .edi .eax 8, .load .ebp .eax 12,
    .load .ecx .eax 20, .load .esp .eax 16, .mov .eax .edx, .jmp .ecx]

/-- What `setjmp` saves when it is called in the state `s`: the registers that a C function keeps, the
stack behind its return address, and the return address. -/
def saved (s : Cpu) : List UInt32 :=
  [s.reg .ebx, s.reg .esi, s.reg .edi, s.reg .ebp, s.reg .esp + 4, s.ld (s.reg .esp)]

variable {s : Cpu} {env : UInt32}

/-- The addresses of the words of the buffer. -/
lemma env_add (henv : env.toNat + 24 ≤ 4294967296) :
    (env + 4).toNat = env.toNat + 4 ∧ (env + 8).toNat = env.toNat + 8 ∧
      (env + 12).toNat = env.toNat + 12 ∧ (env + 16).toNat = env.toNat + 16 ∧
      (env + 20).toNat = env.toNat + 20 := by
  have hadd : ∀ k, k ≤ 20 → (env + UInt32.ofNat k).toNat = env.toNat + k := fun k hk => by
    rw [UInt32.toNat_add, UInt32.toNat_ofNat']
    omega
  exact ⟨hadd 4 (by decide), hadd 8 (by decide), hadd 12 (by decide), hadd 16 (by decide),
    hadd 20 (by decide)⟩

/-- What `setjmp` leaves. -/
lemma setjmp_spec (harg : s.ld (s.reg .esp + 4) = env) (henv : env.toNat + 24 ≤ 4294967296)
    (hout : env.toNat + 24 ≤ (s.reg .esp).toNat ∨ (s.reg .esp).toNat + 4 ≤ env.toNat) :
    ∃ t, exec setjmp 0 s = some t ∧ t.reg .eax = 0 ∧ t.eip = s.ld (s.reg .esp) ∧
      t.reg .esp = s.reg .esp + 4 ∧ t.reg .ebx = s.reg .ebx ∧ t.reg .esi = s.reg .esi ∧
      t.reg .edi = s.reg .edi ∧ t.reg .ebp = s.reg .ebp ∧
      t.mem = s.mem.store env.toNat (saved s) := by
  obtain ⟨h4, h8, h12, h16, h20⟩ := env_add henv
  -- the return address is not in the buffer
  have hret : ∀ l : List UInt32, l.length ≤ 6 →
      (s.mem.store env.toNat l).ld32 (s.reg .esp).toNat = s.mem.ld32 (s.reg .esp).toNat :=
    fun l hl => Mem.ld32_store_of_out _ l (by omega)
  have hsplit : setjmp = [.load .eax .esp 4, .store .eax 0 .ebx, .store .eax 4 .esi,
      .store .eax 8 .edi, .store .eax 12 .ebp, .lea .ecx .esp 4, .store .eax 16 .ecx] ++
    ([.load .ecx .esp 0, .store .eax 20 .ecx, .xor .eax .eax] ++ [.ret]) := rfl
  rw [hsplit, exec_append (by decide), exec_append (by decide)]
  have hfive : List.foldl Cpu.step s [.load .eax .esp 4, .store .eax 0 .ebx, .store .eax 4 .esi,
      .store .eax 8 .edi, .store .eax 12 .ebp, .lea .ecx .esp 4, .store .eax 16 .ecx] =
    { (s.set .eax env).set .ecx (s.reg .esp + 4) with
      mem := s.mem.store env.toNat (saved s |>.take 5) } := by
    simp only [List.foldl, Cpu.step, harg]
    refine Cpu.ext rfl rfl rfl rfl rfl rfl ?_
    change ((((s.mem.st32 (env + 0).toNat (s.reg .ebx).toNat).st32 (env + 4).toNat
      (s.reg .esi).toNat).st32 (env + 8).toNat (s.reg .edi).toNat).st32 (env + 12).toNat
      (s.reg .ebp).toNat).st32 (env + 16).toNat (s.reg .esp + 4).toNat = _
    rw [h4, h8, h12, h16, UInt32.add_zero]
    rfl
  have hload : (({ (s.set .eax env).set .ecx (s.reg .esp + 4) with
      mem := s.mem.store env.toNat (saved s |>.take 5) } : Cpu)).ld (s.reg .esp + 0) =
        s.ld (s.reg .esp) := by
    unfold Cpu.ld
    rw [UInt32.add_zero, hret _ (by simp [saved])]
  have hlast : ∀ p : Cpu, List.foldl Cpu.step p
      [.load .ecx .esp 0, .store .eax 20 .ecx, .xor .eax .eax] =
    (((p.set .ecx (p.ld (p.reg .esp + 0))).st (p.reg .eax + 20) (p.ld (p.reg .esp + 0))).set .eax
      (p.reg .eax ^^^ p.reg .eax)).setFlags (p.reg .eax ^^^ p.reg .eax) := fun p => rfl
  have hmem : (s.mem.store env.toNat (saved s |>.take 5)).st32 (env + 20).toNat
      (s.ld (s.reg .esp)).toNat = s.mem.store env.toNat (saved s) := by
    rw [h20]
    rfl
  rw [hfive, hlast]
  generalize hp : ({ (s.set .eax env).set .ecx (s.reg .esp + 4) with
    mem := s.mem.store env.toNat (saved s |>.take 5) } : Cpu) = p at hload ⊢
  have hreg : ∀ r, r ≠ .eax → r ≠ .ecx → p.reg r = s.reg r := fun r h1 h2 => by
    rw [← hp]
    exact (Cpu.set_ne _ h2).trans (Cpu.set_ne _ h1)
  have hax : p.reg .eax = env := by rw [← hp]; rfl
  have hpm : p.mem = s.mem.store env.toNat (saved s |>.take 5) := by rw [← hp]
  rw [hax, hreg .esp (by decide) (by decide), hload]
  have hpmem : (p.st (env + 20) (s.ld (s.reg .esp))).mem = s.mem.store env.toNat (saved s) := by
    change p.mem.st32 _ _ = _
    rw [hpm, hmem]
  refine ⟨_, rfl, ?_, ?_, ?_, hreg .ebx (by decide) (by decide), hreg .esi (by decide) (by decide),
    hreg .edi (by decide) (by decide), hreg .ebp (by decide) (by decide), hpmem⟩
  · exact UInt32.xor_self
  · change UInt32.ofNat ((p.st (env + 20) (s.ld (s.reg .esp))).mem.ld32 (p.reg .esp).toNat) = _
    rw [hpmem, hreg .esp (by decide) (by decide), hret _ (by simp [saved])]
    rfl
  · change p.reg .esp + 4 = _
    rw [hreg .esp (by decide) (by decide)]

/-- The end of `longjmp`, when `eax` holds the buffer and `edx` the value. -/
lemma longjmp_end {p : Cpu} (hax : p.reg .eax = env)
    (henv : env.toNat + 24 ≤ 4294967296) (hl : Stacked p.mem env.toNat (saved s)) :
    ∃ w, exec [.load .ebx .eax 0, .load .esi .eax 4, .load .edi .eax 8, .load .ebp .eax 12,
        .load .ecx .eax 20, .load .esp .eax 16, .mov .eax .edx, .jmp .ecx] 0 p = some w ∧
      w.eip = s.ld (s.reg .esp) ∧ w.mem = p.mem ∧ w.reg .eax = p.reg .edx ∧
      w.reg .esp = s.reg .esp + 4 ∧ w.reg .ebx = s.reg .ebx ∧ w.reg .esi = s.reg .esi ∧
      w.reg .edi = s.reg .edi ∧ w.reg .ebp = s.reg .ebp := by
  obtain ⟨h4, h8, h12, h16, h20⟩ := env_add henv
  obtain ⟨hw0, hw4, hw8, hw12, hw16, hw20, -⟩ := hl
  have hld : ∀ {k : UInt32} {a : ℕ} {v : UInt32}, p.mem.ld32 a = v.toNat → (env + k).toNat = a →
      p.ld (p.reg .eax + k) = v := fun hv ha => by
    unfold Cpu.ld
    rw [hax, ha, hv, UInt32.ofNat_toNat]
  exact ⟨_, rfl, hld hw20 h20, rfl, rfl, hld hw16 h16, hld hw0 (by rw [UInt32.add_zero]),
    hld hw4 h4, hld hw8 h8, hld hw12 h12⟩

/-- **`longjmp` goes back to where `setjmp` has returned**, whatever has happened since: with the
registers that a C function keeps and the stack as they were, and with a value that is never zero. -/
theorem longjmp_setjmp (harg : s.ld (s.reg .esp + 4) = env) (henv : env.toNat + 24 ≤ 4294967296)
    (hout : env.toNat + 24 ≤ (s.reg .esp).toNat ∨ (s.reg .esp).toNat + 4 ≤ env.toNat) :
    ∃ t, exec setjmp 0 s = some t ∧ t.reg .eax = 0 ∧
      ∀ u : Cpu, u.ld (u.reg .esp + 4) = env →
        (∀ x, env.toNat ≤ x → x < env.toNat + 24 → u.mem x = t.mem x) →
        ∃ w, exec longjmp 0 u = some w ∧ w.eip = t.eip ∧ w.mem = u.mem ∧
          w.reg .eax = (if u.ld (u.reg .esp + 8) = 0 then 1 else u.ld (u.reg .esp + 8)) ∧
          w.reg .eax ≠ 0 ∧
          ∀ r, r = .esp ∨ r = .ebx ∨ r = .esi ∨ r = .edi ∨ r = .ebp → w.reg r = t.reg r := by
  obtain ⟨t, ht, hax, hip, hsp, hbx, hsi, hdi, hbp, hmem⟩ := setjmp_spec harg henv hout
  refine ⟨t, ht, hax, fun u hu hkeep => ?_⟩
  have hbuf : Stacked u.mem env.toNat (saved s) :=
    (hmem ▸ stacked_store s.mem env.toNat (saved s) : Stacked t.mem env.toNat (saved s)).congr hkeep
  obtain ⟨p, hp⟩ : ∃ p : Cpu, p = ((u.step (.load .eax .esp 4)).step (.load .edx .esp 8)).step
    (.test .edx .edx) := ⟨_, rfl⟩
  have hpax : p.reg .eax = env := by rw [hp, ← hu]; rfl
  have hpdx : p.reg .edx = u.ld (u.reg .esp + 8) := by rw [hp]; rfl
  have hpm : p.mem = u.mem := by rw [hp]; rfl
  have hz : p.zf = decide (u.ld (u.reg .esp + 8) = 0) := by
    rw [hp]
    change (Cpu.setFlags _ (u.ld (u.reg .esp + 8) &&& u.ld (u.reg .esp + 8))).zf = _
    rw [Cpu.zf_setFlags, UInt32.and_self]
  -- the value is made one when it is zero
  obtain ⟨q, hexec, hqax, hqm, hqdx⟩ : ∃ q : Cpu, exec longjmp 0 u = exec [.load .ebx .eax 0,
      .load .esi .eax 4, .load .edi .eax 8, .load .ebp .eax 12, .load .ecx .eax 20,
      .load .esp .eax 16, .mov .eax .edx, .jmp .ecx] 0 q ∧ q.reg .eax = env ∧ q.mem = u.mem ∧
      q.reg .edx = if u.ld (u.reg .esp + 8) = 0 then 1 else u.ld (u.reg .esp + 8) := by
    have hfirst : exec longjmp 0 u = exec [.add .edx 1, .load .ebx .eax 0, .load .esi .eax 4,
        .load .edi .eax 8, .load .ebp .eax 12, .load .ecx .eax 20, .load .esp .eax 16,
        .mov .eax .edx, .jmp .ecx] (if p.zf then 0 else 1) p := by
      rw [hp]
      rfl
    rw [hz] at hfirst
    by_cases hv : u.ld (u.reg .esp + 8) = 0
    · refine ⟨p.step (.add .edx 1), by rw [hfirst, if_pos (decide_eq_true hv)]; rfl, hpax, hpm, ?_⟩
      change p.reg .edx + 1 = _
      rw [hpdx, if_pos hv, hv]
      rfl
    · refine ⟨p, by rw [hfirst, if_neg (by simpa using hv)]; rfl, hpax, hpm, ?_⟩
      rw [hpdx, if_neg hv]
  obtain ⟨w, h1, h2, h3, h4, h5, h6, h7, h8, h9⟩ := longjmp_end hqax henv (s := s)
    (by rw [hqm]; exact hbuf)
  refine ⟨w, hexec.trans h1, h2.trans hip.symm, h3.trans hqm, h4.trans hqdx, ?_, ?_⟩
  · rw [h4, hqdx]
    split_ifs with hv
    · decide
    · exact hv
  · rintro r (rfl | rfl | rfl | rfl | rfl)
    · exact h5.trans hsp.symm
    · exact h6.trans hbx.symm
    · exact h7.trans hsi.symm
    · exact h8.trans hdi.symm
    · exact h9.trans hbp.symm

/-- A call of `setjmp` with the buffer at `0x600000`. -/
def atSetjmp : Cpu :=
  { reg := fun r => if r = .esp then 0x7FEFF0 else 7
    eip := 0
    cs := 0x1B
    ss := 0x23
    eflags := 0x202
    cr2 := 0
    mem := Mem.st32 (fun _ => 0) 0x7FEFF4 0x600000 }

theorem longjmp_setjmp_small :
    ∃ t, exec setjmp 0 atSetjmp = some t ∧ t.reg .eax = 0 ∧
      ∀ u : Cpu, u.ld (u.reg .esp + 4) = 0x600000 →
        (∀ x, 0x600000 ≤ x → x < 0x600000 + 24 → u.mem x = t.mem x) →
        ∃ w, exec longjmp 0 u = some w ∧ w.eip = t.eip ∧ w.mem = u.mem ∧
          w.reg .eax = (if u.ld (u.reg .esp + 8) = 0 then 1 else u.ld (u.reg .esp + 8)) ∧
          w.reg .eax ≠ 0 ∧
          ∀ r, r = .esp ∨ r = .ebx ∨ r = .esi ∨ r = .edi ∨ r = .ebp → w.reg r = t.reg r :=
  @longjmp_setjmp atSetjmp 0x600000 (by decide) (by decide) (by decide)

end LunariaOS.Libc
