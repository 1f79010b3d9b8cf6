import LunariaOS.Edit.Load

/-!
Which file `:w` writes to.

The editor keeps the name of the file that it has loaded or saved. The startup prompt also keeps the
name of a file that could not be loaded, since it takes it for a new one; a later `:w` then puts the
few bytes of the buffer in the place of the file.
-/

namespace LunariaOS.Edit

open LunariaOS.Lib LunariaOS.Fs

variable {sb : Superblock} {d : Disk}

/-- The contents of the file `name`, if there is one. -/
def contents (sb : Superblock) (d : Disk) (name : CStr) : Option (List UInt8) :=
  (slotOf sb d name).map fun k =>
    (List.range (entry sb d k).size).map (fileByte d (entry sb d k).lba)

/-- The editor, and the names that it may save under: those of files whose complete contents were in
the buffer, or that it has written, and a name without a file that was typed at the prompt. -/
structure Named where
  s : State
  mine : List CStr

namespace Named

/-- The editor after `startup`. -/
def start (sb : Superblock) (d : Disk) (name : CStr) : Named where
  s := State.startup sb d name
  mine :=
    if contents sb d name = none ∨ contents sb d name = some (State.startup sb d name).text then [name]
    else []

/-- A key. -/
def key (sb : Superblock) (t : Named) (k : ℤ) : Named :=
  match State.key sb t.s k with
  | (did, s) =>
    { s := s
      mine :=
        if did = .saved ∨ did = .loaded ∧ contents sb t.s.disk s.fname = some s.text then
          s.fname :: t.mine
        else t.mine }

/-- What `:w` replaces, if there is a name to save under, is a file of the session. -/
def Safe (t : Named) : Prop := t.s.fname.bytes ≠ [] → t.s.fname ∈ t.mine

end Named

/-! ### Complete loads -/

lemma landed_eq_iff (n : ℕ) (fault : ℕ → Bool) :
    landed n fault = n ↔ ∀ j < n, fault j = false := by
  induction n generalizing fault with
  | zero => exact iff_of_true rfl fun j hj => absurd hj (Nat.not_lt_zero j)
  | succ n ih =>
    have hle := landed_le n fun k => fault (k + 1)
    unfold landed
    constructor
    · intro h j hj
      split_ifs at h with hf
      cases j with
      | zero => simpa using hf
      | succ j => exact (ih fun k => fault (k + 1)).mp (by omega) j (by omega)
    · intro h
      have hf := h 0 (by omega)
      rw [if_neg (by simp [hf]), (ih _).mpr fun j hj => h (j + 1) (by omega)]

/-- The directory sectors up to the slot `k` and the sectors of its file can all be read. -/
lemma serves_file (d : Disk) (k : ℕ) :
    d.Serves (k / 16 + 1 + sectorsOf (entry sb d k).size) ↔
      d.Serves (k / 16 + 1) ∧ readBefore sb d k = sectorsOf (entry sb d k).size := by
  unfold readBefore
  rw [landed_eq_iff]
  constructor
  · exact fun h => ⟨fun j hj => h j (by omega), fun j hj => h _ (by omega)⟩
  · rintro ⟨h1, h2⟩ j hj
    by_cases hlt : j < k / 16 + 1
    · exact h1 j hlt
    · have := h2 (j - (k / 16 + 1)) (by omega)
      rwa [Nat.sub_add_cancel (by omega)] at this

/-- A load that succeeds has the complete contents of the file in the buffer. -/
lemma loaded_contents {s : State} {name : CStr}
    (h : 0 ≤ (fsRead sb name s.buf (bufMax - 1) s.disk).1) :
    contents sb s.disk name =
      some ((List.range (fsRead sb name s.buf (bufMax - 1) s.disk).1.toNat).map
        (fsRead sb name s.buf (bufMax - 1) s.disk).2.1) := by
  have hread := fsRead_readOf sb s.disk name s.buf (bufMax - 1)
  have hb : bufMax = 65536 := rfl
  unfold contents
  generalize (fsRead sb name s.buf (bufMax - 1) s.disk).1 = n at h hread ⊢
  generalize (fsRead sb name s.buf (bufMax - 1) s.disk).2.1 = buf at hread ⊢
  cases hread with
  | absent => omega
  | refused => omega
  | failed => omega
  | done k hslot hs hm hl =>
    rw [hslot, Option.map_some, i32_of_lt (by omega), Int.toNat_natCast]
    congr 1
    refine List.map_congr_left fun i hi => ?_
    rw [Mem.blit_of_in _ _ (Nat.zero_le i) (by simpa using hi), Nat.sub_zero]

/-- A load of a file fails if and only if the file does not fit or a transfer fails. -/
lemma fsRead_ok_iff {s : State} {name : CStr} {k : ℕ} (h : slotOf sb s.disk name = some k) :
    0 ≤ (fsRead sb name s.buf (bufMax - 1) s.disk).1 ↔
      (entry sb s.disk k).size ≤ bufMax - 1 ∧
        s.disk.Serves (k / 16 + 1 + sectorsOf (entry sb s.disk k).size) := by
  have hread := fsRead_readOf sb s.disk name s.buf (bufMax - 1)
  have hb : bufMax = 65536 := rfl
  rw [serves_file]
  generalize (fsRead sb name s.buf (bufMax - 1) s.disk).1 = n at hread ⊢
  generalize (fsRead sb name s.buf (bufMax - 1) s.disk).2.1 = buf at hread
  cases hread with
  | absent hslot =>
    rw [hslot] at h
    cases h
  | refused k' hslot hr =>
    obtain rfl : k' = k := Option.some.inj (hslot.symm.trans h)
    exact iff_of_false (by omega) fun hx => hr ⟨hx.2.1, hx.1⟩
  | failed k' hslot hs hm hl =>
    obtain rfl : k' = k := Option.some.inj (hslot.symm.trans h)
    exact iff_of_false (by omega) fun hx => absurd hx.2.2 hl.ne
  | done k' hslot hs hm hl =>
    obtain rfl : k' = k := Option.some.inj (hslot.symm.trans h)
    refine iff_of_true ?_ ⟨hm, hs, hl⟩
    rw [i32_of_lt (by omega)]
    omega

lemma fsRead_lt (s : State) (name : CStr) :
    (fsRead sb name s.buf (bufMax - 1) s.disk).1 < bufMax := by
  have hread := fsRead_readOf sb s.disk name s.buf (bufMax - 1)
  have hb : bufMax = 65536 := rfl
  generalize (fsRead sb name s.buf (bufMax - 1) s.disk).1 = n at hread ⊢
  generalize (fsRead sb name s.buf (bufMax - 1) s.disk).2.1 = buf at hread
  cases hread with
  | absent => omega
  | refused => omega
  | failed => omega
  | done k hslot hs hm hl =>
    rw [i32_of_lt (by omega)]
    omega

/-! ### The session -/

namespace Named

/-- A session whose buffer fits, and whose save target is safe. -/
def Inv (t : Named) : Prop := t.s.len < bufMax ∧ t.Safe

/-- A key that keeps the name. -/
lemma Safe.same {t : Named} (h : t.Safe) (s : State) (l : List CStr) (hname : s.fname = t.s.fname)
    (hl : ∀ n ∈ t.mine, n ∈ l) : Safe ⟨s, l⟩ := fun hne => by
  show s.fname ∈ l
  rw [hname]
  exact hl _ (h (by rw [← hname]; exact hne))

/-- **Every key keeps the save target safe**: only a complete load and a save give it a new name. -/
lemma Inv.key {t : Named} (h : Inv t) (k : ℤ) : Inv (t.key sb k) := by
  obtain ⟨hlen, hsafe⟩ := h
  unfold Named.key
  by_cases hq : t.s.quit = true
  · have hk : State.key sb t.s k = (.nothing, t.s) := by
      unfold State.key
      rw [if_pos hq]
    rw [hk]
    exact ⟨hlen, hsafe.same t.s _ rfl fun n hn => by simpa using hn⟩
  have hdoes := @State.key_does sb t.s k (Bool.eq_false_iff.mpr hq) hlen
  generalize State.key sb t.s k = r at hdoes ⊢
  cases hdoes with
  | idle => exact ⟨hlen, hsafe.same _ _ rfl fun n hn => by simpa using hn⟩
  | edit b n p hn => exact ⟨hn, hsafe.same _ _ rfl fun n hn => by simpa using hn⟩
  | leave => exact ⟨hlen, hsafe.same _ _ rfl fun n hn => by simpa using hn⟩
  | force => exact ⟨hlen, hsafe.same _ _ rfl fun n hn => by simpa using hn⟩
  | save name q => exact ⟨hlen, fun _ => by simp⟩
  | unsaved => exact ⟨hlen, hsafe.same _ _ rfl fun n hn => by simpa using hn⟩
  | load name hd hn =>
    have hlt := @fsRead_lt sb t.s name
    have hfull := loaded_contents hn
    refine ⟨?_, fun _ => ?_⟩
    · dsimp only
      omega
    · dsimp only
      rw [if_pos (Or.inr ⟨rfl, hfull⟩)]
      exact List.mem_cons_self
  | unloaded => exact ⟨hlen, hsafe.same _ _ rfl fun n hn => by simpa using hn⟩
  | reset => exact ⟨Nat.zero_lt_succ _, fun hne => absurd rfl hne⟩

/-- The startup prompt keeps the name that was typed. -/
lemma startup_cases (sb : Superblock) (d : Disk) {name : CStr} (hname : name.bytes ≠ []) :
    (State.startup sb d name).fname = name ∧ (State.startup sb d name).len < bufMax ∧
      (0 ≤ (fsRead sb name (State.loaded d).buf (bufMax - 1) d).1 →
        contents sb d name = some (State.startup sb d name).text) ∧
      ((fsRead sb name (State.loaded d).buf (bufMax - 1) d).1 < 0 →
        (State.startup sb d name).text = []) := by
  have hb : bufMax = 65536 := rfl
  unfold State.startup
  rw [if_neg hname]
  rcases @State.loadInto_cases sb (State.loaded d) name with ⟨hn, e⟩ | ⟨hn, e⟩
  · rw [e]
    refine ⟨rfl, Nat.zero_lt_succ _, fun h => absurd h ?_, fun _ => rfl⟩
    exact not_le.mpr hn
  · have hlt := @fsRead_lt sb (State.loaded d) name
    have hfull := loaded_contents hn
    rw [e]
    refine ⟨rfl, ?_, fun _ => hfull, fun h => absurd hn (not_le.mpr h)⟩
    change (fsRead sb name (State.loaded d).buf (bufMax - 1) (State.loaded d).disk).1.toNat < bufMax
    omega

/-- A file whose name is typed at the prompt is loaded completely, or there is no such file. -/
def Loads (sb : Superblock) (d : Disk) (name : CStr) : Prop :=
  name.bytes ≠ [] → ∀ k, slotOf sb d name = some k →
    (entry sb d k).size = 0 ∨ (entry sb d k).size ≤ bufMax - 1 ∧
      d.Serves (k / 16 + 1 + sectorsOf (entry sb d k).size)

lemma start_safe_iff (sb : Superblock) (d : Disk) (name : CStr) :
    (start sb d name).Safe ↔ Loads sb d name := by
  unfold Safe Loads start
  dsimp only
  by_cases hname : name.bytes = []
  · have h : State.startup sb d name = State.loaded d := if_pos hname
    rw [h]
    exact iff_of_true (fun hne => absurd rfl hne) fun hne => absurd hname hne
  obtain ⟨hf, -, hdone, hfail⟩ := startup_cases sb d hname
  rw [hf]
  simp only [ne_eq, hname, not_false_eq_true, forall_true_left]
  cases hslot : slotOf sb d name with
  | none =>
    have hc : contents sb d name = none := by
      unfold contents
      rw [hslot]
      rfl
    rw [if_pos (Or.inl hc)]
    exact iff_of_true List.mem_cons_self fun k hk => by cases hk
  | some k =>
    have hc : contents sb d name =
        some ((List.range (entry sb d k).size).map (fileByte d (entry sb d k).lba)) := by
      unfold contents
      rw [hslot]
      rfl
    have hok := @fsRead_ok_iff sb (State.loaded d) name k hslot
    simp only [Option.some.injEq, forall_eq']
    rcases lt_or_ge (fsRead sb name (State.loaded d).buf (bufMax - 1) d).1 0 with hn | hn
    · -- the buffer is empty, which is right for an empty file only
      rw [hfail hn, hc]
      have hno : ¬ ((entry sb d k).size ≤ bufMax - 1 ∧
          d.Serves (k / 16 + 1 + sectorsOf (entry sb d k).size)) := fun h =>
        absurd (hok.mpr h) (not_le.mpr hn)
      simp only [reduceCtorEq, Option.some.injEq, List.map_eq_nil_iff, List.range_eq_nil, false_or,
        hno, or_false]
      split_ifs with h0 <;> simp [h0]
    · rw [if_pos (Or.inr (hdone hn))]
      exact iff_of_true List.mem_cons_self (Or.inr (hok.mp hn))

/-- **The save target.** Whatever keys follow, `:w` replaces no file that was not fully loaded, if and
only if the file that is named at the prompt is. -/
theorem target_safe_iff (sb : Superblock) (d : Disk) (name : CStr) :
    (∀ ks, (run (key sb) (start sb d name) ks).Safe) ↔ Loads sb d name := by
  rw [← start_safe_iff]
  constructor
  · exact fun h => h []
  · intro h ks
    refine (run_inv_all (P := Inv) (fun t k ht => ht.key k) ks ⟨?_, h⟩).2
    show (State.startup sb d name).len < bufMax
    by_cases hname : name.bytes = []
    · have h : State.startup sb d name = State.loaded d := if_pos hname
      rw [h]
      exact Nat.zero_lt_succ _
    · exact (startup_cases sb d hname).2.1

/-- A disk with a file of two sectors, the second of which cannot be read once. -/
def flaky : Disk := { longF.disk with fault := fun n => n == 2 }

/-- The name is typed, then an `a`, then `:w`: what is left of the file is the `a`. -/
theorem file_lost :
    (contents longF.sb flaky pathF).map List.length = some 700 ∧
      ¬ (start longF.sb flaky pathF).Safe ∧
      contents longF.sb
        (run (key longF.sb) (start longF.sb flaky pathF) [97, keyEsc, 119, keyEnter]).s.disk pathF =
          some [97] := by
  refine ⟨by decide +kernel, fun h => ?_, by decide +kernel⟩
  exact absurd (h (by decide +kernel)) (by decide +kernel)

end Named

end LunariaOS.Edit
