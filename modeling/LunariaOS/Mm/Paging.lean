import LunariaOS.Mm.Kernel

/-!
The loops of `paging_init`.

`map_page` is one turn of the loop of `map_range`. It fails when it needs a page table and no frame
is free, and else enters the page in the kernel's tables. A range is then a run of such turns, which
ends if the range does not reach into the last page of the address space.
-/

namespace LunariaOS.Mm

open LunariaOS.Lib

variable {K : Image} {table : List E820Entry} {s : Vm} {B : Book}

/-- On the way from `B` to `B'` the pages of `P` have been mapped, with new page tables where there
were none. -/
structure Grows (B B' : Book) (P : ℕ → Prop) : Prop where
  used : ∀ i, B.used i = true → B'.used i = true
  mapped : ∀ r, B'.mapped r = true ↔ B.mapped r = true ∨ P r
  kept : ∀ p t, B.table p = some t → B'.table p = some t
  tables : ∀ p t, B'.table p = some t → B.table p = none →
    B.used t = false ∧ ∃ r, P r ∧ r / 1024 = p
  frames : ∀ i, B'.used i = true → B.used i = true ∨ ∃ p, B.table p = none ∧ B'.table p = some i

lemma Grows.refl (B : Book) {P : ℕ → Prop} (hP : ∀ r, ¬ P r) : Grows B B P where
  used := fun _ h => h
  mapped := fun r => ⟨Or.inl, fun h => h.resolve_right (hP r)⟩
  kept := fun _ _ h => h
  tables := fun p t h1 h2 => by
    rw [h2] at h1
    cases h1
  frames := fun _ h => Or.inl h

lemma Grows.none_of_none {B' : Book} {P : ℕ → Prop} (h : Grows B B' P) {p : ℕ}
    (hp : B'.table p = none) : B.table p = none := by
  cases ht : B.table p with
  | none => rfl
  | some t =>
    rw [h.kept p t ht] at hp
    cases hp

lemma Grows.trans {B' B'' : Book} {P P' : ℕ → Prop} (h : Grows B B' P) (h' : Grows B' B'' P') :
    Grows B B'' fun r => P r ∨ P' r where
  used := fun i hi => h'.used i (h.used i hi)
  mapped := fun r => by rw [h'.mapped, h.mapped, or_assoc]
  kept := fun p t ht => h'.kept p t (h.kept p t ht)
  tables := fun p t h1 h2 => by
    cases hp : B'.table p with
    | none =>
      obtain ⟨hu, r, hr, e⟩ := h'.tables p t h1 hp
      refine ⟨?_, r, Or.inr hr, e⟩
      by_contra hused
      rw [h.used t (by simpa using hused)] at hu
      cases hu
    | some u =>
      rw [h'.kept p u hp] at h1
      obtain rfl := Option.some.inj h1
      obtain ⟨hu, r, hr, e⟩ := h.tables p u hp h2
      exact ⟨hu, r, Or.inl hr, e⟩
  frames := fun i hi => by
    rcases h'.frames i hi with h1 | ⟨p, h1, h2⟩
    · rcases h.frames i h1 with h2 | ⟨p, h2, h3⟩
      · exact Or.inl h2
      · exact Or.inr ⟨p, h2, h'.kept p i h3⟩
    · exact Or.inr ⟨p, h.none_of_none h1, h2⟩

lemma Grows.congr {B' : Book} {P P' : ℕ → Prop} (h : Grows B B' P) (hP : ∀ r, P r ↔ P' r) :
    Grows B B' P' := by
  have : P = P' := funext fun r => propext (hP r)
  rwa [← this]

/-! ### One page -/

lemma pdeAt_eq (K : Image) (q : ℕ) : pdeAt K.pageDir (4096 * q) = 4096 * dirPage K + 4 * (q / 1024) := by
  have := pageDir_eq K
  unfold pdeAt
  omega

lemma pteAt_eq (t q : ℕ) : pteAt (4096 * t) (4096 * q) = 4096 * t + 4 * (q % 1024) := by
  unfold pteAt
  omega

/-- The book with the page `q` entered, in a table that is there. -/
def Book.enter (B : Book) (q : ℕ) : Book := { B with mapped := Function.update B.mapped q true }

/-- The book with the frame `f` as the page table of the directory entry `p`. -/
def Book.addTable (B : Book) (p f : ℕ) : Book :=
  { B with used := Function.update B.used f true, table := Function.update B.table p (some f) }

@[simp] lemma Book.enter_used (q : ℕ) : (B.enter q).used = B.used := rfl
@[simp] lemma Book.enter_table (q : ℕ) : (B.enter q).table = B.table := rfl
@[simp] lemma Book.addTable_mapped (p f : ℕ) : (B.addTable p f).mapped = B.mapped := rfl

lemma Book.enter_mapped (q r : ℕ) :
    (B.enter q).mapped r = if r = q then true else B.mapped r := Function.update_apply ..

lemma Book.addTable_used (p f i : ℕ) :
    (B.addTable p f).used i = if i = f then true else B.used i := Function.update_apply ..

lemma Book.addTable_table (p f r : ℕ) :
    (B.addTable p f).table r = if r = p then some f else B.table r := Function.update_apply ..

/-- A page entered in its table. -/
lemma KernelMap.enter (h : KernelMap K table s B) {q t : ℕ} (hq : q < 1048576)
    (ht : B.table (q / 1024) = some t) :
    KernelMap K table { s with mem := s.mem.st32 (4096 * t + 4 * (q % 1024)) (4096 * q + 3) }
      (B.enter q) := by
  obtain ⟨-, hloose, -⟩ := h.tables _ t ht
  have hword : ∀ i k, k < 1024 → (s.mem.st32 (4096 * t + 4 * (q % 1024)) (4096 * q + 3)).word i k =
      if i = t ∧ k = q % 1024 then 4096 * q + 3 else s.mem.word i k :=
    fun i k hk => Mem.word_st32 (by omega) (Nat.mod_lt _ (by omega)) hk
  refine ⟨h.tracks.withMem fun i hi => Mem.bit_st32 hloose.apart hi (Nat.mod_lt _ (by omega)),
    h.loose, fun p hp => ?_, h.tables, h.inj, fun p u hu j hj => ?_, fun r hr => ?_⟩
  · simp only [hword _ p hp]
    rw [if_neg fun e => hloose.ne_dirPage e.1.symm]
    exact h.pde p hp
  · rw [Book.enter_table] at hu
    simp only [hword _ j hj]
    rw [Book.enter_mapped]
    by_cases hut : u = t ∧ j = q % 1024
    · obtain ⟨rfl, rfl⟩ := hut
      have hp := h.inj p (q / 1024) u hu ht
      have hqe : 1024 * p + q % 1024 = q := by omega
      rw [if_pos ⟨rfl, rfl⟩, hqe, if_pos rfl, if_pos rfl]
    · have hne : 1024 * p + j ≠ q := by
        rintro rfl
        have hp : (1024 * p + j) / 1024 = p := by omega
        rw [hp, hu] at ht
        exact hut ⟨Option.some.inj ht, by omega⟩
      rw [if_neg hut, if_neg hne]
      exact h.pte p u hu j hj
  · rw [Book.enter_mapped] at hr
    rw [Book.enter_table]
    by_cases hrq : r = q
    · rw [hrq, ht]
      exact Option.some_ne_none t
    · rw [if_neg hrq] at hr
      exact h.mapped_table r hr

/-- A fresh page table in the kernel directory. -/
lemma KernelMap.addTable (h : KernelMap K table s B) {p f : ℕ} (hp : p < 1024)
    (hnone : B.table p = none) (hf : B.used f = false) :
    KernelMap K table (s.enterFrame f (dirPage K) p (4096 * f + 3)) (B.addTable p f) := by
  have hloose := h.loose f hf
  have hlt : f < frameCount table := hloose.lt
  have hcount := frameCount_le table
  have hword : ∀ i k, k < 1024 → Mem.PageApart i (bitmapAddr K) (bitmapBytes (frameCount table)) →
      (s.enterFrame f (dirPage K) p (4096 * f + 3)).mem.word i k =
      if i = dirPage K ∧ k = p then 4096 * f + 3 else if i = f then 0 else s.mem.word i k :=
    fun i k hk hi => enterFrame_word h.tracks hlt (by omega) hp hi hk
  refine ⟨enterFrame_tracks h.tracks hlt hf hloose.apart dirPage_apart hp _, fun i hi => ?_,
    fun p' hp' => ?_, fun p' t ht => ?_, fun p' q' t h1 h2 => ?_, fun p' t ht j hj => ?_,
    fun r hr => ?_⟩
  · by_cases hif : i = f
    · subst hif
      exact hloose
    · rw [Book.addTable_used, if_neg hif] at hi
      exact h.loose i hi
  · simp only [hword _ p' hp' dirPage_apart]
    rw [Book.addTable_table]
    by_cases hpp : p' = p
    · rw [if_pos ⟨trivial, hpp⟩, if_pos hpp]
      rfl
    · rw [if_neg fun e => hpp e.2, if_neg fun e => hloose.ne_dirPage e.symm, if_neg hpp]
      exact h.pde p' hp'
  · rw [Book.addTable_table] at ht
    rw [Book.addTable_used]
    by_cases hpp : p' = p
    · rw [if_pos hpp] at ht
      obtain rfl := Option.some.inj ht
      rw [hpp]
      exact ⟨hp, hloose, if_pos rfl⟩
    · rw [if_neg hpp] at ht
      obtain ⟨h1, h2, h3⟩ := h.tables p' t ht
      refine ⟨h1, h2, ?_⟩
      split_ifs
      · rfl
      · exact h3
  · have hnew : ∀ r, (B.addTable p f).table r = some t → (r = p ∧ t = f) ∨
        (B.table r = some t ∧ t ≠ f) := by
      intro r hr
      rw [Book.addTable_table] at hr
      by_cases hrp : r = p
      · rw [if_pos hrp] at hr
        exact Or.inl ⟨hrp, (Option.some.inj hr).symm⟩
      · rw [if_neg hrp] at hr
        exact Or.inr ⟨hr, h.free_ne hf (Or.inr ⟨r, hr⟩)⟩
    rcases hnew p' h1 with ⟨e1, e2⟩ | ⟨e1, e2⟩
    · rcases hnew q' h2 with ⟨e3, -⟩ | ⟨-, e4⟩
      · rw [e1, e3]
      · exact absurd e2 e4
    · rcases hnew q' h2 with ⟨-, e4⟩ | ⟨e3, -⟩
      · exact absurd e4 e2
      · exact h.inj p' q' t e1 e3
  · rw [Book.addTable_table] at ht
    rw [Book.addTable_mapped]
    by_cases hpp : p' = p
    · rw [if_pos hpp] at ht
      obtain rfl := Option.some.inj ht
      have hno : B.mapped (1024 * p' + j) = false := by
        by_contra hm
        refine h.mapped_table (1024 * p' + j) (by simpa using hm) ?_
        rw [show (1024 * p' + j) / 1024 = p' by omega, hpp]
        exact hnone
      simp only [hword _ j hj hloose.apart]
      rw [if_neg fun e => hloose.ne_dirPage e.1, if_pos trivial, hno]
      rfl
    · rw [if_neg hpp] at ht
      have htf := h.free_ne hf (Or.inr ⟨p', ht⟩)
      have htl := (h.tables p' t ht).2.1
      simp only [hword _ j hj htl.apart]
      rw [if_neg fun e => htl.ne_dirPage e.1, if_neg htf]
      exact h.pte p' t ht j hj
  · rw [Book.addTable_mapped] at hr
    rw [Book.addTable_table]
    split_ifs
    · exact Option.some_ne_none f
    · exact h.mapped_table r hr

/-! ### One turn of the loop -/

lemma Grows.enter (B : Book) (q : ℕ) : Grows B (B.enter q) (· = q) where
  used := fun _ h => h
  mapped := fun r => by
    rw [Book.enter_mapped]
    by_cases hr : r = q
    · simp [hr]
    · simp [hr]
  kept := fun _ _ h => h
  tables := fun p t h1 h2 => by
    rw [Book.enter_table, h2] at h1
    cases h1
  frames := fun _ h => Or.inl h

lemma Grows.addTable {q f : ℕ} (hnone : B.table (q / 1024) = none) (hf : B.used f = false) :
    Grows B ((B.addTable (q / 1024) f).enter q) (· = q) where
  used := fun i hi => by
    rw [Book.enter_used, Book.addTable_used]
    split_ifs
    · rfl
    · exact hi
  mapped := fun r => by
    rw [Book.enter_mapped, Book.addTable_mapped]
    by_cases hr : r = q
    · simp [hr]
    · simp [hr]
  kept := fun p t ht => by
    rw [Book.enter_table, Book.addTable_table, if_neg]
    · exact ht
    · rintro rfl
      rw [hnone] at ht
      cases ht
  tables := fun p t h1 h2 => by
    rw [Book.enter_table, Book.addTable_table] at h1
    split_ifs at h1 with hp
    · obtain rfl := Option.some.inj h1
      exact ⟨hf, q, rfl, hp.symm⟩
    · rw [h2] at h1
      cases h1
  frames := fun i hi => by
    rw [Book.enter_used, Book.addTable_used] at hi
    split_ifs at hi with hif
    · refine Or.inr ⟨q / 1024, hnone, ?_⟩
      rw [Book.enter_table, Book.addTable_table, if_pos rfl, hif]
    · exact Or.inl hi

/-- No frame is left. -/
def Book.Full (table : List E820Entry) (B : Book) : Prop := ∀ i < frameCount table, B.used i = true

/-- The page table of a page is there, or a frame becomes it, or none is left. -/
lemma tableFor_cases (h : KernelMap K table s B) {q : ℕ} (hq : q < 1048576) :
    (s.tableFor K (4096 * q) false = (false, s) ∧ B.table (q / 1024) = none ∧ B.Full table) ∨
    ∃ s' B' t, s.tableFor K (4096 * q) false = (true, s') ∧ s'.curDir = s.curDir ∧
      KernelMap K table s' B' ∧ B'.table (q / 1024) = some t ∧
      Grows B (B'.enter q) (· = q) := by
  have hp : q / 1024 < 1024 := by omega
  have hpde : s.mem.ld32 (pdeAt K.pageDir (4096 * q)) = pdeOf (B.table (q / 1024)) := by
    rw [pdeAt_eq]
    exact h.pde _ hp
  unfold Vm.tableFor
  rw [hpde]
  cases ht : B.table (q / 1024) with
  | none =>
    rw [if_pos (by rfl)]
    rcases allocFrame_cases h.tracks with ⟨ha, hfull⟩ | ⟨f, -, hf, ha⟩
    · refine Or.inl ⟨?_, rfl, hfull⟩
      rw [ha]
      exact if_pos rfl
    · have hlow := (h.loose f hf).low
      have hflags : 4096 * f ||| 0x3 ||| userFlag false = 4096 * f + 3 := by
        rw [or_flags f (by omega)]
        exact Nat.or_zero _
      refine Or.inr ⟨_, _, f, ?_, ?_, h.addTable hp ht hf, ?_, Grows.addTable ht hf⟩
      · rw [ha]
        simp only
        rw [if_neg (by omega), hflags, pdeAt_eq]
        rfl
      · rfl
      · rw [Book.addTable_table, if_pos rfl]
  | some t =>
    have hstore : s.mem.st32 (pdeAt K.pageDir (4096 * q)) (pdeOf (some t)) = s.mem := by
      rw [← ht, ← hpde]
      exact Mem.st32_ld32 ..
    have hclear : pdeOf (some t) - pdeOf (some t) / 4 % 2 * 4 = pdeOf (some t) := by
      unfold pdeOf
      simp only
      omega
    refine Or.inr ⟨s, B, t, ?_, rfl, h, ht, Grows.enter B q⟩
    rw [if_neg (by rw [present_pdeOf]; simp), if_pos (by rfl), hclear, hstore]

/-- What one turn of the loop of `map_range` does. -/
lemma mapPage_cases (h : KernelMap K table s B) {q : ℕ} (hq : q < 1048576) :
    (s.mapPage K (4096 * q) false = (false, s) ∧ B.table (q / 1024) = none ∧ B.Full table) ∨
    ∃ s' B', s.mapPage K (4096 * q) false = (true, s') ∧ s'.curDir = s.curDir ∧
      KernelMap K table s' B' ∧ Grows B B' (· = q) := by
  rcases tableFor_cases h hq with ⟨e, hnone, hfull⟩ | ⟨s', B', t, e, hcur, hmap, ht, hgrows⟩
  · refine Or.inl ⟨?_, hnone, hfull⟩
    unfold Vm.mapPage
    rw [e]
    rfl
  · refine Or.inr ⟨_, _, ?_, ?_, hmap.enter hq ht, hgrows⟩
    · have hpde : s'.mem.ld32 (pdeAt K.pageDir (4096 * q)) = 4096 * t + 3 := by
        rw [pdeAt_eq]
        exact (hmap.pde _ (by omega)).trans (by rw [ht]; rfl)
      have hflags : 4096 * q ||| 0x3 ||| userFlag false = 4096 * q + 3 := by
        rw [or_flags q (by omega)]
        exact Nat.or_zero _
      unfold Vm.mapPage
      rw [e]
      simp only [hpde, entryAddr_flags t (show 3 < 4096 by omega), pteAt_eq, hflags]
      rfl
    · exact hcur

/-! ### The whole loop -/

/-- The page after `k` turns of a loop that starts at the page `q`; the addresses wrap at 4 GiB. -/
def pageAfter (q k : ℕ) : ℕ := (q + k) % 1048576

/-- **The loop of `map_range`.** It has mapped the pages of some number of turns, all below `stop`,
and then runs out of fuel, comes to `stop`, or needs a page table when no frame is left. -/
theorem mapRange_run (stop : ℕ) (n : ℕ) {q : ℕ} (h : KernelMap K table s B) (hq : q < 1048576) :
    ∃ k ≤ n, ∃ s' B', s'.curDir = s.curDir ∧ KernelMap K table s' B' ∧
      Grows B B' (fun r => ∃ i < k, r = pageAfter q i) ∧
      (∀ i < k, 4096 * pageAfter q i < stop) ∧
      ((s.mapRange K stop false n (4096 * q) = none ∧ k = n) ∨
      (s.mapRange K stop false n (4096 * q) = some (true, s') ∧ stop ≤ 4096 * pageAfter q k) ∨
      (s.mapRange K stop false n (4096 * q) = some (false, s') ∧ 4096 * pageAfter q k < stop ∧
        B'.table (pageAfter q k / 1024) = none ∧ B'.Full table)) := by
  have hq0 : pageAfter q 0 = q := Nat.mod_eq_of_lt hq
  induction n generalizing s B q with
  | zero =>
    exact ⟨0, le_rfl, s, B, rfl, h, Grows.refl B fun _ ⟨_, hi, _⟩ => by omega, by omega,
      Or.inl ⟨rfl, rfl⟩⟩
  | succ n ih =>
    by_cases hstop : 4096 * q < stop
    · rcases mapPage_cases h hq with ⟨e, hnone, hfull⟩ | ⟨s₁, B₁, e, hcur₁, hmap₁, hgrows₁⟩
      · refine ⟨0, by omega, s, B, rfl, h, Grows.refl B fun _ ⟨_, hi, _⟩ => by omega, by omega,
          Or.inr (Or.inr ⟨?_, ?_, ?_, hfull⟩)⟩
        · unfold Vm.mapRange
          rw [if_pos hstop, e]
          rfl
        · rwa [hq0]
        · rwa [hq0]
      · have hnext : u32 (4096 * q + pageSize) = 4096 * pageAfter q 1 := by
          unfold u32 pageSize pageAfter
          omega
        have hlt : pageAfter q 1 < 1048576 := Nat.mod_lt _ (by omega)
        have hafter : ∀ i, pageAfter (pageAfter q 1) i = pageAfter q (i + 1) := by
          intro i
          unfold pageAfter
          omega
        have hrun : s.mapRange K stop false (n + 1) (4096 * q) =
            s₁.mapRange K stop false n (4096 * pageAfter q 1) := by
          conv_lhs => unfold Vm.mapRange
          rw [if_pos hstop, e]
          simp only [hnext]
          rfl
        obtain ⟨k, hk, s', B', hcur, hmap, hgrows, hbelow, hend⟩ :=
          ih hmap₁ hlt (Nat.mod_eq_of_lt hlt)
        simp only [hafter] at hgrows hbelow hend
        refine ⟨k + 1, by omega, s', B', hcur.trans hcur₁, hmap,
          (hgrows₁.trans hgrows).congr fun r => ?_, fun i hi => ?_, ?_⟩
        · constructor
          · rintro (rfl | ⟨i, hi, rfl⟩)
            · exact ⟨0, by omega, hq0.symm⟩
            · exact ⟨i + 1, by omega, rfl⟩
          · rintro ⟨i, hi, rfl⟩
            cases i with
            | zero => exact Or.inl hq0
            | succ i => exact Or.inr ⟨i, by omega, rfl⟩
        · cases i with
          | zero => rwa [hq0]
          | succ i => exact hbelow i (by omega)
        · rw [hrun]
          rcases hend with ⟨h1, h2⟩ | h1 | h1
          · exact Or.inl ⟨h1, by omega⟩
          · exact Or.inr (Or.inl h1)
          · exact Or.inr (Or.inr h1)
    · refine ⟨0, by omega, s, B, rfl, h, Grows.refl B fun _ ⟨_, hi, _⟩ => by omega, by omega,
        Or.inr (Or.inl ⟨?_, ?_⟩)⟩
      · unfold Vm.mapRange
        rw [if_neg hstop]
      · rw [hq0]
        omega

end LunariaOS.Mm
