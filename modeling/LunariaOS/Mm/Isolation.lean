import LunariaOS.Mm.Lives

/-!
The window and the kernel's map.

The kernel directory has no page table for the window unless an entry of the memory map reaches into
the last page of the address space: then the loop wraps, comes to the window from below, and maps it
if a frame for its page table is left. All else that ring 3 must not see stays hidden in any case.
-/

namespace LunariaOS.Mm

open LunariaOS.Lib

variable {K : Image} {table : List E820Entry} {s : Vm} {B : Book}

/-! ### An entry that wraps -/

/-- A range up to an end in the last page of the address space, when the loop has ended: no frame is
left, and the loop has come to the window or not. -/
lemma mapRange_wraps (h : KernelMap K table s B) {q stop : ℕ} (hq : 2048 ≤ q) (hq' : q < 1048576)
    (hstop : 0xFFFFF000 < stop) {r : Bool × Vm}
    (hr : s.mapRange K stop false turns (4096 * q) = some r) :
    ∃ s' B' P, r = (false, s') ∧ KernelMap K table s' B' ∧ Grows B B' P ∧ B'.Full table ∧
      (((∀ x, P x → q ≤ x ∨ x < 1024) ∧ ∀ x, P x → x < 1048576) ∨
        ((∀ x, q ≤ x → x < 1048576 → P x) ∧ P 1024)) := by
  obtain ⟨k, -, s', B', -, hmap, hgrows, -, hend⟩ := mapRange_run stop turns h hq'
  have hlt : ∀ i, pageAfter q i < 1048576 := fun i => Nat.mod_lt _ (by omega)
  rcases hend with ⟨e, -⟩ | ⟨-, hge⟩ | ⟨e, -, -, hfull⟩
  · rw [e] at hr
    cases hr
  · have := hlt k
    omega
  · rw [e] at hr
    refine ⟨s', B', _, (Option.some.inj hr).symm, hmap, hgrows, hfull, ?_⟩
    by_cases hk : k ≤ 1048576 - q + 1024
    · refine Or.inl ⟨?_, ?_⟩
      · rintro x ⟨i, hi, rfl⟩
        unfold pageAfter
        omega
      · rintro x ⟨i, -, rfl⟩
        exact hlt i
    · refine Or.inr ⟨fun x h1 h2 => ⟨x - q, by omega, ?_⟩, 1048576 - q + 1024, by omega, ?_⟩
      · unfold pageAfter
        omega
      · unfold pageAfter
        omega

/-- Pages that are mapped below or above the window only leave it without a page table. -/
lemma Grows.window_none {B' : Book} {P : ℕ → Prop} (h : Grows B B' P) (hnone : B.table 1 = none)
    (hP : ∀ r, P r → r < 1024 ∨ 2048 ≤ r) : B'.table 1 = none := by
  cases ht : B'.table 1 with
  | none => rfl
  | some t =>
    obtain ⟨-, r, hr, e⟩ := h.tables 1 t ht hnone
    have := hP r hr
    omega

/-- An entry that wraps, when its loops have ended and the window was not mapped before: the window is
mapped now, and so is all of the entry, or only pages of the entry and of the first 4 MiB are. -/
lemma mapEntry_wraps (h : KernelMap K table s B) (hnone : B.table 1 = none) {e : E820Entry}
    (he : e.Wraps) {r : Bool × Vm} (hr : s.mapEntry K turns e = some r) :
    ∃ s' B' P, r = (false, s') ∧ KernelMap K table s' B' ∧ Grows B B' P ∧ B'.Full table ∧
      ((B'.table 1 = none ∧ ∀ x, P x → e.Maps x ∨ x < 1024) ∨
        (B'.table 1 ≠ none ∧ ∀ x, e.Maps x → P x)) := by
  obtain ⟨hskip, hlt, hstop⟩ := he
  have hbase := e.mapBase_lt
  rw [mapEntry_eq, if_neg (by rw [hskip]; decide)] at hr
  obtain ⟨ok₁, s₁, B₁, P₁, e₁, -, hmap₁, hgrows₁, htrue₁, hfalse₁⟩ := mapLow_covers h hlt
  have hhigh : e.mapEnd > userTop := by
    unfold userTop
    omega
  unfold Vm.mapSupervisor at hr
  rw [if_neg (by omega), e₁] at hr
  change ((if e.mapEnd > userTop then
      s₁.mapRange K e.mapEnd false turns
        (entryAddr (if e.mapBase > userTop then e.mapBase else userTop))
    else some (true, s₁)).bind fun y => some (ok₁ && y.1, y.2)) = some r at hr
  rw [if_pos hhigh, entryAddr_eq] at hr
  obtain ⟨y, hy, hr⟩ := Option.bind_eq_some_iff.mp hr
  generalize hq : (if e.mapBase > userTop then e.mapBase else userTop) / 4096 = q at hy
  have hq' : 2048 ≤ q ∧ q < 1048576 ∧ e.mapBase / 4096 ≤ q ∧
      ∀ x, 2048 ≤ x → e.mapBase / 4096 ≤ x → q ≤ x := by
    rw [← hq]
    by_cases hb : e.mapBase > userTop
    · rw [if_pos hb]
      unfold userTop at hb
      refine ⟨by omega, by omega, by omega, fun x _ _ => by omega⟩
    · rw [if_neg hb]
      unfold userTop at *
      refine ⟨by omega, by omega, by omega, fun x _ _ => by omega⟩
  obtain ⟨hq₁, hq₂, hq₃, hq₄⟩ := hq'
  obtain ⟨s₂, B₂, P₂, rfl, hmap₂, hgrows₂, hfull, hcase⟩ := mapRange_wraps hmap₁ hq₁ hq₂ hstop hy
  have hlow : ∀ x, P₁ x → x < 1024 := by
    intro x hx
    cases ok₁ with
    | true => exact ((htrue₁ rfl x).mp hx).2
    | false => exact ((hfalse₁ rfl).1 x hx).2
  have hnone₁ : B₁.table 1 = none := hgrows₁.window_none hnone fun x hx => Or.inl (hlow x hx)
  refine ⟨s₂, B₂, _, ?_, hmap₂, hgrows₁.trans hgrows₂, hfull, ?_⟩
  · rw [← Option.some.inj hr, Bool.and_false]
  rcases hcase with ⟨hsub, hsub'⟩ | ⟨hall, hwindow⟩
  · refine Or.inl ⟨hgrows₂.window_none hnone₁ fun x hx => ?_, fun x hx => ?_⟩
    · have := hsub x hx
      omega
    · rcases hx with hx | hx
      · exact Or.inr (hlow x hx)
      · rcases hsub x hx with h1 | h1
        · have h2 := hsub' x hx
          exact Or.inl ⟨hskip, hlt, by omega, by omega, Or.inr (by omega)⟩
        · exact Or.inr h1
  · have hsome : B₂.table 1 ≠ none :=
      hmap₂.mapped_table 1024 ((hgrows₂.mapped 1024).mpr (Or.inr hwindow))
    refine Or.inr ⟨hsome, fun x hx => ?_⟩
    cases ok₁ with
    | true =>
      obtain ⟨-, hrange⟩ := hx
      rcases id hrange with ⟨-, h1, h2, h3 | h3⟩
      · exact Or.inl ((htrue₁ rfl x).mpr ⟨hrange, h3⟩)
      · have : e.mapEnd < 4294967296 := u32_lt _
        exact Or.inr (hall x (hq₄ x h3 h1) (by omega))
    | false =>
      -- no frame was left for the window
      exact absurd (hgrows₂.full_none hmap₂ (hfalse₁ rfl).2.2 hnone₁) hsome

/-! ### The window after `paging_init` -/

/-- The entries before the first one that wraps, and that one. -/
structure FirstWrap (table pre post : List E820Entry) (e : E820Entry) : Prop where
  split : table = pre ++ e :: post
  before : ∀ e' ∈ pre, ¬ e'.Wraps
  wraps : e.Wraps

lemma exists_firstWrap (h : ∃ e ∈ table, e.Wraps) : ∃ pre e post, FirstWrap table pre post e := by
  induction table with
  | nil =>
    obtain ⟨e, he, -⟩ := h
    cases he
  | cons e l ih =>
    by_cases he : e.Wraps
    · exact ⟨[], e, l, rfl, (fun e' he' => by cases he'), he⟩
    · have hl : ∃ e' ∈ l, e'.Wraps := by
        obtain ⟨e', he', hw⟩ := h
        rcases List.mem_cons.mp he' with rfl | he'
        · exact absurd hw he
        · exact ⟨e', he', hw⟩
      obtain ⟨pre, e', post, rfl, hbefore, hw⟩ := ih hl
      refine ⟨e :: pre, e', post, rfl, fun e'' he'' => ?_, hw⟩
      rcases List.mem_cons.mp he'' with rfl | he''
      · exact he
      · exact hbefore e'' he''

lemma mapUsable_append (K : Image) (n : ℕ) (l l' : List E820Entry) (s : Vm) :
    s.mapUsable K n (l ++ l') = (s.mapUsable K n l).bind fun x =>
      (x.2.mapUsable K n l').bind fun y => some (x.1 && y.1, y.2) := by
  induction l generalizing s with
  | nil =>
    change s.mapUsable K n l' = (s.mapUsable K n l').bind fun y => some (true && y.1, y.2)
    cases s.mapUsable K n l' with
    | none => rfl
    | some x => rfl
  | cons e l ih =>
    change ((s.mapEntry K n e).bind fun x =>
      (x.2.mapUsable K n (l ++ l')).bind fun y => some (x.1 && y.1, y.2)) =
      ((s.mapEntry K n e).bind fun x =>
        (x.2.mapUsable K n l).bind fun y => some (x.1 && y.1, y.2)).bind _
    cases s.mapEntry K n e with
    | none => rfl
    | some x =>
      simp only [Option.bind_some, ih]
      cases x.2.mapUsable K n l with
      | none => rfl
      | some y =>
        simp only [Option.bind_some]
        cases y.2.mapUsable K n l' with
        | none => rfl
        | some z => simp only [Option.bind_some, Bool.and_assoc]

lemma mapAll_append (K : Image) (n : ℕ) (l l' : List E820Entry) (s : Vm) :
    mapAll K n (l ++ l') s = (mapAll K n l s).bind fun x =>
      (x.2.mapUsable K n l').bind fun y => some (x.1 && y.1, y.2) := by
  unfold mapAll
  cases s.mapRange K lowEnd false n 0 with
  | none => rfl
  | some x =>
    simp only [Option.bind_some, mapUsable_append]
    cases x.2.mapUsable K n l with
    | none => rfl
    | some y =>
      simp only [Option.bind_some]
      cases y.2.mapUsable K n l' with
      | none => rfl
      | some z => simp only [Option.bind_some, Bool.and_assoc]

lemma paged_append {pre : List E820Entry} {e : E820Entry} {r : ℕ} :
    Paged (pre ++ [e]) r ↔ Paged pre r ∨ e.Maps r := by
  unfold Paged
  simp only [List.mem_append, List.mem_singleton, or_and_right, exists_or, exists_eq_left, or_assoc]

lemma Paged.off_window {l : List E820Entry} {r : ℕ} (h : Paged l r) : r < 1024 ∨ 2048 ≤ r := by
  rcases h with h | ⟨e, -, -, -, -, -, h⟩
  · exact Or.inl (by omega)
  · exact h

/-- When the loops have ended although an entry wraps, the window is not mapped exactly if the free
frames were not more than the page tables up to the first such entry. -/
lemma firstWrap_window {pre post : List E820Entry} {e : E820Entry} (F : FirstWrap table pre post e)
    {r : Bool × Vm} (hr : mapAll K turns table (cleared K table s) = some r) :
    ∃ B', KernelMap K table r.2 B' ∧ (B'.table 1 = none ↔
      (freeAtStart K table).card ≤ (tablesNeeded (pre ++ [e])).card) := by
  obtain ⟨ok₁, s₁, B₁, P₁, e₁, -, hmap₁, hgrows₁, htrue₁, hfalse₁⟩ :=
    mapAll_covers (kernelMap_start K table s) F.before
  change mapAll K turns pre (cleared K table s) = _ at e₁
  have hr' : mapAll K turns (pre ++ e :: post) (cleared K table s) = some r := by
    rw [← F.split]
    exact hr
  rw [mapAll_append, e₁, Option.bind_some] at hr'
  obtain ⟨z, hz, hr'⟩ := Option.bind_eq_some_iff.mp hr'
  obtain ⟨y, hy, hz'⟩ := Option.bind_eq_some_iff.mp hz
  have hsub₁ : ∀ x, P₁ x → Paged pre x := by
    intro x hx
    cases ok₁ with
    | true => exact (htrue₁ rfl x).mp hx
    | false => exact (hfalse₁ rfl).1 x hx
  have hnone₁ : B₁.table 1 = none :=
    hgrows₁.window_none rfl fun x hx => (hsub₁ x hx).off_window
  obtain ⟨s₂, B₂, P₂, rfl, hmap₂, hgrows₂, hfull, hcase⟩ := mapEntry_wraps hmap₁ hnone₁ F.wraps hy
  have hgrows := hgrows₁.trans hgrows₂
  -- the other entries find no frame
  obtain ⟨s₃, B₃, P₃, -, hmap₃, hgrows₃, hend⟩ := mapUsable_ends (n := turns) hmap₂ post
  have hstate : r.2 = s₃ := by
    change (s₂.mapUsable K turns post).bind (fun y => some (false && y.1, y.2)) = some z at hz'
    rcases hend with ⟨e₃, -⟩ | ⟨e₃, -⟩ | ⟨e₃, -⟩
    · rw [e₃] at hz'
      rw [← Option.some.inj hr', ← Option.some.inj hz']
    · rw [e₃] at hz'
      rw [← Option.some.inj hr', ← Option.some.inj hz']
    · rw [e₃] at hz'
      cases hz'
  have hsame : B₃.table 1 = none ↔ B₂.table 1 = none :=
    ⟨hgrows₃.none_of_none, hgrows₃.full_none hmap₃ hfull⟩
  refine ⟨B₃, hstate ▸ hmap₃, ?_⟩
  rw [hsame]
  constructor
  · intro hnone
    rcases hcase with ⟨-, hsub₂⟩ | ⟨hsome, -⟩
    · refine (full_card_le hmap₂ hgrows hfull).trans (Finset.card_le_card fun p hp => ?_)
      obtain ⟨x, hx, rfl⟩ := hgrows.tabled_page hp
      rw [mem_tablesNeeded]
      rcases hx with hx | hx
      · exact ⟨x, paged_append.mpr (Or.inl (hsub₁ x hx)), rfl⟩
      · rcases hsub₂ x hx with hx | hx
        · exact ⟨x, paged_append.mpr (Or.inr hx), rfl⟩
        · exact ⟨0, Or.inl (by omega), by omega⟩
    · exact absurd hnone hsome
  · intro hcard
    rcases hcase with ⟨hnone, -⟩ | ⟨hsome, hall₂⟩
    · exact hnone
    · -- all page tables are there, and one more
      have hall : ∀ x, Paged (pre ++ [e]) x → P₁ x ∨ P₂ x := by
        intro x hx
        cases ok₁ with
        | true => exact (paged_append.mp hx).imp (htrue₁ rfl x).mpr (hall₂ x)
        | false => exact absurd (hgrows₂.full_none hmap₂ (hfalse₁ rfl).2.2 hnone₁) hsome
      have hsub : insert 1 (tablesNeeded (pre ++ [e])) ⊆ B₂.tabled := by
        refine Finset.insert_subset ?_ (hmap₂.tablesNeeded_subset fun x hx =>
          (hgrows.mapped x).mpr (Or.inr (hall x hx)))
        exact Book.mem_tabled.mpr ⟨by omega, Option.ne_none_iff_exists'.mp hsome⟩
      have hnot : 1 ∉ tablesNeeded (pre ++ [e]) := by
        rw [mem_tablesNeeded]
        rintro ⟨x, hx, hx1⟩
        have := hx.off_window
        omega
      have h1 := Finset.card_le_card hsub
      rw [Finset.card_insert_of_notMem hnot] at h1
      have h2 := tabled_card_le hmap₂ hgrows
      omega

/-! ### What ring 3 reaches -/

/-- The kernel directory as it should be: no entry for the window, and all else mapped to itself and for
the kernel only. -/
structure KernelOnly (K : Image) (s : Vm) : Prop where
  window : ∀ v, userBase ≤ v → v < userTop → present (s.mem.ld32 (pdeAt K.pageDir v)) = false
  pde : ∀ p < 1024, present (s.mem.ld32 (K.pageDir + 4 * p)) = true →
    (s.mem.ld32 (K.pageDir + 4 * p)).testBit 2 = false
  pte : ∀ p < 1024, present (s.mem.ld32 (K.pageDir + 4 * p)) = true → ∀ j < 1024,
    let pte := s.mem.ld32 (entryAddr (s.mem.ld32 (K.pageDir + 4 * p)) + 4 * j)
    present pte = true → pte.testBit 2 = false ∧ entryAddr pte = 4096 * (1024 * p + j)

/-- In every directory of a program, over all lives, ring 3 reaches the window only. -/
def UserOnly (K : Image) (s : Vm) : Prop :=
  ∀ l, (run (Vm.exec K) s l).curDir ≠ 0 → ∀ v < 4294967296, ∀ leaf,
    (run (Vm.exec K) s l).walk (run (Vm.exec K) s l).curDir v = some leaf → leaf.user = true →
    userBase ≤ v ∧ v < userTop

/-- The kernel directory hides everything from ring 3, and the window is not in it, exactly if there is
no page table for the window. -/
lemma KernelMap.kernelOnly_iff (h : KernelMap K table s B) : KernelOnly K s ↔ B.table 1 = none := by
  have hpde : ∀ p < 1024, s.mem.ld32 (K.pageDir + 4 * p) = pdeOf (B.table p) := by
    intro p hp
    rw [pageDir_eq]
    exact h.pde p hp
  have hwin : ∀ v, userBase ≤ v → v < userTop →
      s.mem.ld32 (pdeAt K.pageDir v) = pdeOf (B.table 1) := by
    intro v h1 h2
    unfold userBase at h1
    unfold userTop at h2
    unfold pdeAt
    rw [show v / 4194304 = 1 by omega]
    exact hpde 1 (by omega)
  constructor
  · intro hk
    have := hk.window userBase le_rfl (by decide)
    rw [hwin userBase le_rfl (by decide), present_pdeOf] at this
    exact Option.not_isSome_iff_eq_none.mp (by simp [this])
  · intro hnone
    refine ⟨fun v h1 h2 => ?_, fun p hp hpr => ?_, fun p hp hpr j hj => ?_⟩
    · rw [hwin v h1 h2, hnone]
      rfl
    · rw [hpde p hp, present_pdeOf] at hpr
      obtain ⟨t, ht⟩ := Option.isSome_iff_exists.mp hpr
      rw [hpde p hp, ht]
      exact (testBit_flags t).2
    · rw [hpde p hp, present_pdeOf] at hpr
      obtain ⟨t, ht⟩ := Option.isSome_iff_exists.mp hpr
      have haddr : entryAddr (pdeOf (some t)) = 4096 * t := entryAddr_flags t (by omega)
      have hpte : s.mem.ld32 (4096 * t + 4 * j) = _ := h.pte p t ht j hj
      simp only [hpde p hp, ht, haddr, hpte]
      split_ifs with hm
      · exact fun _ => ⟨(testBit_flags _).2, entryAddr_flags _ (by omega)⟩
      · intro h0
        cases h0

/-- What ring 3 reaches through the directory of a program lies in the window. -/
lemma Running.user_window {pr : Proc} (h : Running K table s B pr) {v : ℕ} (hv : v < 4294967296)
    {leaf : Leaf} (hw : s.walk s.curDir v = some leaf) (hu : leaf.user = true) :
    userBase ≤ v ∧ v < userTop := by
  by_cases hp : v / 4194304 = userPde
  · rw [show userPde = 1 from rfl] at hp
    unfold userBase userTop
    omega
  · have hpde : s.mem.ld32 (pdeAt s.curDir v) = pdeOf (B.table (v / 4194304)) := by
      rw [h.curDir_eq]
      exact (h.dirWord _ (by omega)).trans (if_neg hp)
    unfold Vm.walk at hw
    simp only [hpde] at hw
    split_ifs at hw with hpr
    rw [← Option.some.inj hw, Bool.and_eq_true] at hu
    rw [present_pdeOf] at hpr
    obtain ⟨t, ht⟩ := Option.isSome_iff_exists.mp hpr.1
    rw [ht] at hu
    exact absurd (hu.1.symm.trans (testBit_flags t).2) (by decide)

lemma Idle.userOnly (h : Idle K table s B) : UserOnly K s := by
  intro l hcur v hv leaf hw hu
  rcases run_alive (Or.inl h) l with hidle | ⟨pr, hrun⟩
  · exact absurd hidle.curDir_eq hcur
  · exact hrun.user_window hv hw hu

/-- What `paging_init` should leave: the window is out of the kernel directory, the rest is the
kernel's, and no program ever reaches more than the window. -/
def WindowKept (K : Image) (table : List E820Entry) (m : Mem) : Prop :=
  ∀ n ok s, pagingInit K n table (memoryInit K table (Vm.off m)) = some (ok, s) →
    KernelOnly K s ∧ UserOnly K s

/-- The memory map keeps the loops from the window: no entry wraps, or the loops never end, or the free
frames are not more than the page tables needed up to the first entry that wraps. -/
def WrapsEarly (K : Image) (table : List E820Entry) : Prop :=
  (∀ e ∈ table, ¬ e.Wraps) ∨ 1024 ≤ (freeAtStart K table).card ∨
    ∃ pre e post, FirstWrap table pre post e ∧
      (freeAtStart K table).card ≤ (tablesNeeded (pre ++ [e])).card

/-- The state after `paging_init` has no page table for the window exactly if the memory map keeps the
loops from it. -/
lemma pagingInit_window {n : ℕ} {m : Mem} {r : Bool × Vm}
    (h : pagingInit K n table (memoryInit K table (Vm.off m)) = some r) :
    KernelOnly K r.2 ↔ WrapsEarly K table := by
  have hends := (mapAll_returns_iff K table (Vm.off m)).mp
    ((pagingInit_returns K table (Vm.off m)).mp ⟨n, r, h⟩)
  obtain ⟨x, hx⟩ := mapAll_turns K table (Vm.off m) hends
  have hr : r = (x.1, { x.2 with cr3 := K.pageDir }) :=
    pagingInit_unique h (by rw [pagingInit_eq, hx]; rfl)
  have key : ∃ B', KernelMap K table x.2 B' ∧ (B'.table 1 = none ↔ WrapsEarly K table) := by
    by_cases hw : ∀ e ∈ table, ¬ e.Wraps
    · obtain ⟨ok, s', B', P, e, -, hmap, hgrows, htrue, hfalse⟩ :=
        mapAll_covers (kernelMap_start K table (Vm.off m)) hw
      change mapAll K turns table (cleared K table (Vm.off m)) = _ at e
      rw [e] at hx
      obtain rfl := Option.some.inj hx
      refine ⟨B', hmap, iff_of_true ?_ (Or.inl hw)⟩
      refine hgrows.window_none rfl fun q hq => ?_
      cases ok with
      | true => exact ((htrue rfl q).mp hq).off_window
      | false => exact ((hfalse rfl).1 q hq).off_window
    · have hfew : (freeAtStart K table).card < 1024 := hends.resolve_left hw
      have hyes : ∃ e ∈ table, e.Wraps := by
        push Not at hw
        exact hw
      obtain ⟨pre, e, post, F⟩ := exists_firstWrap hyes
      obtain ⟨B', hmap, hiff⟩ := firstWrap_window F hx
      refine ⟨B', hmap, fun hnone => Or.inr (Or.inr ⟨pre, e, post, F, hiff.mp hnone⟩), ?_⟩
      rintro (h1 | h1 | ⟨pre', e', post', F', hcard⟩)
      · exact absurd h1 hw
      · omega
      · -- the other decomposition speaks of the same directory
        obtain ⟨B'', hmap', hiff'⟩ := firstWrap_window F' hx
        exact hmap.kernelOnly_iff.mp (hmap'.kernelOnly_iff.mpr (hiff'.mpr hcard))
  obtain ⟨B', hmap, hiff⟩ := key
  rw [hr]
  exact (hmap.setCr3 K.pageDir).kernelOnly_iff.trans hiff

/-- **When the window stays out of reach**: exactly if no entry of the memory map is mapped up to an end
in the last page of the address space, or the loops never end, or the frames run out before they
come to the window. What ring 3 reaches through the directory of a program lies in the window in
any case. -/
theorem window_kept_iff (K : Image) (table : List E820Entry) (m : Mem) :
    WindowKept K table m ↔ WrapsEarly K table := by
  constructor
  · intro h
    by_cases hends : (∀ e ∈ table, ¬ e.Wraps) ∨ (freeAtStart K table).card < 1024
    · obtain ⟨n, r, hr⟩ := (pagingInit_returns K table (Vm.off m)).mpr
        ((mapAll_returns_iff K table (Vm.off m)).mpr hends)
      exact (pagingInit_window hr).mp (h n r.1 r.2 hr).1
    · rw [not_or, not_lt] at hends
      exact Or.inr (Or.inl hends.2)
  · intro h n ok s hs
    obtain ⟨B, -, hidle, -⟩ := pagingInit_idle hs
    exact ⟨(pagingInit_window hs).mpr h, hidle.userOnly⟩

/-- Three frames from 1 MiB on, and an entry that ends at the last byte but one. -/
def wrapTable : List E820Entry := [.usable 0x100000 0x3000, .usable 0xFFFFF000 0xFFF]

lemma wrapTable_free : freeAtStart smallKernel wrapTable = {0x100, 0x101, 0x102} := by
  ext i
  rw [mem_freeAtStart]
  simp only [Finset.mem_insert, Finset.mem_singleton]
  constructor
  · rintro ⟨hlt, hused⟩
    have hcount : frameCount wrapTable = 0xFFFFF := by decide +kernel
    have husable := ((offered_iff smallKernel wrapTable i).mpr ⟨hlt, hused⟩).2.2.2.1
    rw [hcount] at hlt
    unfold inUsable wrapTable E820Entry.usable i32 u32 pageSize at husable
    simp only [List.any_cons, List.any_nil, Bool.or_false, Bool.or_eq_true, decide_eq_true_eq]
      at husable
    push_cast at husable
    omega
  · rintro (rfl | rfl | rfl)
    · exact ⟨by decide +kernel, by decide +kernel⟩
    · exact ⟨by decide +kernel, by decide +kernel⟩
    · exact ⟨by decide +kernel, by decide +kernel⟩

lemma wrapTable_needed : tablesNeeded wrapTable ⊆ {0, 1023} := by
  intro p hp
  obtain ⟨x, hx, rfl⟩ := mem_tablesNeeded.mp hp
  have hlt := hx.lt
  simp only [Finset.mem_insert, Finset.mem_singleton]
  rcases hx with hx | ⟨e, he, -, -, h1, h2, -⟩
  · omega
  · unfold wrapTable at he
    simp only [List.mem_cons, List.not_mem_nil, or_false] at he
    rcases he with rfl | rfl
    · have hend : 4096 * x < 0x103000 := h2
      omega
    · have hbase : 0xFFFFF ≤ x := h1
      omega

lemma wrapTable_first {pre post : List E820Entry} {e : E820Entry}
    (F : FirstWrap wrapTable pre post e) : pre ++ [e] = wrapTable := by
  have hsplit := F.split
  cases pre with
  | nil =>
    have he := (List.cons.inj hsplit).1
    have hwraps := F.wraps
    rw [← he] at hwraps
    exact absurd hwraps (by decide)
  | cons e₁ pre =>
    obtain ⟨h1, h2⟩ := List.cons.inj hsplit
    cases pre with
    | nil =>
      obtain ⟨h3, -⟩ := List.cons.inj h2
      rw [← h1, ← h3]
      rfl
    | cons e₂ pre =>
      have hlen := congrArg List.length (List.cons.inj h2).2
      simp at hlen

/-- **The window gets mapped in the kernel directory.** The second entry takes a page table, the loop
wraps to 0 and takes the last frame for the page table of the window. -/
theorem wrap_maps_window : ¬ WindowKept smallKernel wrapTable fun _ => 0 := by
  intro h
  have hcard : (freeAtStart smallKernel wrapTable).card = 3 := by
    rw [wrapTable_free]
    decide
  obtain ⟨n, r, hr⟩ := (pagingInit_returns smallKernel wrapTable (Vm.off fun _ => 0)).mpr
    ((mapAll_returns_iff _ _ _).mpr (Or.inr (by omega)))
  have hsafe := (pagingInit_window hr).mp (h n r.1 r.2 hr).1
  rcases hsafe with h1 | h1 | ⟨pre, e, post, F, h1⟩
  · exact absurd h1 (by decide)
  · omega
  · rw [wrapTable_first F, hcard] at h1
    have h2 := Finset.card_le_card wrapTable_needed
    have h3 : ({0, 1023} : Finset ℕ).card = 2 := by decide
    omega

end LunariaOS.Mm
