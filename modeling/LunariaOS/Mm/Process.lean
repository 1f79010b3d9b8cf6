import LunariaOS.Mm.Mapped

/-!
The address space of a program.

`Running` says what memory holds while a program runs: the kernel's tables, as before the program
was started, and next to them the program's directory, its page table and its pages, each in a frame
of its own that was free. `vm_create` builds it, `vm_fault` adds a page to it, and `vm_detach` gives
all its frames back, so that the book of the kernel is the one before the start again.
-/

namespace LunariaOS.Mm

open LunariaOS.Lib

/-- The frames of a program: its directory, its page table, and the frame of every page of the window
that has been touched. -/
structure Proc where
  dir : ℕ
  pt : ℕ
  pages : ℕ → Option ℕ

/-- The frame `i` belongs to the program. -/
def Proc.Holds (pr : Proc) (i : ℕ) : Prop :=
  i = pr.dir ∨ i = pr.pt ∨ ∃ j ∈ Finset.range 1024, pr.pages j = some i

instance (pr : Proc) (i : ℕ) : Decidable (pr.Holds i) := inferInstanceAs (Decidable (_ ∨ _ ∨ _))

/-- The frames that are used while the program runs. -/
def Proc.used (pr : Proc) (B : Book) (i : ℕ) : Bool := B.used i || decide (pr.Holds i)

/-- The entry of a program's page table. -/
def pteOf : Option ℕ → ℕ
  | none => 0
  | some f => 4096 * f + 7

/-- **A program is running**, started with the kernel's book `B`. -/
structure Running (K : Image) (table : List E820Entry) (s : Vm) (B : Book) (pr : Proc) : Prop where
  kernel : KernelMap K table s { B with used := pr.used B }
  fresh : ∀ i, pr.Holds i → Loose K table i ∧ B.used i = false
  tables_used : ∀ p t, B.table p = some t → B.used t = true
  pt_ne : pr.pt ≠ pr.dir
  pages_ne : ∀ j f, pr.pages j = some f → j < 1024 ∧ f ≠ pr.dir ∧ f ≠ pr.pt
  pages_inj : ∀ i j f, pr.pages i = some f → pr.pages j = some f → i = j
  dirWord : ∀ p < 1024, s.mem.word pr.dir p =
    if p = userPde then 4096 * pr.pt + 7 else pdeOf (B.table p)
  ptWord : ∀ j < 1024, s.mem.word pr.pt j = pteOf (pr.pages j)
  curDir_eq : s.curDir = 4096 * pr.dir
  cr3_eq : s.cr3 = 4096 * pr.dir

/-- **No program is running.** -/
structure Idle (K : Image) (table : List E820Entry) (s : Vm) (B : Book) : Prop where
  kernel : KernelMap K table s B
  curDir_eq : s.curDir = 0
  cr3_eq : s.cr3 = K.pageDir

variable {K : Image} {table : List E820Entry} {s : Vm} {B : Book} {pr : Proc}

/-! ### Frames of a program -/

lemma Proc.holds_dir (pr : Proc) : pr.Holds pr.dir := Or.inl rfl

lemma Proc.holds_pt (pr : Proc) : pr.Holds pr.pt := Or.inr (Or.inl rfl)

lemma Running.holds_page (h : Running K table s B pr) {j f : ℕ} (hf : pr.pages j = some f) :
    pr.Holds f :=
  Or.inr (Or.inr ⟨j, Finset.mem_range.mpr (h.pages_ne j f hf).1, hf⟩)

lemma Proc.used_iff (pr : Proc) (B : Book) (i : ℕ) :
    pr.used B i = true ↔ B.used i = true ∨ pr.Holds i := by
  unfold Proc.used
  rw [Bool.or_eq_true, decide_eq_true_eq]

lemma Running.pageDir_ne (h : Running K table s B pr) : 4096 * pr.dir ≠ 0 ∧ 4096 * pr.dir ≠ K.pageDir := by
  have hl := (h.fresh _ pr.holds_dir).1
  have h1 := hl.low
  have h2 := hl.ne_dirPage
  rw [pageDir_eq]
  omega

/-- The kernel's tables lie in none of the program's frames. -/
lemma Running.kernel_ne (h : Running K table s B pr) {i k : ℕ} (hi : pr.Holds i)
    (hk : k = dirPage K ∨ ∃ p, B.table p = some k) : k ≠ i := by
  rintro rfl
  obtain ⟨hl, hfree⟩ := h.fresh _ hi
  rcases hk with rfl | ⟨p, hp⟩
  · exact hl.ne_dirPage rfl
  · rw [h.tables_used p k hp] at hfree
    cases hfree

lemma Running.apart (h : Running K table s B pr) {i : ℕ} (hi : pr.Holds i) :
    Mem.PageApart i (bitmapAddr K) (bitmapBytes (frameCount table)) := (h.fresh i hi).1.apart

/-! ### `vm_create` -/

/-- The state after the frame `d` has been taken for a copy of the kernel directory. -/
def Vm.copyDir (s : Vm) (K : Image) (d : ℕ) : Vm :=
  { s.takeFrame d with mem := memcpy (s.takeFrame d).mem (4096 * d) K.pageDir 4096 }

lemma KernelMap.copyDir_mem (h : KernelMap K table s B) {d : ℕ} (hd : B.used d = false) :
    (s.copyDir K d).mem = (s.takeFrame d).mem.blit (4096 * d) 4096
      fun x => (s.takeFrame d).mem (4096 * dirPage K + x) := by
  have h1 := (h.loose d hd).low
  have h2 := dirPage_lt K
  unfold Vm.copyDir
  rw [pageDir_eq]
  exact memcpy_eq _ (Or.inr (by omega))

lemma KernelMap.copyDir_tracks (h : KernelMap K table s B) {d : ℕ} (hd : B.used d = false) :
    (s.copyDir K d).Tracks (bitmapAddr K) (frameCount table) (Function.update B.used d true) := by
  have hl := h.loose d hd
  refine (h.tracks.set hl.lt hd).withMem fun i hi => ?_
  have := Mem.bit_blit (m := (s.takeFrame d).mem) hl.apart hi
    fun x => (s.takeFrame d).mem (4096 * dirPage K + x)
  rw [← h.copyDir_mem hd] at this
  exact this

lemma KernelMap.copyDir_word (h : KernelMap K table s B) {d i k : ℕ} (hd : B.used d = false)
    (hi : Mem.PageApart i (bitmapAddr K) (bitmapBytes (frameCount table))) (hk : k < 1024) :
    (s.copyDir K d).mem.word i k =
      if i = d then s.mem.word (dirPage K) k else s.mem.word i k := by
  have hl := h.loose d hd
  rw [h.copyDir_mem hd, Mem.word_copy hk, takeFrame_word h.tracks hl.lt dirPage_apart hk,
    takeFrame_word h.tracks hl.lt hi hk]

/-- `vm_create` after its first frame. -/
lemma vmCreate_eq {d : ℕ} (ha : s.allocFrame = (4096 * d, s.takeFrame d)) (hne : 4096 * d ≠ 0) :
    s.vmCreate K =
      let r := (s.copyDir K d).allocFrame
      if r.1 = 0 then (0, r.2.freeFrame (4096 * d))
      else (4096 * d, { r.2 with
        mem := (memset r.2.mem r.1 0 4096).st32 (4096 * d + 4 * userPde) (r.1 ||| 0x3 ||| 0x4)
        brk := 0 }) := by
  unfold Vm.vmCreate
  rw [ha]
  simp only [if_neg hne]
  rfl

/-- An address of a page with the flags for ring 3. -/
lemma or_user (i : ℕ) : 4096 * i ||| 0x3 ||| 0x4 = 4096 * i + 7 := by
  rw [Nat.or_assoc, show (0x3 ||| 0x4 : ℕ) = 7 from rfl]
  exact or_flags i (by omega)

/-- `vm_create` leaves the frames as they were, or makes the address space of a program. -/
lemma vmCreate_cases (h : KernelMap K table s B) :
    (∃ s', s.vmCreate K = (0, s') ∧ KernelMap K table s' B ∧ s'.curDir = s.curDir ∧
      s'.cr3 = s.cr3) ∨
    ∃ s' pr, s.vmCreate K = (4096 * pr.dir, s') ∧ 4096 * pr.dir ≠ 0 ∧ (∀ j, pr.pages j = none) ∧
      Running K table (s'.vmAttach (4096 * pr.dir)) B pr := by
  rcases allocFrame_cases h.tracks with ⟨ha, -⟩ | ⟨d, hdlt, hd, ha⟩
  · refine Or.inl ⟨s, ?_, h, rfl, rfl⟩
    unfold Vm.vmCreate
    rw [ha]
    rfl
  have hld := h.loose d hd
  have hd0 := hld.low
  have hne : 4096 * d ≠ 0 := by omega
  have htracks := h.copyDir_tracks hd
  have hkernel : ∀ i, (i = dirPage K ∨ ∃ p, B.table p = some i) → i ≠ d := fun i hi =>
    h.free_ne hd hi
  rcases allocFrame_cases htracks with ⟨hb, -⟩ | ⟨t, htlt, ht, hb⟩
  · -- no frame for the page table: the directory is given back
    have hused : Function.update B.used d true d = true := Function.update_self ..
    refine Or.inl ⟨(s.copyDir K d).giveFrame d, ?_, ?_, rfl, rfl⟩
    · rw [vmCreate_eq ha hne, hb]
      simp only [if_true, freeFrame_eq htracks hdlt hused]
    · refine h.stay ((htracks.clear hdlt hused).congr fun i _ => ?_) h.loose
        (fun p t hp => (h.tables p t hp).2.2) fun i hi k hk => ?_
      · by_cases hid : i = d
        · rw [hid, Function.update_self, hd]
        · rw [Function.update_of_ne hid, Function.update_of_ne hid]
      · rw [giveFrame_word htracks hdlt (h.page_apart hi) hk,
          h.copyDir_word hd (h.page_apart hi) hk, if_neg (hkernel i hi)]
  · have htd : t ≠ d := by
      rintro rfl
      rw [Function.update_self] at ht
      cases ht
    have htfree : B.used t = false := by rwa [Function.update_of_ne htd] at ht
    have hlt := h.loose t htfree
    have hcount := frameCount_le table
    have hword : ∀ i k, k < 1024 →
        Mem.PageApart i (bitmapAddr K) (bitmapBytes (frameCount table)) →
        ((s.copyDir K d).enterFrame t d userPde (4096 * t + 7)).mem.word i k =
        if i = d ∧ k = userPde then 4096 * t + 7 else if i = t then 0 else
          if i = d then s.mem.word (dirPage K) k else s.mem.word i k := by
      intro i k hk hi
      rw [enterFrame_word htracks htlt (by omega) (by decide) hi hk, h.copyDir_word hd hi hk]
    have hstate : s.vmCreate K = (4096 * d,
        { (s.copyDir K d).enterFrame t d userPde (4096 * t + 7) with brk := 0 }) := by
      have hlow := hlt.low
      have hpt : 4096 * t ≠ 0 := by omega
      rw [vmCreate_eq ha hne, hb]
      simp only [if_neg hpt, or_user]
      rfl
    let pr : Proc := { dir := d, pt := t, pages := fun _ => none }
    have hholds : ∀ i, pr.Holds i ↔ i = d ∨ i = t := by
      intro i
      unfold Proc.Holds
      simp [pr]
    refine Or.inr ⟨_, pr, hstate, hne, fun _ => rfl, ?_⟩
    refine ⟨?_, fun i hi => ?_, fun p u hp => (h.tables p u hp).2.2, htd, (fun j f hf => by cases hf),
      (fun i j f hf => by cases hf), fun p hp => ?_, fun j hj => ?_, rfl, rfl⟩
    · have hused : ∀ i < 8 * bitmapBytes (frameCount table),
          pr.used B i = Function.update (Function.update B.used d true) t true i := by
        intro i _
        rw [Bool.eq_iff_iff, Proc.used_iff, hholds]
        by_cases hit : i = t
        · simp [hit]
        · by_cases hid : i = d
          · rw [hid, Function.update_of_ne (Ne.symm htd), Function.update_self]
            simp
          · simp [hit, hid]
      have htracks' := (enterFrame_tracks htracks htlt ht hlt.apart hld.apart
        (show userPde < 1024 by decide) (4096 * t + 7)).congr hused
      refine h.stay (htracks'.of_same rfl rfl rfl rfl) (fun i hi => ?_) (fun p u hp => ?_)
        fun i hi k hk => ?_
      · unfold Proc.used at hi
        exact h.loose i (Bool.or_eq_false_iff.mp hi).1
      · exact (pr.used_iff B u).mpr (Or.inl (h.tables p u hp).2.2)
      · change ((s.copyDir K d).enterFrame t d userPde (4096 * t + 7)).mem.word i k = _
        rw [hword i k hk (h.page_apart hi), if_neg fun e => hkernel i hi e.1,
          if_neg (h.free_ne htfree hi), if_neg (hkernel i hi)]
    · rcases (hholds i).mp hi with rfl | rfl
      · exact ⟨hld, hd⟩
      · exact ⟨hlt, htfree⟩
    · change ((s.copyDir K d).enterFrame t d userPde (4096 * t + 7)).mem.word d p = _
      rw [hword d p hp hld.apart]
      by_cases hpu : p = userPde
      · rw [if_pos ⟨rfl, hpu⟩, if_pos hpu]
      · rw [if_neg fun e => hpu e.2, if_neg (Ne.symm htd), if_pos rfl, if_neg hpu]
        exact h.pde p hp
    · change ((s.copyDir K d).enterFrame t d userPde (4096 * t + 7)).mem.word t j = _
      rw [hword t j hj hlt.apart, if_neg fun e => htd e.1, if_pos rfl]
      rfl

/-! ### `vm_fault` -/

/-- The place of the page of an address in the page table of the window. -/
def slot (a : ℕ) : ℕ := a / 4096 % 1024

lemma slot_lt (a : ℕ) : slot a < 1024 := Nat.mod_lt _ (by omega)

/-- The frames of the program with the frame `f` in the place `j`. -/
def Proc.addPage (pr : Proc) (j f : ℕ) : Proc :=
  { pr with pages := Function.update pr.pages j (some f) }

lemma Proc.addPage_pages (pr : Proc) (j f i : ℕ) :
    (pr.addPage j f).pages i = if i = j then some f else pr.pages i := Function.update_apply ..

lemma Proc.addPage_holds {j f : ℕ} (hj : j < 1024) (hno : pr.pages j = none) (i : ℕ) :
    (pr.addPage j f).Holds i ↔ i = f ∨ pr.Holds i := by
  unfold Proc.Holds
  simp only [Proc.addPage_pages]
  constructor
  · rintro (h | h | ⟨k, hk, h⟩)
    · exact Or.inr (Or.inl h)
    · exact Or.inr (Or.inr (Or.inl h))
    · split_ifs at h with hkj
      · exact Or.inl (Option.some.inj h).symm
      · exact Or.inr (Or.inr (Or.inr ⟨k, hk, h⟩))
  · rintro (rfl | h | h | ⟨k, hk, h⟩)
    · exact Or.inr (Or.inr ⟨j, Finset.mem_range.mpr hj, if_pos rfl⟩)
    · exact Or.inl h
    · exact Or.inr (Or.inl h)
    · refine Or.inr (Or.inr ⟨k, hk, ?_⟩)
      rw [if_neg]
      · exact h
      · rintro rfl
        rw [hno] at h
        cases h

/-- A free frame belongs to nobody. -/
lemma Running.free_frame (h : Running K table s B pr) {f : ℕ} (hf : pr.used B f = false) :
    Loose K table f ∧ B.used f = false ∧ ¬ pr.Holds f := by
  refine ⟨h.kernel.loose f hf, ?_⟩
  unfold Proc.used at hf
  rw [Bool.or_eq_false_iff, decide_eq_false_iff_not] at hf
  exact hf

/-- A fresh page in the page table of the program. -/
lemma Running.addPage (h : Running K table s B pr) {j f : ℕ} (hj : j < 1024)
    (hno : pr.pages j = none) (hf : pr.used B f = false) (c : ℕ) :
    Running K table { s.enterFrame f pr.pt j (4096 * f + 7) with faultCount := c } B
      (pr.addPage j f) := by
  obtain ⟨hloose, hfree, hnot⟩ := h.free_frame hf
  have hcount := frameCount_le table
  have hlt := hloose.lt
  have hpt := h.apart pr.holds_pt
  have hword : ∀ i k, k < 1024 → Mem.PageApart i (bitmapAddr K) (bitmapBytes (frameCount table)) →
      (s.enterFrame f pr.pt j (4096 * f + 7)).mem.word i k =
      if i = pr.pt ∧ k = j then 4096 * f + 7 else if i = f then 0 else s.mem.word i k :=
    fun i k hk hi => enterFrame_word h.kernel.tracks hlt (by omega) hj hi hk
  have hne : ∀ i, pr.Holds i → i ≠ f := by
    rintro i hi rfl
    exact hnot hi
  have hused : ∀ i < 8 * bitmapBytes (frameCount table),
      (pr.addPage j f).used B i = Function.update (pr.used B) f true i := by
    intro i _
    rw [Bool.eq_iff_iff, Proc.used_iff, Proc.addPage_holds hj hno]
    by_cases hif : i = f
    · simp [hif]
    · rw [Function.update_of_ne hif, Proc.used_iff]
      simp [hif]
  refine ⟨?_, fun i hi => ?_, h.tables_used, h.pt_ne, fun i g hg => ?_, fun i k g hi hk => ?_,
    fun p hp => ?_, fun i hi => ?_, h.curDir_eq, h.cr3_eq⟩
  · have htracks := (enterFrame_tracks h.kernel.tracks hlt hf hloose.apart hpt hj
      (4096 * f + 7)).congr hused
    refine h.kernel.stay (htracks.of_same rfl rfl rfl rfl) (fun i hi => ?_) (fun p t hp => ?_)
      fun i hi k hk => ?_
    · refine h.kernel.loose i ?_
      by_contra hu
      have hu' : pr.used B i = true := by simpa using hu
      rw [Proc.used_iff] at hu'
      have := ((pr.addPage j f).used_iff B i).mpr
        (hu'.imp id fun hh => (Proc.addPage_holds hj hno i).mpr (Or.inr hh))
      rw [this] at hi
      cases hi
    · exact ((pr.addPage j f).used_iff B t).mpr (Or.inl (h.tables_used p t hp))
    · change (s.enterFrame f pr.pt j (4096 * f + 7)).mem.word i k = _
      rw [hword i k hk (h.kernel.page_apart hi),
        if_neg fun e => h.kernel_ne pr.holds_pt hi e.1, if_neg (h.kernel.free_ne hf hi)]
  · rcases (Proc.addPage_holds hj hno i).mp hi with rfl | hi
    · exact ⟨hloose, hfree⟩
    · exact h.fresh i hi
  · rw [Proc.addPage_pages] at hg
    split_ifs at hg with hij
    · obtain rfl := Option.some.inj hg
      exact ⟨hij ▸ hj, Ne.symm (hne _ pr.holds_dir), Ne.symm (hne _ pr.holds_pt)⟩
    · exact h.pages_ne i g hg
  · rw [Proc.addPage_pages] at hi hk
    split_ifs at hi hk with h1 h2 h2
    · rw [h1, h2]
    · obtain rfl := Option.some.inj hi
      exact absurd rfl (hne _ (h.holds_page hk))
    · obtain rfl := Option.some.inj hk
      exact absurd rfl (hne _ (h.holds_page hi))
    · exact h.pages_inj i k g hi hk
  · change (s.enterFrame f pr.pt j (4096 * f + 7)).mem.word pr.dir p = _
    rw [hword _ p hp (h.apart pr.holds_dir), if_neg fun e => h.pt_ne e.1.symm,
      if_neg (hne _ pr.holds_dir)]
    exact h.dirWord p hp
  · change (s.enterFrame f pr.pt j (4096 * f + 7)).mem.word pr.pt i = _
    rw [hword _ i hi hpt, Proc.addPage_pages]
    by_cases hij : i = j
    · rw [if_pos ⟨rfl, hij⟩, if_pos hij]
      rfl
    · rw [if_neg fun e => hij e.2, if_neg (hne _ pr.holds_pt), if_neg hij]
      exact h.ptWord i hi

/-- The words that the processor and `vm_fault` read for an address of the window. -/
lemma Running.window_words (h : Running K table s B pr) {a : ℕ} (ha : userBase ≤ a)
    (ha' : a < userTop) :
    s.mem.ld32 (pdeAt (4096 * pr.dir) a) = 4096 * pr.pt + 7 ∧
      pteAt (4096 * pr.pt) a = 4096 * pr.pt + 4 * slot a ∧
      s.mem.ld32 (4096 * pr.pt + 4 * slot a) = pteOf (pr.pages (slot a)) := by
  have hpde : a / 4194304 = userPde := by
    unfold userBase userTop at *
    rw [show userPde = 1 from rfl]
    omega
  refine ⟨?_, rfl, h.ptWord _ (slot_lt a)⟩
  unfold pdeAt
  rw [hpde]
  exact (h.dirWord userPde (by decide)).trans (if_pos rfl)

lemma present_pteOf (o : Option ℕ) : present (pteOf o) = o.isSome := by
  cases o with
  | none => rfl
  | some t =>
    unfold present pteOf
    simp only [Option.isSome_some, decide_eq_true_eq]
    omega

/-- `vm_fault` takes a frame for a page of the window that has none, and does nothing else. -/
lemma vmFault_cases (h : Running K table s B pr) (a : ℕ) :
    (s.vmFault a = (false, s) ∧ (userBase ≤ a → a < userTop → pr.pages (slot a) = none →
      ∀ i < frameCount table, pr.used B i = true)) ∨
    (userBase ≤ a ∧ a < userTop ∧ pr.pages (slot a) = none ∧ ∃ f c, pr.used B f = false ∧
      s.vmFault a =
        (true, { s.enterFrame f pr.pt (slot a) (4096 * f + 7) with faultCount := c })) := by
  by_cases hwin : a < userBase ∨ a ≥ userTop
  · refine Or.inl ⟨?_, fun h1 h2 => by omega⟩
    unfold Vm.vmFault
    rw [if_pos hwin]
  obtain ⟨hpde, hslot, hpte⟩ := h.window_words (a := a) (by omega) (by omega)
  have hcr3 : entryAddr s.cr3 = 4096 * pr.dir := by
    rw [h.cr3_eq]
    exact entryAddr_flags pr.dir (k := 0) (by omega)
  have hpresent : present (4096 * pr.pt + 7) = true := present_pteOf (some pr.pt)
  have hfault : s.vmFault a =
      if (pr.pages (slot a)).isSome then (false, s)
      else
        let r := s.allocFrame
        if r.1 = 0 then (false, r.2)
        else (true, { r.2 with
          mem := (memset r.2.mem r.1 0 4096).st32 (4096 * pr.pt + 4 * slot a) (r.1 ||| 0x3 ||| 0x4)
          faultCount := u32 (r.2.faultCount + 1) }) := by
    unfold Vm.vmFault
    rw [if_neg hwin, hcr3]
    simp only [hpde, hpresent, entryAddr_flags pr.pt (show 7 < 4096 by omega), hslot, hpte,
      present_pteOf]
    rfl
  rw [hfault]
  cases hpg : pr.pages (slot a) with
  | some g => exact Or.inl ⟨rfl, fun _ _ hno => by cases hno⟩
  | none =>
    rcases allocFrame_cases h.kernel.tracks with ⟨ha, hfull⟩ | ⟨f, -, hf, ha⟩
    · refine Or.inl ⟨?_, fun _ _ _ => hfull⟩
      rw [ha]
      rfl
    · have hlow := (h.kernel.loose f hf).low
      have hne : 4096 * f ≠ 0 := by omega
      refine Or.inr ⟨by omega, by omega, rfl, f, u32 (s.faultCount + 1), hf, ?_⟩
      rw [ha]
      simp only [Option.isSome_none, if_neg hne, or_user]
      rfl

/-! ### `vm_detach` -/

/-- The frames of the program without the first `k` pages of the window. -/
def Proc.drop (pr : Proc) (k : ℕ) : Proc :=
  { pr with pages := fun j => if j < k then none else pr.pages j }

lemma Proc.drop_zero (pr : Proc) : pr.drop 0 = pr := by
  unfold Proc.drop
  simp

lemma Proc.drop_holds (k : ℕ) (i : ℕ) : (pr.drop k).Holds i ↔
    i = pr.dir ∨ i = pr.pt ∨ ∃ j, j < 1024 ∧ k ≤ j ∧ pr.pages j = some i := by
  unfold Proc.Holds Proc.drop
  refine or_congr Iff.rfl (or_congr Iff.rfl (exists_congr fun j => ?_))
  rw [Finset.mem_range]
  by_cases hj : j < k
  · simp [hj]
  · simp [hj, Nat.le_of_not_lt hj]

/-- The first `k` turns of the loop that frees the pages. -/
lemma Running.freePages_run (h : Running K table s B pr) {s₁ : Vm}
    (ht : s₁.Tracks (bitmapAddr K) (frameCount table) (pr.used B)) (hm : s₁.mem = s.mem) (k : ℕ)
    (hk : k ≤ 1024) :
    let s' := (List.range k).foldl (fun s j =>
      let pte := s.mem.ld32 (4096 * pr.pt + 4 * j)
      if present pte then s.freeFrame (entryAddr pte) else s) s₁
    s'.Tracks (bitmapAddr K) (frameCount table) ((pr.drop k).used B) ∧
      s'.curDir = s₁.curDir ∧ s'.cr3 = s₁.cr3 ∧
      ∀ i j, j < 1024 → Mem.PageApart i (bitmapAddr K) (bitmapBytes (frameCount table)) →
        s'.mem.word i j = s.mem.word i j := by
  induction k with
  | zero =>
    refine ⟨?_, rfl, rfl, fun i j _ _ => by rw [List.range_zero, List.foldl_nil, hm]⟩
    rw [Proc.drop_zero]
    exact ht
  | succ k ih =>
    obtain ⟨ht', hcur, hcr3, hw⟩ := ih (by omega)
    rw [List.range_succ, List.foldl_append, List.foldl_cons, List.foldl_nil]
    generalize (List.range k).foldl _ s₁ = s' at ht' hcur hcr3 hw
    have hpte : s'.mem.ld32 (4096 * pr.pt + 4 * k) = pteOf (pr.pages k) :=
      (hw pr.pt k (by omega) (h.apart pr.holds_pt)).trans (h.ptWord k (by omega))
    simp only [hpte, present_pteOf]
    cases hpg : pr.pages k with
    | none =>
      refine ⟨ht'.congr fun i _ => ?_, hcur, hcr3, hw⟩
      rw [Bool.eq_iff_iff, Proc.used_iff, Proc.used_iff, Proc.drop_holds, Proc.drop_holds]
      have hiff : ∀ j, (j < 1024 ∧ k + 1 ≤ j ∧ pr.pages j = some i) ↔
          (j < 1024 ∧ k ≤ j ∧ pr.pages j = some i) := by
        intro j
        refine and_congr_right fun _ => and_congr_left fun hj => ⟨by omega, fun hkj => ?_⟩
        by_contra hlt
        obtain rfl : j = k := by omega
        rw [hpg] at hj
        cases hj
      simp only [hiff]
    | some f =>
      have hholds := h.holds_page hpg
      obtain ⟨hloose, hfree⟩ := h.fresh f hholds
      obtain ⟨-, hd, hp⟩ := h.pages_ne k f hpg
      have hused : (pr.drop k).used B f = true :=
        ((pr.drop k).used_iff B f).mpr (Or.inr ((Proc.drop_holds k f).mpr
          (Or.inr (Or.inr ⟨k, by omega, le_rfl, hpg⟩))))
      have haddr : entryAddr (pteOf (some f)) = 4096 * f := entryAddr_flags f (by omega)
      rw [Option.isSome_some, if_pos rfl, haddr, freeFrame_eq ht' hloose.lt hused]
      refine ⟨(ht'.clear hloose.lt hused).congr fun i _ => ?_, hcur, hcr3, fun i j hj hi => ?_⟩
      · rw [Bool.eq_iff_iff, Proc.used_iff, Proc.drop_holds]
        by_cases hif : i = f
        · subst hif
          have hnone : ¬ ∃ j, j < 1024 ∧ k + 1 ≤ j ∧ pr.pages j = some i := by
            rintro ⟨j, -, hj, hpj⟩
            have := h.pages_inj j k i hpj hpg
            omega
          rw [Function.update_self, hfree]
          refine iff_of_false ?_ (by decide)
          rintro (h1 | h1 | h1 | h1)
          · cases h1
          · exact hd h1
          · exact hp h1
          · exact hnone h1
        · rw [Function.update_of_ne hif, Proc.used_iff, Proc.drop_holds]
          have hiff : ∀ j, (j < 1024 ∧ k + 1 ≤ j ∧ pr.pages j = some i) ↔
              (j < 1024 ∧ k ≤ j ∧ pr.pages j = some i) := by
            intro j
            refine and_congr_right fun _ => and_congr_left fun hj => ⟨by omega, fun hkj => ?_⟩
            by_contra hlt
            obtain rfl : j = k := by omega
            rw [hpg] at hj
            exact hif (Option.some.inj hj).symm
          simp only [hiff]
      · rw [giveFrame_word ht' hloose.lt hi hj]
        exact hw i j hj hi

/-- The memory of `s` with the kernel's directory in force. -/
def Vm.leave (s : Vm) (K : Image) : Vm := { s with curDir := 0, cr3 := K.pageDir }

/-- After the pages have been freed only the directory and the page table are left. -/
lemma Running.freePages_spec (h : Running K table s B pr) :
    ((s.leave K).freePages (4096 * pr.pt)).Tracks (bitmapAddr K) (frameCount table)
        ((pr.drop 1024).used B) ∧
      ((s.leave K).freePages (4096 * pr.pt)).curDir = 0 ∧
      ((s.leave K).freePages (4096 * pr.pt)).cr3 = K.pageDir ∧
      ∀ i j, j < 1024 → Mem.PageApart i (bitmapAddr K) (bitmapBytes (frameCount table)) →
        ((s.leave K).freePages (4096 * pr.pt)).mem.word i j = s.mem.word i j :=
  @Running.freePages_run K table s B pr h (s.leave K) (h.kernel.tracks.of_same rfl rfl rfl rfl) rfl 1024 le_rfl

lemma Proc.drop_all (pr : Proc) (i : ℕ) : (pr.drop 1024).Holds i ↔ i = pr.dir ∨ i = pr.pt := by
  rw [Proc.drop_holds]
  refine or_congr Iff.rfl (or_iff_left ?_)
  rintro ⟨j, h1, h2, -⟩
  omega

/-- `vm_detach` frees the pages, the page table and the directory. -/
lemma Running.vmDetach_eq (h : Running K table s B pr) : s.vmDetach K =
    let s₂ := (s.leave K).freePages (4096 * pr.pt)
    let s₃ := s₂.freeFrame (4096 * pr.pt)
    Vm.freeFrame { s₃ with mem := s₃.mem.st32 (4096 * pr.dir + 4 * userPde) 0 } (4096 * pr.dir) := by
  obtain ⟨hne, hne'⟩ := h.pageDir_ne
  obtain ⟨-, -, -, hw⟩ := h.freePages_spec
  have hu : userPde < 1024 := by decide
  have hpde : s.mem.ld32 (4096 * pr.dir + 4 * userPde) = 4096 * pr.pt + 7 :=
    (h.dirWord userPde hu).trans (if_pos rfl)
  have hpde₂ : ((s.leave K).freePages (4096 * pr.pt)).mem.ld32 (4096 * pr.dir + 4 * userPde) =
      4096 * pr.pt + 7 := (hw pr.dir userPde hu (h.apart pr.holds_dir)).trans hpde
  have hpresent : present (4096 * pr.pt + 7) = true := present_pteOf (some pr.pt)
  have haddr : entryAddr (4096 * pr.pt + 7) = 4096 * pr.pt := entryAddr_flags pr.pt (by omega)
  have hdestroy : (s.leave K).vmDestroy K (4096 * pr.dir) =
      let s₂ := (s.leave K).freePages (4096 * pr.pt)
      let s₃ := s₂.freeFrame (4096 * pr.pt)
      Vm.freeFrame { s₃ with mem := s₃.mem.st32 (4096 * pr.dir + 4 * userPde) 0 }
        (4096 * pr.dir) := by
    unfold Vm.vmDestroy
    rw [if_neg (by rintro (h1 | h1); exacts [hne h1, hne' h1])]
    change s.mem.ld32 (4096 * pr.dir + 4 * userPde) = _ at hpde
    simp only [show (s.leave K).mem = s.mem from rfl, hpde, hpresent, haddr, hpde₂, if_true]
  unfold Vm.vmDetach
  simp only [h.curDir_eq]
  rw [if_neg hne]
  exact hdestroy

/-- Frames given back change neither directory register. -/
lemma Vm.giveTwo_same (s : Vm) (m : Mem) (t d : ℕ) :
    (Vm.giveFrame { s.giveFrame t with mem := m } d).curDir = s.curDir ∧
      (Vm.giveFrame { s.giveFrame t with mem := m } d).cr3 = s.cr3 := ⟨rfl, rfl⟩

section Freed

variable (h : Running K table s B pr) {s₂ : Vm}
  (ht : s₂.Tracks (bitmapAddr K) (frameCount table) ((pr.drop 1024).used B))

include h ht

lemma Running.pt_freed : s₂.freeFrame (4096 * pr.pt) = s₂.giveFrame pr.pt ∧
    (s₂.giveFrame pr.pt).Tracks (bitmapAddr K) (frameCount table)
      (Function.update ((pr.drop 1024).used B) pr.pt false) := by
  have hlt := (h.fresh _ pr.holds_pt).1.lt
  have hused : (pr.drop 1024).used B pr.pt = true :=
    ((pr.drop 1024).used_iff B _).mpr (Or.inr ((pr.drop_all _).mpr (Or.inr rfl)))
  exact ⟨freeFrame_eq ht hlt hused, ht.clear hlt hused⟩

lemma Running.dir_freed {m : Mem} (hm : ∀ i < 8 * bitmapBytes (frameCount table),
      m.bit (bitmapAddr K) i = (s₂.giveFrame pr.pt).mem.bit (bitmapAddr K) i) :
    Vm.freeFrame { s₂.giveFrame pr.pt with mem := m } (4096 * pr.dir) =
        Vm.giveFrame { s₂.giveFrame pr.pt with mem := m } pr.dir ∧
      (Vm.giveFrame { s₂.giveFrame pr.pt with mem := m } pr.dir).Tracks (bitmapAddr K)
        (frameCount table) B.used := by
  obtain ⟨hld, hdfree⟩ := h.fresh _ pr.holds_dir
  obtain ⟨-, hpfree⟩ := h.fresh _ pr.holds_pt
  have ht' := (h.pt_freed ht).2.withMem hm
  have hused : Function.update ((pr.drop 1024).used B) pr.pt false pr.dir = true := by
    rw [Function.update_of_ne (Ne.symm h.pt_ne)]
    exact ((pr.drop 1024).used_iff B _).mpr (Or.inr ((pr.drop_all _).mpr (Or.inl rfl)))
  refine ⟨freeFrame_eq ht' hld.lt hused, (ht'.clear hld.lt hused).congr fun i _ => ?_⟩
  rw [Bool.eq_iff_iff]
  by_cases hid : i = pr.dir
  · rw [hid, Function.update_self, hdfree]
  · rw [Function.update_of_ne hid]
    by_cases hip : i = pr.pt
    · rw [hip, Function.update_self, hpfree]
    · rw [Function.update_of_ne hip, Proc.used_iff, Proc.drop_all]
      exact (or_iff_left (by rintro (h1 | h1); exacts [hid h1, hip h1])).symm

end Freed

/-- `vm_detach` gives every frame of the program back. -/
lemma vmDetach_idle (h : Running K table s B pr) : Idle K table (s.vmDetach K) B := by
  have hld := (h.fresh _ pr.holds_dir).1
  have hlp := (h.fresh _ pr.holds_pt).1
  have hu : userPde < 1024 := by decide
  obtain ⟨ht, hcur, hcr3, hw⟩ := h.freePages_spec
  obtain ⟨e₁, ht₁⟩ := h.pt_freed ht
  have hbits := fun i hi => Mem.bit_st32 (m := (((s.leave K).freePages (4096 * pr.pt)).giveFrame
    pr.pt).mem) (j := i) (v := 0) hld.apart hi hu
  obtain ⟨e₂, ht₂⟩ := h.dir_freed ht hbits
  have hstate := h.vmDetach_eq
  simp only [e₁, e₂] at hstate
  refine ⟨h.kernel.stay (u := B.used) (by rw [hstate]; exact ht₂) (fun i hi => ?_) h.tables_used
    fun i hi k hk => ?_, ?_, ?_⟩
  · by_cases hh : pr.Holds i
    · exact (h.fresh i hh).1
    · exact h.kernel.loose i (Bool.or_eq_false_iff.mpr ⟨hi, decide_eq_false hh⟩)
  · have hap := h.kernel.page_apart hi
    rw [hstate, giveFrame_word (ht₁.withMem hbits) hld.lt hap hk, Mem.word_st32 (by omega) hu hk,
      if_neg fun e => h.kernel_ne pr.holds_dir hi e.1, giveFrame_word ht hlp.lt hap hk]
    exact hw i k hk hap
  · rw [hstate]
    exact (Vm.giveTwo_same _ _ _ _).1.trans hcur
  · rw [hstate]
    exact (Vm.giveTwo_same _ _ _ _).2.trans hcr3

end LunariaOS.Mm
