import LunariaOS.Mm.Lives

/-!
The window as a flat memory.

What a program reads and writes goes through the directory in force, and a page that is missing is
served by `vm_fault`. Over all lives of programs every read gives what it would give if each program
had an array of its own for the window, full of zeros at the start. Memory is all that `memset` and
the processor reach by a physical address: the frames are taken to be there and mapped.
-/

namespace LunariaOS.Mm

open LunariaOS.Lib

/-- What happens: a program starts, reads or writes a byte, ends. -/
inductive Access
  | start
  | read (a : ℕ)
  | write (a : ℕ) (b : UInt8)
  | stop

/-- The processor looks the address up in the directory in force; where nothing is mapped the fault
handler may serve the page, and the instruction is tried again. -/
def Vm.touch (s : Vm) (a : ℕ) : Option Leaf × Vm :=
  match s.walk s.cr3 a with
  | some l => (some l, s)
  | none =>
    let (ok, s) := s.vmFault a
    (if ok then s.walk s.cr3 a else none, s)

/-- A byte stored through what the walk found. -/
def Vm.store (s : Vm) (l : Leaf) (a : ℕ) (b : UInt8) : Vm :=
  { s with mem := Function.update s.mem (l.addr + a % 4096) b }

/-- One step of the machine: what it reads, and the state afterwards. An access that the processor does
not grant reads and stores nothing. -/
def Vm.access (K : Image) (s : Vm) : Access → Option UInt8 × Vm
  | .start => (none, s.exec K .start)
  | .read a =>
    if s.curDir = 0 then (none, s)
    else
      match s.touch a with
      | (some l, s) => (if l.user then some (s.mem (l.addr + a % 4096)) else none, s)
      | (none, s) => (none, s)
  | .write a b =>
    if s.curDir = 0 then (none, s)
    else
      match s.touch a with
      | (some l, s) => (none, if l.user && l.writable then s.store l a b else s)
      | (none, s) => (none, s)
  | .stop => (none, s.exec K .stop)

/-- The abstract machine: a program that runs has a flat array of its own, zero at the start. -/
def flat : Option (ℕ → UInt8) → Access → Option UInt8 × Option (ℕ → UInt8)
  | none, .start => (none, some fun _ => 0)
  | some w, .start => (none, some w)
  | w, .read a => (w.map fun w => w a, w)
  | w, .write a b => (none, w.map fun w => Function.update w a b)
  | _, .stop => (none, none)

/-- An address of the window. -/
def InWindow (a : ℕ) : Prop := userBase ≤ a ∧ a < userTop

/-- The frames do not run out: two are free when a program starts, and one when a page is missing. All
accesses go to the window. -/
def Enough (s : Vm) : Access → Prop
  | .start => s.curDir = 0 → 2 ≤ s.framesFree
  | .read a | .write a _ => InWindow a ∧ (s.walk s.cr3 a = none → 0 < s.framesFree)
  | .stop => True

variable {K : Image} {table : List E820Entry} {s : Vm} {B : Book} {pr : Proc} {m : ℕ → UInt8}

/-! ### Pages and addresses -/

lemma page_eq {a a' : ℕ} (h : InWindow a) (h' : InWindow a') (hs : slot a = slot a') :
    a / 4096 = a' / 4096 := by
  unfold InWindow userBase userTop at h h'
  unfold slot at hs
  omega

lemma slot_inj {a a' : ℕ} (h : InWindow a) (h' : InWindow a') (hs : slot a = slot a')
    (ho : a % 4096 = a' % 4096) : a = a' := by
  have := page_eq h h' hs
  omega

/-- The pages of the program hold what the flat array says; a page that has not been touched is zero
there. -/
def Agrees (s : Vm) (pr : Proc) (w : ℕ → UInt8) : Prop :=
  ∀ a, InWindow a → (∀ f, pr.pages (slot a) = some f → s.mem (4096 * f + a % 4096) = w a) ∧
    (pr.pages (slot a) = none → w a = 0)

/-- What the processor finds for a page of the window that lies in the frame `f`. -/
def userLeaf (f : ℕ) : Leaf := { addr := 4096 * f, writable := true, user := true }

lemma Running.walk_window (h : Running K table s B pr) {a : ℕ} (ha : InWindow a) :
    s.walk s.cr3 a = (pr.pages (slot a)).map userLeaf := by
  obtain ⟨hpde, hslot, hpte⟩ := h.window_words ha.1 ha.2
  have haddr : entryAddr (4096 * pr.pt + 7) = 4096 * pr.pt := entryAddr_flags pr.pt (by omega)
  have hbits : ∀ i, (4096 * i + 7).testBit 1 = true ∧ (4096 * i + 7).testBit 2 = true := by
    intro i
    simp only [Nat.testBit_eq_decide_div_mod_eq, decide_eq_true_eq]
    omega
  have hpresent : present (4096 * pr.pt + 7) = true := present_pteOf (some pr.pt)
  unfold Vm.walk
  rw [h.cr3_eq]
  simp only [hpde, haddr, hslot, hpte, present_pteOf, hpresent, true_and]
  cases pr.pages (slot a) with
  | none => rfl
  | some f =>
    have hf : entryAddr (pteOf (some f)) = 4096 * f := entryAddr_flags f (by omega)
    rw [if_pos (by rfl), hf]
    unfold pteOf userLeaf
    simp only [(hbits _).1, (hbits _).2, Bool.and_self, Option.map_some]

/-! ### A page is served -/

/-- The bytes of a page after a frame has been entered. -/
lemma enterFrame_mem (h : Running K table s B pr) {j f c : ℕ} (hj : j < 1024)
    (hf : pr.used B f = false) {g o : ℕ} (hg : pr.Holds g ∨ g = f) (hne : g ≠ pr.pt) (ho : o < 4096) :
    ({ s.enterFrame f pr.pt j (4096 * f + 7) with faultCount := c } : Vm).mem (4096 * g + o) =
      if g = f then 0 else s.mem (4096 * g + o) := by
  have hloose := (h.free_frame hf).1
  change (memset (s.takeFrame f).mem (4096 * f) 0 4096).st32 (4096 * pr.pt + 4 * j) (4096 * f + 7)
    (4096 * g + o) = _
  rw [Mem.st32_of_out _ _ (by omega)]
  by_cases hgf : g = f
  · rw [if_pos hgf, hgf]
    exact memset_in _ _ _ ho
  · have hap := h.apart (hg.resolve_right hgf)
    have hlt := hloose.lt
    rw [if_neg hgf]
    refine (Mem.blit_of_out _ _ (by omega)).trans ?_
    change s.mem.setBit s.bitmap f (4096 * g + o) = _
    rw [h.kernel.tracks.bitmap_eq]
    have hbyte := lt_bits hlt
    unfold Mem.PageApart at hap
    exact Mem.setBit_of_out (by omega)

/-- An access to the address `a` of the window finds its page in the frame `f`, or has it served
there. -/
structure Touched (K : Image) (table : List E820Entry) (B : Book) (s : Vm) (pr : Proc) (a : ℕ)
    (s' : Vm) (pr' : Proc) (f : ℕ) : Prop where
  found : s.touch a = (some (userLeaf f), s')
  running : Running K table s' B pr'
  page : pr'.pages (slot a) = some f
  pt_eq : pr'.pt = pr.pt
  agrees : ∀ w, Agrees s pr w → Agrees s' pr' w
  zero : pr.pages (slot a) = none → ∀ o < 4096, s'.mem (4096 * f + o) = 0
  changes : ∀ x, s'.mem x ≠ s.mem x → x / 4096 = f ∨ x / 4096 = pr.pt ∨
    (s.bitmap ≤ x ∧ x < s.bitmap + bitmapBytes s.nframes)

/-- The memory outside the frame, the page table and the bitmap when a frame is entered. -/
lemma enterFrame_changes (h : Running K table s B pr) {j f x : ℕ} (hj : j < 1024)
    (hf : f < frameCount table) (hx : (s.enterFrame f pr.pt j (4096 * f + 7)).mem x ≠ s.mem x) :
    x / 4096 = f ∨ x / 4096 = pr.pt ∨ (s.bitmap ≤ x ∧ x < s.bitmap + bitmapBytes s.nframes) := by
  by_contra hno
  push Not at hno
  obtain ⟨h1, h2, h3⟩ := hno
  apply hx
  have hbyte := lt_bits hf
  rw [h.kernel.tracks.nframes_eq] at h3
  refine (Mem.st32_of_out _ _ (by omega)).trans ?_
  refine (Mem.blit_of_out _ _ (by omega)).trans ?_
  exact Mem.setBit_of_out (by omega)

/-- Every access to the window finds its page while frames are left, and the contents stay. -/
lemma Running.touched (h : Running K table s B pr) {a : ℕ} (ha : InWindow a)
    (henough : s.walk s.cr3 a = none → 0 < s.framesFree) :
    ∃ s' pr' f, Touched K table B s pr a s' pr' f := by
  have hwalk := h.walk_window ha
  cases hpg : pr.pages (slot a) with
  | some f =>
    refine ⟨s, pr, f, ?_, h, hpg, rfl, fun w hw => hw, fun hno => ?_, fun x hx => absurd rfl hx⟩
    · unfold Vm.touch
      rw [hwalk, hpg]
      rfl
    · rw [hpg] at hno
      cases hno
  | none =>
    have hnone : s.walk s.cr3 a = none := by
      rw [hwalk, hpg]
      rfl
    rcases vmFault_cases h a with ⟨-, hfull⟩ | ⟨-, -, -, f, c, hf, e⟩
    · -- a frame is free, so that the fault is served
      have hpos := henough hnone
      rw [h.kernel.tracks.full (hfull ha.1 ha.2 hpg)] at hpos
      cases hpos
    have hrun := h.addPage (slot_lt a) hpg hf c
    have hpage : (pr.addPage (slot a) f).pages (slot a) = some f := by
      rw [Proc.addPage_pages, if_pos rfl]
    have hfree := (h.free_frame hf).2.2
    have hpt : f ≠ pr.pt := by
      rintro rfl
      exact hfree pr.holds_pt
    have hzero : ∀ o < 4096, ({ s.enterFrame f pr.pt (slot a) (4096 * f + 7) with
        faultCount := c } : Vm).mem (4096 * f + o) = 0 := fun o ho => by
      rw [enterFrame_mem h (slot_lt a) hf (Or.inr rfl) hpt ho, if_pos rfl]
    refine ⟨_, _, f, ?_, hrun, hpage, rfl, fun w hw a' ha' => ?_, fun _ => hzero, fun x hx =>
      enterFrame_changes h (slot_lt a) (h.free_frame hf).1.lt hx⟩
    · unfold Vm.touch
      rw [hnone]
      simp only [e, if_true]
      rw [hrun.walk_window ha, hpage]
      rfl
    · obtain ⟨hold, hnew⟩ := hw a' ha'
      rw [Proc.addPage_pages]
      by_cases hs : slot a' = slot a
      · rw [if_pos hs]
        refine ⟨fun g hg => ?_, fun hn => by cases hn⟩
        obtain rfl := Option.some.inj hg
        rw [hzero _ (Nat.mod_lt _ (by omega))]
        exact (hnew (by rw [hs]; exact hpg)).symm
      · rw [if_neg hs]
        refine ⟨fun g hg => ?_, hnew⟩
        have hholds := h.holds_page hg
        have hgf : g ≠ f := by
          rintro rfl
          exact hfree hholds
        rw [enterFrame_mem h (slot_lt a) hf (Or.inl hholds) (h.pages_ne _ g hg).2.2
          (Nat.mod_lt _ (by omega)), if_neg hgf]
        exact hold g hg

/-! ### A byte is stored -/

/-- A byte stored in a page of the window changes no table and no bit of the bitmap. -/
lemma Running.store (h : Running K table s B pr) {a f : ℕ} (hf : pr.pages (slot a) = some f)
    (b : UInt8) : Running K table (s.store (userLeaf f) a b) B pr := by
  have hholds := h.holds_page hf
  have hmem : ∀ x, x < 4096 * f ∨ 4096 * f + 4096 ≤ x →
      (s.store (userLeaf f) a b).mem x = s.mem x := fun x hx => by
    refine Function.update_of_ne ?_ ..
    unfold userLeaf
    simp only
    omega
  have hword : ∀ i ≠ f, ∀ k < 1024, (s.store (userLeaf f) a b).mem.word i k = s.mem.word i k :=
    fun i hi k hk => Mem.word_congr (fun x h1 h2 => hmem x (by omega)) hk
  obtain ⟨-, hdir, hpt⟩ := h.pages_ne _ f hf
  refine ⟨?_, h.fresh, h.tables_used, h.pt_ne, h.pages_ne, h.pages_inj, fun p hp => ?_,
    fun j hj => ?_, h.curDir_eq, h.cr3_eq⟩
  · refine h.kernel.stay (h.kernel.tracks.withMem fun i hi => ?_) h.kernel.loose
      (fun p t hp => (h.kernel.tables p t hp).2.2) fun i hi k hk => ?_
    · exact Mem.bit_of_apart (h.apart hholds) hi hmem
    · exact hword i (h.kernel_ne hholds hi) k hk
  · rw [hword _ (Ne.symm hdir) p hp]
    exact h.dirWord p hp
  · rw [hword _ (Ne.symm hpt) j hj]
    exact h.ptWord j hj

/-- The byte is stored at its address of the flat array and nowhere else. -/
lemma Agrees.store (h : Running K table s B pr) {a f : ℕ} (ha : InWindow a)
    (hf : pr.pages (slot a) = some f) {w : ℕ → UInt8} (hw : Agrees s pr w) (b : UInt8) :
    Agrees (s.store (userLeaf f) a b) pr (Function.update w a b) := by
  intro a' ha'
  obtain ⟨hold, hnew⟩ := hw a' ha'
  refine ⟨fun g hg => ?_, fun hno => ?_⟩
  · change Function.update s.mem (4096 * f + a % 4096) b (4096 * g + a' % 4096) = _
    by_cases heq : a' = a
    · subst heq
      rw [hf] at hg
      obtain rfl := Option.some.inj hg
      rw [Function.update_self, Function.update_self]
    · rw [Function.update_of_ne heq, Function.update_of_ne]
      · exact hold g hg
      · -- another frame, or another place in the same frame
        intro h4
        have h1 := Nat.mod_lt a (show 4096 > 0 by omega)
        have h2 := Nat.mod_lt a' (show 4096 > 0 by omega)
        obtain rfl : g = f := by omega
        exact heq (slot_inj ha' ha (h.pages_inj _ _ g hg hf) (by omega))
  · rw [Function.update_of_ne]
    · exact hnew hno
    · rintro rfl
      rw [hno] at hf
      cases hf

/-! ### A program is started -/

/-- `vm_create` makes an address space when two frames are free. -/
lemma vmCreate_ne (h : KernelMap K table s B) (hfree : 2 ≤ s.framesFree) :
    (s.vmCreate K).1 ≠ 0 := by
  rcases allocFrame_cases h.tracks with ⟨-, hfull⟩ | ⟨d, hdlt, hd, ha⟩
  · rw [h.tracks.full hfull] at hfree
    cases hfree
  have hld := h.loose d hd
  have hlow := hld.low
  have hne : 4096 * d ≠ 0 := by omega
  have htracks := h.copyDir_tracks hd
  rcases allocFrame_cases htracks with ⟨-, hfull⟩ | ⟨t, -, ht, hb⟩
  · -- one of the two frames is left after the directory
    have hcount : (s.copyDir K d).framesFree = u32 (s.framesFree + 4294967295) := rfl
    have hle : s.framesFree ≤ 1048576 := by
      rw [h.tracks.count]
      exact (Mem.clearBits_le ..).trans h.tracks.few
    rw [htracks.full hfull] at hcount
    unfold u32 at hcount
    omega
  · have htfree : B.used t = false := by
      by_cases htd : t = d
      · rw [htd]
        exact hd
      · rwa [Function.update_of_ne htd] at ht
    have hlow' := (h.loose t htfree).low
    have hpt : 4096 * t ≠ 0 := by omega
    rw [vmCreate_eq ha hne, hb]
    simp only [if_neg hpt]
    exact hne

/-! ### The simulation -/

/-- The state and the flat array of the program that runs. -/
def Follows (K : Image) (table : List E820Entry) (B : Book) (s : Vm) : Option (ℕ → UInt8) → Prop
  | none => Idle K table s B
  | some w => ∃ pr, Running K table s B pr ∧ Agrees s pr w

lemma Follows.idle {w : Option (ℕ → UInt8)} (h : Follows K table B s w) (hcur : s.curDir = 0) :
    w = none := by
  cases w with
  | none => rfl
  | some w =>
    obtain ⟨pr, hrun, -⟩ := h
    exact absurd hcur hrun.curDir_ne

lemma launch_follows (h : Idle K table s B) (hfree : 2 ≤ s.framesFree) :
    Follows K table B (s.launch K) (some fun _ => 0) := by
  have hne := vmCreate_ne h.kernel hfree
  rcases vmCreate_cases h.kernel with ⟨s', e, -⟩ | ⟨s', pr, e, hdir, hpages, hrun⟩
  · rw [e] at hne
    exact absurd rfl hne
  · unfold Vm.launch
    rw [e]
    simp only [if_neg hdir]
    refine ⟨pr, hrun, fun a _ => ⟨fun f hf => ?_, fun _ => rfl⟩⟩
    rw [hpages] at hf
    cases hf

lemma access_off (hcur : s.curDir = 0) (a : ℕ) (b : UInt8) :
    s.access K (.read a) = (none, s) ∧ s.access K (.write a b) = (none, s) :=
  ⟨if_pos hcur, if_pos hcur⟩

lemma access_read {s' : Vm} {a f : ℕ} (hcur : s.curDir ≠ 0)
    (ht : s.touch a = (some (userLeaf f), s')) :
    s.access K (.read a) = (some (s'.mem (4096 * f + a % 4096)), s') := by
  refine (if_neg hcur).trans ?_
  rw [ht]
  rfl

lemma access_write {s' : Vm} {a f : ℕ} (hcur : s.curDir ≠ 0)
    (ht : s.touch a = (some (userLeaf f), s')) (b : UInt8) :
    s.access K (.write a b) = (none, s'.store (userLeaf f) a b) := by
  refine (if_neg hcur).trans ?_
  rw [ht]
  rfl

/-- One access reads what the flat array has, and leaves what the flat array has afterwards. -/
lemma access_sim {w : Option (ℕ → UInt8)} (h : Follows K table B s w) {x : Access}
    (henough : Enough s x) :
    (s.access K x).1 = (flat w x).1 ∧ Follows K table B (s.access K x).2 (flat w x).2 := by
  cases w with
  | none =>
    cases x with
    | start =>
      refine ⟨rfl, ?_⟩
      change Follows K table B (if s.curDir = 0 then s.launch K else s) _
      rw [if_pos h.curDir_eq]
      exact launch_follows h (henough h.curDir_eq)
    | read a =>
      rw [(access_off h.curDir_eq a 0).1]
      exact ⟨rfl, h⟩
    | write a b =>
      rw [(access_off h.curDir_eq a b).2]
      exact ⟨rfl, h⟩
    | stop => exact ⟨rfl, stop_idle (Or.inl h)⟩
  | some w =>
    obtain ⟨pr, hrun, hw⟩ := h
    cases x with
    | start =>
      refine ⟨rfl, ?_⟩
      change Follows K table B (if s.curDir = 0 then s.launch K else s) _
      rw [if_neg hrun.curDir_ne]
      exact ⟨pr, hrun, hw⟩
    | read a =>
      obtain ⟨s', pr', f, ht⟩ := hrun.touched henough.1 henough.2
      rw [access_read hrun.curDir_ne ht.found]
      exact ⟨congrArg some ((ht.agrees w hw a henough.1).1 f ht.page), pr', ht.running,
        ht.agrees w hw⟩
    | write a b =>
      obtain ⟨s', pr', f, ht⟩ := hrun.touched henough.1 henough.2
      rw [access_write hrun.curDir_ne ht.found]
      exact ⟨rfl, pr', ht.running.store ht.page b,
        (ht.agrees w hw).store ht.running henough.1 ht.page b⟩
    | stop => exact ⟨rfl, stop_idle (Or.inr ⟨pr, hrun⟩)⟩

/-! ### Where the frames are mapped -/

/-- Outside the window a program has the kernel's map. -/
lemma Running.walk_kernel (h : Running K table s B pr) {v : ℕ} (hv : v < 4294967296)
    (hw : v / 4194304 ≠ userPde) : s.walk s.cr3 v = s.walk K.pageDir v := by
  have hpde : s.mem.ld32 (pdeAt (4096 * pr.dir) v) = s.mem.ld32 (pdeAt K.pageDir v) := by
    refine ((h.dirWord _ (by omega)).trans (if_neg hw)).trans ?_
    unfold pdeAt
    rw [pageDir_eq]
    exact (h.kernel.pde _ (by omega)).symm
  unfold Vm.walk
  rw [h.cr3_eq, hpde]

/-- A frame with a role was free when `memory_init` was done. -/
lemma Alive.role_free {P : ℕ → Prop} (h : Alive K table B s)
    (hgrows : Grows (Book.start K table) B P) {i : ℕ} {r : Role} (hr : HasRole K s i r) :
    usedAtStart K table i = false := by
  have hfree : B.used i = false → usedAtStart K table i = false := fun hi => by
    by_contra hu
    have hstart : usedAtStart K table i = true := by simpa using hu
    rw [hgrows.used i hstart] at hi
    cases hi
  have htab : ∀ p, B.table p = some i → usedAtStart K table i = false := fun p hp =>
    (hgrows.tables p i hp rfl).1
  rcases h with h | ⟨pr, h⟩
  · rcases h.role_cases hr with ⟨p, -, hp⟩ | ⟨-, hi⟩
    · exact htab p hp
    · exact hfree hi
  · have hin := h.roleIn hr
    cases r with
    | kernelTable p => exact htab p hin.1
    | processDir => exact hfree hin.2
    | processTable => exact hfree hin.2.2
    | page j => exact hfree hin.2.2.2
    | free => exact hfree hin.1

/-- What `FramesMapped` says of the book. -/
lemma FramesMapped.mapped {m : Mem} (h : KernelMap K table s B)
    (hmapped : FramesMapped K (memoryInit K table (Vm.off m)) s) {i : ℕ}
    (hi : usedAtStart K table i = false) : B.mapped i = true := by
  have ht := memoryInit_tracks K table (Vm.off m)
  have hlt := (usedAtStart_loose hi).lt
  have hcount := frameCount_le table
  have hused : (memoryInit K table (Vm.off m)).frameUsed i = false := by
    unfold Vm.frameUsed
    rw [ht.bitmap_eq, ht.bits i (lt_bits hlt), hi]
  obtain ⟨l, hl, -⟩ := hmapped i (by rwa [ht.nframes_eq]) hused (4096 * i) (by omega)
  rw [h.walk_eq (by omega), show 4096 * i / 4096 = i by omega] at hl
  split_ifs at hl with hm
  exact hm

/-- The directory in force maps the page to itself, for writing. -/
def SelfMapped (s : Vm) (i : ℕ) : Prop :=
  ∀ v, v / 4096 = i → ∃ l, s.walk s.cr3 v = some l ∧ l.addr = entryAddr v ∧ l.writable = true

lemma Alive.selfMapped (h : Alive K table B s) {i : ℕ} (hi : Loose K table i)
    (hm : B.mapped i = true) : SelfMapped s i := by
  intro v hv
  have hlt := hi.lt
  have hwin := hi.window
  have hcount := frameCount_le table
  refine ⟨{ addr := 4096 * i, writable := true, user := false }, ?_, ?_, rfl⟩
  · rcases h with h | ⟨pr, h⟩
    · rw [h.cr3_eq, h.kernel.walk_eq (by omega), hv, if_pos hm]
    · have hpde : v / 4194304 ≠ userPde := by
        rw [show userPde = 1 from rfl]
        omega
      rw [h.walk_kernel (by omega) hpde, h.kernel.walk_eq (by omega), hv]
      exact if_pos hm
  · rw [entryAddr_eq, hv]

/-! ### All lives -/

/-- The state `s'` is reached from `s`: the frames have not run out. -/
def Reached (K : Image) (s s' : Vm) : Prop :=
  ∃ l, Along (after (Vm.access K)) Enough s l ∧ s' = run (after (Vm.access K)) s l

/-- A byte written in the window goes to the frame that serves as this page of the window and as
nothing else. Only that byte changes, apart from what serving the page changes: the frame itself, the
program's page table and the bitmap. -/
def Confined (K : Image) (s : Vm) (a : ℕ) (b : UInt8) : Prop :=
  ∃ f t s', s.touch a = (some (userLeaf f), s') ∧
    (s.access K (.write a b)).2.mem = Function.update s'.mem (4096 * f + a % 4096) b ∧
    (∀ x, s'.mem x ≠ s.mem x → x / 4096 = f ∨ x / 4096 = t ∨
      (s.bitmap ≤ x ∧ x < s.bitmap + bitmapBytes s.nframes)) ∧
    HasRole K s' f (.page (slot a)) ∧ HasRole K s' t .processTable ∧
    (∀ r, HasRole K s' f r → r = .page (slot a)) ∧ lowEnd ≤ 4096 * f ∧
    (4096 * f + 4096 ≤ s.bitmap ∨ s.bitmap + bitmapBytes s.nframes ≤ 4096 * f)

/-- What the lives of programs from `s` on have of the window. -/
structure FlatWindow (K : Image) (s : Vm) : Prop where
  reads : ∀ l, Along (after (Vm.access K)) Enough s l →
    (trace (Vm.access K) s l).1 = (trace flat none l).1
  independent : ∀ s₁ s₂, Reached K s s₁ → Reached K s s₂ → s₁.curDir = 0 → s₂.curDir = 0 →
    ∀ l, Along (after (Vm.access K)) Enough s₁ l → Along (after (Vm.access K)) Enough s₂ l →
    (trace (Vm.access K) s₁ l).1 = (trace (Vm.access K) s₂ l).1
  zero : ∀ s', Reached K s s' → s'.curDir ≠ 0 → ∀ a, Enough s' (.read a) →
    s'.walk s'.cr3 a = none →
    ∃ l s'', s'.touch a = (some l, s'') ∧ ∀ o < 4096, s''.mem (l.addr + o) = 0
  apart : ∀ s', Reached K s s' → s'.curDir ≠ 0 → ∀ a a', InWindow a → InWindow a' →
    ∀ l l', s'.walk s'.cr3 a = some l → s'.walk s'.cr3 a' = some l' → l.addr = l'.addr →
    a / 4096 = a' / 4096
  writes : ∀ s', Reached K s s' → s'.curDir ≠ 0 → ∀ a b, Enough s' (.write a b) → Confined K s' a b
  mapped : ∀ s', Reached K s s' → ∀ i r, HasRole K s' i r → SelfMapped s' i

lemma Follows.alive {w : Option (ℕ → UInt8)} (h : Follows K table B s w) : Alive K table B s := by
  cases w with
  | none => exact Or.inl h
  | some w =>
    obtain ⟨pr, hrun, -⟩ := h
    exact Or.inr ⟨pr, hrun⟩

/-- Along a run the reads are those of the flat array. -/
lemma Follows.trace {w : Option (ℕ → UInt8)} (h : Follows K table B s w) {l : List Access}
    (hl : Along (after (Vm.access K)) Enough s l) :
    (trace (Vm.access K) s l).1 = (trace flat w l).1 ∧
      Follows K table B (trace (Vm.access K) s l).2 (trace flat w l).2 :=
  trace_sim_along (Q := Enough) (fun _ _ _ h henough => access_sim h henough) h hl

lemma Idle.reached (h : Idle K table s B) {s' : Vm} (hs : Reached K s s') :
    ∃ w, Follows K table B s' w := by
  obtain ⟨l, hl, rfl⟩ := hs
  rw [← trace_snd]
  exact ⟨_, (Follows.trace (w := none) h hl).2⟩

lemma Alive.running (h : Alive K table B s) (hcur : s.curDir ≠ 0) :
    ∃ pr, Running K table s B pr := by
  rcases h with h | h
  · exact absurd h.curDir_eq hcur
  · exact h

lemma Running.hasPage (h : Running K table s B pr) {j f : ℕ} (hf : pr.pages j = some f) :
    HasRole K s f (.page j) ∧ HasRole K s pr.pt .processTable := by
  have hpde : s.mem.ld32 (s.curDir + 4 * userPde) = 4096 * pr.pt + 7 := by
    rw [h.curDir_eq]
    exact (h.dirWord userPde (by decide)).trans (if_pos rfl)
  have haddr : entryAddr (4096 * pr.pt + 7) = 4096 * pr.pt := entryAddr_flags pr.pt (by omega)
  have hpresent : present (4096 * pr.pt + 7) = true := present_pteOf (some pr.pt)
  have hj := (h.pages_ne j f hf).1
  have hpte : s.mem.ld32 (4096 * pr.pt + 4 * j) = pteOf (some f) := (h.ptWord j hj).trans (by rw [hf])
  refine ⟨⟨h.curDir_ne, hj, ?_, ?_⟩, h.curDir_ne, ?_, ?_⟩
  · rw [hpde]
    exact hpresent
  · rw [hpde, haddr]
    simp only [hpte]
    exact ⟨present_pteOf _, entryAddr_flags f (by omega)⟩
  · rw [hpde]
    exact hpresent
  · rw [hpde, haddr]

lemma Running.confined (h : Running K table s B pr) {a : ℕ} {b : UInt8}
    (henough : Enough s (.write a b)) : Confined K s a b := by
  obtain ⟨s', pr', f, ht⟩ := h.touched henough.1 henough.2
  obtain ⟨hpage, htable⟩ := ht.running.hasPage ht.page
  have hloose := (ht.running.fresh f (ht.running.holds_page ht.page)).1
  have hlow := hloose.low
  have hap := hloose.apart
  refine ⟨f, pr.pt, s', ht.found, ?_, ht.changes, hpage, ?_,
    fun r hr => role_unique (Or.inr ⟨pr', ht.running⟩) hr hpage, ?_, ?_⟩
  · rw [access_write h.curDir_ne ht.found]
    rfl
  · rw [← ht.pt_eq]
    exact htable
  · unfold lowEnd
    omega
  · rw [h.kernel.tracks.bitmap_eq, h.kernel.tracks.nframes_eq]
    exact hap

lemma flatWindow (h : Idle K table s B)
    (hmapped : ∀ s', Alive K table B s' → ∀ i r, HasRole K s' i r → SelfMapped s' i) :
    FlatWindow K s where
  reads := fun l hl => (Follows.trace (w := none) h hl).1
  independent := fun s₁ s₂ h₁ h₂ hc₁ hc₂ l hl₁ hl₂ => by
    obtain ⟨w₁, hw₁⟩ := h.reached h₁
    obtain ⟨w₂, hw₂⟩ := h.reached h₂
    obtain rfl := hw₁.idle hc₁
    obtain rfl := hw₂.idle hc₂
    exact (hw₁.trace hl₁).1.trans (hw₂.trace hl₂).1.symm
  zero := fun s' hs hcur a henough hnone => by
    obtain ⟨w, hw⟩ := h.reached hs
    obtain ⟨pr, hrun⟩ := hw.alive.running hcur
    obtain ⟨s'', pr', f, ht⟩ := hrun.touched henough.1 henough.2
    rw [hrun.walk_window henough.1, Option.map_eq_none_iff] at hnone
    exact ⟨userLeaf f, s'', ht.found, ht.zero hnone⟩
  apart := fun s' hs hcur a a' ha ha' l l' hl hl' heq => by
    obtain ⟨w, hw⟩ := h.reached hs
    obtain ⟨pr, hrun⟩ := hw.alive.running hcur
    rw [hrun.walk_window ha, Option.map_eq_some_iff] at hl
    rw [hrun.walk_window ha', Option.map_eq_some_iff] at hl'
    obtain ⟨f, hf, rfl⟩ := hl
    obtain ⟨f', hf', rfl⟩ := hl'
    unfold userLeaf at heq
    simp only at heq
    obtain rfl : f = f' := by omega
    exact page_eq ha ha' (hrun.pages_inj _ _ f hf hf')
  writes := fun s' hs hcur a b henough => by
    obtain ⟨w, hw⟩ := h.reached hs
    obtain ⟨pr, hrun⟩ := hw.alive.running hcur
    exact hrun.confined henough
  mapped := fun s' hs => by
    obtain ⟨w, hw⟩ := h.reached hs
    exact hmapped s' hw.alive

/-- **The window is a flat memory of each program's own**, zero at the start, over all lives of programs:
when `paging_init` has mapped the frames that `memory_init` left free, and the frames do not run
out. -/
theorem window_flat (K : Image) (table : List E820Entry) (m : Mem) (n : ℕ) (ok : Bool) (s : Vm)
    (h : pagingInit K n table (memoryInit K table (Vm.off m)) = some (ok, s))
    (hmapped : FramesMapped K (memoryInit K table (Vm.off m)) s) : FlatWindow K s := by
  obtain ⟨B, P, hidle, hgrows⟩ := pagingInit_idle h
  refine flatWindow hidle fun s' hs i r hr => ?_
  have hfree := hs.role_free hgrows hr
  exact hs.selfMapped (usedAtStart_loose hfree) (hmapped.mapped hidle.kernel hfree)

lemma smallTable_needed : tablesNeeded smallTable ⊆ {0} := by
  intro p hp
  obtain ⟨r, hpaged, rfl⟩ := mem_tablesNeeded.mp hp
  rw [Finset.mem_singleton]
  rcases hpaged with hlow | ⟨e, he, -, hrange⟩
  · omega
  · obtain rfl := List.mem_singleton.mp he
    have hend : 4096 * r < 0x110000 := hrange.2.2.1
    omega

theorem window_flat_small : ∃ n s, pagingInit smallKernel n smallTable
    (memoryInit smallKernel smallTable (Vm.off fun _ => 0)) = some (true, s) ∧
    FramesMapped smallKernel (memoryInit smallKernel smallTable (Vm.off fun _ => 0)) s ∧
    FlatWindow smallKernel s := by
  have hwraps : ∀ e ∈ smallTable, ¬ e.Wraps := by decide
  have hfree : 0x100 ∈ freeAtStart smallKernel smallTable :=
    mem_freeAtStart.mpr ⟨by decide +kernel, by decide +kernel⟩
  have hcard : (tablesNeeded smallTable).card ≤ (freeAtStart smallKernel smallTable).card :=
    (Finset.card_le_card smallTable_needed).trans (Finset.card_pos.mpr ⟨_, hfree⟩)
  have hpaged : ∀ i, Offered smallKernel smallTable i → Paged smallTable i := by
    intro i hi
    obtain ⟨hlt, hused⟩ := (offered_iff ..).mp hi
    have hlow := (usedAtStart_loose hused).low
    have hcount : frameCount smallTable = 272 := by decide +kernel
    refine Or.inr ⟨.usable 0x100000 0x10000, List.mem_singleton.mpr rfl, by decide, by decide, ?_, ?_, ?_⟩
    · change 256 ≤ i
      exact hlow
    · change 4096 * i < 0x110000
      omega
    · omega
  obtain ⟨ok, s', B', e, -, hok, -⟩ :=
    mapAll_ok_iff smallKernel smallTable (Vm.off fun _ => 0) hwraps
  obtain rfl := hok.mpr hcard
  have he : pagingInit smallKernel turns smallTable
      (memoryInit smallKernel smallTable (Vm.off fun _ => 0)) =
        some (true, { s' with cr3 := smallKernel.pageDir }) := by
    rw [pagingInit_eq, e]
    rfl
  have hmapped := (framesMapped_iff smallKernel smallTable (Vm.off fun _ => 0) hwraps).mpr
    (fun _ => hpaged) turns _ he
  exact ⟨turns, _, he, hmapped, window_flat smallKernel smallTable _ turns true _ he hmapped⟩

end LunariaOS.Mm
