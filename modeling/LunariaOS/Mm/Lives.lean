import LunariaOS.Lib.Run
import LunariaOS.Mm.Process

/-!
The lives of programs, one after the other.

A program is started, touches pages of the window, and ends. The book of the kernel does not change
from the end of `paging_init` on: while a program runs its frames come on top of it, and when the
program ends they are all free again.
-/

namespace LunariaOS.Mm

open LunariaOS.Lib

/-- The state when the machine has been switched on: the variables are zero, the memory is whatever it
is. -/
def Vm.off (m : Mem) : Vm := { bareVm with mem := m }

/-- What the kernel does for programs: start one, serve a fault of the one that runs, end it. -/
inductive Op
  | start
  | fault (a : ℕ)
  | stop

/-- The part of `shell_run_program` that makes the address space. The shell waits while a program
runs. -/
def Vm.launch (K : Image) (s : Vm) : Vm :=
  let (d, s) := s.vmCreate K
  if d = 0 then s else s.vmAttach d

def Vm.exec (K : Image) (s : Vm) : Op → Vm
  | .start => if s.curDir = 0 then s.launch K else s
  | .fault a => if s.curDir = 0 then s else (s.vmFault a).2
  | .stop => s.vmDetach K

variable {K : Image} {table : List E820Entry} {s : Vm} {B : Book}

/-- **The invariant of all lives**: the kernel's book is `B`, and a program runs or none does. -/
def Alive (K : Image) (table : List E820Entry) (B : Book) (s : Vm) : Prop :=
  Idle K table s B ∨ ∃ pr, Running K table s B pr

lemma launch_alive (h : Idle K table s B) : Alive K table B (s.launch K) := by
  unfold Vm.launch
  rcases vmCreate_cases h.kernel with ⟨s', e, hmap, hcur, hcr3⟩ | ⟨s', pr, e, hne, -, hrun⟩
  · rw [e]
    exact Or.inl ⟨hmap, hcur.trans h.curDir_eq, hcr3.trans h.cr3_eq⟩
  · rw [e]
    simp only [if_neg hne]
    exact Or.inr ⟨pr, hrun⟩

lemma Running.curDir_ne {pr : Proc} (h : Running K table s B pr) : s.curDir ≠ 0 := by
  rw [h.curDir_eq]
  exact h.pageDir_ne.1

/-- One step keeps the invariant. -/
lemma exec_alive (h : Alive K table B s) (op : Op) : Alive K table B (s.exec K op) := by
  rcases h with h | ⟨pr, h⟩
  · cases op with
    | start =>
      unfold Vm.exec
      simp only [h.curDir_eq, if_true]
      exact launch_alive h
    | fault a =>
      unfold Vm.exec
      simp only [h.curDir_eq, if_true]
      exact Or.inl h
    | stop =>
      unfold Vm.exec Vm.vmDetach
      simp only [h.curDir_eq, if_true]
      exact Or.inl h
  · cases op with
    | start =>
      unfold Vm.exec
      simp only [if_neg h.curDir_ne]
      exact Or.inr ⟨pr, h⟩
    | fault a =>
      unfold Vm.exec
      simp only [if_neg h.curDir_ne]
      rcases vmFault_cases h a with ⟨e, -⟩ | ⟨-, -, hno, f, c, hf, e⟩
      · rw [e]
        exact Or.inr ⟨pr, h⟩
      · rw [e]
        exact Or.inr ⟨_, h.addPage (slot_lt a) hno hf c⟩
    | stop => exact Or.inl (vmDetach_idle h)

lemma run_alive (h : Alive K table B s) (l : List Op) :
    Alive K table B (run (Vm.exec K) s l) :=
  run_inv_all (P := Alive K table B) (fun _ op h => exec_alive h op) l h

/-! ### The state after `paging_init` -/

lemma foldl_curDir {α : Type} {f : Vm → α → Vm} (hf : ∀ s x, (f s x).curDir = s.curDir)
    (l : List α) (s : Vm) : (l.foldl f s).curDir = s.curDir := by
  induction l generalizing s with
  | nil => rfl
  | cons x l ih =>
    rw [List.foldl_cons, ih]
    exact hf s x

lemma memoryInit_curDir (K : Image) (table : List E820Entry) (s : Vm) :
    (memoryInit K table s).curDir = s.curDir := by
  unfold memoryInit
  rw [foldl_curDir, foldl_curDir]
  · intro s idx
    split_ifs <;> rfl
  · intro s k
    dsimp only
    split_ifs <;> rfl

/-- The directory in force is no matter of the kernel's tables. -/
lemma KernelMap.setCr3 (h : KernelMap K table s B) (c : ℕ) :
    KernelMap K table { s with cr3 := c } B :=
  h.stay (u := B.used) (h.tracks.of_same rfl rfl rfl rfl) h.loose
    (fun p t hp => (h.tables p t hp).2.2) fun _ _ _ _ => rfl

/-- Whatever the memory map is: when `paging_init` has ended, no program runs, and the kernel's tables
are as its book says. -/
lemma pagingInit_idle {n : ℕ} {m : Mem} {r : Bool × Vm}
    (h : pagingInit K n table (memoryInit K table (Vm.off m)) = some r) :
    ∃ B P, Idle K table r.2 B ∧ Grows (Book.start K table) B P := by
  obtain ⟨s', B', P, hcur, hmap, hgrows, hend⟩ :=
    mapAll_ends n (kernelMap_start K table (Vm.off m))
  rw [pagingInit_eq] at h
  have hidle : Idle K table { s' with cr3 := K.pageDir } B' :=
    ⟨hmap.setCr3 _, hcur.trans (memoryInit_curDir K table (Vm.off m)), rfl⟩
  refine ⟨B', P, ?_, hgrows⟩
  rcases hend with ⟨e, -⟩ | ⟨e, -⟩ | ⟨e, -⟩
  · change mapAll K n table (cleared K table (Vm.off m)) = _ at e
    rw [e] at h
    obtain rfl := Option.some.inj h
    exact hidle
  · change mapAll K n table (cleared K table (Vm.off m)) = _ at e
    rw [e] at h
    obtain rfl := Option.some.inj h
    exact hidle
  · change mapAll K n table (cleared K table (Vm.off m)) = _ at e
    rw [e] at h
    cases h

/-! ### Roles -/

/-- What a frame may serve as. -/
inductive Role
  | kernelTable (p : ℕ)
  | processDir
  | processTable
  | page (j : ℕ)
  | free

/-- The frame `i` serves as the role says, as the directories, the page tables and the bitmap in memory
have it. -/
def HasRole (K : Image) (s : Vm) (i : ℕ) : Role → Prop
  | .kernelTable p => p < 1024 ∧ present (s.mem.ld32 (K.pageDir + 4 * p)) ∧
      entryAddr (s.mem.ld32 (K.pageDir + 4 * p)) = 4096 * i
  | .processDir => s.curDir ≠ 0 ∧ s.curDir = 4096 * i
  | .processTable => s.curDir ≠ 0 ∧ present (s.mem.ld32 (s.curDir + 4 * userPde)) ∧
      entryAddr (s.mem.ld32 (s.curDir + 4 * userPde)) = 4096 * i
  | .page j => s.curDir ≠ 0 ∧ j < 1024 ∧ present (s.mem.ld32 (s.curDir + 4 * userPde)) ∧
      let pte := s.mem.ld32 (entryAddr (s.mem.ld32 (s.curDir + 4 * userPde)) + 4 * j)
      present pte ∧ entryAddr pte = 4096 * i
  | .free => i < s.nframes ∧ s.frameUsed i = false

lemma KernelMap.kernelTable (h : KernelMap K table s B) {i p : ℕ}
    (hr : HasRole K s i (.kernelTable p)) : B.table p = some i := by
  obtain ⟨hp, h1, h2⟩ := hr
  have hpde : s.mem.ld32 (K.pageDir + 4 * p) = pdeOf (B.table p) := by
    rw [pageDir_eq]
    exact h.pde p hp
  rw [hpde, present_pdeOf] at h1
  obtain ⟨t, ht⟩ := Option.isSome_iff_exists.mp h1
  rw [hpde, ht] at h2
  have h3 : entryAddr (pdeOf (some t)) = 4096 * t := entryAddr_flags t (by omega)
  rw [ht]
  congr 1
  omega

lemma KernelMap.free (h : KernelMap K table s B) {i : ℕ} (hr : HasRole K s i .free) :
    B.used i = false := by
  obtain ⟨h1, h2⟩ := hr
  rw [h.tracks.nframes_eq] at h1
  unfold Vm.frameUsed at h2
  rwa [h.tracks.bitmap_eq, h.tracks.bits i (lt_bits h1)] at h2

/-- What a role says about the book and the frames of the program. -/
def RoleIn (B : Book) (pr : Proc) (i : ℕ) : Role → Prop
  | .kernelTable p => B.table p = some i ∧ B.used i = true
  | .processDir => i = pr.dir ∧ B.used i = false
  | .processTable => i = pr.pt ∧ i ≠ pr.dir ∧ B.used i = false
  | .page j => pr.pages j = some i ∧ i ≠ pr.dir ∧ i ≠ pr.pt ∧ B.used i = false
  | .free => B.used i = false ∧ ¬ pr.Holds i

lemma Running.roleIn {pr : Proc} (h : Running K table s B pr) {i : ℕ} {r : Role}
    (hr : HasRole K s i r) : RoleIn B pr i r := by
  have hpde : s.mem.ld32 (s.curDir + 4 * userPde) = 4096 * pr.pt + 7 := by
    rw [h.curDir_eq]
    exact (h.dirWord userPde (by decide)).trans (if_pos rfl)
  have haddr : entryAddr (4096 * pr.pt + 7) = 4096 * pr.pt := entryAddr_flags pr.pt (by omega)
  cases r with
  | kernelTable p =>
    have ht := h.kernel.kernelTable hr
    exact ⟨ht, h.tables_used p i ht⟩
  | processDir =>
    have hi := hr.2
    rw [h.curDir_eq] at hi
    obtain rfl : i = pr.dir := by omega
    exact ⟨rfl, (h.fresh _ pr.holds_dir).2⟩
  | processTable =>
    have hi := hr.2.2
    rw [hpde, haddr] at hi
    obtain rfl : i = pr.pt := by omega
    exact ⟨rfl, h.pt_ne, (h.fresh _ pr.holds_pt).2⟩
  | page j =>
    obtain ⟨-, hj, -, h1, h2⟩ := hr
    have hpte : s.mem.ld32 (entryAddr (4096 * pr.pt + 7) + 4 * j) = pteOf (pr.pages j) := by
      rw [haddr]
      exact h.ptWord j hj
    rw [hpde, hpte, present_pteOf] at h1
    rw [hpde, hpte] at h2
    obtain ⟨f, hf⟩ := Option.isSome_iff_exists.mp h1
    have h3 : entryAddr (pteOf (some f)) = 4096 * f := entryAddr_flags f (by omega)
    rw [hf] at h2
    obtain rfl : i = f := by omega
    obtain ⟨-, h4, h5⟩ := h.pages_ne j i hf
    exact ⟨hf, h4, h5, (h.fresh _ (h.holds_page hf)).2⟩
  | free => exact (h.free_frame (h.kernel.free hr)).2

/-- While a program runs, what the roles say about the book excludes each other. -/
lemma Running.roleIn_unique {pr : Proc} (h : Running K table s B pr) {i : ℕ} {r r' : Role}
    (hr : RoleIn B pr i r) (hr' : RoleIn B pr i r') : r = r' := by
  cases r with
  | kernelTable p =>
    cases r' with
    | kernelTable q => rw [h.kernel.inj p q i hr.1 hr'.1]
    | processDir => exact absurd (hr.2.symm.trans hr'.2) (by decide)
    | processTable => exact absurd (hr.2.symm.trans hr'.2.2) (by decide)
    | page j => exact absurd (hr.2.symm.trans hr'.2.2.2) (by decide)
    | free => exact absurd (hr.2.symm.trans hr'.1) (by decide)
  | processDir =>
    cases r' with
    | kernelTable q => exact absurd (hr'.2.symm.trans hr.2) (by decide)
    | processDir => rfl
    | processTable => exact absurd hr.1 hr'.2.1
    | page j => exact absurd hr.1 hr'.2.1
    | free => exact absurd (Or.inl hr.1) hr'.2
  | processTable =>
    cases r' with
    | kernelTable q => exact absurd (hr'.2.symm.trans hr.2.2) (by decide)
    | processDir => exact absurd hr'.1 hr.2.1
    | processTable => rfl
    | page j => exact absurd hr.1 hr'.2.2.1
    | free => exact absurd (Or.inr (Or.inl hr.1)) hr'.2
  | page j =>
    cases r' with
    | kernelTable q => exact absurd (hr'.2.symm.trans hr.2.2.2) (by decide)
    | processDir => exact absurd hr'.1 hr.2.1
    | processTable => exact absurd hr'.1 hr.2.2.1
    | page k => rw [h.pages_inj j k i hr.1 hr'.1]
    | free => exact absurd (h.holds_page hr.1) hr'.2
  | free =>
    cases r' with
    | kernelTable q => exact absurd (hr'.2.symm.trans hr.1) (by decide)
    | processDir => exact absurd (Or.inl hr'.1) hr.2
    | processTable => exact absurd (Or.inr (Or.inl hr'.1)) hr.2
    | page j => exact absurd (h.holds_page hr'.1) hr.2
    | free => rfl

/-- Without a program a frame is a page table of the kernel, or free. -/
lemma Idle.role_cases (h : Idle K table s B) {i : ℕ} {r : Role} (hr : HasRole K s i r) :
    (∃ p, r = .kernelTable p ∧ B.table p = some i) ∨ (r = .free ∧ B.used i = false) := by
  cases r with
  | kernelTable p => exact Or.inl ⟨p, rfl, h.kernel.kernelTable hr⟩
  | free => exact Or.inr ⟨rfl, h.kernel.free hr⟩
  | processDir => exact absurd h.curDir_eq hr.1
  | processTable => exact absurd h.curDir_eq hr.1
  | page j => exact absurd h.curDir_eq hr.1

/-- A frame has one role at most. -/
lemma role_unique (h : Alive K table B s) {i : ℕ} {r r' : Role} (hr : HasRole K s i r)
    (hr' : HasRole K s i r') : r = r' := by
  rcases h with h | ⟨pr, h⟩
  · rcases h.role_cases hr with ⟨p, rfl, hp⟩ | ⟨rfl, hu⟩
    · rcases h.role_cases hr' with ⟨q, rfl, hq⟩ | ⟨rfl, hu⟩
      · rw [h.kernel.inj p q i hp hq]
      · exact absurd ((h.kernel.tables p i hp).2.2.symm.trans hu) (by decide)
    · rcases h.role_cases hr' with ⟨q, rfl, hq⟩ | ⟨rfl, -⟩
      · exact absurd ((h.kernel.tables q i hq).2.2.symm.trans hu) (by decide)
      · rfl
  · exact h.roleIn_unique (h.roleIn hr) (h.roleIn hr')

/-! ### Frames over whole lives -/

/-- The bitmap and the number of free frames of two states are the same. -/
structure SameFrames (s s' : Vm) : Prop where
  nframes : s'.nframes = s.nframes
  framesFree : s'.framesFree = s.framesFree
  bitmap : s'.bitmap = s.bitmap
  bytes : ∀ k < bitmapBytes s.nframes, s'.mem (s.bitmap + k) = s.mem (s.bitmap + k)

lemma KernelMap.sameFrames (h : KernelMap K table s B) {s' : Vm} (h' : KernelMap K table s' B) :
    SameFrames s s' := by
  have hbits : ∀ i < 8 * bitmapBytes (frameCount table),
      s'.mem.bit (bitmapAddr K) i = s.mem.bit (bitmapAddr K) i := fun i hi =>
    (h'.tracks.bits i hi).trans (h.tracks.bits i hi).symm
  refine ⟨h'.tracks.nframes_eq.trans h.tracks.nframes_eq.symm, ?_,
    h'.tracks.bitmap_eq.trans h.tracks.bitmap_eq.symm, fun k hk => ?_⟩
  · rw [h'.tracks.count, h.tracks.count]
    exact Mem.clearBits_congr fun i hi => hbits i (lt_bits hi)
  · rw [h.tracks.nframes_eq] at hk
    rw [h.tracks.bitmap_eq]
    exact Mem.eq_of_bits fun i hi => hbits i (by omega)

/-- The frames in the lives of programs that start in `s`: they are counted right, each has one role at
most, and after the end of a program, or when it could not be started, they are as before. -/
structure FramesKept (K : Image) (s : Vm) : Prop where
  count : ∀ l, (run (Vm.exec K) s l).framesFree =
    (run (Vm.exec K) s l).mem.clearBits (run (Vm.exec K) s l).bitmap (run (Vm.exec K) s l).nframes
  roles : ∀ l i r r', HasRole K (run (Vm.exec K) s l) i r → HasRole K (run (Vm.exec K) s l) i r' →
    r = r'
  restored : ∀ l, (run (Vm.exec K) s l).curDir = 0 → ∀ as : List ℕ,
    SameFrames (run (Vm.exec K) s l)
      (run (Vm.exec K) s (l ++ .start :: as.map Op.fault ++ [.stop]))
  failed : ∀ l, (run (Vm.exec K) s l).curDir = 0 → ((run (Vm.exec K) s l).vmCreate K).1 = 0 →
    SameFrames (run (Vm.exec K) s l) ((run (Vm.exec K) s l).vmCreate K).2

lemma Alive.idle (h : Alive K table B s) (hcur : s.curDir = 0) : Idle K table s B := by
  rcases h with h | ⟨pr, h⟩
  · exact h
  · exact absurd hcur h.curDir_ne

lemma Alive.count (h : Alive K table B s) : s.framesFree = s.mem.clearBits s.bitmap s.nframes := by
  rcases h with h | ⟨pr, h⟩
  · rw [h.kernel.tracks.bitmap_eq, h.kernel.tracks.nframes_eq]
    exact h.kernel.tracks.count
  · rw [h.kernel.tracks.bitmap_eq, h.kernel.tracks.nframes_eq]
    exact h.kernel.tracks.count

/-- After `vm_detach` no program runs. -/
lemma stop_idle (h : Alive K table B s) : Idle K table (s.exec K .stop) B := by
  rcases h with h | ⟨pr, h⟩
  · refine (exec_alive (Or.inl h) .stop).idle ?_
    unfold Vm.exec Vm.vmDetach
    simp only [h.curDir_eq, if_true]
  · exact vmDetach_idle h

lemma framesKept (h : Idle K table s B) : FramesKept K s where
  count := fun l => (run_alive (Or.inl h) l).count
  roles := fun l i r r' => role_unique (run_alive (Or.inl h) l)
  restored := fun l hcur as => by
    have hidle := (run_alive (Or.inl h) l).idle hcur
    have hrun := run_alive (Or.inl h) (l ++ .start :: as.map Op.fault)
    rw [run_append]
    exact hidle.kernel.sameFrames (stop_idle hrun).kernel
  failed := fun l hcur hzero => by
    have hidle := (run_alive (Or.inl h) l).idle hcur
    rcases vmCreate_cases hidle.kernel with ⟨s', e, hmap, -⟩ | ⟨s', pr, e, hne, -⟩
    · rw [e]
      exact hidle.kernel.sameFrames hmap
    · rw [e] at hzero
      exact absurd hzero hne

/-- **Frames are neither lost nor shared**, whatever the memory map and the programs are, and also when
no frame is left. -/
theorem lives_keep_frames (K : Image) (table : List E820Entry) (m : Mem) (n : ℕ) (ok : Bool) (s : Vm)
    (h : pagingInit K n table (memoryInit K table (Vm.off m)) = some (ok, s)) : FramesKept K s := by
  obtain ⟨B, -, hidle, -⟩ := pagingInit_idle h
  exact framesKept hidle

/-- A machine with sixteen frames from 1 MiB on. -/
def smallTable : List E820Entry := [.usable 0x100000 0x10000]

lemma smallTable_returns (m : Mem) : ∃ n r,
    pagingInit smallKernel n smallTable (memoryInit smallKernel smallTable (Vm.off m)) = some r := by
  rw [pagingInit_returns, mapAll_returns_iff]
  exact Or.inl (by decide)

theorem lives_keep_frames_small : ∃ n ok s, pagingInit smallKernel n smallTable
    (memoryInit smallKernel smallTable (Vm.off fun _ => 0)) = some (ok, s) ∧
    FramesKept smallKernel s := by
  obtain ⟨n, ⟨ok, s⟩, h⟩ := smallTable_returns fun _ => 0
  exact ⟨n, ok, s, h, lives_keep_frames smallKernel smallTable _ n ok s h⟩

end LunariaOS.Mm
