import LunariaOS.Shell.Loader

/-!
The arguments of a program and its heap.

`build_user_args` lays the arguments out below `USER_STACK` and gives the initial stack pointer,
which is the lower end of the block. `vm_sbrk` lets the break grow up to `USER_STACK`, so it is the
program that has to keep the two apart.
-/

namespace LunariaOS.Shell

open LunariaOS.Lib LunariaOS.Fs

/-- `MAX_ARGS`. -/
def maxArgs : ℕ := 16

/-- `sp -= n`, as 32-bit unsigned numbers. -/
def down (sp n : ℕ) : ℕ := u32 (sp + (4294967296 - u32 n))

/-- The loop of `build_user_args` over the strings: each goes below the one before it. It gives the
pointers to the strings, the lower end and the memory. -/
def pushStrings : List CStr → ℕ → Mem → List ℕ × ℕ × Mem
  | [], sp, m => ([], sp, m)
  | s :: l, sp, m =>
    let len := s.length + 1
    let sp := down sp len
    let (ptrs, low, m) := pushStrings l sp (m.blit sp len fun j => s.bytes.getD j 0)
    (sp :: ptrs, low, m)

/-- The loop of `build_user_args` that stores a list of words. -/
def pushWords : List ℕ → ℕ → Mem → Mem
  | [], _, m => m
  | w :: l, sp, m => pushWords l (sp + 4) (m.st32 sp w)

/-- `build_user_args`: the initial stack pointer, and the memory of the process. -/
def buildUserArgs (argv : List CStr) (m : Mem) : ℕ × Mem :=
  let argv := argv.take maxArgs
  let argc := argv.length
  let (ptrs, sp, m) := pushStrings argv userStack m
  let sp := sp / 4 * 4
  let sp := down sp ((argc + 1) * 4)
  let argvPtr := sp
  let m := pushWords (ptrs ++ [0]) sp m
  let sp := down sp 4
  let m := m.st32 sp 0
  let sp := down sp 12
  (sp, pushWords [0, argc, argvPtr] sp m)

/-- The bytes of the strings, with their ends. -/
def stringBytes (argv : List CStr) : ℕ := (argv.map fun s => s.length + 1).sum

/-- The size of the argument block: the strings, rounded up to whole words, the pointers to them,
`envp` and the three words of the call. -/
def argBytes (argv : List CStr) : ℕ :=
  (stringBytes argv + 3) / 4 * 4 + (argv.length + 1) * 4 + 16

lemma down_eq {sp n : ℕ} (h : n ≤ sp) (hsp : sp < 4294967296) : down sp n = sp - n := by
  unfold down u32
  omega

/-! ### The block lies between the stack pointer and the top of the stack -/

lemma pushStrings_block (argv : List CStr) {sp : ℕ} (m : Mem) (h : stringBytes argv ≤ sp)
    (hsp : sp < 4294967296) :
    (pushStrings argv sp m).1.length = argv.length ∧
      (pushStrings argv sp m).2.1 = sp - stringBytes argv ∧
      ∀ x, x < sp - stringBytes argv ∨ sp ≤ x → (pushStrings argv sp m).2.2 x = m x := by
  induction argv generalizing sp m with
  | nil => exact ⟨rfl, rfl, fun _ _ => rfl⟩
  | cons s l ih =>
    have hsum : stringBytes (s :: l) = s.length + 1 + stringBytes l := by simp [stringBytes]
    rw [hsum] at h ⊢
    have hdown : down sp (s.length + 1) = sp - (s.length + 1) := down_eq (by omega) hsp
    simp only [pushStrings, hdown]
    obtain ⟨h1, h2, h3⟩ := @ih (sp - (s.length + 1))
      (m.blit (sp - (s.length + 1)) (s.length + 1) fun j => s.bytes.getD j 0) (by omega) (by omega)
    refine ⟨congrArg (· + 1) h1, by rw [h2]; omega, fun x hx => ?_⟩
    rw [h3 x (by omega), Mem.blit_of_out _ _ (by omega)]

lemma pushWords_block (l : List ℕ) (sp : ℕ) (m : Mem) {x : ℕ}
    (hx : x < sp ∨ sp + 4 * l.length ≤ x) : pushWords l sp m x = m x := by
  induction l generalizing sp m with
  | nil => rfl
  | cons w l ih =>
    rw [List.length_cons] at hx
    rw [pushWords, ih _ _ (by omega), Mem.st32_of_out _ _ (by omega)]

/-- The place of the array of pointers, behind the strings rounded up to whole words. -/
def argvPlace (argv : List CStr) : ℕ :=
  userStack - ((stringBytes argv + 3) / 4 * 4 + (argv.length + 1) * 4)

/-- The block piece by piece, each below the one before it. -/
lemma buildUserArgs_eq {argv : List CStr} (hn : argv.length ≤ maxArgs)
    (hfit : argBytes argv ≤ userStack) (m : Mem) :
    let strings := pushStrings argv userStack m
    let p := argvPlace argv
    buildUserArgs argv m = (p - 16, pushWords [0, argv.length, p] (p - 16)
      ((pushWords (strings.1 ++ [0]) p strings.2.2).st32 (p - 4) 0)) := by
  have htake : argv.take maxArgs = argv := List.take_of_length_le hn
  have hstack : userStack < 4294967296 := by decide
  have halign : userStack % 4 = 0 := by decide
  have hbytes : argBytes argv =
    (stringBytes argv + 3) / 4 * 4 + (argv.length + 1) * 4 + 16 := rfl
  obtain ⟨-, h2, -⟩ := pushStrings_block argv m (by omega) hstack
  unfold buildUserArgs argvPlace
  simp only [htake]
  generalize pushStrings argv userStack m = r at *
  obtain ⟨ptrs, low, m'⟩ := r
  simp only at h2 ⊢
  generalize userStack = top at *
  have e1 : down (low / 4 * 4) ((argv.length + 1) * 4) =
      top - ((stringBytes argv + 3) / 4 * 4 + (argv.length + 1) * 4) := by
    rw [down_eq (by omega) (by omega)]
    omega
  rw [e1]
  generalize hp : top - ((stringBytes argv + 3) / 4 * 4 + (argv.length + 1) * 4) = p
  have e2 : down p 4 = p - 4 := down_eq (by omega) (by omega)
  have e3 : down (p - 4) 12 = p - 16 := down_eq (by omega) (by omega)
  rw [e2, e3]

/-- **Where the arguments go.** -/
theorem buildUserArgs_block {argv : List CStr} (hn : argv.length ≤ maxArgs)
    (hfit : argBytes argv ≤ userStack) (m : Mem) :
    (buildUserArgs argv m).1 = userStack - argBytes argv ∧
      ∀ x, x < userStack - argBytes argv ∨ userStack ≤ x → (buildUserArgs argv m).2 x = m x := by
  have hbytes : argBytes argv =
    (stringBytes argv + 3) / 4 * 4 + (argv.length + 1) * 4 + 16 := rfl
  obtain ⟨h1, -, h3⟩ := pushStrings_block argv m (by omega) (show userStack < 4294967296 by decide)
  have hplace : argvPlace argv =
    userStack - ((stringBytes argv + 3) / 4 * 4 + (argv.length + 1) * 4) := rfl
  rw [buildUserArgs_eq hn hfit m]
  dsimp only
  generalize userStack = top at *
  refine ⟨by omega, fun x hx => ?_⟩
  rw [pushWords_block _ _ _ (by simp only [List.length_cons, List.length_nil]; omega),
    Mem.st32_of_out _ _ (by omega),
    pushWords_block _ _ _ (by simp only [List.length_append, List.length_cons, List.length_nil]; omega),
    h3 x (by omega)]

/-! ### The break -/

/-- An image that the loader accepts: a plain one, or a flat one. -/
inductive Image where
  | plain (size : ℕ)
  | flat (size : ℕ)

namespace Image

/-- The sizes that the loader accepts. -/
def Accepted : Image → Prop
  | plain size => size ≤ userProgMax
  | flat size => size + 12 ≤ tccFlatMax

/-- The end of the image in the window. -/
def top : Image → ℕ
  | plain size => userBase + size
  | flat size => tccFlatBase + size

/-- The break that the loader sets. -/
def brk : Image → ℕ
  | plain size => vmNoteLoad size
  | flat size => vmNoteLoad (tccFlatBase - userBase + size)

lemma brk_bounds {im : Image} (h : im.Accepted) : im.top ≤ im.brk ∧ im.brk ≤ userStack := by
  have key : ∀ {size : ℕ}, size ≤ userStack - userBase →
      userBase + size ≤ vmNoteLoad size ∧ vmNoteLoad size ≤ userStack := by
    intro size hs
    refine ⟨?_, (vmNoteLoad_bounds hs).2.1⟩
    unfold userStack userBase at hs
    have h1 : u32 (size + pageSize - 1) = size + pageSize - 1 :=
      u32_of_lt (by unfold pageSize; omega)
    have h2 : u32 (userBase + (size + pageSize - 1) / pageSize * pageSize) =
        userBase + (size + pageSize - 1) / pageSize * pageSize :=
      u32_of_lt (by unfold userBase pageSize; omega)
    unfold vmNoteLoad
    simp only [h1, h2]
    rw [if_neg (by omega)]
    unfold pageSize
    omega
  cases im with
  | plain size => exact key (h.trans (by decide))
  | flat size =>
    have hs : tccFlatBase - userBase + size ≤ userStack - userBase := by
      unfold Accepted tccFlatMax at h
      unfold tccFlatBase userStack userBase
      omega
    have hsum : userBase + (tccFlatBase - userBase + size) = tccFlatBase + size := by
      unfold tccFlatBase userBase
      omega
    change tccFlatBase + size ≤ vmNoteLoad (tccFlatBase - userBase + size) ∧
      vmNoteLoad (tccFlatBase - userBase + size) ≤ userStack
    rw [← hsum]
    exact key hs

end Image

/-- A growth of the heap that is refused, or that ends at or below the initial stack pointer. -/
def GrowsBelow (sp brk inc : ℕ) : Prop := inc < 4294967296 ∧ (brk + inc ≤ userStack → brk + inc ≤ sp)

instance (sp brk inc : ℕ) : Decidable (GrowsBelow sp brk inc) := by
  unfold GrowsBelow; infer_instance

/-- **The heap and the stack stay apart** in every run whose arguments fit above the first break and
whose growths that `vm_sbrk` grants end below the initial stack pointer: the break lies between the
image and the stack pointer, no byte below the break belongs to the argument block, and a growth is
granted in full or leaves the break as it is. -/
theorem heap_below_stack {im : Image} (him : im.Accepted) {argv : List CStr}
    (hn : argv.length ≤ maxArgs) (hfit : argBytes argv ≤ userStack - im.brk) (m : Mem)
    {incs : List ℕ} (hincs : Along vmSbrk (GrowsBelow (buildUserArgs argv m).1) im.brk incs) :
    let sp := (buildUserArgs argv m).1
    let brk := run vmSbrk im.brk incs
    im.top ≤ brk ∧ brk ≤ sp ∧
      (∀ x < brk, (buildUserArgs argv m).2 x = m x ∧ ¬ (sp ≤ x ∧ x < userStack)) ∧
      ∀ inc < 4294967296, vmSbrk brk inc = if brk + inc ≤ userStack then brk + inc else brk := by
  intro sp brk
  obtain ⟨htop, hstack⟩ := Image.brk_bounds him
  obtain ⟨hsp, hkeep⟩ := buildUserArgs_block hn (hfit.trans (Nat.sub_le _ _)) m
  have hsp' : sp = userStack - argBytes argv := hsp
  have hle : sp ≤ userStack := by omega
  have hbrk : im.top ≤ brk ∧ brk ≤ sp := by
    refine run_inv (P := fun b => im.top ≤ b ∧ b ≤ sp) (fun b inc hb hq => ?_)
      ⟨htop, by omega⟩ hincs
    rw [vmSbrk_eq (hb.2.trans hle) hq.1]
    split_ifs with hroom
    · exact ⟨hb.1.trans (Nat.le_add_right _ _), hq.2 hroom⟩
    · exact hb
  exact ⟨hbrk.1, hbrk.2, fun x hx => ⟨hkeep x (by omega), by omega⟩,
    fun inc hinc => vmSbrk_eq (hbrk.2.trans hle) hinc⟩

/-- One argument, `f`, and a program that asks for all the room `vm_sbrk` gives. -/
theorem heap_below_stack_small :
    let sp := (buildUserArgs [pathF] fun _ => 0).1
    let brk := run vmSbrk (Image.plain 100).brk [4096, 0xFFFFFFFF]
    (Image.plain 100).top ≤ brk ∧ brk ≤ sp ∧
      (∀ x < brk, (buildUserArgs [pathF] fun _ => 0).2 x = 0 ∧ ¬ (sp ≤ x ∧ x < userStack)) ∧
      ∀ inc < 4294967296, vmSbrk brk inc = if brk + inc ≤ userStack then brk + inc else brk :=
  have him : (Image.plain 100).Accepted := show 100 ≤ userProgMax by decide
  heap_below_stack him (by decide) (by decide) (fun _ => 0) (by decide +kernel)

/-- **`vm_sbrk` grants a growth up to `USER_STACK`, over the whole argument block.** -/
theorem heap_grows_over_args :
    ¬ run vmSbrk (Image.plain 100).brk [userStack - (Image.plain 100).brk] ≤
      (buildUserArgs [pathF] fun _ => 0).1 := by decide +kernel

end LunariaOS.Shell
