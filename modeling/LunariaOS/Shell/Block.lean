import LunariaOS.Shell.Args

/-!
What stands in the argument block that `build_user_args` lays out.

The strings go down from the top of the stack, one below the other, and the words below them. Each
piece is written below all that has been written before, so that what has been written stays.
-/

namespace LunariaOS.Shell

open LunariaOS.Lib LunariaOS.Fs

/-- `CMD_BUF_SIZE`. -/
def cmdBufSize : ℕ := 128

/-- The argument `argv` of the program. -/
def argvAt (m : Mem) (esp : ℕ) : ℕ := m.ld32 (esp + 8)

/-- The pointer `argv[i]`. -/
def argPtr (m : Mem) (esp i : ℕ) : ℕ := m.ld32 (argvAt m esp + 4 * i)

/-- The pieces of the block, each with its length: the words of the call, `envp`, the array of
pointers and the strings. -/
def pieces (argv : List CStr) (m : Mem) (esp : ℕ) : List (ℕ × ℕ) :=
  [(esp, 12), (esp + 12, 4), (argvAt m esp, 4 * (argv.length + 1))] ++
    (List.range argv.length).map fun i => (argPtr m esp i, (argv.getD i CStr.empty).length + 1)

/-- Two pieces do not overlap. -/
def Apart (p q : ℕ × ℕ) : Prop := p.1 + p.2 ≤ q.1 ∨ q.1 + q.2 ≤ p.1

/-- The arguments `argv` as a program that starts with the stack pointer `esp` finds them. -/
structure Laid (argv : List CStr) (m : Mem) (esp : ℕ) : Prop where
  aligned : esp % 4 = 0
  argc : m.ld32 (esp + 4) = argv.length
  strings : ∀ i < argv.length, ∀ j ≤ (argv.getD i CStr.empty).length,
    m (argPtr m esp i + j) = (argv.getD i CStr.empty).bytes.getD j 0
  last : argPtr m esp argv.length = 0
  envp : m.ld32 (esp + 12) = 0
  apart : (pieces argv m esp).Pairwise Apart
  inside : ∀ p ∈ pieces argv m esp, esp ≤ p.1 ∧ p.1 + p.2 ≤ userStack

/-! ### The strings -/

lemma stringBytes_cons (s : CStr) (l : List CStr) :
    stringBytes (s :: l) = s.length + 1 + stringBytes l := by simp [stringBytes]

/-- Each string is where its pointer says, below the ones before it. -/
lemma pushStrings_strings (argv : List CStr) {sp : ℕ} (m : Mem) (h : stringBytes argv ≤ sp)
    (hsp : sp < 4294967296) {i : ℕ} (hi : i < argv.length) :
    (pushStrings argv sp m).1.getD i 0 = sp - stringBytes (argv.take (i + 1)) ∧
      ∀ j ≤ (argv.getD i CStr.empty).length,
        (pushStrings argv sp m).2.2 (sp - stringBytes (argv.take (i + 1)) + j) =
          (argv.getD i CStr.empty).bytes.getD j 0 := by
  induction argv generalizing sp m i with
  | nil => simp at hi
  | cons s l ih =>
    rw [stringBytes_cons] at h
    have hdown : down sp (s.length + 1) = sp - (s.length + 1) := down_eq (by omega) hsp
    simp only [pushStrings, hdown]
    cases i with
    | zero =>
      have htake : stringBytes ((s :: l).take (0 + 1)) = s.length + 1 := by simp [stringBytes]
      rw [htake]
      refine ⟨rfl, fun j hj => ?_⟩
      rw [List.getD_cons_zero] at hj ⊢
      -- the strings after the first are written below it
      rw [(pushStrings_block l _ (by omega) (by omega)).2.2 _ (by omega),
        Mem.blit_of_in _ _ (by omega) (by omega), Nat.add_sub_cancel_left]
    | succ i =>
      have htake : stringBytes ((s :: l).take (i + 1 + 1)) =
          s.length + 1 + stringBytes (l.take (i + 1)) := by
        rw [List.take_succ_cons, stringBytes_cons]
      obtain ⟨h1, h2⟩ := @ih (sp - (s.length + 1))
        (m.blit (sp - (s.length + 1)) (s.length + 1) fun j => s.bytes.getD j 0) (by omega) (by omega)
        i (by simpa using hi)
      have hsub : sp - (s.length + 1 + stringBytes (l.take (i + 1))) =
          sp - (s.length + 1) - stringBytes (l.take (i + 1)) := by omega
      rw [htake, hsub, List.getD_cons_succ, List.getD_cons_succ]
      exact ⟨h1, h2⟩

/-! ### The words -/

lemma pushWords_ld32 (l : List ℕ) (sp : ℕ) (m : Mem) {i : ℕ} (hi : i < l.length)
    (hw : l.getD i 0 < 4294967296) : (pushWords l sp m).ld32 (sp + 4 * i) = l.getD i 0 := by
  induction l generalizing sp m i with
  | nil => simp at hi
  | cons w l ih =>
    rw [pushWords]
    cases i with
    | zero =>
      rw [Mem.ld32_congr fun x _ _ => pushWords_block l (sp + 4) (m.st32 sp w) (by omega)]
      exact Mem.ld32_st32 m sp hw
    | succ i =>
      rw [List.getD_cons_succ] at hw ⊢
      have := ih (sp + 4) (m.st32 sp w) (by simpa using hi) hw
      rwa [show sp + 4 * (i + 1) = sp + 4 + 4 * i by omega]

lemma pushWords_ld32_of_out (l : List ℕ) (sp : ℕ) (m : Mem) {a : ℕ}
    (ha : a + 4 ≤ sp ∨ sp + 4 * l.length ≤ a) : (pushWords l sp m).ld32 a = m.ld32 a :=
  Mem.ld32_congr fun x _ _ => pushWords_block l sp m (by omega)

/-! ### The block -/

section Block

variable {argv : List CStr} {m : Mem}

lemma stringBytes_append (k l : List CStr) :
    stringBytes (k ++ l) = stringBytes k + stringBytes l := by
  unfold stringBytes
  rw [List.map_append, List.sum_append]

/-- The strings that come up to `i` take no more room than all of them. -/
lemma stringBytes_take_le (argv : List CStr) (i : ℕ) :
    stringBytes (argv.take i) ≤ stringBytes argv := by
  conv_rhs => rw [← List.take_append_drop i argv, stringBytes_append]
  exact Nat.le_add_right _ _

lemma stringBytes_take_mono (argv : List CStr) {i k : ℕ} (h : i ≤ k) :
    stringBytes (argv.take i) ≤ stringBytes (argv.take k) := by
  have := stringBytes_take_le (argv.take k) i
  rwa [List.take_take, min_eq_left h] at this

lemma stringBytes_take_succ (argv : List CStr) {i : ℕ} (hi : i < argv.length) :
    stringBytes (argv.take (i + 1)) =
      stringBytes (argv.take i) + ((argv.getD i CStr.empty).length + 1) := by
  rw [List.take_add_one, List.getElem?_eq_getElem hi, List.getD_eq_getElem _ _ hi,
    stringBytes_append]
  rfl

/-- The words and the strings of the block. -/
lemma buildUserArgs_words (hn : argv.length ≤ maxArgs) (hfit : argBytes argv ≤ userStack) :
    let esp := (buildUserArgs argv m).1
    let m' := (buildUserArgs argv m).2
    esp = argvPlace argv - 16 ∧ m'.ld32 (esp + 4) = argv.length ∧ argvAt m' esp = argvPlace argv ∧
      m'.ld32 (esp + 12) = 0 ∧ argPtr m' esp argv.length = 0 ∧
      ∀ i < argv.length, argPtr m' esp i = userStack - stringBytes (argv.take (i + 1)) ∧
        ∀ j ≤ (argv.getD i CStr.empty).length,
          m' (userStack - stringBytes (argv.take (i + 1)) + j) =
            (argv.getD i CStr.empty).bytes.getD j 0 := by
  have hbytes : argBytes argv =
    (stringBytes argv + 3) / 4 * 4 + (argv.length + 1) * 4 + 16 := rfl
  have hplace : argvPlace argv =
    userStack - ((stringBytes argv + 3) / 4 * 4 + (argv.length + 1) * 4) := rfl
  have hstack : userStack < 4294967296 := by decide
  obtain ⟨h1, -, -⟩ := pushStrings_block argv m (by omega) hstack
  have hstrings := fun i hi => @pushStrings_strings argv userStack m (by omega) hstack i hi
  have hle := fun i => stringBytes_take_le argv i
  rw [buildUserArgs_eq hn hfit m]
  dsimp only
  generalize pushStrings argv userStack m = r at *
  obtain ⟨ptrs, low, m₁⟩ := r
  dsimp only at h1 hstrings ⊢
  generalize argvPlace argv = p at *
  have hp : 16 ≤ p := by omega
  have hwords : (ptrs ++ [0]).length = argv.length + 1 := by
    rw [List.length_append, h1, List.length_singleton]
  set m₃ := (pushWords (ptrs ++ [0]) p m₁).st32 (p - 4) 0 with hm₃
  set m₄ := pushWords [0, argv.length, p] (p - 16) m₃ with hm₄
  have hcall : ∀ i < 3, m₄.ld32 (p - 16 + 4 * i) = [0, argv.length, p].getD i 0 := by
    intro i hi
    refine pushWords_ld32 _ _ _ (by simpa using hi) ?_
    rcases i with _ | _ | _ | i
    · exact (by norm_num : 0 < 4294967296)
    · exact (hn.trans_lt (by decide) : argv.length < 4294967296)
    · exact (by omega : p < 4294967296)
    · omega
  have hptr : ∀ i ≤ argv.length, m₄.ld32 (p + 4 * i) =
      (pushWords (ptrs ++ [0]) p m₁).ld32 (p + 4 * i) := by
    intro i _
    rw [hm₄, pushWords_ld32_of_out _ _ _ (by simp only [List.length_cons, List.length_nil]; omega),
      hm₃, Mem.ld32_st32_of_ne _ _ (by omega)]
  have hbyte : ∀ x, p + 4 * (argv.length + 1) ≤ x → m₄ x = m₁ x := by
    intro x hx
    rw [hm₄, pushWords_block _ _ _ (by simp only [List.length_cons, List.length_nil]; omega), hm₃,
      Mem.st32_of_out _ _ (by omega), pushWords_block _ _ _ (by omega)]
  have hat : argvAt m₄ (p - 16) = p := hcall 2 (by omega)
  refine ⟨rfl, hcall 1 (by omega), hat, ?_, ?_, fun i hi => ⟨?_, fun j hj => ?_⟩⟩
  · rw [hm₄, pushWords_ld32_of_out _ _ _ (by simp only [List.length_cons, List.length_nil]; omega),
      hm₃, show p - 16 + 12 = p - 4 by omega, Mem.ld32_st32 _ _ (by norm_num)]
  · have hget : (ptrs ++ [0]).getD argv.length 0 = 0 := by simp [← h1]
    rw [argPtr, hat, hptr _ le_rfl, pushWords_ld32 _ _ _ (by omega) (by rw [hget]; norm_num), hget]
  · have hget : (ptrs ++ [0]).getD i 0 = userStack - stringBytes (argv.take (i + 1)) := by
      rw [List.getD_append _ _ _ _ (by omega), (hstrings i hi).1]
    rw [argPtr, hat, hptr _ hi.le, pushWords_ld32 _ _ _ (by omega) (by rw [hget]; omega), hget]
  · have := hle (i + 1)
    rw [hbyte _ (by omega), (hstrings i hi).2 j hj]

/-- **The argument block.** A program that is started finds its arguments in the block below the top
of the stack, and nothing else has been written. -/
theorem buildUserArgs_laid (hn : argv.length ≤ maxArgs) (hline : stringBytes argv ≤ cmdBufSize)
    (m : Mem) :
    let esp := (buildUserArgs argv m).1
    let m' := (buildUserArgs argv m).2
    Laid argv m' esp ∧ ∀ x, x < esp ∨ userStack ≤ x → m' x = m x := by
  have hbytes : argBytes argv =
    (stringBytes argv + 3) / 4 * 4 + (argv.length + 1) * 4 + 16 := rfl
  have hplace : argvPlace argv =
    userStack - ((stringBytes argv + 3) / 4 * 4 + (argv.length + 1) * 4) := rfl
  have hfit : argBytes argv ≤ userStack := by
    unfold cmdBufSize maxArgs userStack at *
    omega
  obtain ⟨hesp, hkeep⟩ := buildUserArgs_block hn hfit m
  obtain ⟨hp, hargc, hat, henvp, hlast, hstr⟩ := buildUserArgs_words (m := m) hn hfit
  have halign : userStack % 4 = 0 := by decide
  have hle := fun i => stringBytes_take_le argv i
  dsimp only
  refine ⟨?_, fun x hx => hkeep x (by omega)⟩
  generalize (buildUserArgs argv m).1 = esp at *
  generalize (buildUserArgs argv m).2 = m' at *
  have hmem : ∀ i < argv.length, argPtr m' esp i + ((argv.getD i CStr.empty).length + 1) =
      userStack - stringBytes (argv.take i) ∧
        userStack - stringBytes argv ≤ argPtr m' esp i := by
    intro i hi
    have h1 := stringBytes_take_succ argv hi
    have h2 := hle (i + 1)
    rw [(hstr i hi).1]
    omega
  refine
    { aligned := by omega
      argc := hargc
      strings := fun i hi j hj => by rw [(hstr i hi).1, (hstr i hi).2 j hj]
      last := hlast
      envp := henvp
      apart := ?_
      inside := ?_ }
  · refine List.pairwise_append.mpr ⟨?_, List.pairwise_map.mpr ?_, fun q hq r hr => ?_⟩
    · simp only [List.pairwise_cons, List.mem_cons, List.not_mem_nil, or_false, forall_eq_or_imp,
        forall_eq, Apart, hat, IsEmpty.forall_iff, implies_true, List.Pairwise.nil, and_true]
      omega
    · refine List.pairwise_lt_range.imp_of_mem fun {i k} hi hk hik => Or.inr ?_
      -- the later string ends where the earlier ones have gone down to
      have hi' := List.mem_range.mp hi
      have hk' := List.mem_range.mp hk
      have := stringBytes_take_mono argv (show i + 1 ≤ k from hik)
      have := (hmem k hk').1
      rw [(hstr i hi').1]
      omega
    · obtain ⟨i, hi, rfl⟩ := List.mem_map.mp hr
      have := (hmem i (List.mem_range.mp hi)).2
      left
      rw [hat] at hq
      simp only [List.mem_cons, List.not_mem_nil, or_false] at hq
      rcases hq with rfl | rfl | rfl <;> dsimp only <;> omega
  · intro q hq
    rcases List.mem_append.mp hq with hq | hq
    · rw [hat] at hq
      simp only [List.mem_cons, List.not_mem_nil, or_false] at hq
      rcases hq with rfl | rfl | rfl <;> dsimp only <;> omega
    · obtain ⟨i, hi, rfl⟩ := List.mem_map.mp hq
      have := hmem i (List.mem_range.mp hi)
      dsimp only
      omega

/-- A program with two arguments. -/
theorem buildUserArgs_laid_two :
    let esp := (buildUserArgs [pathF, pathF] fun _ => 7).1
    let m' := (buildUserArgs [pathF, pathF] fun _ => 7).2
    Laid [pathF, pathF] m' esp ∧ ∀ x, x < esp ∨ userStack ≤ x → m' x = 7 :=
  buildUserArgs_laid (by decide) (by decide) fun _ => 7

end Block

end LunariaOS.Shell
