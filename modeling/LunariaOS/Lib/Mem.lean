import Mathlib.Tactic

/-!
Byte memories and the little-endian words stored in them.

A memory is the byte found at every address. A 32-bit word occupies four consecutive bytes, the
least significant first; `ld32` and `st32` read and write it. `blit` overwrites a run of bytes and
is what both a fill and a copy between disjoint regions amount to. The lemmas say what a write
leaves alone, which is all that a proof about linked structures in memory needs.
-/

namespace LunariaOS.Lib

/-- A byte memory: the byte at every address. -/
abbrev Mem := ℕ → UInt8

/-- The value of `n` as a 32-bit unsigned number. -/
def u32 (n : ℕ) : ℕ := n % 4294967296

/-- The value of `n` as a 32-bit two's complement number. -/
def i32 (n : ℤ) : ℤ := (n + 2147483648) % 4294967296 - 2147483648

lemma u32_of_lt {n : ℕ} (h : n < 4294967296) : u32 n = n := Nat.mod_eq_of_lt h

lemma u32_lt (n : ℕ) : u32 n < 4294967296 := Nat.mod_lt _ (by omega)

lemma u32_le (n : ℕ) : u32 n ≤ n := Nat.mod_le _ _

lemma i32_of_lt {n : ℕ} (h : n < 2147483648) : i32 n = n := by
  unfold i32
  omega

/-- A number whose 32-bit signed value is not negative keeps its value. -/
lemma i32_eq_of_nonneg {n : ℕ} (hn : n < 4294967296) (h : 0 ≤ i32 n) : i32 n = n := by
  unfold i32 at h ⊢
  omega

/-! ### Words -/

/-- The byte `k` of the little-endian form of `n`. -/
def leByte (n k : ℕ) : UInt8 := UInt8.ofNat (n / 256 ^ k)

/-- The 32-bit word at the address `a`. -/
def Mem.ld32 (m : Mem) (a : ℕ) : ℕ :=
  (m a).toNat + 256 * (m (a + 1)).toNat + 65536 * (m (a + 2)).toNat
    + 16777216 * (m (a + 3)).toNat

/-- Write the 32-bit word `v` at the address `a`. -/
def Mem.st32 (m : Mem) (a v : ℕ) : Mem :=
  fun x => if a ≤ x ∧ x < a + 4 then leByte v (x - a) else m x

lemma leByte_toNat (n k : ℕ) : (leByte n k).toNat = n / 256 ^ k % 256 := by
  simp [leByte]

/-- The four bytes of a word put together again. -/
lemma leByte_sum {v : ℕ} (hv : v < 4294967296) :
    (leByte v 0).toNat + 256 * (leByte v 1).toNat + 65536 * (leByte v 2).toNat
      + 16777216 * (leByte v 3).toNat = v := by
  simp only [leByte_toNat, pow_zero, pow_one, Nat.div_one]
  norm_num
  omega

lemma Mem.ld32_lt (m : Mem) (a : ℕ) : m.ld32 a < 4294967296 := by
  have h0 := (m a).toNat_lt
  have h1 := (m (a + 1)).toNat_lt
  have h2 := (m (a + 2)).toNat_lt
  have h3 := (m (a + 3)).toNat_lt
  unfold Mem.ld32
  omega

lemma Mem.ld32_congr {m m' : Mem} {a : ℕ} (h : ∀ x, a ≤ x → x < a + 4 → m x = m' x) :
    m.ld32 a = m'.ld32 a := by
  unfold Mem.ld32
  rw [h a (by omega) (by omega), h (a + 1) (by omega) (by omega), h (a + 2) (by omega) (by omega),
    h (a + 3) (by omega) (by omega)]

lemma Mem.st32_of_out (m : Mem) {a x : ℕ} (v : ℕ) (h : x < a ∨ a + 4 ≤ x) :
    m.st32 a v x = m x := by
  unfold Mem.st32
  rw [if_neg (by omega)]

lemma Mem.ld32_st32 (m : Mem) (a : ℕ) {v : ℕ} (hv : v < 4294967296) :
    (m.st32 a v).ld32 a = v := by
  have key : ∀ k, k < 4 → m.st32 a v (a + k) = leByte v k := by
    intro k hk
    unfold Mem.st32
    rw [if_pos (by omega), Nat.add_sub_cancel_left]
  unfold Mem.ld32
  rw [key 1 (by omega), key 2 (by omega), key 3 (by omega)]
  have := key 0 (by omega)
  rw [Nat.add_zero] at this
  rw [this]
  exact leByte_sum hv

lemma Mem.ld32_st32_of_ne (m : Mem) {a b : ℕ} (v : ℕ) (h : b + 4 ≤ a ∨ a + 4 ≤ b) :
    (m.st32 a v).ld32 b = m.ld32 b :=
  Mem.ld32_congr fun x _ _ => m.st32_of_out v (by omega)

/-- A word written back to where it was read. -/
lemma Mem.st32_ld32 (m : Mem) (a : ℕ) : m.st32 a (m.ld32 a) = m := by
  funext x
  by_cases hx : a ≤ x ∧ x < a + 4
  · have h0 := (m a).toNat_lt
    have h1 := (m (a + 1)).toNat_lt
    have h2 := (m (a + 2)).toNat_lt
    have h3 := (m (a + 3)).toNat_lt
    unfold Mem.st32
    rw [if_pos hx]
    apply UInt8.toNat.inj
    rw [leByte_toNat]
    have hk : x = a ∨ x = a + 1 ∨ x = a + 2 ∨ x = a + 3 := by omega
    unfold Mem.ld32
    rcases hk with rfl | rfl | rfl | rfl
    all_goals
      simp only [Nat.sub_self, Nat.add_sub_cancel_left, pow_zero, pow_one, Nat.div_one]
      norm_num
      omega
  · exact m.st32_of_out _ (by omega)

/-! ### Runs of bytes -/

/-- Overwrite the `n` bytes from `a` on with `f 0`, `f 1`, and so on. -/
def Mem.blit (m : Mem) (a n : ℕ) (f : ℕ → UInt8) : Mem :=
  fun x => if a ≤ x ∧ x < a + n then f (x - a) else m x

lemma Mem.blit_of_out (m : Mem) {a n x : ℕ} (f : ℕ → UInt8) (h : x < a ∨ a + n ≤ x) :
    m.blit a n f x = m x := by
  unfold Mem.blit
  rw [if_neg (by omega)]

lemma Mem.blit_of_in (m : Mem) {a n x : ℕ} (f : ℕ → UInt8) (h1 : a ≤ x) (h2 : x < a + n) :
    m.blit a n f x = f (x - a) := by
  unfold Mem.blit
  rw [if_pos ⟨h1, h2⟩]

lemma Mem.blit_zero (m : Mem) (a : ℕ) (f : ℕ → UInt8) : m.blit a 0 f = m := by
  funext x
  exact m.blit_of_out f (by omega)

lemma Mem.blit_congr (m : Mem) {a n : ℕ} {f g : ℕ → UInt8} (h : ∀ i, i < n → f i = g i) :
    m.blit a n f = m.blit a n g := by
  funext x
  unfold Mem.blit
  split_ifs with hx
  · exact h _ (by omega)
  · rfl

/-- Where two memories agree, they still do after the same run has been written to both. -/
lemma Mem.blit_agree {m m' : Mem} {x : ℕ} (h : m' x = m x) (a n : ℕ) (f : ℕ → UInt8) :
    m'.blit a n f x = m.blit a n f x := by
  unfold Mem.blit
  rw [h]

lemma Mem.ld32_blit_of_out (m : Mem) {a n b : ℕ} (f : ℕ → UInt8) (h : b + 4 ≤ a ∨ a + n ≤ b) :
    (m.blit a n f).ld32 b = m.ld32 b :=
  Mem.ld32_congr fun x _ _ => m.blit_of_out f (by omega)

/-- Two runs written one after the other are one run. -/
lemma Mem.blit_blit (m : Mem) (a n k : ℕ) (f g h : ℕ → UInt8) (hf : ∀ i, i < n → f i = h i)
    (hg : ∀ i, i < k → g i = h (n + i)) : (m.blit a n f).blit (a + n) k g = m.blit a (n + k) h := by
  funext x
  by_cases h1 : a + n ≤ x ∧ x < a + n + k
  · rw [Mem.blit_of_in _ _ h1.1 h1.2, Mem.blit_of_in _ _ (by omega) (by omega), hg _ (by omega)]
    congr 1
    omega
  · rw [Mem.blit_of_out _ _ (by omega)]
    by_cases h2 : a ≤ x ∧ x < a + n
    · rw [Mem.blit_of_in _ _ h2.1 h2.2, Mem.blit_of_in _ _ h2.1 (by omega), hf _ (by omega)]
    · rw [Mem.blit_of_out _ _ (by omega), Mem.blit_of_out _ _ (by omega)]

end LunariaOS.Lib
