import LunariaOS.Lib.Bitmap

/-!
Pages of 4096 bytes, read as 1024 words.

A page table is such a page. What a store of one word, a fill and a copy of a page do to the words
of every page, and that they leave a bitmap in other memory alone.
-/

namespace LunariaOS.Lib

namespace Mem

variable {m : Mem} {i j k l v : ℕ}

/-- The word number `k` of the page number `i`. -/
def word (m : Mem) (i k : ℕ) : ℕ := m.ld32 (4096 * i + 4 * k)

lemma word_congr {m' : Mem} (h : ∀ x, 4096 * i ≤ x → x < 4096 * i + 4096 → m' x = m x)
    (hk : k < 1024) : m'.word i k = m.word i k :=
  ld32_congr fun x _ _ => h x (by omega) (by omega)

lemma word_st32 (hv : v < 4294967296) (hk : k < 1024) (hl : l < 1024) :
    (m.st32 (4096 * i + 4 * k) v).word j l = if j = i ∧ l = k then v else m.word j l := by
  by_cases h : j = i ∧ l = k
  · obtain ⟨rfl, rfl⟩ := h
    rw [if_pos ⟨rfl, rfl⟩]
    exact ld32_st32 m _ hv
  · rw [if_neg h]
    exact ld32_st32_of_ne m v (by omega)

lemma word_fill (hl : l < 1024) :
    (m.blit (4096 * i) 4096 fun _ => 0).word j l = if j = i then 0 else m.word j l := by
  by_cases h : j = i
  · subst h
    rw [if_pos rfl]
    unfold word ld32
    rw [blit_of_in _ _ (by omega) (by omega), blit_of_in _ _ (by omega) (by omega),
      blit_of_in _ _ (by omega) (by omega), blit_of_in _ _ (by omega) (by omega)]
    rfl
  · rw [if_neg h]
    exact ld32_blit_of_out m _ (by omega)

lemma word_copy (hl : l < 1024) :
    (m.blit (4096 * i) 4096 fun x => m (4096 * k + x)).word j l =
      if j = i then m.word k l else m.word j l := by
  by_cases h : j = i
  · subst h
    rw [if_pos rfl]
    unfold word ld32
    rw [blit_of_in _ _ (by omega) (by omega), blit_of_in _ _ (by omega) (by omega),
      blit_of_in _ _ (by omega) (by omega), blit_of_in _ _ (by omega) (by omega)]
    simp only [show 4096 * j + 4 * l - 4096 * j = 4 * l by omega,
      show 4096 * j + 4 * l + 1 - 4096 * j = 4 * l + 1 by omega,
      show 4096 * j + 4 * l + 2 - 4096 * j = 4 * l + 2 by omega,
      show 4096 * j + 4 * l + 3 - 4096 * j = 4 * l + 3 by omega, ← Nat.add_assoc]
  · rw [if_neg h]
    exact ld32_blit_of_out m _ (by omega)

/-! ### Bitmaps next to pages -/

/-- The page number `i` holds no byte of the `n` bytes from `a` on. -/
def PageApart (i a n : ℕ) : Prop := 4096 * i + 4096 ≤ a ∨ a + n ≤ 4096 * i

variable {a n : ℕ}

lemma bit_of_apart {m' : Mem} (ha : PageApart i a n) (hj : j < 8 * n)
    (h : ∀ x, x < 4096 * i ∨ 4096 * i + 4096 ≤ x → m' x = m x) : m'.bit a j = m.bit a j := by
  apply bit_congr
  unfold PageApart at ha
  exact h _ (by omega)

lemma bit_st32 (ha : PageApart i a n) (hj : j < 8 * n) (hk : k < 1024) :
    (m.st32 (4096 * i + 4 * k) v).bit a j = m.bit a j :=
  bit_of_apart ha hj fun _ _ => st32_of_out m v (by omega)

lemma bit_blit (ha : PageApart i a n) (hj : j < 8 * n) (f : ℕ → UInt8) :
    (m.blit (4096 * i) 4096 f).bit a j = m.bit a j :=
  bit_of_apart ha hj fun _ hx => blit_of_out m f hx

lemma word_setBit (ha : PageApart i a n) (hj : j < 8 * n) (hk : k < 1024) :
    (m.setBit a j).word i k = m.word i k := by
  unfold PageApart at ha
  exact word_congr (fun x _ _ => setBit_of_out (by omega)) hk

lemma word_clearBit (ha : PageApart i a n) (hj : j < 8 * n) (hk : k < 1024) :
    (m.clearBit a j).word i k = m.word i k := by
  unfold PageApart at ha
  exact word_congr (fun x _ _ => clearBit_of_out (by omega)) hk

end Mem

end LunariaOS.Lib
