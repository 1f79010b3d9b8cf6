import LunariaOS.Lib.Mem
import Mathlib.Data.Finset.Card
import Mathlib.Data.Finset.Range

/-!
Bitmaps in memory: eight bits to the byte, the lowest first.

A set or cleared bit changes no other bit and no byte outside the bitmap. The number of clear bits
goes down and up by one with them, and a bitmap is known by its bits.
-/

namespace LunariaOS.Lib

/-- Bit `i` of the bitmap at `a`. -/
def Mem.bit (m : Mem) (a i : ℕ) : Bool := (m (a + i / 8)).toNat.testBit (i % 8)

def Mem.setBit (m : Mem) (a i : ℕ) : Mem :=
  Function.update m (a + i / 8) (UInt8.ofNat ((m (a + i / 8)).toNat ||| 2 ^ (i % 8)))

def Mem.clearBit (m : Mem) (a i : ℕ) : Mem :=
  Function.update m (a + i / 8) (UInt8.ofNat ((m (a + i / 8)).toNat &&& (255 - 2 ^ (i % 8))))

namespace Mem

variable {m m' : Mem} {a i j n x : ℕ}

lemma setBit_of_out (hx : x ≠ a + i / 8) : m.setBit a i x = m x := Function.update_of_ne hx ..

lemma clearBit_of_out (hx : x ≠ a + i / 8) : m.clearBit a i x = m x := Function.update_of_ne hx ..

lemma testBit_mask : ∀ k < 8, ∀ j < 8, (255 - 2 ^ k).testBit j = !decide (k = j) := by decide

lemma bit_setBit : (m.setBit a i).bit a j = (decide (i = j) || m.bit a j) := by
  unfold bit setBit
  by_cases hq : j / 8 = i / 8
  · have hlt : (m (a + i / 8)).toNat ||| 2 ^ (i % 8) < 256 := by
      apply Nat.or_lt_two_pow (n := 8) (m (a + i / 8)).toNat_lt
      exact Nat.pow_lt_pow_right (by omega) (by omega)
    have hij : decide (i % 8 = j % 8) = decide (i = j) := by
      apply decide_eq_decide.mpr
      omega
    rw [hq, Function.update_self, UInt8.toNat_ofNat_of_lt' hlt, Nat.testBit_or, Nat.testBit_two_pow,
      hij, Bool.or_comm]
  · have hne : a + j / 8 ≠ a + i / 8 := by omega
    have hij : decide (i = j) = false := by
      apply decide_eq_false
      rintro rfl
      exact hq rfl
    rw [Function.update_of_ne hne, hij, Bool.false_or]

lemma bit_clearBit : (m.clearBit a i).bit a j = (!decide (i = j) && m.bit a j) := by
  unfold bit clearBit
  by_cases hq : j / 8 = i / 8
  · have hlt : (m (a + i / 8)).toNat &&& (255 - 2 ^ (i % 8)) < 256 :=
      lt_of_le_of_lt Nat.and_le_left (m (a + i / 8)).toNat_lt
    have hij : decide (i % 8 = j % 8) = decide (i = j) := by
      apply decide_eq_decide.mpr
      omega
    rw [hq, Function.update_self, UInt8.toNat_ofNat_of_lt' hlt, Nat.testBit_and,
      testBit_mask _ (Nat.mod_lt _ (by omega)) _ (Nat.mod_lt _ (by omega)), hij, Bool.and_comm]
  · have hne : a + j / 8 ≠ a + i / 8 := by omega
    have hij : decide (i = j) = false := by
      apply decide_eq_false
      rintro rfl
      exact hq rfl
    rw [Function.update_of_ne hne, hij, Bool.not_false, Bool.true_and]

/-- The bits depend only on the bytes of the bitmap. -/
lemma bit_congr (h : m' (a + i / 8) = m (a + i / 8)) : m'.bit a i = m.bit a i := by
  unfold bit
  rw [h]

/-- A byte with the same eight bits is the same byte. -/
lemma eq_of_bits {q : ℕ} (h : ∀ i, i / 8 = q → m'.bit a i = m.bit a i) : m' (a + q) = m (a + q) := by
  apply UInt8.toNat_inj.mp
  apply Nat.eq_of_testBit_eq
  intro j
  by_cases hj : j < 8
  · have hb := h (8 * q + j) (by omega)
    unfold bit at hb
    rw [show (8 * q + j) / 8 = q by omega, show (8 * q + j) % 8 = j by omega] at hb
    exact hb
  · have hpow : 256 ≤ 2 ^ j := Nat.pow_le_pow_right (n := 2) (by omega) (show 8 ≤ j by omega)
    rw [Nat.testBit_lt_two_pow (lt_of_lt_of_le (m' (a + q)).toNat_lt hpow),
      Nat.testBit_lt_two_pow (lt_of_lt_of_le (m (a + q)).toNat_lt hpow)]

/-! ### Counting -/

/-- The number of clear bits among the first `n`. -/
def clearBits (m : Mem) (a n : ℕ) : ℕ := ((Finset.range n).filter fun i => m.bit a i = false).card

lemma clearBits_congr (h : ∀ i, i < n → m'.bit a i = m.bit a i) :
    m'.clearBits a n = m.clearBits a n := by
  unfold clearBits
  congr 1
  apply Finset.filter_congr
  intro i hi
  rw [h i (Finset.mem_range.mp hi)]

lemma clearBits_setBit (hi : i < n) (hclear : m.bit a i = false) :
    (m.setBit a i).clearBits a n + 1 = m.clearBits a n := by
  have hmem : i ∈ (Finset.range n).filter fun j => m.bit a j = false := by
    simp [hi, hclear]
  have herase : ((Finset.range n).filter fun j => (m.setBit a i).bit a j = false)
      = ((Finset.range n).filter fun j => m.bit a j = false).erase i := by
    ext j
    simp only [Finset.mem_filter, Finset.mem_erase, bit_setBit, Bool.or_eq_false_iff,
      decide_eq_false_iff_not]
    tauto
  unfold clearBits
  rw [herase, Finset.card_erase_add_one hmem]

lemma clearBits_clearBit (hi : i < n) (hset : m.bit a i = true) :
    (m.clearBit a i).clearBits a n = m.clearBits a n + 1 := by
  have hnot : i ∉ (Finset.range n).filter fun j => m.bit a j = false := by
    simp [hset]
  have hcons : ((Finset.range n).filter fun j => (m.clearBit a i).bit a j = false)
      = insert i ((Finset.range n).filter fun j => m.bit a j = false) := by
    ext j
    simp only [Finset.mem_filter, Finset.mem_insert, Finset.mem_range, bit_clearBit]
    by_cases hij : i = j
    · subst hij
      simp [hi]
    · simp [hij, Ne.symm hij]
  unfold clearBits
  rw [hcons, Finset.card_insert_of_notMem hnot]

lemma clearBits_le (m : Mem) (a n : ℕ) : m.clearBits a n ≤ n :=
  le_of_le_of_eq (Finset.card_filter_le ..) (Finset.card_range n)

end Mem

end LunariaOS.Lib
