import Mathlib.Tactic

/-!
Division one binary digit after the other.

The digits of the dividend are brought down from the highest one on. `Partial n d i` says what the
quotient and the remainder are when the digits below `i` are still to come. The remainder never grows
above what was brought down, so it fits in a word that the dividend fits in.
-/

namespace LunariaOS.Lib

/-- The quotient and the remainder so far. -/
structure DivState where
  q : ℕ
  r : ℕ

namespace DivState

variable {n d i w : ℕ} {s : DivState}

/-- The binary digit number `i`. -/
def digit (n i : ℕ) : ℕ := n / 2 ^ i % 2

/-- The remainder with the digit number `i` brought down. -/
def down (n i : ℕ) (s : DivState) : ℕ := 2 * s.r + digit n i

def step (n d i : ℕ) (s : DivState) : DivState :=
  if d ≤ s.down n i then ⟨s.q + 2 ^ i, s.down n i - d⟩ else ⟨s.q, s.down n i⟩

/-- All digits below `i`. -/
def steps (n d : ℕ) : ℕ → DivState → DivState
  | 0, s => s
  | i + 1, s => steps n d i (s.step n d i)

lemma digit_le (n i : ℕ) : digit n i ≤ 1 := Nat.lt_succ_iff.mp (Nat.mod_lt _ two_pos)

lemma div_digit (n i : ℕ) : n / 2 ^ i = 2 * (n / 2 ^ (i + 1)) + digit n i := by
  have h := Nat.div_add_mod (n / 2 ^ i) 2
  rw [Nat.div_div_eq_div_mul, ← pow_succ] at h
  exact h.symm

/-- **The digits from `i` on are divided**: what was brought down is the quotient times the divisor
and the remainder. -/
structure Partial (n d i : ℕ) (s : DivState) : Prop where
  quotient : ∃ k, s.q = k * 2 ^ i ∧ n / 2 ^ i = k * d + s.r
  small : s.r < d

lemma partial_start (h : n < 2 ^ w) (hd : 0 < d) : Partial n d w ⟨0, 0⟩ :=
  ⟨⟨0, (Nat.zero_mul _).symm, by rw [Nat.div_eq_of_lt h, Nat.zero_mul, Nat.zero_add]⟩, hd⟩

/-- What is brought down is at most the dividend. -/
lemma Partial.down_le (h : Partial n d (i + 1) s) : s.down n i ≤ n := by
  obtain ⟨k, -, hk⟩ := h.quotient
  have hle : n / 2 ^ i ≤ n := Nat.div_le_self ..
  rw [div_digit, hk] at hle
  unfold down
  nlinarith [Nat.zero_le (k * d)]

/-- **One digit.** -/
lemma Partial.step (h : Partial n d (i + 1) s) : Partial n d i (s.step n d i) := by
  obtain ⟨⟨k, hq, hk⟩, hr⟩ := h
  have hdigit := digit_le n i
  have hdown : n / 2 ^ i = 2 * (k * d) + s.down n i := by
    rw [div_digit, hk]
    unfold down
    ring
  have hlt : s.down n i < 2 * d := by
    unfold down
    omega
  unfold DivState.step
  by_cases hle : d ≤ s.down n i
  · rw [if_pos hle]
    refine ⟨⟨2 * k + 1, ?_, ?_⟩, ?_⟩
    · rw [hq, pow_succ]
      ring
    · rw [hdown, show (2 * k + 1) * d = 2 * (k * d) + d by ring]
      dsimp only
      omega
    · dsimp only
      omega
  · rw [if_neg hle]
    refine ⟨⟨2 * k, ?_, ?_⟩, Nat.lt_of_not_le hle⟩
    · rw [hq, pow_succ]
      ring
    · rw [hdown]
      ring

lemma Partial.steps (h : Partial n d i s) : Partial n d 0 (s.steps n d i) := by
  induction i generalizing s with
  | zero => exact h
  | succ i ih => exact ih h.step

/-- When no digit is left, the division is done. -/
lemma Partial.done (h : Partial n d 0 s) : s.q = n / d ∧ s.r = n % d := by
  obtain ⟨⟨k, hq, hk⟩, hr⟩ := h
  rw [pow_zero, Nat.div_one] at hk
  rw [pow_zero, Nat.mul_one] at hq
  subst hq
  have hpos : 0 < d := lt_of_le_of_lt (Nat.zero_le _) hr
  constructor
  · rw [hk, Nat.add_comm, Nat.add_mul_div_right _ _ hpos, Nat.div_eq_of_lt hr, Nat.zero_add]
  · rw [hk, Nat.add_comm, Nat.add_mul_mod_self_right, Nat.mod_eq_of_lt hr]

/-- **The division of a number of `w` digits.** -/
theorem steps_eq (h : n < 2 ^ w) (hd : 0 < d) : DivState.steps n d w ⟨0, 0⟩ = ⟨n / d, n % d⟩ := by
  obtain ⟨hq, hr⟩ := (partial_start h hd).steps.done
  rw [← hq, ← hr]

end DivState

end LunariaOS.Lib
