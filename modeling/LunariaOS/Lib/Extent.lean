import Mathlib

/-!
Extents: runs of consecutive numbers, given by where they start and how long they are.
-/

namespace LunariaOS.Lib

/-- The extent of `n` numbers from `a` on. -/
def extent (a n : ℕ) : Set ℕ := Set.Ico a (a + n)

lemma mem_extent {a n x : ℕ} : x ∈ extent a n ↔ a ≤ x ∧ x < a + n := Iff.rfl

/-- Two extents are disjoint when one is empty or one ends before the other starts. -/
lemma disjoint_extent {a m b n : ℕ} :
    Disjoint (extent a m) (extent b n) ↔ m = 0 ∨ n = 0 ∨ a + m ≤ b ∨ b + n ≤ a := by
  unfold extent
  rw [Set.Ico_disjoint_Ico]
  omega

lemma extent_mono {a m n : ℕ} (h : m ≤ n) : extent a m ⊆ extent a n :=
  fun _ hx => ⟨hx.1, lt_of_lt_of_le hx.2 (by omega)⟩

lemma notMem_of_disjoint {a m b n x : ℕ} (h : Disjoint (extent a m) (extent b n))
    (hx : x ∈ extent a m) : x ∉ extent b n := fun hy => Set.disjoint_left.mp h hx hy

end LunariaOS.Lib
