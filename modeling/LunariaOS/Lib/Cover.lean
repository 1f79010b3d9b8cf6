import Mathlib.Tactic

/-!
Runs of numbers and half-open intervals.

A run is covered by a family of intervals when its first number is and the end of every interval that
stops inside it: behind such an end another interval goes on.
-/

namespace LunariaOS.Lib

variable {ι : Type*} {p q a b : ℕ}

/-- **A run is covered** just when its start and the ends inside it are. -/
theorem covered_iff (P : ι → Prop) (lo hi : ι → ℕ) (hpq : p < q) :
    (∀ x, p ≤ x → x < q → ∃ i, P i ∧ lo i ≤ x ∧ x < hi i) ↔
      (∃ i, P i ∧ lo i ≤ p ∧ p < hi i) ∧
        ∀ i, P i → p < hi i → hi i < q → ∃ j, P j ∧ lo j ≤ hi i ∧ hi i < hi j := by
  refine ⟨fun h => ⟨h p le_rfl hpq, fun i _ h1 h2 => h (hi i) h1.le h2⟩, ?_⟩
  rintro ⟨hstart, hends⟩ x hx
  induction x, hx using Nat.le_induction with
  | base => exact fun _ => hstart
  | succ x hx ih =>
    intro hlt
    obtain ⟨i, hP, h1, h2⟩ := ih (by omega)
    -- the interval of `x` goes on, or it ends here
    by_cases hend : x + 1 < hi i
    · exact ⟨i, hP, by omega, hend⟩
    · have hstop : hi i = x + 1 := by omega
      rw [← hstop]
      exact hends i hP (by omega) (by omega)

/-- A run misses an interval. -/
theorem misses_iff (hpq : p < q) :
    (∀ x, p ≤ x → x < q → ¬ (a ≤ x ∧ x < b)) ↔ ¬ (a < b ∧ a < q ∧ p < b) := by
  constructor
  · rintro h ⟨h1, h2, h3⟩
    rcases le_total a p with hap | hpa
    · exact h p le_rfl hpq ⟨hap, h3⟩
    · exact h a hpa h2 ⟨le_rfl, h1⟩
  · intro h x h1 h2 hx
    exact h ⟨by omega, by omega, by omega⟩

end LunariaOS.Lib
