import Mathlib.Tactic
import Mathlib.Logic.Equiv.Basic

/-!
Insertion sort by exchanges of neighbours.

The contents of an array is a function of the index. `sink` moves the element with the index `j`
down as long as it is smaller than the one before it. What the elements were before is kept in a
permutation of the indices: `Precedes` orders the old indices by their elements and, where these
compare equal, by themselves, and the sort leaves them in this order.
-/

namespace LunariaOS.Lib

section Insertion

variable {α : Type*}

/-- A comparison whose sign tells a total preorder. -/
structure Preordered (cmp : α → α → ℤ) : Prop where
  sign : ∀ x y, 0 ≤ cmp x y ↔ cmp y x ≤ 0
  trans : ∀ x y z, cmp x y ≤ 0 → cmp y z ≤ 0 → cmp x z ≤ 0

variable (cmp : α → α → ℤ)

/-- Two neighbours exchanged. -/
def exchange (b : ℕ → α) (j : ℕ) : ℕ → α := fun i => b (Equiv.swap j (j + 1) i)

/-- Move the element with the index `j` down to its place. -/
def sink : ℕ → (ℕ → α) → ℕ → α
  | 0, b => b
  | j + 1, b => if cmp (b (j + 1)) (b j) ≥ 0 then b else sink j (exchange b j)

/-- Insert the elements with the indices from `i` on, `k` of them. -/
def sinkAll : ℕ → ℕ → (ℕ → α) → ℕ → α
  | 0, _, b => b
  | k + 1, i, b => sinkAll k (i + 1) (sink cmp i b)

variable {cmp} {b : ℕ → α} {σ : Equiv.Perm ℕ} {i j p q r : ℕ}

/-- The element with the index `p` comes before that with the index `q` in a stable order. -/
def Precedes (cmp : α → α → ℤ) (b : ℕ → α) (p q : ℕ) : Prop :=
  cmp (b p) (b q) ≤ 0 ∧ (cmp (b p) (b q) = 0 → p < q)

lemma precedes_of_lt (h : cmp (b p) (b q) < 0) : Precedes cmp b p q := ⟨h.le, fun h0 => absurd h0 h.ne⟩

lemma precedes_of_ge (hc : Preordered cmp) (h : 0 ≤ cmp (b p) (b q)) (hlt : q < p) :
    Precedes cmp b q p := ⟨(hc.sign _ _).mp h, fun _ => hlt⟩

lemma Precedes.trans (hc : Preordered cmp) (h : Precedes cmp b p q) (h' : Precedes cmp b q r) :
    Precedes cmp b p r := by
  refine ⟨hc.trans _ _ _ h.1 h'.1, fun h0 => ?_⟩
  -- an element that equals the first one equals all between
  have hrp : cmp (b r) (b p) ≤ 0 := (hc.sign _ _).mp h0.ge
  have hqp : cmp (b q) (b p) ≤ 0 := hc.trans _ _ _ h'.1 hrp
  have hrq : cmp (b r) (b q) ≤ 0 := hc.trans _ _ _ hrp h.1
  have hpq0 : cmp (b p) (b q) = 0 := le_antisymm h.1 ((hc.sign _ _).mpr hqp)
  have hqr0 : cmp (b q) (b r) = 0 := le_antisymm h'.1 ((hc.sign _ _).mpr hrq)
  exact (h.2 hpq0).trans (h'.2 hqr0)

/-! ### The loops -/

/-- **The invariant of the outer loop**: the first `i` elements are sorted, the others are where they
were. -/
structure SortedTo (cmp : α → α → ℤ) (b : ℕ → α) (i : ℕ) (σ : Equiv.Perm ℕ) : Prop where
  order : ∀ p q, p < q → q < i → Precedes cmp b (σ p) (σ q)
  rest : ∀ p, i ≤ p → σ p = p

/-- **The invariant of the inner loop**: the element `i` is at the place `j`, it precedes those after
it, and the others are sorted. -/
structure Moving (cmp : α → α → ℤ) (b : ℕ → α) (i j : ℕ) (σ : Equiv.Perm ℕ) : Prop where
  place : σ j = i
  le : j ≤ i
  order : ∀ p q, p < q → q ≤ i → p ≠ j → q ≠ j → Precedes cmp b (σ p) (σ q)
  after : ∀ q, j < q → q ≤ i → Precedes cmp b i (σ q)
  rest : ∀ p, i < p → σ p = p

lemma SortedTo.moving (h : SortedTo cmp b i σ) : Moving cmp b i i σ :=
  ⟨h.rest i le_rfl, le_rfl, fun p q hpq hq _ hqi => h.order p q hpq (lt_of_le_of_ne hq hqi),
    fun _ hq hqi => absurd hq (not_lt.mpr hqi), fun p hp => h.rest p hp.le⟩

/-- Elements other than the one that moves were before it. -/
lemma Moving.lt (h : Moving cmp b i j σ) (hp : p ≤ i) (hpj : p ≠ j) : σ p < i := by
  by_contra hge
  rcases Nat.lt_or_ge i (σ p) with hlt | hle
  · have hfix := h.rest (σ p) hlt
    have := σ.injective hfix
    omega
  · have heq : σ p = σ j := (le_antisymm hle (not_lt.mp hge)).trans h.place.symm
    exact hpj (σ.injective heq)

/-- The element is at its place. -/
lemma Moving.stop (hc : Preordered cmp) (h : Moving cmp b i (j + 1) σ)
    (hge : 0 ≤ cmp (b (σ (j + 1))) (b (σ j))) : SortedTo cmp b (i + 1) σ := by
  have hle := h.le
  have hlast : Precedes cmp b (σ j) i :=
    precedes_of_ge hc (h.place ▸ hge) (h.lt (by omega) (by omega))
  have hbefore : ∀ p, p ≤ j → Precedes cmp b (σ p) i := by
    intro p hp
    rcases hp.lt_or_eq with hlt | rfl
    · exact (h.order p j hlt (by omega) (by omega) (by omega)).trans hc hlast
    · exact hlast
  refine ⟨fun p q hpq hq => ?_, fun p hp => h.rest p hp⟩
  by_cases hpj : p = j + 1
  · subst hpj
    rw [h.place]
    exact h.after q hpq (by omega)
  by_cases hqj : q = j + 1
  · subst hqj
    rw [h.place]
    exact hbefore p (by omega)
  exact h.order p q hpq (by omega) hpj hqj

lemma Moving.bottom (h : Moving cmp b i 0 σ) : SortedTo cmp b (i + 1) σ := by
  refine ⟨fun p q hpq hq => ?_, fun p hp => h.rest p hp⟩
  by_cases hp : p = 0
  · subst hp
    rw [h.place]
    exact h.after q hpq (by omega)
  · exact h.order p q hpq (by omega) hp (by omega)

lemma swap_of_ne (hp : p ≠ j) (hp' : p ≠ j + 1) : Equiv.swap j (j + 1) p = p :=
  Equiv.swap_apply_of_ne_of_ne hp hp'

/-- **The element moves down by one place.** -/
lemma Moving.down (h : Moving cmp b i (j + 1) σ) (hlt : cmp (b (σ (j + 1))) (b (σ j)) < 0) :
    Moving cmp b i j ((Equiv.swap j (j + 1)).trans σ) := by
  have hle := h.le
  have hnext : Precedes cmp b i (σ j) := precedes_of_lt (h.place ▸ hlt)
  refine ⟨?_, by omega, fun p q hpq hq hpj hqj => ?_, fun q hq hqi => ?_, fun p hp => ?_⟩
  · rw [Equiv.trans_apply, Equiv.swap_apply_left]
    exact h.place
  · rw [Equiv.trans_apply, Equiv.trans_apply]
    by_cases hp1 : p = j + 1
    · rw [hp1, Equiv.swap_apply_right, swap_of_ne hqj (by omega)]
      exact h.order j q (by omega) hq (by omega) (by omega)
    by_cases hq1 : q = j + 1
    · rw [hq1, Equiv.swap_apply_right, swap_of_ne hpj hp1]
      exact h.order p j (by omega) (by omega) hp1 (by omega)
    · rw [swap_of_ne hpj hp1, swap_of_ne hqj hq1]
      exact h.order p q hpq hq hp1 hq1
  · rw [Equiv.trans_apply]
    by_cases hq1 : q = j + 1
    · rw [hq1, Equiv.swap_apply_right]
      exact hnext
    · rw [swap_of_ne (by omega) hq1]
      exact h.after q (by omega) hqi
  · rw [Equiv.trans_apply, swap_of_ne (by omega) (by omega)]
    exact h.rest p hp

lemma exchange_perm (j : ℕ) :
    exchange (fun p => b (σ p)) j = fun p => b (((Equiv.swap j (j + 1)).trans σ) p) := rfl

lemma Moving.sink (hc : Preordered cmp) (h : Moving cmp b i j σ) :
    ∃ τ : Equiv.Perm ℕ, sink cmp j (fun p => b (σ p)) = (fun p => b (τ p)) ∧
      SortedTo cmp b (i + 1) τ := by
  induction j generalizing σ with
  | zero => exact ⟨σ, rfl, h.bottom⟩
  | succ j ih =>
    unfold Lib.sink
    by_cases hge : cmp (b (σ (j + 1))) (b (σ j)) ≥ 0
    · rw [if_pos hge]
      exact ⟨σ, rfl, h.stop hc hge⟩
    · rw [if_neg hge, exchange_perm]
      exact ih (h.down (not_le.mp hge))

lemma SortedTo.sinkAll (hc : Preordered cmp) (h : SortedTo cmp b i σ) (k : ℕ) :
    ∃ τ : Equiv.Perm ℕ, sinkAll cmp k i (fun p => b (σ p)) = (fun p => b (τ p)) ∧
      SortedTo cmp b (i + k) τ := by
  induction k generalizing i σ with
  | zero => exact ⟨σ, rfl, h⟩
  | succ k ih =>
    obtain ⟨τ, hτ, hs⟩ := h.moving.sink hc
    obtain ⟨υ, hυ, hs'⟩ := ih hs
    refine ⟨υ, ?_, ?_⟩
    · unfold Lib.sinkAll
      rw [hτ, hυ]
    · rw [show i + (k + 1) = i + 1 + k by omega]
      exact hs'

lemma sortedTo_one (cmp : α → α → ℤ) (b : ℕ → α) : SortedTo cmp b 1 (Equiv.refl ℕ) :=
  ⟨fun p q hpq hq => absurd hpq (by omega), fun _ _ => rfl⟩

/-- **The insertion of all elements after the first sorts them, and is stable.** -/
theorem sinkAll_sorted (hc : Preordered cmp) (b : ℕ → α) (k : ℕ) :
    ∃ σ : Equiv.Perm ℕ, sinkAll cmp k 1 b = (fun p => b (σ p)) ∧ SortedTo cmp b (1 + k) σ :=
  (sortedTo_one cmp b).sinkAll hc k

end Insertion

end LunariaOS.Lib
