import Mathlib.Tactic

/-!
Loops that go over places and settle one place in each turn.

A turn may change its own place only, so what it has settled stays settled to the end of the loop.
-/

namespace LunariaOS.Lib

section Sweep

variable {σ ι κ : Type*} {I : σ → Prop}

/-- **The sweep rule.** Where every turn keeps the invariant, settles its place, and leaves settled
what is settled, the loop settles all its places and leaves settled what was settled. -/
theorem sweep {f : σ → ι → σ} {D : ι → σ → Prop} {l : List ι}
    (hinv : ∀ s, I s → ∀ i ∈ l, I (f s i)) (hdone : ∀ s, I s → ∀ i ∈ l, D i (f s i))
    (hkeep : ∀ s, I s → ∀ i ∈ l, ∀ j, D j s → D j (f s i)) {s : σ} (hs : I s) :
    I (l.foldl f s) ∧ (∀ i ∈ l, D i (l.foldl f s)) ∧ ∀ j, D j s → D j (l.foldl f s) := by
  induction l generalizing s with
  | nil => exact ⟨hs, fun i hi => absurd hi List.not_mem_nil, fun j hj => hj⟩
  | cons a l ih =>
    have ha : a ∈ a :: l := List.mem_cons_self
    obtain ⟨h1, h2, h3⟩ := ih (fun s h i hi => hinv s h i (List.mem_cons_of_mem _ hi))
      (fun s h i hi => hdone s h i (List.mem_cons_of_mem _ hi))
      (fun s h i hi => hkeep s h i (List.mem_cons_of_mem _ hi)) (hinv s hs a ha)
    refine ⟨h1, fun i hi => ?_, fun j hj => h3 j (hkeep s hs a ha j hj)⟩
    rcases List.mem_cons.mp hi with rfl | hi
    · exact h3 _ (hdone s hs _ ha)
    · exact h2 i hi

/-- **The sweep rule for a loop in a loop**, over the rows `l` and the columns `k`. -/
theorem sweep_rows {f : σ → ι → κ → σ} {D : ι → κ → σ → Prop} {l : List ι} {k : List κ}
    (hinv : ∀ s, I s → ∀ i ∈ l, ∀ j ∈ k, I (f s i j))
    (hdone : ∀ s, I s → ∀ i ∈ l, ∀ j ∈ k, D i j (f s i j))
    (hkeep : ∀ s, I s → ∀ i ∈ l, ∀ j ∈ k, ∀ i' j', D i' j' s → D i' j' (f s i j)) {s : σ}
    (hs : I s) :
    I (l.foldl (fun s i => k.foldl (fun s j => f s i j) s) s) ∧
      ∀ i ∈ l, ∀ j ∈ k, D i j (l.foldl (fun s i => k.foldl (fun s j => f s i j) s) s) := by
  have hmem : ∀ p ∈ l.flatMap fun i => k.map (Prod.mk i), p.1 ∈ l ∧ p.2 ∈ k := by
    intro p hp
    obtain ⟨i, hi, hp⟩ := List.mem_flatMap.mp hp
    obtain ⟨j, hj, rfl⟩ := List.mem_map.mp hp
    exact ⟨hi, hj⟩
  have h := @sweep σ (ι × κ) I (fun s p => f s p.1 p.2) (fun p => D p.1 p.2)
    (l.flatMap fun i => k.map (Prod.mk i))
    (fun s hs p hp => hinv s hs p.1 (hmem p hp).1 p.2 (hmem p hp).2)
    (fun s hs p hp => hdone s hs p.1 (hmem p hp).1 p.2 (hmem p hp).2)
    (fun s hs p hp q hq => hkeep s hs p.1 (hmem p hp).1 p.2 (hmem p hp).2 q.1 q.2 hq) s hs
  simp only [List.foldl_flatMap, List.foldl_map] at h
  exact ⟨h.1, fun i hi j hj => h.2.1 (i, j)
    (List.mem_flatMap.mpr ⟨i, hi, List.mem_map.mpr ⟨j, hj, rfl⟩⟩)⟩

/-- What every turn of a loop leaves alone, the loop leaves alone. -/
lemma foldl_keep {β : Type*} {f : σ → ι → σ} {g : σ → β} {l : List ι}
    (h : ∀ s, ∀ i ∈ l, g (f s i) = g s) (s : σ) : g (l.foldl f s) = g s := by
  induction l generalizing s with
  | nil => rfl
  | cons a l ih =>
    rw [List.foldl_cons, ih fun s i hi => h s i (List.mem_cons_of_mem _ hi),
      h s a List.mem_cons_self]

end Sweep

/-! ### Rows -/

section Rows

variable {α : Type*} (f : ℕ → ℕ → α)

/-- The list that a loop over `m` rows of `n` places fills. -/
lemma rows_length (m n : ℕ) :
    ((List.range m).flatMap fun y => (List.range n).map fun x => f y x).length = m * n := by
  simp

lemma rows_getElem? {m n y x : ℕ} (hy : y < m) (hx : x < n) :
    ((List.range m).flatMap fun y => (List.range n).map fun x => f y x)[y * n + x]? =
      some (f y x) := by
  induction m with
  | zero => exact absurd hy (Nat.not_lt_zero y)
  | succ m ih =>
    rw [List.range_succ, List.flatMap_append, List.flatMap_singleton]
    have hlen := rows_length f m n
    rcases Nat.lt_succ_iff_lt_or_eq.mp hy with hlt | rfl
    · have hin : y * n + x < m * n := by
        have : (y + 1) * n ≤ m * n := Nat.mul_le_mul_right n hlt
        rw [Nat.succ_mul] at this
        omega
      rw [List.getElem?_append_left (by rw [hlen]; exact hin)]
      exact ih hlt
    · rw [List.getElem?_append_right (by rw [hlen]; omega), hlen, Nat.add_sub_cancel_left]
      simp [hx]

end Rows

end LunariaOS.Lib
