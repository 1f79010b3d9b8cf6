import Mathlib.Order.Basic
import Mathlib.Data.Nat.Notation

/-!
Computations that count down a number of steps and give `none` when it runs out.

Such a computation is steady when more steps change nothing once a result is there. A steady
computation with a result returns it for every larger number of steps, so that which result it
returns, if any, does not depend on the number.
-/

namespace LunariaOS.Lib

variable {α β : Type}

/-- `o'` gives whatever `o` gives. -/
def Below (o o' : Option α) : Prop := ∀ x, o = some x → o' = some x

lemma Below.refl (o : Option α) : Below o o := fun _ h => h

lemma Below.trans {o₁ o₂ o₃ : Option α} (h : Below o₁ o₂) (h' : Below o₂ o₃) : Below o₁ o₃ :=
  fun x hx => h' x (h x hx)

lemma Below.none (o : Option α) : Below Option.none o := fun _ h => by cases h

lemma Below.bind {o o' : Option α} {f f' : α → Option β} (h : Below o o')
    (hf : ∀ a, Below (f a) (f' a)) : Below (o >>= f) (o' >>= f') := by
  intro x hx
  cases o with
  | none => cases hx
  | some a =>
    rw [h a rfl]
    exact hf a x hx

lemma Below.ite {p : Prop} [Decidable p] {o₁ o₂ o₁' o₂' : Option α} (h₁ : Below o₁ o₁')
    (h₂ : Below o₂ o₂') : Below (if p then o₁ else o₂) (if p then o₁' else o₂') := by
  by_cases hp : p
  · rw [if_pos hp, if_pos hp]
    exact h₁
  · rw [if_neg hp, if_neg hp]
    exact h₂

/-- More steps change no result. -/
def Steady (f : ℕ → Option α) : Prop := ∀ n, Below (f n) (f (n + 1))

lemma Steady.mono {f : ℕ → Option α} (h : Steady f) {n m : ℕ} (hle : n ≤ m) :
    Below (f n) (f m) := by
  induction hle with
  | refl => exact Below.refl _
  | step _ ih => exact ih.trans (h _)

/-- The computation, given enough steps, returns `r`. -/
def Returns (f : ℕ → Option α) (r : α) : Prop := ∃ n, ∀ k, n ≤ k → f k = some r

lemma Steady.returns {f : ℕ → Option α} (h : Steady f) {n : ℕ} {r : α} (hr : f n = some r) :
    Returns f r := ⟨n, fun _ hk => h.mono hk r hr⟩

/-- A computation returns one result only. -/
lemma Returns.unique {f : ℕ → Option α} {r r' : α} (h : Returns f r) (h' : Returns f r') :
    r = r' := by
  obtain ⟨n, hn⟩ := h
  obtain ⟨m, hm⟩ := h'
  have h1 := hn (max n m) (Nat.le_max_left ..)
  rw [hm (max n m) (Nat.le_max_right ..)] at h1
  exact (Option.some.inj h1).symm


end LunariaOS.Lib
