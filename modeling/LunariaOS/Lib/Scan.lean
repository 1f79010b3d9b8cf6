import Mathlib.Data.List.TakeWhile

/-!
Loops that read a terminated sequence through a pointer.

A pointer into an object is the list of what stands from it to the object's end, so that reading at
the pointer is reading the head, and a read behind the end of the object is one of the empty list.
-/

namespace LunariaOS.Lib

variable {α σ : Type*} {q : α → Bool} {g : σ → α → σ}

/-- The loop `while (q(*p)) s = g(s, *p++)`: the state and the pointer it ends with, or `none` if it
reads behind the end of the object. -/
def walk (q : α → Bool) (g : σ → α → σ) : σ → List α → Option (σ × List α)
  | _, [] => none
  | s, a :: l => if q a then walk q g (g s a) l else some (s, a :: l)

/-- A sequence with an element at its end that stops the loop is walked through without a read
behind it. -/
lemma walk_append (l r : List α) {z : α} (hz : q z = false) (s : σ) :
    walk q g s (l ++ z :: r) = some ((l.takeWhile q).foldl g s, l.dropWhile q ++ z :: r) := by
  induction l generalizing s with
  | nil => simp [walk, hz]
  | cons a l ih =>
    cases ha : q a
    · simp [walk, ha]
    · simp [walk, ha, ih]

/-- A loop that nothing stops reads behind the end. -/
lemma walk_none {l : List α} (h : ∀ a ∈ l, q a) (s : σ) : walk q g s l = none := by
  induction l generalizing s with
  | nil => rfl
  | cons a l ih => rw [walk, if_pos (h a (by simp)), ih fun b hb => h b (by simp [hb])]

/-- Where the loop stops stands an element that stops it, and nothing is gone back over. -/
lemma walk_length {s s' : σ} {l r : List α} (h : walk q g s l = some (s', r)) :
    r.length ≤ l.length := by
  induction l generalizing s with
  | nil => simp [walk] at h
  | cons a l ih =>
    rw [walk] at h
    split at h
    · exact (ih h).trans (Nat.le_succ _)
    · cases h
      exact le_rfl

/-- The elements the loop takes are the longest run of them. -/
lemma split_unique {a a' b b' : List α} (h : a ++ b = a' ++ b') (ha : ∀ x ∈ a, q x)
    (hb : ∀ x ∈ b.head?, q x = false) (ha' : ∀ x ∈ a', q x) (hb' : ∀ x ∈ b'.head?, q x = false) :
    a = a' ∧ b = b' := by
  have run : ∀ {a b : List α}, (∀ x ∈ a, q x) → (∀ x ∈ b.head?, q x = false) →
      (a ++ b).takeWhile q = a := by
    intro a b ha hb
    rw [List.takeWhile_append_of_pos ha]
    cases b with
    | nil => simp
    | cons x b => simp [hb x (by simp)]
  have e : a = a' := by rw [← run ha hb, ← run ha' hb', h]
  subst e
  exact ⟨rfl, List.append_cancel_left h⟩

/-- The loop over a run of elements that it takes, before one that stops it. -/
lemma walk_run {l r : List α} (hl : ∀ a ∈ l, q a) (hr : ∀ a ∈ r.head?, q a = false) (hne : r ≠ [])
    (s : σ) : walk q g s (l ++ r) = some (l.foldl g s, r) := by
  obtain ⟨z, r, rfl⟩ := List.exists_cons_of_ne_nil hne
  rw [walk_append l r (hr z rfl), List.takeWhile_eq_self_iff.mpr hl,
    List.dropWhile_eq_nil_iff.mpr hl]
  rfl

end LunariaOS.Lib
