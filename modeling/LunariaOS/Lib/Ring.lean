import Mathlib.Tactic

/-!
A ring buffer with one slot left unused.

The items that wait lie from the place `tail` on up to the place `head`, round the end of a buffer of
`cap` places. The ring is empty when the two places agree, and full when the place after `head` is
`tail`, which is when `cap - 1` items wait.
-/

namespace LunariaOS.Lib

/-- A buffer with the place of the next item to come and the place of the oldest item. -/
structure RingBuffer (α : Type*) where
  buffer : ℕ → α
  head : ℕ
  tail : ℕ

namespace RingBuffer

variable {α : Type*} {cap : ℕ} {r : RingBuffer α}

/-- Store an item at the head and move the head on. -/
def put (cap : ℕ) (r : RingBuffer α) (a : α) : RingBuffer α where
  buffer := fun i => if i = r.head then a else r.buffer i
  head := (r.head + 1) % cap
  tail := r.tail

/-- Move the tail on. -/
def drop (cap : ℕ) (r : RingBuffer α) : RingBuffer α := { r with tail := (r.tail + 1) % cap }

/-- The number of items that wait. -/
def count (cap : ℕ) (r : RingBuffer α) : ℕ :=
  if r.tail ≤ r.head then r.head - r.tail else r.head + cap - r.tail

/-- The place `i` places after the tail. -/
def place (cap : ℕ) (r : RingBuffer α) (i : ℕ) : ℕ :=
  if r.tail + i < cap then r.tail + i else r.tail + i - cap

/-- The items that wait, the oldest first. -/
def queued (cap : ℕ) (r : RingBuffer α) : List α :=
  (List.range (r.count cap)).map fun i => r.buffer (r.place cap i)

/-- Both places lie in the buffer. -/
structure InBounds (cap : ℕ) (r : RingBuffer α) : Prop where
  head_lt : r.head < cap
  tail_lt : r.tail < cap

@[simp] lemma length_queued : (r.queued cap).length = r.count cap := by simp [queued]

/-- The place after another, as the remainder computes it. -/
lemma succ_mod {i : ℕ} (h : i < cap) : (i + 1) % cap = if i + 1 = cap then 0 else i + 1 := by
  split_ifs with hc
  · rw [hc, Nat.mod_self]
  · exact Nat.mod_eq_of_lt (by omega)

lemma InBounds.put (h : r.InBounds cap) (a : α) : (r.put cap a).InBounds cap :=
  ⟨Nat.mod_lt _ (by have := h.head_lt; omega), h.tail_lt⟩

lemma InBounds.drop (h : r.InBounds cap) : (r.drop cap).InBounds cap :=
  ⟨h.head_lt, Nat.mod_lt _ (by have := h.tail_lt; omega)⟩

lemma InBounds.count_lt (h : r.InBounds cap) : r.count cap < cap := by
  obtain ⟨h1, h2⟩ := h
  unfold count
  split_ifs <;> omega

/-- The ring is empty when the two places agree. -/
lemma empty_iff (h : r.InBounds cap) : r.head = r.tail ↔ r.queued cap = [] := by
  obtain ⟨h1, h2⟩ := h
  rw [← List.length_eq_zero_iff, length_queued]
  unfold count
  split_ifs <;> omega

/-- The ring is full when all places but one are taken. -/
lemma full_iff (h : r.InBounds cap) :
    (r.head + 1) % cap = r.tail ↔ (r.queued cap).length = cap - 1 := by
  obtain ⟨h1, h2⟩ := h
  rw [length_queued, succ_mod h1]
  unfold count
  split_ifs <;> omega

/-- **An item that comes in** is the last one to wait. -/
lemma queued_put (h : r.InBounds cap) (hfull : (r.head + 1) % cap ≠ r.tail) (a : α) :
    (r.put cap a).queued cap = r.queued cap ++ [a] := by
  obtain ⟨h1, h2⟩ := h
  rw [succ_mod h1] at hfull
  have hcount : (r.put cap a).count cap = r.count cap + 1 := by
    unfold count put
    simp only [succ_mod h1]
    split_ifs at hfull ⊢ <;> omega
  have hlast : r.place cap (r.count cap) = r.head := by
    unfold place count
    split_ifs <;> omega
  unfold queued
  rw [hcount, List.range_succ, List.map_append]
  congr 1
  · refine List.map_congr_left fun i hi => ?_
    have hi' : i < r.count cap := List.mem_range.mp hi
    -- an item that waited does not lie at the head
    have hne : r.place cap i ≠ r.head := by
      unfold place count at *
      split_ifs at hi' ⊢ <;> omega
    exact if_neg hne
  · exact congrArg (fun x => [x]) (if_pos hlast)

/-- **Moving the tail on** takes away the oldest item. -/
lemma queued_drop (h : r.InBounds cap) (hne : r.head ≠ r.tail) :
    r.queued cap = r.buffer r.tail :: (r.drop cap).queued cap := by
  obtain ⟨h1, h2⟩ := h
  have hcount : r.count cap = (r.drop cap).count cap + 1 := by
    unfold count drop
    simp only [succ_mod h2]
    split_ifs <;> omega
  have hfirst : r.place cap 0 = r.tail := if_pos h2
  unfold queued
  rw [hcount, List.range_succ_eq_map, List.map_cons, List.map_map, hfirst]
  congr 1
  refine List.map_congr_left fun i hi => ?_
  have hi' : i + 1 < r.count cap := by
    have := List.mem_range.mp hi
    omega
  -- the place `i` after the new tail is the place `i + 1` after the old one
  have hplace : r.place cap (i + 1) = (r.drop cap).place cap i := by
    unfold place count drop at *
    simp only [succ_mod h2]
    split_ifs at hi' ⊢ <;> omega
  exact congrArg r.buffer hplace

end RingBuffer

end LunariaOS.Lib
