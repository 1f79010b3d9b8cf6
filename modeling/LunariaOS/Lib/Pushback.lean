import Mathlib.Data.List.Basic
import Mathlib.Tactic.Common

/-!
An input with push-back.

The items of an input are delivered one after the other, and one item at a time can be put back, so that
it is delivered next. `Woven` tells what a row of deliveries with the items put back between them looks
like, with no state: a part of the input, each item put back standing next to its delivery.
-/

namespace LunariaOS.Lib

/-- The items that come, and the item that was put back. -/
structure Pushback (α : Type*) where
  rest : List α
  back : Option α

/-- An item is delivered or put back. -/
inductive Move (α : Type*) where
  | out (a : α)
  | back (a : α)

/-- A row of moves over a part of the input. -/
inductive Woven {α : Type*} : List α → List (Move α) → Prop where
  | nil : Woven [] []
  | out {pre : List α} {l : List (Move α)} (a : α) (h : Woven pre l) : Woven (a :: pre) (.out a :: l)
  | back {pre : List α} {l : List (Move α)} (a : α) (h : Woven pre l) :
      Woven pre (.back a :: .out a :: l)
  /-- The item put back last was not delivered yet. -/
  | pending (a : α) : Woven [] [.back a]

namespace Pushback

variable {α : Type*} {p q r : Pushback α} {stop : α → Bool} {n : ℕ}

/-- Take the next item. -/
def next : Pushback α → Option α × Pushback α
  | ⟨rest, some a⟩ => (some a, ⟨rest, none⟩)
  | ⟨a :: rest, none⟩ => (some a, ⟨rest, none⟩)
  | ⟨[], none⟩ => (none, ⟨[], none⟩)

/-- Put an item back. -/
def put (p : Pushback α) (a : α) : Pushback α := ⟨p.rest, some a⟩

/-- Take at most `n` items, and none after one that stops. -/
def take (stop : α → Bool) : ℕ → Pushback α → List α × Pushback α
  | 0, p => ([], p)
  | n + 1, p =>
    match p.next with
    | (none, p) => ([], p)
    | (some a, p) => if stop a then ([a], p) else (a :: (take stop n p).1, (take stop n p).2)

/-- The moves lead from one input to another. An item is put back only when none is. -/
def Steps : Pushback α → List (Move α) → Pushback α → Prop
  | p, [], q => p = q
  | p, .out a :: l, q => ∃ p', p.next = (some a, p') ∧ Steps p' l q
  | p, .back a :: l, q => p.back = none ∧ Steps (p.put a) l q

/-- There is no next item only at the end of the input. -/
lemma next_eq_none (h : p.next.1 = none) : p.rest = [] ∧ p.back = none := by
  obtain ⟨rest, back⟩ := p
  cases back with
  | some a => cases h
  | none =>
    cases rest with
    | nil => exact ⟨rfl, rfl⟩
    | cons a rest => cases h

/-- With nothing put back, the next item comes from the input. -/
lemma rest_of_next {a : α} (hb : p.back = none) (h : p.next.1 = some a) :
    p.rest = a :: p.next.2.rest := by
  obtain ⟨rest, back⟩ := p
  obtain rfl : back = none := hb
  cases rest with
  | nil => cases h
  | cons b rest =>
    obtain rfl : b = a := Option.some.inj h
    rfl

lemma next_none (h : p.next.1 = none) : p.next.2 = p := by
  obtain ⟨rest, back⟩ := p
  obtain ⟨rfl, rfl⟩ : rest = [] ∧ back = none := next_eq_none h
  rfl

lemma length_take_le (stop : α → Bool) (n : ℕ) (p : Pushback α) : (p.take stop n).1.length ≤ n := by
  induction n generalizing p with
  | zero => exact Nat.le_refl 0
  | succ n ih =>
    rw [take]
    obtain ⟨_ | a, p'⟩ := p.next
    · exact Nat.zero_le _
    · dsimp only
      split_ifs
      · exact Nat.succ_le_succ (Nat.zero_le n)
      · exact Nat.succ_le_succ (ih p')

/-- Only the last item that is taken can be one that stops. -/
lemma take_stop (stop : α → Bool) (n : ℕ) (p : Pushback α) :
    ∀ a ∈ (p.take stop n).1.dropLast, stop a = false := by
  induction n generalizing p with
  | zero => intro a ha; cases ha
  | succ n ih =>
    rw [take]
    obtain ⟨_ | a, p'⟩ := p.next
    · intro a ha
      cases ha
    · dsimp only
      split_ifs with hs
      · intro b hb
        cases hb
      · intro b hb
        cases hl : (p'.take stop n).1 with
        | nil =>
          rw [hl] at hb
          cases hb
        | cons c l =>
          rw [hl, List.dropLast_cons_of_ne_nil (List.cons_ne_nil c l)] at hb
          rcases List.mem_cons.mp hb with rfl | hb
          · exact eq_false_of_ne_true hs
          · exact ih p' b (by rwa [hl])

/-- An input of which fewer items were taken, none that stops, is at its end. -/
lemma take_short (stop : α → Bool) (n : ℕ) (p : Pushback α) (hlen : (p.take stop n).1.length < n)
    (hstop : ∀ a ∈ (p.take stop n).1, stop a = false) : (p.take stop n).2.next.1 = none := by
  induction n generalizing p with
  | zero => exact absurd hlen (Nat.not_lt_zero _)
  | succ n ih =>
    rw [take] at hlen hstop ⊢
    cases hp : p.next with
    | mk a p' =>
      rw [hp] at hlen hstop
      cases a with
      | none =>
        have hself : p' = p := by
          have := next_none (congrArg Prod.fst hp)
          rwa [hp] at this
        rw [hself, hp]
      | some a =>
        dsimp only at hlen hstop ⊢
        split_ifs at hlen hstop ⊢ with hs
        · have hx := hstop a (List.mem_singleton_self a)
          rw [hs] at hx
          cases hx
        · exact ih p' (Nat.lt_of_succ_lt_succ hlen) fun b hb => hstop b (List.mem_cons_of_mem a hb)

lemma steps_append {l l' : List (Move α)} (h : Steps p l q) (h' : Steps q l' r) :
    Steps p (l ++ l') r := by
  induction l generalizing p with
  | nil =>
    obtain rfl : p = q := h
    exact h'
  | cons m l ih =>
    cases m with
    | out a =>
      obtain ⟨p', hp, hl⟩ := h
      exact ⟨p', hp, ih hl⟩
    | back a => exact ⟨h.1, ih h.2⟩

/-- What is taken are moves. -/
lemma steps_take (stop : α → Bool) (n : ℕ) (p : Pushback α) :
    Steps p ((p.take stop n).1.map Move.out) (p.take stop n).2 := by
  induction n generalizing p with
  | zero => exact rfl
  | succ n ih =>
    rw [take]
    cases hp : p.next with
    | mk a p' =>
      cases a with
      | none =>
        have hself := next_none (congrArg Prod.fst hp)
        rw [hp] at hself
        exact hself.symm
      | some a =>
        dsimp only
        split_ifs
        · exact ⟨p', hp, rfl⟩
        · exact ⟨p', hp, ih p'⟩

/-- **The moves weave** the items that were put back into a part of the input. -/
theorem steps_woven {l : List (Move α)} (h : Steps p l q) :
    ∃ pre, p.rest = pre ++ q.rest ∧ Woven pre ((p.back.map Move.back).toList ++ l) := by
  induction l generalizing p with
  | nil =>
    obtain rfl : p = q := h
    refine ⟨[], rfl, ?_⟩
    cases p.back with
    | none => exact Woven.nil
    | some a => exact Woven.pending a
  | cons m l ih =>
    obtain ⟨rest, back⟩ := p
    cases m with
    | back a =>
      obtain ⟨hnone, hl⟩ := h
      obtain rfl : back = none := hnone
      exact ih hl
    | out a =>
      obtain ⟨p', hp, hl⟩ := h
      obtain ⟨pre, hrest, hw⟩ := ih hl
      cases back with
      | some b =>
        obtain ⟨hb, rfl⟩ := Prod.mk.injEq .. ▸ hp
        obtain rfl := Option.some.inj hb
        exact ⟨pre, hrest, Woven.back b hw⟩
      | none =>
        cases rest with
        | nil => cases hp
        | cons b rest =>
          obtain ⟨hb, rfl⟩ := Prod.mk.injEq .. ▸ hp
          obtain rfl := Option.some.inj hb
          exact ⟨b :: pre, congrArg (b :: ·) hrest, Woven.out b hw⟩

end Pushback

end LunariaOS.Lib
