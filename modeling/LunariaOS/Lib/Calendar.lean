import Mathlib.Tactic
import Mathlib.Algebra.BigOperators.Group.Finset.Basic

/-!
The proleptic Gregorian calendar.

Days are counted from 1970-01-01 on, forwards and backwards, year by year and month by month. A year
has the number of days before it in a closed form too, `daysBefore_eq`, and dates are compared there.
-/

namespace LunariaOS.Lib

open Finset

/-- The year has a 29th of February. -/
def Leap (y : ℤ) : Prop := y % 4 = 0 ∧ (y % 100 ≠ 0 ∨ y % 400 = 0)

instance : DecidablePred Leap := fun y => by unfold Leap; infer_instance

/-- The length of the month number `m`, counted from `0` on. -/
def monthLength (y : ℤ) (m : ℕ) : ℤ :=
  if m = 1 then (if Leap y then 29 else 28)
  else if m = 3 ∨ m = 5 ∨ m = 8 ∨ m = 10 then 30
  else 31

def yearLength (y : ℤ) : ℤ := ∑ m ∈ range 12, monthLength y m

/-- The number of days from 1970-01-01 to the beginning of a year, negative before 1970. -/
def daysBefore (y : ℤ) : ℤ :=
  ∑ k ∈ range (y - 1970).toNat, yearLength (1970 + k) -
    ∑ k ∈ range (1970 - y).toNat, yearLength (1969 - k)

/-- The number of days of a year before the month number `m`. -/
def monthStart (y : ℤ) (m : ℕ) : ℤ := ∑ i ∈ range m, monthLength y i

/-- A day of the week from its number, `0` for a Sunday: 1970-01-01 was a Thursday. -/
def weekday (d : ℤ) : ℤ := (d + 4) % 7

lemma yearLength_eq (y : ℤ) : yearLength y = if Leap y then 366 else 365 := by
  unfold yearLength
  by_cases h : Leap y
  · simp [sum_range_succ, monthLength, h]
  · simp [sum_range_succ, monthLength, h]

/-- What a leap year has more, in quotients. -/
lemma yearLength_quotients (y : ℤ) :
    yearLength y = 365 + (y / 4 - (y - 1) / 4) - (y / 100 - (y - 1) / 100) + (y / 400 - (y - 1) / 400) := by
  have h4 : y / 4 - (y - 1) / 4 = if y % 4 = 0 then 1 else 0 := by split_ifs <;> omega
  have h100 : y / 100 - (y - 1) / 100 = if y % 100 = 0 then 1 else 0 := by split_ifs <;> omega
  have h400 : y / 400 - (y - 1) / 400 = if y % 400 = 0 then 1 else 0 := by split_ifs <;> omega
  rw [yearLength_eq, h4, h100, h400]
  unfold Leap
  split_ifs <;> omega

/-- The number of days before a year, in quotients. -/
def quotients (y : ℤ) : ℤ := 365 * (y - 1970) + (y - 1) / 4 - (y - 1) / 100 + (y - 1) / 400 - 477

lemma quotients_succ (y : ℤ) : quotients (y + 1) = quotients y + yearLength y := by
  rw [yearLength_quotients]
  unfold quotients
  rw [add_sub_cancel_right]
  ring

lemma sum_forwards (n : ℕ) : ∑ k ∈ range n, yearLength (1970 + k) = quotients (1970 + n) := by
  induction n with
  | zero => decide
  | succ n ih =>
    rw [sum_range_succ, ih, ← quotients_succ]
    push_cast
    ring_nf

lemma sum_backwards (n : ℕ) : ∑ k ∈ range n, yearLength (1969 - k) = -quotients (1970 - n) := by
  induction n with
  | zero => decide
  | succ n ih =>
    have h := quotients_succ (1969 - n)
    rw [show (1969 : ℤ) - n + 1 = 1970 - n by ring] at h
    rw [sum_range_succ, ih, h]
    push_cast
    rw [show (1970 : ℤ) - (n + 1) = 1969 - n by ring]
    ring

/-- **The days before a year.** -/
theorem daysBefore_eq (y : ℤ) : daysBefore y = quotients y := by
  unfold daysBefore
  rw [sum_forwards, sum_backwards]
  rcases le_total 1970 y with h | h
  · rw [Int.toNat_of_nonneg (show 0 ≤ y - 1970 by omega), show (1970 - y).toNat = 0 by omega]
    rw [show (1970 : ℤ) + (y - 1970) = y by ring, show quotients (1970 - (0 : ℕ)) = 0 by decide]
    ring
  · rw [Int.toNat_of_nonneg (show 0 ≤ 1970 - y by omega), show (y - 1970).toNat = 0 by omega]
    rw [show (1970 : ℤ) - (1970 - y) = y by ring, show quotients (1970 + (0 : ℕ)) = 0 by decide]
    ring

lemma daysBefore_succ (y : ℤ) : daysBefore (y + 1) = daysBefore y + yearLength y := by
  rw [daysBefore_eq, daysBefore_eq, quotients_succ]

/-- The day number `d` lies in the year. -/
def InYear (y d : ℤ) : Prop := daysBefore y ≤ d ∧ d < daysBefore (y + 1)

lemma daysBefore_mono {y y' : ℤ} (h : y ≤ y') : daysBefore y ≤ daysBefore y' := by
  obtain ⟨n, rfl⟩ := Int.le.dest h
  clear h
  induction n with
  | zero => simp
  | succ n ih =>
    refine ih.trans ?_
    rw [show y + ((n + 1 : ℕ) : ℤ) = y + n + 1 by push_cast; ring, daysBefore_succ, yearLength_eq]
    split_ifs <;> omega

/-- A day lies in one year. -/
lemma InYear.unique {y y' d : ℤ} (h : InYear y d) (h' : InYear y' d) : y = y' := by
  obtain ⟨h1, h2⟩ := h
  obtain ⟨h1', h2'⟩ := h'
  rcases lt_trichotomy y y' with hlt | heq | hgt
  · have := daysBefore_mono (show y + 1 ≤ y' from hlt)
    omega
  · exact heq
  · have := daysBefore_mono (show y' + 1 ≤ y from hgt)
    omega

end LunariaOS.Lib
