import LunariaOS.Lib.Run

/-!
The programmable interval timer and `pit_sleep`.

`ticks` is a 32-bit counter that only the interrupt handler moves. A sleeping caller reads it once to
find its target and then compares the two each time an interrupt has woken the processor.
-/

namespace LunariaOS.Pit

open LunariaOS.Lib

/-- The tick at which `pit_sleep(ms)` stops waiting, when it is called at `ticks`. -/
def target (hz ticks ms : UInt32) : UInt32 :=
  let add := (hz / 1000) * ms
  let rem := (hz % 1000) * ms
  ticks + add + rem / 1000

/-- The machine while a caller is in `pit_sleep`. `since` counts the ticks since the call, and
`returned` is that number at the return. -/
structure State where
  ticks : UInt32
  since : ℕ
  halted : Bool
  returned : Option ℕ
  deriving DecidableEq

/-- What can happen: the timer's interrupt, an interrupt of another device, and the caller's next
look at the loop's condition, if the processor is not halted. -/
inductive Event
  | tick
  | interrupt
  | look
  deriving DecidableEq

/-- `pit_handler` on a tick; the condition of the loop and `hlt` on a look. -/
def step (target : UInt32) (s : State) : Event → State
  | .tick => { s with ticks := s.ticks + 1, since := s.since + 1, halted := false }
  | .interrupt => { s with halted := false }
  | .look =>
    if s.halted ∨ s.returned ≠ none then s
    else if s.ticks < target then { s with halted := true }
    else { s with returned := some s.since }

/-- The call: the loop is about to look at its condition for the first time. -/
def call (ticks : UInt32) : State := ⟨ticks, 0, false, none⟩

/-- `pit_sleep(ms)`, called at `ticks`, and what happens from then on. -/
def pitSleep (hz ticks ms : UInt32) (l : List Event) : State :=
  run (step (target hz ticks ms)) (call ticks) l

/-- The ticks that `ms` milliseconds last, rounded down, in the natural numbers. -/
def lasts (hz ms : UInt32) : ℕ := ms.toNat * hz.toNat / 1000

/-- **Never early.** Whatever happens after the call, the caller has not returned before that many
ticks. -/
def NeverEarly (hz ticks ms : UInt32) : Prop :=
  ∀ l k, (pitSleep hz ticks ms l).returned = some k → lasts hz ms ≤ k

variable {hz ticks ms : UInt32}

/-! ### The clock -/

/-- The counter `k` ticks after it stood at `ticks`. -/
def clock (ticks : UInt32) (k : ℕ) : UInt32 := ticks + UInt32.ofNat k

lemma clock_toNat (ticks : UInt32) (k : ℕ) :
    (clock ticks k).toNat = (ticks.toNat + k) % 4294967296 := by
  simp [clock]

lemma clock_succ (ticks : UInt32) (k : ℕ) : clock ticks k + 1 = clock ticks (k + 1) := by
  apply UInt32.toNat.inj
  rw [UInt32.toNat_add, clock_toNat, clock_toNat, UInt32.toNat_one]
  omega

/-- The state at any time: the counter shows the ticks since the call, and a caller that has returned
found the target reached. -/
structure Waited (target ticks : UInt32) (s : State) : Prop where
  shows : s.ticks = clock ticks s.since
  reached : ∀ k, s.returned = some k → target ≤ clock ticks k

lemma step_waited {t : UInt32} (s : State) (e : Event) (h : Waited t ticks s) :
    Waited t ticks (step t s e) := by
  cases e with
  | tick => exact ⟨(congrArg (· + 1) h.shows).trans (clock_succ _ _), h.reached⟩
  | interrupt => exact ⟨h.shows, h.reached⟩
  | look =>
    simp only [step]
    split_ifs with _ hlt
    · exact h
    · exact ⟨h.shows, h.reached⟩
    · refine ⟨h.shows, fun k hk => ?_⟩
      obtain rfl := Option.some.inj hk
      rw [← h.shows]
      exact UInt32.not_lt.mp hlt

lemma pitSleep_waited (hz ticks ms : UInt32) (l : List Event) :
    Waited (target hz ticks ms) ticks (pitSleep hz ticks ms l) :=
  run_inv_all step_waited l ⟨by simp [call, clock], by simp [call]⟩

/-- A caller that is woken by every tick and looks each time, as long as the target lies ahead. -/
lemma run_looks {t : UInt32} (k : ℕ) (h : ∀ j < k, clock ticks j < t) :
    run (step t) (call ticks) (List.replicate k [.look, .tick]).flatten =
      ⟨clock ticks k, k, false, none⟩ := by
  induction k with
  | zero => simp [call, clock]
  | succ k ih =>
    rw [List.replicate_succ', List.flatten_append, run_append, ih fun j hj => h j (by omega)]
    simp [step, h k (by omega), clock_succ]

/-- The caller can return after `k` ticks exactly when the target has been reached by then. -/
lemma neverEarly_iff :
    NeverEarly hz ticks ms ↔ ∀ k < lasts hz ms, clock ticks k < target hz ticks ms := by
  constructor
  · intro h k hk
    by_contra hge
    -- the first tick that reaches the target is the one at which the caller returns
    have hex : ∃ k, ¬ clock ticks k < target hz ticks ms := ⟨k, hge⟩
    have hfirst : Nat.find hex ≤ k := Nat.find_min' hex hge
    have hrun := run_looks (Nat.find hex) fun j hj => not_not.mp (Nat.find_min hex hj)
    have := h ((List.replicate (Nat.find hex) [.look, .tick]).flatten ++ [.look]) (Nat.find hex) (by
      rw [pitSleep, run_append, hrun, run_cons, run_nil, step, if_neg (by simp),
        if_neg (Nat.find_spec hex)])
    omega
  · intro h l k hk
    by_contra hlt
    have := (pitSleep_waited hz ticks ms l).reached k hk
    exact absurd (h k (by omega)) (UInt32.not_lt.mpr this)

/-! ### The target -/

/-- The two partial products do not lose anything: the seconds and the rest of the rate together last
as long as the rate. -/
lemma lasts_eq (hz ms : UInt32) :
    lasts hz ms = hz.toNat / 1000 * ms.toNat + hz.toNat % 1000 * ms.toNat / 1000 := by
  unfold lasts
  have h : ms.toNat * hz.toNat =
      hz.toNat % 1000 * ms.toNat + 1000 * (hz.toNat / 1000 * ms.toNat) := by
    conv_lhs => rw [← Nat.mod_add_div hz.toNat 1000]
    ring
  rw [h, Nat.add_mul_div_left _ _ (by omega), add_comm]

lemma target_toNat (hz ticks ms : UInt32) :
    (target hz ticks ms).toNat =
      (ticks.toNat + hz.toNat / 1000 * ms.toNat + hz.toNat % 1000 * ms.toNat % 4294967296 / 1000)
        % 4294967296 := by
  simp only [target, UInt32.toNat_add, UInt32.toNat_mul, UInt32.toNat_div, UInt32.toNat_mod,
    UInt32.reduceToNat]
  omega

/-- The wait is long enough unless the counter wraps before the target or the second product did. -/
theorem neverEarly_iff_fits (hz ticks ms : UInt32) :
    NeverEarly hz ticks ms ↔ lasts hz ms = 0 ∨
      (ticks.toNat + lasts hz ms < 4294967296 ∧ hz.toNat % 1000 * ms.toNat < 4294967296) := by
  have htarget := target_toNat hz ticks ms
  have hticks := ticks.toNat_lt
  simp only [neverEarly_iff, UInt32.lt_iff_toNat_lt, clock_toNat, htarget, lasts_eq]
  generalize hz.toNat / 1000 * ms.toNat = a
  generalize hz.toNat % 1000 * ms.toNat = r
  constructor
  · intro h
    by_cases hN : a + r / 1000 = 0
    · exact Or.inl hN
    · right
      have hlast := h (a + r / 1000 - 1) (by omega)
      by_cases hwrap : 4294967296 ≤ ticks.toNat + (a + r / 1000 - 1)
      · -- the tick before the wrap shows the largest number there is
        have := h (4294967295 - ticks.toNat) (by omega)
        omega
      · have hbelow := Nat.mod_lt (ticks.toNat + a + r % 4294967296 / 1000)
          (show 0 < 4294967296 by norm_num)
        rw [Nat.mod_eq_of_lt (Nat.lt_of_not_le hwrap)] at hlast
        have hfits : ticks.toNat + (a + r / 1000) < 4294967296 := by omega
        refine ⟨hfits, ?_⟩
        by_contra hr
        have hlost : r % 4294967296 / 1000 < r / 1000 := by omega
        rw [Nat.mod_eq_of_lt (show ticks.toNat + a + r % 4294967296 / 1000 < 4294967296 by omega)]
          at hlast
        omega
  · rintro (hN | ⟨hN, hr⟩) k hk <;> omega

/-- One tick before the wrap, a wait of one tick returns at once. -/
theorem sleep_at_wrap : ¬ NeverEarly 100 4294967295 10 := by
  intro h
  have := h [.look] 0 (by decide)
  exact absurd this (by decide)

end LunariaOS.Pit
