import LunariaOS.Str

/-!
`memmove`, for regions that overlap in any way.

The regions do not wrap around the end of the address space, so that an address in them is a natural
number and the pointers compare as these do.
-/

namespace LunariaOS.Libc

open LunariaOS.Lib

/-- The loop of `memmove` that starts at the end: `for (i = n; i > 0; i--) d[i - 1] = s[i - 1]`. -/
def copyDown (m : Mem) (d s : ℕ) : ℕ → Mem
  | 0 => m
  | i + 1 => copyDown (Function.update m (d + i) (m (s + i))) d s i

/-- `memmove`: the memory and the pointer it returns. Its other loop is the one of `memcpy`. -/
def memmove (m : Mem) (d s n : ℕ) : Mem × ℕ :=
  if d = s ∨ n = 0 then (m, d)
  else if d < s then (memcpy m d s n, d)
  else (copyDown m d s n, d)

variable {m : Mem} {d s : ℕ}

/-- Upwards into a lower region: what has been written lies below what is still to be read. -/
lemma memcpy_below (h : d ≤ s) (n : ℕ) : memcpy m d s n = m.blit d n fun i => m (s + i) := by
  induction n with
  | zero => exact (m.blit_zero d _).symm
  | succ n ih =>
    have hread : memcpy m d s n (s + n) = m (s + n) := by
      rw [ih]
      exact m.blit_of_out _ (by omega)
    funext x
    rw [memcpy, hread, ih]
    by_cases hx : x = d + n
    · subst hx
      rw [Function.update_self, Mem.blit_of_in _ _ (by omega) (by omega), Nat.add_sub_cancel_left]
    · rw [Function.update_of_ne hx]
      by_cases hin : d ≤ x ∧ x < d + n
      · rw [Mem.blit_of_in _ _ hin.1 hin.2, Mem.blit_of_in _ _ hin.1 (by omega)]
      · rw [Mem.blit_of_out _ _ (by omega), Mem.blit_of_out _ _ (by omega)]

/-- Downwards into a higher region: below the place that is written next, the memory is still the
one `m₀` that the loop started with. -/
lemma copyDown_above {m₀ : Mem} (h : s ≤ d) (n : ℕ) (hm : ∀ x < d + n, m x = m₀ x) :
    copyDown m d s n = m.blit d n fun i => m₀ (s + i) := by
  induction n generalizing m with
  | zero => exact (m.blit_zero d _).symm
  | succ n ih =>
    have hbelow : ∀ x < d + n, Function.update m (d + n) (m (s + n)) x = m₀ x := by
      intro x hx
      rw [Function.update_of_ne (by omega)]
      exact hm x (by omega)
    rw [copyDown, ih hbelow]
    funext x
    by_cases hin : d ≤ x ∧ x < d + n
    · rw [Mem.blit_of_in _ _ hin.1 hin.2, Mem.blit_of_in _ _ hin.1 (by omega)]
    · rw [Mem.blit_of_out _ _ (by omega)]
      by_cases hx : x = d + n
      · subst hx
        rw [Function.update_self, Mem.blit_of_in _ _ (by omega) (by omega), Nat.add_sub_cancel_left]
        exact hm _ (by omega)
      · rw [Function.update_of_ne hx, Mem.blit_of_out _ _ (by omega)]

/-- `memmove` writes the run of bytes that the source held when it was called. -/
lemma memmove_eq (m : Mem) (d s n : ℕ) :
    memmove m d s n = (m.blit d n fun i => m (s + i), d) := by
  unfold memmove
  by_cases h : d = s ∨ n = 0
  · rw [if_pos h]
    congr 1
    funext x
    by_cases hin : d ≤ x ∧ x < d + n
    · obtain rfl : d = s := h.resolve_right (by omega)
      rw [Mem.blit_of_in _ _ hin.1 hin.2]
      congr 1
      omega
    · rw [Mem.blit_of_out _ _ (by omega)]
  · rw [if_neg h]
    by_cases hlt : d < s
    · rw [if_pos hlt, memcpy_below hlt.le]
    · rw [if_neg hlt, copyDown_above (by omega) n fun _ _ => rfl]

/-- **A copy of overlapping regions.** The destination gets the bytes that the source held before
the call, and no other byte changes. -/
theorem memmove_copies (m : Mem) (d s n : ℕ) :
    (memmove m d s n).2 = d ∧ (∀ i < n, (memmove m d s n).1 (d + i) = m (s + i)) ∧
      ∀ x, x < d ∨ d + n ≤ x → (memmove m d s n).1 x = m x := by
  have hmem : (memmove m d s n).1 = m.blit d n fun i => m (s + i) :=
    congrArg Prod.fst (memmove_eq m d s n)
  refine ⟨congrArg Prod.snd (memmove_eq m d s n), fun i hi => ?_, fun x hx => ?_⟩
  · rw [hmem, Mem.blit_of_in _ _ (by omega) (by omega), Nat.add_sub_cancel_left]
  · rw [hmem, Mem.blit_of_out _ _ hx]

end LunariaOS.Libc
