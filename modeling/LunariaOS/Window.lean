import LunariaOS.Lib.Mem

/-!
The ring-3 window and the program break in it.
-/

namespace LunariaOS

open LunariaOS.Lib

def pageSize : ℕ := 4096
def userBase : ℕ := 0x400000
def userTop : ℕ := 0x800000
def userStack : ℕ := 0x7FF000

/-- `vm_note_load`: the break after an image of `size` bytes has been loaded. -/
def vmNoteLoad (size : ℕ) : ℕ :=
  let brk := u32 (userBase + u32 (size + pageSize - 1) / pageSize * pageSize)
  if brk < userBase then userBase else brk

/-- `vm_sbrk`: the break that it returns, which is also the one that it leaves. -/
def vmSbrk (brk inc : ℕ) : ℕ :=
  if inc = 0 then brk
  else if inc > u32 (userTop + 4294967296 - brk) then brk
  else if u32 (brk + inc) > userStack then brk
  else u32 (brk + inc)

/-- Where the loader puts the break. -/
lemma vmNoteLoad_bounds {size : ℕ} (hsize : size ≤ userStack - userBase) :
    userBase ≤ vmNoteLoad size ∧ vmNoteLoad size ≤ userStack ∧ 8 ∣ vmNoteLoad size := by
  unfold userStack userBase at hsize
  have h1 : u32 (size + pageSize - 1) = size + pageSize - 1 :=
    u32_of_lt (by unfold pageSize; omega)
  have h2 : u32 (userBase + (size + pageSize - 1) / pageSize * pageSize)
      = userBase + (size + pageSize - 1) / pageSize * pageSize :=
    u32_of_lt (by unfold userBase pageSize; omega)
  unfold vmNoteLoad
  simp only [h1, h2]
  rw [if_neg (by omega)]
  unfold userBase userStack pageSize
  omega

/-- The break grows by what is asked for, or not at all. -/
lemma vmSbrk_eq {brk inc : ℕ} (hb : brk ≤ userStack) (hinc : inc < 4294967296) :
    vmSbrk brk inc = if brk + inc ≤ userStack then brk + inc else brk := by
  have hroom : u32 (userTop + 4294967296 - brk) = userTop - brk := by
    unfold u32 userTop
    unfold userStack at hb
    omega
  unfold vmSbrk
  rw [hroom]
  by_cases h0 : inc = 0
  · subst h0
    rw [if_pos rfl, Nat.add_zero, if_pos hb]
  · rw [if_neg h0]
    by_cases h1 : inc > userTop - brk
    · rw [if_pos h1, if_neg (by unfold userTop at h1; unfold userStack at *; omega)]
    · have hu : u32 (brk + inc) = brk + inc := by
        apply u32_of_lt
        unfold userStack at hb
        unfold userTop at h1
        omega
      rw [if_neg h1, hu]
      split_ifs <;> omega

end LunariaOS
