import Mathlib.Data.List.TakeWhile
import LunariaOS.Lib.Mem

/-!
C strings and the functions of `string.h` that the kernel uses on paths and names.

An argument of type `const char *` that the code reads as a string is a `CStr`: the bytes before
the terminating NUL, none of which is NUL. A string that sits in a buffer is the list of the bytes
from its first one on; `cstr` cuts it at its first NUL.
-/

namespace LunariaOS

/-- A C string: its bytes up to, and without, the terminating NUL. -/
structure CStr where
  bytes : List UInt8
  noNul : 0 ∉ bytes
  deriving DecidableEq

namespace CStr

@[ext] lemma ext {a b : CStr} (h : a.bytes = b.bytes) : a = b := by
  cases a; cases b; simpa using h

/-- The number `strlen` returns. -/
def length (s : CStr) : ℕ := s.bytes.length

lemma ne_zero (s : CStr) {b : UInt8} (h : b ∈ s.bytes) : b ≠ 0 := fun e => s.noNul (e ▸ h)

/-- The first `n` bytes of a string. -/
def take (s : CStr) (n : ℕ) : CStr := ⟨s.bytes.take n, fun h => s.noNul (List.mem_of_mem_take h)⟩

/-- The empty string. -/
def empty : CStr := ⟨[], by simp⟩

lemma length_take (s : CStr) (n : ℕ) : (s.take n).length = min n s.length := by
  simp [take, length]

end CStr

/-- The string that starts a list of bytes: what stands before the first NUL. -/
def cstr (l : List UInt8) : List UInt8 := l.takeWhile (· ≠ 0)

lemma cstr_append_zero {l : List UInt8} (h : 0 ∉ l) (r : List UInt8) : cstr (l ++ 0 :: r) = l := by
  unfold cstr
  rw [List.takeWhile_append_of_pos (fun b hb => by
    have : b ≠ 0 := fun e => h (e ▸ hb)
    simpa using this)]
  simp

/-- A string that ends inside a prefix is the string of that prefix. -/
lemma cstr_append_of_mem {l : List UInt8} (h : 0 ∈ l) (r : List UInt8) :
    cstr (l ++ r) = cstr l := by
  induction l with
  | nil => simp at h
  | cons b l ih =>
    by_cases hb : b = 0
    · subst hb
      simp [cstr]
    · have h' : (0 : UInt8) ∈ l := by simpa [Ne.symm hb] using h
      simpa [cstr, hb] using ih h'

lemma zero_notMem_cstr (l : List UInt8) : 0 ∉ cstr l := by
  intro h
  simpa using List.mem_takeWhile_imp h

/-! ### `strcmp` -/

/-- A byte read as a `char`, which is signed. -/
def schar (b : UInt8) : ℤ := if b.toNat < 128 then b.toNat else (b.toNat : ℤ) - 256

lemma schar_inj {a b : UInt8} (h : schar a = schar b) : a = b := by
  have ha := a.toNat_lt
  have hb := b.toNat_lt
  apply UInt8.toNat_inj.mp
  unfold schar at h
  split_ifs at h <;> omega

/-- `strcmp`: skip the common prefix, then subtract the first bytes that differ. The end of a list
stands for a NUL. -/
def strcmp : List UInt8 → List UInt8 → ℤ
  | [], [] => 0
  | [], b :: _ => schar 0 - schar b
  | a :: _, [] => schar a - schar 0
  | a :: as, b :: bs => if a ≠ 0 ∧ a = b then strcmp as bs else schar a - schar b

/-- `strcmp` finds two strings equal exactly when they are. -/
lemma strcmp_eq_zero_iff : ∀ l r : List UInt8, strcmp l r = 0 ↔ cstr l = cstr r
  | [], [] => by simp [strcmp]
  | [], b :: r => by
    have key : schar 0 - schar b = 0 ↔ b = 0 := by
      rw [sub_eq_zero]
      exact ⟨fun h => (schar_inj h).symm, fun h => by rw [h]⟩
    simp only [strcmp, key, cstr]
    by_cases hb : b = 0 <;> simp [hb]
  | a :: l, [] => by
    have key : schar a - schar 0 = 0 ↔ a = 0 := by
      rw [sub_eq_zero]
      exact ⟨fun h => schar_inj h, fun h => by rw [h]⟩
    simp only [strcmp, key, cstr]
    by_cases ha : a = 0 <;> simp [ha]
  | a :: l, b :: r => by
    by_cases hab : a = b
    · subst hab
      by_cases ha : a = 0
      · simp [strcmp, ha, cstr]
      · have ih := strcmp_eq_zero_iff l r
        simp only [strcmp, cstr] at ih ⊢
        simp [ha, ih]
    · have h1 : ¬ (schar a - schar b = 0) := fun h => hab (schar_inj (sub_eq_zero.mp h))
      have h2 : cstr (a :: l) ≠ cstr (b :: r) := by
        unfold cstr
        by_cases ha : a = 0 <;> by_cases hb : b = 0 <;> simp_all
      simp [strcmp, hab, h1, h2]

lemma cstr_bytes (s : CStr) : cstr s.bytes = s.bytes := by
  unfold cstr
  rw [List.takeWhile_eq_self_iff]
  intro b hb
  simpa using s.ne_zero hb

/-! ### Paths -/

/-- The code of `'/'`. -/
def slash : UInt8 := 47

/-- `has_slash`. -/
def hasSlash (s : CStr) : Bool := s.bytes.any (· == slash)

/-- The loop of `parent_of`: the offset of the last slash among the bytes that follow offset `i`. -/
def lastSlash (i : ℕ) (found : Option ℕ) : List UInt8 → Option ℕ
  | [] => found
  | b :: l => lastSlash (i + 1) (if b = slash then some i else found) l

/-- `parent_of`: the path up to its last slash, or the empty string when it has none. -/
def parentOf (path : CStr) : CStr :=
  match lastSlash 0 none path.bytes with
  | none => CStr.empty
  | some n => path.take n

lemma lastSlash_bound (l : List UInt8) (i : ℕ) (found : Option ℕ) (n : ℕ)
    (h : lastSlash i found l = some n) : found = some n ∨ (i ≤ n ∧ n < i + l.length) := by
  induction l generalizing i found with
  | nil => exact Or.inl h
  | cons b l ih =>
    rcases ih (i + 1) _ h with h' | h'
    · split_ifs at h' with hb
      · right
        simp only [Option.some.injEq] at h'
        simp [← h']
      · exact Or.inl h'
    · right
      simp only [List.length_cons]
      omega

/-- A path is longer than its parent, unless it is empty. -/
lemma parentOf_length (path : CStr) (h : parentOf path ≠ CStr.empty) :
    (parentOf path).length < path.length := by
  unfold parentOf at h ⊢
  split at h
  · exact absurd rfl h
  · rename_i n hn
    rw [CStr.length_take]
    rcases lastSlash_bound _ _ _ _ hn with h' | h'
    · simp at h'
    · unfold CStr.length
      omega

/-- The parent entry that `fs_write` looks up and updates: the path before the last slash, when
there is a slash and something stands before it. -/
def parentDir (name : CStr) : Option CStr :=
  if hasSlash name then
    if (parentOf name).bytes = [] then none else some (parentOf name)
  else none

lemma parentDir_length {name p : CStr} (h : parentDir name = some p) : p.length < name.length := by
  unfold parentDir at h
  split_ifs at h with h1 h2
  obtain rfl := Option.some.inj h
  exact parentOf_length name fun e => h2 (by rw [e]; rfl)

lemma parentDir_ne_nil {name p : CStr} (h : parentDir name = some p) : p.bytes ≠ [] := by
  unfold parentDir at h
  split_ifs at h with h1 h2
  obtain rfl := Option.some.inj h
  exact h2

/-- `a` is a proper ancestor of the path `name`: its parent, or the parent of an ancestor. -/
inductive Ancestor : CStr → CStr → Prop
  | parent {name p : CStr} : parentDir name = some p → Ancestor p name
  | up {name p a : CStr} : parentDir name = some p → Ancestor a p → Ancestor a name

lemma Ancestor.length_lt {a name : CStr} (h : Ancestor a name) : a.length < name.length := by
  induction h with
  | parent hp => exact parentDir_length hp
  | up hp _ ih => exact ih.trans (parentDir_length hp)

lemma Ancestor.ne {a name : CStr} (h : Ancestor a name) : a ≠ name := by
  rintro rfl
  exact absurd h.length_lt (lt_irrefl _)

lemma ancestor_iff (a name : CStr) :
    Ancestor a name ↔ ∃ p, parentDir name = some p ∧ (a = p ∨ Ancestor a p) := by
  constructor
  · intro h
    cases h with
    | parent hp => exact ⟨a, hp, Or.inl rfl⟩
    | up hp ha => exact ⟨_, hp, Or.inr ha⟩
  · rintro ⟨p, hp, rfl | ha⟩
    · exact .parent hp
    · exact .up hp ha

instance Ancestor.decidable (a name : CStr) : Decidable (Ancestor a name) :=
  match h : parentDir name with
  | none => isFalse fun ha => by
    obtain ⟨p, hp, -⟩ := (ancestor_iff a name).mp ha
    rw [h] at hp
    cases hp
  | some p =>
    have := Ancestor.decidable a p
    decidable_of_iff (a = p ∨ Ancestor a p) (by rw [ancestor_iff a name, h]; simp)
termination_by name.length
decreasing_by exact parentDir_length h

/-! ### Runs of bytes -/

open Lib

/-- `memset`: the `n` bytes from `d` on become `v`. -/
def memset (m : Mem) (d : ℕ) (v : UInt8) (n : ℕ) : Mem := m.blit d n fun _ => v

/-- `memcpy`: one byte after the other, each read from the memory as the earlier ones left it. -/
def memcpy (m : Mem) (d s : ℕ) : ℕ → Mem
  | 0 => m
  | n + 1 => Function.update (memcpy m d s n) (d + n) (memcpy m d s n (s + n))

lemma memset_in (m : Mem) (d : ℕ) (v : UInt8) {c i : ℕ} (hi : i < c) :
    memset m d v c (d + i) = v := m.blit_of_in _ (by omega) (by omega)

/-- A copy between regions that do not overlap. -/
lemma memcpy_eq (m : Mem) {d s c : ℕ} (hd : d + c ≤ s ∨ s + c ≤ d) :
    memcpy m d s c = m.blit d c fun i => m (s + i) := by
  induction c with
  | zero => exact (m.blit_zero d _).symm
  | succ c ih =>
    have ih := ih (by omega)
    funext x
    rw [memcpy, ih]
    by_cases hx : x = d + c
    · subst hx
      rw [Function.update_self, Mem.blit_of_out _ _ (by omega),
        Mem.blit_of_in _ _ (by omega) (by omega), Nat.add_sub_cancel_left]
    · rw [Function.update_of_ne hx]
      by_cases hin : d ≤ x ∧ x < d + c
      · rw [Mem.blit_of_in _ _ hin.1 hin.2, Mem.blit_of_in _ _ hin.1 (by omega)]
      · rw [Mem.blit_of_out _ _ (by omega), Mem.blit_of_out _ _ (by omega)]

end LunariaOS
