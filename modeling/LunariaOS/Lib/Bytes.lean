import LunariaOS.Lib.Mem

/-!
Runs of bytes of a memory, as lists.
-/

namespace LunariaOS.Lib

/-- The `n` bytes of the memory from `a` on. -/
def bytes (buf : Mem) (a n : ℕ) : List UInt8 := (List.range n).map fun i => buf (a + i)

section Bytes

variable {buf buf' : Mem} {a b n k : ℕ}

@[simp] lemma bytes_length (buf : Mem) (a n : ℕ) : (bytes buf a n).length = n := by simp [bytes]

@[simp] lemma bytes_zero (buf : Mem) (a : ℕ) : bytes buf a 0 = [] := rfl

lemma bytes_add (buf : Mem) (a n k : ℕ) : bytes buf a (n + k) = bytes buf a n ++ bytes buf (a + n) k := by
  unfold bytes
  rw [List.range_add, List.map_append, List.map_map]
  simp [Function.comp_def, add_assoc]

lemma bytes_succ (buf : Mem) (a n : ℕ) : bytes buf a (n + 1) = bytes buf a n ++ [buf (a + n)] := by
  rw [bytes_add]
  rfl

lemma bytes_cons (buf : Mem) (a n : ℕ) : bytes buf a (n + 1) = buf a :: bytes buf (a + 1) n := by
  rw [add_comm, bytes_add]
  rfl

lemma bytes_congr (h : ∀ i < n, buf' (b + i) = buf (a + i)) : bytes buf' b n = bytes buf a n :=
  List.map_congr_left fun i hi => h i (List.mem_range.mp hi)

lemma bytes_take (buf : Mem) (a : ℕ) (h : k ≤ n) : (bytes buf a n).take k = bytes buf a k := by
  obtain ⟨j, rfl⟩ := Nat.exists_eq_add_of_le h
  rw [bytes_add, List.take_left' (bytes_length _ _ _)]

lemma bytes_drop (buf : Mem) (a : ℕ) (h : k ≤ n) :
    (bytes buf a n).drop k = bytes buf (a + k) (n - k) := by
  obtain ⟨j, rfl⟩ := Nat.exists_eq_add_of_le h
  rw [bytes_add, List.drop_left' (bytes_length _ _ _), Nat.add_sub_cancel_left]

lemma bytes_dropLast (buf : Mem) (a n : ℕ) : (bytes buf a n).dropLast = bytes buf a (n - 1) := by
  cases n with
  | zero => rfl
  | succ n => rw [bytes_succ, List.dropLast_concat, Nat.add_sub_cancel]

lemma mem_bytes {c : UInt8} : c ∈ bytes buf a n ↔ ∃ i < n, buf (a + i) = c := by
  simp [bytes]

end Bytes

end LunariaOS.Lib
