import LunariaOS.Lib.Insertion
import LunariaOS.Lib.Mem

/-!
`qsort`.

An insertion sort on the bytes of an array. The blocks of the array are the elements of
`Lib.Insertion`; exchanging the bytes of two neighbouring blocks one after the other exchanges the
blocks. Every address that the code reads or writes is recorded.
-/

namespace LunariaOS.Libc.Sort

open LunariaOS.Lib

/-! ### The code -/

/-- The memory, and the addresses that were used. -/
structure State where
  mem : Mem
  used : List ℕ

/-- The bytes of the element at an address. -/
def block {size : ℕ} (m : Mem) (x : ℕ) : Fin size → UInt8 := fun k => m (u32 (x + k))

/-- `a + j * size`. -/
def elem (a size j : ℕ) : ℕ := u32 (a + u32 (j * size))

/-- `char t = x[k]; x[k] = y[k]; y[k] = t;`. -/
def swapByte (x y : ℕ) (s : State) (k : ℕ) : State :=
  let t := s.mem (u32 (x + k))
  let m := Function.update s.mem (u32 (x + k)) (s.mem (u32 (y + k)))
  ⟨Function.update m (u32 (y + k)) t, s.used ++ [u32 (x + k), u32 (y + k)]⟩

/-- The loop over `k`. -/
def swapBytes (x y size : ℕ) (s : State) : State := (List.range size).foldl (swapByte x y) s

section Qsort

variable {size : ℕ} (cmp : (Fin size → UInt8) → (Fin size → UInt8) → ℤ) (a : ℕ)

/-- The addresses that `cmp(x, y)` reads. -/
def reads (size x y : ℕ) : List ℕ :=
  ((List.range size).map fun k => u32 (x + k)) ++ (List.range size).map fun k => u32 (y + k)

/-- The loop over `j`. -/
def inner : ℕ → State → State
  | 0, s => s
  | j + 1, s =>
    let x := elem a size (j + 1)
    let y := elem a size j
    let s := { s with used := s.used ++ reads size x y }
    if cmp (block s.mem x) (block s.mem y) ≥ 0 then s else inner j (swapBytes x y size s)

/-- The loop over `i`, for `k` turns from `i` on. -/
def outer : ℕ → ℕ → State → State
  | 0, _, s => s
  | k + 1, i, s => outer k (i + 1) (inner cmp a i s)

/-- `qsort`: the loop ends when `i` is `n`, which is below `2 ^ 32`. -/
def qsort (n : ℕ) (s : State) : State := outer cmp a (n - 1) 1 s

/-! ### Blocks -/

variable {a} {n j k x y z : ℕ} {m m₀ : Mem} {s : State}

/-- The array lies in memory. -/
structure InMemory (a n size : ℕ) : Prop where
  base : a < 4294967296
  fits : a + n * size ≤ 4294967296

/-- The elements of the array. -/
def elems (size a : ℕ) (m : Mem) (i : ℕ) : Fin size → UInt8 := fun k => m (a + i * size + k)

lemma elem_end (hj : j < n) : j * size + size ≤ n * size := by
  have hle : (j + 1) * size ≤ n * size := Nat.mul_le_mul_right size hj
  rwa [Nat.add_mul, Nat.one_mul] at hle

/-- No address wraps. -/
lemma InMemory.byte (h : InMemory a n size) (hj : j < n) (hk : k < size) :
    u32 (elem a size j + k) = a + j * size + k := by
  have hend : j * size + size ≤ n * size := elem_end hj
  have hfits := h.fits
  unfold elem
  rw [u32_of_lt (n := j * size) (by omega), u32_of_lt (n := a + j * size) (by omega),
    u32_of_lt (by omega)]

lemma InMemory.block (h : InMemory a n size) (hj : j < n) (m : Mem) :
    Sort.block m (elem a size j) = elems size a m j := by
  funext k
  unfold Sort.block elems
  rw [h.byte hj k.isLt]

/-- What the code did to the memory: no byte outside the array was used. -/
structure Within (a n size : ℕ) (m₀ : Mem) (s : State) : Prop where
  outside : ∀ z, z < a ∨ a + n * size ≤ z → s.mem z = m₀ z
  used : ∀ z ∈ s.used, a ≤ z ∧ z < a + n * size

lemma Within.reads (h : InMemory a n size) (hw : Within a n size m₀ s) (hj : j + 1 < n) :
    Within a n size m₀
      { s with used := s.used ++ Sort.reads size (elem a size (j + 1)) (elem a size j) } := by
  have hend : (j + 1) * size + size ≤ n * size := elem_end hj
  have hend' : j * size + size ≤ n * size := elem_end (Nat.lt_of_succ_lt hj)
  refine ⟨hw.outside, fun z hz => ?_⟩
  rcases List.mem_append.mp hz with hz | hz
  · exact hw.used z hz
  rcases List.mem_append.mp hz with hz | hz
  · obtain ⟨k, hk, rfl⟩ := List.mem_map.mp hz
    have hlt := List.mem_range.mp hk
    rw [h.byte hj hlt]
    omega
  · obtain ⟨k, hk, rfl⟩ := List.mem_map.mp hz
    have hlt := List.mem_range.mp hk
    rw [h.byte (Nat.lt_of_succ_lt hj) hlt]
    omega

/-! ### The exchange of two neighbours -/

/-- The memory after the first `k` bytes of the elements `j` and `j + 1` are exchanged. -/
lemma InMemory.swapped (h : InMemory a n size) (hj : j + 1 < n) (hk : k ≤ size) (z : ℕ) :
    ((List.range k).foldl (swapByte (elem a size (j + 1)) (elem a size j)) s).mem z =
      if a + j * size ≤ z ∧ z < a + j * size + k then s.mem (z + size)
      else if a + j * size + size ≤ z ∧ z < a + j * size + size + k then s.mem (z - size)
      else s.mem z := by
  induction k generalizing z with
  | zero => rw [if_neg (by omega), if_neg (by omega)]; rfl
  | succ k ih =>
    have hx := h.byte hj (show k < size by omega)
    have hy := h.byte (Nat.lt_of_succ_lt hj) (show k < size by omega)
    rw [Nat.add_mul, Nat.one_mul] at hx
    rw [List.range_succ, List.foldl_append]
    show Function.update (Function.update _ _ _) _ _ z = _
    rw [hx, hy, Function.update_apply, Function.update_apply, ih (by omega), ih (by omega),
      ih (by omega)]
    grind

lemma Within.swapped (h : InMemory a n size) (hw : Within a n size m₀ s) (hj : j + 1 < n) :
    Within a n size m₀ (swapBytes (elem a size (j + 1)) (elem a size j) size s) := by
  have hend : (j + 1) * size + size ≤ n * size := elem_end hj
  rw [Nat.add_mul, Nat.one_mul] at hend
  refine ⟨fun z hz => ?_, ?_⟩
  · unfold swapBytes
    rw [h.swapped hj le_rfl, if_neg (by omega), if_neg (by omega)]
    exact hw.outside z hz
  · -- every turn uses a byte of each of the two elements
    have hturns : ∀ k ≤ size, ∀ z ∈ ((List.range k).foldl
        (swapByte (elem a size (j + 1)) (elem a size j)) s).used, a ≤ z ∧ z < a + n * size := by
      intro k hk
      induction k with
      | zero => exact hw.used
      | succ k ih =>
        have hx := h.byte hj (show k < size by omega)
        have hy := h.byte (Nat.lt_of_succ_lt hj) (show k < size by omega)
        rw [Nat.add_mul, Nat.one_mul] at hx
        rw [List.range_succ, List.foldl_append]
        intro z hz
        rcases List.mem_append.mp hz with hz | hz
        · exact ih (by omega) z hz
        rcases List.mem_pair.mp hz with rfl | rfl
        · rw [hx]
          omega
        · rw [hy]
          omega
    exact hturns size le_rfl

/-- **The bytes exchanged are the elements exchanged.** -/
lemma elems_swapped (h : InMemory a n size) (hj : j + 1 < n) :
    elems size a (swapBytes (elem a size (j + 1)) (elem a size j) size s).mem =
      exchange (elems size a s.mem) j := by
  funext i k
  have hk := k.isLt
  unfold exchange elems swapBytes
  rw [h.swapped hj le_rfl]
  rcases lt_trichotomy i j with hi | rfl | hi
  · have hle : (i + 1) * size ≤ j * size := Nat.mul_le_mul_right size hi
    rw [Nat.add_mul, Nat.one_mul] at hle
    rw [if_neg (by omega), if_neg (by omega), swap_of_ne (by omega) (by omega)]
  · rw [if_pos (by omega), Equiv.swap_apply_left, Nat.add_mul, Nat.one_mul]
    congr 1
    omega
  · by_cases hi' : i = j + 1
    · subst hi'
      rw [Equiv.swap_apply_right, Nat.add_mul, Nat.one_mul, if_neg (by omega), if_pos (by omega)]
      congr 1
      omega
    · have hle : (j + 1 + 1) * size ≤ i * size := Nat.mul_le_mul_right size (by omega)
      rw [Nat.add_mul, Nat.add_mul, Nat.one_mul] at hle
      rw [if_neg (by omega), if_neg (by omega), swap_of_ne (by omega) hi']

/-! ### The loops -/

lemma inner_sinks (h : InMemory a n size) (hw : Within a n size m₀ s) (hj : j < n) :
    elems size a (inner cmp a j s).mem = sink cmp j (elems size a s.mem) ∧
      Within a n size m₀ (inner cmp a j s) := by
  induction j generalizing s with
  | zero => exact ⟨rfl, hw⟩
  | succ j ih =>
    have hreads := hw.reads h hj
    unfold inner sink
    dsimp only
    rw [h.block hj, h.block (Nat.lt_of_succ_lt hj)]
    by_cases hge : cmp (elems size a s.mem (j + 1)) (elems size a s.mem j) ≥ 0
    · rw [if_pos hge, if_pos hge]
      exact ⟨rfl, hreads⟩
    · rw [if_neg hge, if_neg hge]
      obtain ⟨helems, hin⟩ := ih (hreads.swapped h hj) (Nat.lt_of_succ_lt hj)
      refine ⟨?_, hin⟩
      rw [helems, elems_swapped h hj]

lemma outer_sinks (h : InMemory a n size) (hw : Within a n size m₀ s) (hk : j + k ≤ n) :
    elems size a (outer cmp a k j s).mem = sinkAll cmp k j (elems size a s.mem) ∧
      Within a n size m₀ (outer cmp a k j s) := by
  induction k generalizing s j with
  | zero => exact ⟨rfl, hw⟩
  | succ k ih =>
    obtain ⟨helems, hin⟩ := inner_sinks cmp h hw (show j < n by omega)
    obtain ⟨helems', hin'⟩ := ih hin (show j + 1 + k ≤ n by omega)
    refine ⟨?_, hin'⟩
    unfold outer sinkAll
    rw [helems', helems]

end Qsort

/-- **`qsort` sorts**: the elements are those from before in another order, in which each compares at
most equal to the later ones and equal ones are as they were, and no byte outside the array is used. -/
theorem qsort_sorts {size a n : ℕ} {cmp : (Fin size → UInt8) → (Fin size → UInt8) → ℤ}
    (hc : Preordered cmp) (h : InMemory a n size) (m : Mem) :
    let s := qsort cmp a n ⟨m, []⟩
    (∃ σ : Equiv.Perm ℕ, (∀ i, n ≤ i → σ i = i) ∧ (∀ i < n, elems size a s.mem i = elems size a m (σ i)) ∧
      ∀ p q, p < q → q < n → cmp (elems size a s.mem p) (elems size a s.mem q) ≤ 0 ∧
        (cmp (elems size a s.mem p) (elems size a s.mem q) = 0 → σ p < σ q)) ∧
      (∀ z, z < a ∨ a + n * size ≤ z → s.mem z = m z) ∧
      ∀ z ∈ s.used, a ≤ z ∧ z < a + n * size := by
  intro s
  have hw : Within a n size m ⟨m, []⟩ := ⟨fun _ _ => rfl, fun z hz => absurd hz List.not_mem_nil⟩
  rcases Nat.eq_zero_or_pos n with rfl | hn
  · exact ⟨⟨Equiv.refl ℕ, fun _ _ => rfl, fun i hi => absurd hi (Nat.not_lt_zero i),
      fun p q _ hq => absurd hq (Nat.not_lt_zero q)⟩, hw.outside, hw.used⟩
  obtain ⟨helems, hin⟩ := outer_sinks cmp h hw (show 1 + (n - 1) ≤ n by omega)
  obtain ⟨σ, hσ, hs⟩ := sinkAll_sorted hc (elems size a m) (n - 1)
  have hall : ∀ i, elems size a s.mem i = elems size a m (σ i) := fun i =>
    (congrFun helems i).trans (congrFun hσ i)
  refine ⟨⟨σ, fun i hi => hs.rest i (by omega), fun i _ => hall i, fun p q hpq hq => ?_⟩,
    hin.outside, hin.used⟩
  rw [hall, hall]
  exact hs.order p q hpq (by omega)

/-- A comparison of single bytes. -/
def cmpByte (x y : Fin 1 → UInt8) : ℤ := (x 0).toNat - (y 0).toNat

lemma cmpByte_preordered : Preordered cmpByte := by
  constructor
  · intro x y
    unfold cmpByte
    omega
  · intro x y z
    unfold cmpByte
    omega

/-- The bytes 2, 4, 1, 3, 0, 2 and 4. -/
theorem qsort_sorts_bytes :
    let m : Mem := fun z => UInt8.ofNat (z * 7 % 5)
    let s := qsort cmpByte 4096 7 ⟨m, []⟩
    (∃ σ : Equiv.Perm ℕ, (∀ i, 7 ≤ i → σ i = i) ∧
      (∀ i < 7, elems 1 4096 s.mem i = elems 1 4096 m (σ i)) ∧
      ∀ p q, p < q → q < 7 → cmpByte (elems 1 4096 s.mem p) (elems 1 4096 s.mem q) ≤ 0 ∧
        (cmpByte (elems 1 4096 s.mem p) (elems 1 4096 s.mem q) = 0 → σ p < σ q)) ∧
      (∀ z, z < 4096 ∨ 4096 + 7 * 1 ≤ z → s.mem z = m z) ∧
      ∀ z ∈ s.used, 4096 ≤ z ∧ z < 4096 + 7 * 1 :=
  qsort_sorts cmpByte_preordered ⟨by norm_num, by norm_num⟩ fun z => UInt8.ofNat (z * 7 % 5)

end LunariaOS.Libc.Sort
