import LunariaOS.Lib.Mem
import LunariaOS.Lib.Tiling

/-!
Blocks linked through their own first bytes.

A linked block keeps its size in the word at its address and the address of the next block in the
word after it. `Seg m a l z` says that the links lead from `a` through the blocks of `l` to `z`. Only
these two words of each block matter (`Seg.congr`), so a store elsewhere keeps the chain.
-/

namespace LunariaOS.Lib

/-- The links lead from `a` through the blocks of `l` to `z`. -/
def Seg (m : Mem) : ℕ → List Block → ℕ → Prop
  | a, [], z => a = z
  | a, b :: l, z => a = b.addr ∧ m.ld32 b.addr = b.size ∧ Seg m (m.ld32 (b.addr + 4)) l z

/-- The address of the last block, `p` when there is none. -/
def lastAddr : ℕ → List Block → ℕ
  | p, [] => p
  | _, b :: l => lastAddr b.addr l

/-- The address of the first block, `z` when there is none. -/
def firstAddr (z : ℕ) : List Block → ℕ
  | [] => z
  | b :: _ => b.addr

@[simp] lemma lastAddr_append (p : ℕ) (l : List Block) (b : Block) :
    lastAddr p (l ++ [b]) = b.addr := by
  induction l generalizing p with
  | nil => rfl
  | cons d l ih => exact ih d.addr

variable {m m' : Mem} {a z : ℕ} {l l₁ l₂ : List Block} {b : Block}

lemma Seg.first (h : Seg m a l z) : a = firstAddr z l := by
  cases l with
  | nil => exact h
  | cons b l => exact h.1

lemma seg_append : Seg m a (l₁ ++ l₂) z ↔ ∃ y, Seg m a l₁ y ∧ Seg m y l₂ z := by
  induction l₁ generalizing a with
  | nil =>
    constructor
    · intro h
      exact ⟨a, rfl, h⟩
    · rintro ⟨y, rfl, h⟩
      exact h
  | cons b l ih =>
    constructor
    · rintro ⟨h1, h2, h3⟩
      obtain ⟨y, h4, h5⟩ := ih.mp h3
      exact ⟨y, ⟨h1, h2, h4⟩, h5⟩
    · rintro ⟨y, ⟨h1, h2, h4⟩, h5⟩
      exact ⟨h1, h2, ih.mpr ⟨y, h4, h5⟩⟩

/-- A chain taken apart at one of its blocks. -/
lemma seg_mid : Seg m a (l₁ ++ b :: l₂) z ↔
    Seg m a l₁ b.addr ∧ m.ld32 b.addr = b.size ∧ Seg m (m.ld32 (b.addr + 4)) l₂ z := by
  rw [seg_append]
  constructor
  · rintro ⟨y, h1, rfl, h2, h3⟩
    exact ⟨h1, h2, h3⟩
  · rintro ⟨h1, h2, h3⟩
    exact ⟨_, h1, rfl, h2, h3⟩

/-- The size word of a block of the chain. -/
lemma Seg.size_eq (h : Seg m a l z) (hb : b ∈ l) : m.ld32 b.addr = b.size := by
  induction l generalizing a with
  | nil => simp at hb
  | cons d l ih =>
    rcases List.mem_cons.mp hb with rfl | hb
    · exact h.2.1
    · exact ih h.2.2 hb

/-- The bytes of the two words at the start of a block. -/
def Block.Head (b : Block) (x : ℕ) : Prop := b.addr ≤ x ∧ x < b.addr + 8

/-- A memory with the same words at the start of the blocks has the same chain. -/
lemma Seg.congr (h : Seg m a l z) (hm : ∀ b ∈ l, ∀ x, b.Head x → m' x = m x) : Seg m' a l z := by
  induction l generalizing a with
  | nil => exact h
  | cons b l ih =>
    obtain ⟨h1, h2, h3⟩ := h
    have hb := hm b (by simp)
    have hsize : m'.ld32 b.addr = m.ld32 b.addr :=
      Mem.ld32_congr fun x _ _ => hb x (by unfold Block.Head; omega)
    have hnext : m'.ld32 (b.addr + 4) = m.ld32 (b.addr + 4) :=
      Mem.ld32_congr fun x _ _ => hb x (by unfold Block.Head; omega)
    rw [← hsize] at h2
    rw [← hnext] at h3
    exact ⟨h1, h2, ih h3 fun d hd => hm d (by simp [hd])⟩

/-- The blocks ascend, each with room for its two words. -/
def Roomy (l : List Block) : Prop := l.Pairwise fun b d => b.addr + 8 ≤ d.addr

lemma Spaced.roomy (hs : Spaced l) (h8 : ∀ b ∈ l, 8 ≤ b.size) : Roomy l := by
  refine List.Pairwise.imp_of_mem (fun {b d} hb _ h => ?_) hs
  have := h8 b hb
  unfold Block.top at h
  omega

/-- The two words of one block of a roomy list are not those of another. -/
lemma Roomy.head_ne (hr : Roomy (l₁ ++ b :: l₂)) {d : Block} (hd : d ∈ l₁ ∨ d ∈ l₂) {x : ℕ}
    (hx : d.Head x) : ¬ b.Head x := by
  have h := List.pairwise_append.mp hr
  unfold Block.Head at *
  rcases hd with hd | hd
  · have := h.2.2 d hd b (by simp)
    omega
  · have := (List.pairwise_cons.mp h.2.1).1 d hd
    omega

/-- Whether a list is roomy does not depend on the sizes. -/
lemma Roomy.resize (hr : Roomy (l₁ ++ b :: l₂)) (n : ℕ) : Roomy (l₁ ++ ⟨b.addr, n⟩ :: l₂) := by
  obtain ⟨h1, h2, h3⟩ := List.pairwise_append.mp hr
  obtain ⟨h4, h5⟩ := List.pairwise_cons.mp h2
  refine List.pairwise_append.mpr ⟨h1, List.pairwise_cons.mpr ⟨h4, h5⟩, fun d hd e he => ?_⟩
  rcases List.mem_cons.mp he with rfl | he
  · exact h3 d hd b (by simp)
  · exact h3 d hd e (by simp [he])

/-- Pointing the last block elsewhere. -/
lemma Seg.relink (h : Seg m a (l ++ [b]) z) (hr : Roomy (l ++ [b])) {v : ℕ} (hv : v < 4294967296) :
    Seg (m.st32 (b.addr + 4) v) a (l ++ [b]) v := by
  obtain ⟨y, h1, h2, h3, -⟩ := seg_append.mp h
  have hl : Seg (m.st32 (b.addr + 4) v) a l y := by
    apply h1.congr
    intro d hd x hx
    apply Mem.st32_of_out
    have := hr.head_ne (Or.inl hd) hx
    unfold Block.Head at this
    omega
  have hsize : (m.st32 (b.addr + 4) v).ld32 b.addr = b.size := by
    rw [Mem.ld32_st32_of_ne _ _ (Or.inl (le_refl _)), h3]
  exact seg_append.mpr ⟨y, hl, h2, hsize, Mem.ld32_st32 _ _ hv⟩

end LunariaOS.Lib
