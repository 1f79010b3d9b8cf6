import Mathlib.Data.List.Count
import Mathlib.Tactic

/-!
Blocks of consecutive addresses and the regions they tile.

`cover l x` counts the blocks of `l` that hold the address `x`. The blocks of `l` tile a region when
the count is one inside and zero outside: nothing is left out and no two blocks overlap. The count
adds up over the parts of a list, so cutting a block in two, joining two neighbours and growing the
region at its end are each one line of arithmetic, whatever the order of the list.
-/

namespace LunariaOS.Lib

/-- The addresses from `addr` on, `size` of them. -/
structure Block where
  addr : ℕ
  size : ℕ
  deriving DecidableEq, Repr

/-- The first address past a block. -/
def Block.top (b : Block) : ℕ := b.addr + b.size

/-- The address `x` lies in the block. -/
def Block.Has (b : Block) (x : ℕ) : Prop := b.addr ≤ x ∧ x < b.addr + b.size

instance (b : Block) (x : ℕ) : Decidable (b.Has x) := inferInstanceAs (Decidable (_ ∧ _))

/-- The number of blocks that hold the address `x`. -/
def cover (l : List Block) (x : ℕ) : ℕ := l.countP fun b => b.Has x

@[simp] lemma cover_nil (x : ℕ) : cover [] x = 0 := rfl

lemma cover_cons (b : Block) (l : List Block) (x : ℕ) :
    cover (b :: l) x = cover l x + if b.Has x then 1 else 0 := by
  simp [cover, List.countP_cons]

lemma cover_append (l₁ l₂ : List Block) (x : ℕ) :
    cover (l₁ ++ l₂) x = cover l₁ x + cover l₂ x := List.countP_append ..

lemma cover_perm {l₁ l₂ : List Block} (h : l₁.Perm l₂) (x : ℕ) : cover l₁ x = cover l₂ x :=
  h.countP_eq _

lemma cover_pos {l : List Block} {x : ℕ} : 0 < cover l x ↔ ∃ b ∈ l, b.Has x := by
  simp [cover, List.countP_pos_iff]

lemma cover_eq_zero {l : List Block} {x : ℕ} : cover l x = 0 ↔ ∀ b ∈ l, ¬ b.Has x := by
  simp [cover, List.countP_eq_zero]

/-- A block cut in two holds what the block held. -/
lemma cover_split (a m n : ℕ) (l : List Block) (x : ℕ) :
    cover (⟨a, m⟩ :: ⟨a + m, n⟩ :: l) x = cover (⟨a, m + n⟩ :: l) x := by
  simp only [cover_cons]
  split_ifs <;> simp only [Block.Has] at * <;> omega

/-- The blocks of `l` tile the region from `lo` to `hi`. -/
def Tiles (lo hi : ℕ) (l : List Block) : Prop :=
  ∀ x, cover l x = if lo ≤ x ∧ x < hi then 1 else 0

lemma Tiles.nil (a : ℕ) : Tiles a a [] := by
  intro x
  rw [cover_nil, if_neg (by omega)]

lemma Tiles.congr {lo hi : ℕ} {l l' : List Block} (h : Tiles lo hi l)
    (hc : ∀ x, cover l' x = cover l x) : Tiles lo hi l' := fun x => (hc x).trans (h x)

lemma Tiles.le_one {lo hi : ℕ} {l : List Block} (h : Tiles lo hi l) (x : ℕ) : cover l x ≤ 1 := by
  rw [h x]
  split_ifs <;> omega

/-- A new block at the end of the region. -/
lemma Tiles.grow {lo hi n : ℕ} {l : List Block} (h : Tiles lo hi l) (hle : lo ≤ hi) :
    Tiles lo (hi + n) (⟨hi, n⟩ :: l) := by
  intro x
  rw [cover_cons, h x]
  split_ifs <;> simp only [Block.Has] at * <;> omega

/-- A block that is not empty lies in the region. -/
lemma Tiles.inside {lo hi : ℕ} {l : List Block} (h : Tiles lo hi l) {b : Block} (hb : b ∈ l)
    (hpos : 0 < b.size) : lo ≤ b.addr ∧ b.top ≤ hi := by
  have key : ∀ x, b.Has x → lo ≤ x ∧ x < hi := by
    intro x hx
    have h1 : 0 < cover l x := cover_pos.mpr ⟨b, hb, hx⟩
    by_contra hn
    rw [h x, if_neg hn] at h1
    exact absurd h1 (by omega)
  have h1 := key b.addr ⟨le_refl _, by omega⟩
  have h2 := key (b.addr + b.size - 1) ⟨by omega, by omega⟩
  unfold Block.top
  omega

/-- Two blocks do not overlap. -/
def Block.Apart (b c : Block) : Prop := b.top ≤ c.addr ∨ c.top ≤ b.addr

/-- Blocks of which no two hold one address do not overlap. -/
lemma pairwise_apart {l : List Block} (h : ∀ x, cover l x ≤ 1) (hpos : ∀ b ∈ l, 0 < b.size) :
    l.Pairwise Block.Apart := by
  induction l with
  | nil => exact List.Pairwise.nil
  | cons b l ih =>
    have hb := hpos b (by simp)
    refine List.pairwise_cons.mpr ⟨fun d hd => ?_, ih (fun x => ?_) fun d hd => hpos d (by simp [hd])⟩
    · -- an overlap would hold the larger of the two starts twice
      by_contra hn
      have hn' : ¬ (b.addr + b.size ≤ d.addr ∨ d.addr + d.size ≤ b.addr) := hn
      have hdpos := hpos d (by simp [hd])
      have h1 := h (max b.addr d.addr)
      have h2 : 0 < cover l (max b.addr d.addr) := cover_pos.mpr ⟨d, hd, by unfold Block.Has; omega⟩
      rw [cover_cons, if_pos (by unfold Block.Has; omega)] at h1
      omega
    · have := h x
      rw [cover_cons] at this
      omega

/-! ### Lists in address order -/

/-- The blocks ascend and no two of them touch. -/
def Spaced (l : List Block) : Prop := l.Pairwise fun b d => b.top < d.addr

/-- Blocks in address order that do not touch and yet tile a region are one block. -/
lemma Spaced.eq_single {lo hi : ℕ} {l : List Block} (hs : Spaced l) (ht : Tiles lo hi l)
    (hpos : ∀ b ∈ l, 0 < b.size) (hlt : lo < hi) : l = [⟨lo, hi - lo⟩] := by
  have first : 0 < cover l lo := by rw [ht lo, if_pos ⟨le_refl _, hlt⟩]; omega
  cases l with
  | nil => simp at first
  | cons b l =>
    have hs := List.pairwise_cons.mp hs
    have hb := ht.inside (List.mem_cons_self ..) (hpos b (by simp))
    have haddr : b.addr = lo := by
      obtain ⟨d, hd, hd'⟩ := cover_pos.mp first
      rcases List.mem_cons.mp hd with rfl | hd
      · exact le_antisymm hd'.1 hb.1
      · have h1 := hs.1 d hd
        have h2 := hd'.1
        have h3 := hb.1
        unfold Block.top at h1
        omega
    -- the address just past the first block is in no block, so it is the end
    have hout : cover (b :: l) b.top = 0 := by
      apply cover_eq_zero.mpr
      intro d hd hx
      rcases List.mem_cons.mp hd with rfl | hd
      · exact absurd hx.2 (by unfold Block.top; omega)
      · exact absurd hx.1 (by have := hs.1 d hd; omega)
    have htop : b.top = hi := by
      rw [ht b.top] at hout
      by_contra hne
      rw [if_pos ⟨by have := hb.1; unfold Block.top; omega, by omega⟩] at hout
      exact absurd hout (by omega)
    have hnil : l = [] := by
      cases l with
      | nil => rfl
      | cons d l =>
        have h1 := ht.inside (b := d) (by simp) (hpos d (by simp))
        have h2 := hs.1 d (by simp)
        have h3 := hpos d (by simp)
        unfold Block.top at h1 h2 htop
        omega
    subst hnil
    congr 1
    cases b
    simp only [Block.top] at htop haddr
    simp only [Block.mk.injEq]
    omega

/-- The number of blocks that a region has room for. -/
lemma Spaced.length_le {l : List Block} {lo hi k : ℕ} (hs : Spaced l)
    (hin : ∀ b ∈ l, lo ≤ b.addr ∧ b.top ≤ hi) (hk : ∀ b ∈ l, k ≤ b.size) (hle : lo ≤ hi) :
    l.length * k ≤ hi - lo := by
  induction l generalizing lo with
  | nil => simp
  | cons b l ih =>
    have hs := List.pairwise_cons.mp hs
    have hb := hin b (by simp)
    have hbk := hk b (by simp)
    have htail : ∀ d ∈ l, b.top ≤ d.addr ∧ d.top ≤ hi :=
      fun d hd => ⟨le_of_lt (hs.1 d hd), (hin d (by simp [hd])).2⟩
    have := ih hs.2 htail (fun d hd => hk d (by simp [hd])) hb.2
    rw [List.length_cons, Nat.succ_mul]
    unfold Block.top at *
    omega

/-! ### Joining a block to its upper neighbour -/

/-- Put a block before a list, joined to the first block of the list when the two touch. -/
def glue (b : Block) : List Block → List Block
  | [] => [b]
  | d :: l => if b.top = d.addr then ⟨b.addr, b.size + d.size⟩ :: l else b :: d :: l

lemma glue_touch {b d : Block} (l : List Block) (h : b.top = d.addr) :
    glue b (d :: l) = ⟨b.addr, b.size + d.size⟩ :: l := if_pos h

lemma glue_apart {b d : Block} (l : List Block) (h : b.top ≠ d.addr) :
    glue b (d :: l) = b :: d :: l := if_neg h

lemma glue_first (b : Block) (l : List Block) : ∃ n l', glue b l = ⟨b.addr, n⟩ :: l' := by
  cases l with
  | nil => exact ⟨b.size, [], rfl⟩
  | cons d l =>
    by_cases h : b.top = d.addr
    · exact ⟨_, _, glue_touch l h⟩
    · exact ⟨_, _, glue_apart l h⟩

lemma cover_glue (b : Block) (l : List Block) (x : ℕ) : cover (glue b l) x = cover (b :: l) x := by
  cases l with
  | nil => rfl
  | cons d l =>
    by_cases h : b.top = d.addr
    · rw [glue_touch l h, ← cover_split]
      unfold Block.top at h
      rw [h]
    · rw [glue_apart l h]

lemma glue_all {P : Block → Prop} {b : Block} {l : List Block} (hb : P b) (hl : ∀ d ∈ l, P d)
    (hj : ∀ d ∈ l, P d → P ⟨b.addr, b.size + d.size⟩) : ∀ d ∈ glue b l, P d := by
  cases l with
  | nil => simpa [glue] using hb
  | cons d l =>
    obtain ⟨hd, hl⟩ := List.forall_mem_cons.mp hl
    by_cases h : b.top = d.addr
    · rw [glue_touch l h]
      exact List.forall_mem_cons.mpr ⟨hj d (by simp) hd, hl⟩
    · rw [glue_apart l h]
      exact List.forall_mem_cons.mpr ⟨hb, List.forall_mem_cons.mpr ⟨hd, hl⟩⟩

/-- The block lies in the block `d`. -/
def Block.Within (b d : Block) : Prop := d.addr ≤ b.addr ∧ b.top ≤ d.top

lemma Block.Within.trans {b d e : Block} (h : b.Within d) (h' : d.Within e) : b.Within e :=
  ⟨h'.1.trans h.1, h.2.trans h'.2⟩

lemma glue_within (b : Block) (l : List Block) : ∃ d ∈ glue b l, b.Within d := by
  cases l with
  | nil => exact ⟨b, by simp [glue], le_rfl, le_rfl⟩
  | cons d l =>
    by_cases h : b.top = d.addr
    · rw [glue_touch l h]
      exact ⟨_, List.mem_cons_self, le_rfl, by simp only [Block.top]; omega⟩
    · rw [glue_apart l h]
      exact ⟨b, List.mem_cons_self, le_rfl, le_rfl⟩

lemma glue_keeps (b : Block) {l : List Block} {e : Block} (he : e ∈ l) :
    ∃ d ∈ glue b l, e.Within d := by
  cases l with
  | nil => cases he
  | cons d l =>
    by_cases h : b.top = d.addr
    · rw [glue_touch l h]
      rcases List.mem_cons.mp he with rfl | he
      · refine ⟨_, List.mem_cons_self, ?_, ?_⟩
        · unfold Block.top at h
          simp only
          omega
        · unfold Block.top at h ⊢
          simp only
          omega
      · exact ⟨e, List.mem_cons_of_mem _ he, le_rfl, le_rfl⟩
    · rw [glue_apart l h]
      exact ⟨e, List.mem_cons_of_mem _ he, le_rfl, le_rfl⟩

lemma Spaced.glue {b : Block} {l : List Block} (hs : Spaced l) (hb : ∀ d ∈ l, b.top ≤ d.addr) :
    Spaced (glue b l) := by
  cases l with
  | nil => exact List.pairwise_singleton ..
  | cons d l =>
    have hs' := List.pairwise_cons.mp hs
    have hd := hb d (by simp)
    by_cases h : b.top = d.addr
    · rw [glue_touch l h]
      refine List.pairwise_cons.mpr ⟨fun e he => ?_, hs'.2⟩
      have := hs'.1 e he
      unfold Block.top at *
      simp only
      omega
    · rw [glue_apart l h]
      refine List.pairwise_cons.mpr ⟨fun e he => ?_, hs⟩
      rcases List.mem_cons.mp he with rfl | he
      · omega
      · have := hs'.1 e he
        unfold Block.top at *
        omega

end LunariaOS.Lib
