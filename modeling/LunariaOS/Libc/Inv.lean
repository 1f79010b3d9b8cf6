import LunariaOS.Libc.Lists

/-!
The invariant of the heap and one specification for each operation.

`HeapOk hs h lo F L`: the allocator of `h` has been booted with its region starting at `lo`, its free
list runs through the blocks `F`, and `L` are the live blocks. Free and live blocks tile the region
up to the break, and the free ones are listed in address order with no two of them touching.
-/

namespace LunariaOS.Libc

open LunariaOS.Lib

/-- The allocator of `h`, booted, with the free blocks `F` and the live blocks `L`. -/
structure HeapOk (hs : ℕ) (h : Heap) (lo : ℕ) (F L : List Block) : Prop where
  state : h.heapState = 1
  brk_eq : h.brk = h.heapBrk
  start : hs ≤ lo ∧ userBase ≤ lo ∧ lo ≤ h.heapBrk
  top_le : h.heapBrk ≤ userStack
  aligned : 8 ∣ h.heapBrk
  seg : Seg h.mem h.freelist F 0
  spaced : Spaced F
  live : ∀ b ∈ L, h.mem.ld32 b.addr = b.size
  tiles : Tiles lo h.heapBrk (F ++ L)
  shape : ∀ b ∈ F ++ L, 8 ∣ b.addr ∧ 8 ∣ b.size ∧ 8 ≤ b.size

/-- Outside the blocks of `l` and the new part of the region no byte was written. -/
def Frame (h h' : Heap) (l : List Block) : Prop :=
  ∀ x, cover l x = 0 → x < h.heapBrk ∨ h'.heapBrk ≤ x → h'.mem x = h.mem x

/-- A number of steps that every loop of the allocator ends within. -/
def enough : ℕ := 0x100000

namespace HeapOk

variable {hs lo n : ℕ} {h h' : Heap} {F L : List Block} {b d : Block}

lemma inside (H : HeapOk hs h lo F L) (hb : b ∈ F ++ L) :
    userBase ≤ b.addr ∧ lo ≤ b.addr ∧ b.top ≤ h.heapBrk := by
  have h1 := H.tiles.inside hb (by have := H.shape b hb; omega)
  have := H.start
  omega

lemma top_lt (H : HeapOk hs h lo F L) (hb : b ∈ F ++ L) : b.addr ≠ 0 ∧ b.top < 4294967296 := by
  have h1 := H.inside hb
  have h2 := H.top_le
  unfold userBase at h1
  unfold userStack at h2
  omega

lemma lists (H : HeapOk hs h lo F L) : h.Lists F where
  seg := H.seg
  roomy := H.spaced.roomy fun b hb => (H.shape b (by simp [hb])).2.2
  pos := fun b hb => H.top_lt (by simp [hb])

/-- The free list is short enough for the loops. -/
lemma length_lt (H : HeapOk hs h lo F L) : F.length + 8 < enough := by
  have h1 := H.spaced.length_le (fun b hb => (H.inside (b := b) (by simp [hb])).2)
    (fun b hb => (H.shape b (by simp [hb])).2.2) H.start.2.2
  have h2 := H.start
  have h3 := H.top_le
  unfold enough
  unfold userBase at h2
  unfold userStack at h3
  omega

lemma pairwise (H : HeapOk hs h lo F L) : (F ++ L).Pairwise Block.Apart :=
  pairwise_apart H.tiles.le_one fun b hb => by have := H.shape b hb; omega

/-- A free block and a live one do not overlap. -/
lemma apart (H : HeapOk hs h lo F L) (hd : d ∈ F) (hb : b ∈ L) : d.Apart b :=
  (List.pairwise_append.mp H.pairwise).2.2 d hd b hb

/-- No free block holds a byte of a live one. -/
lemma cover_free (H : HeapOk hs h lo F L) (hb : b ∈ L) {x : ℕ} (hx : b.Has x) : cover F x = 0 := by
  have h1 := H.tiles.le_one x
  have h2 : 0 < cover L x := cover_pos.mpr ⟨b, hb, hx⟩
  rw [cover_append] at h1
  omega

/-- No free block, nor another live one, holds a byte of a live one. -/
lemma cover_freed (H : HeapOk hs h lo F (d :: L)) (hb : b ∈ L) {x : ℕ} (hx : b.Has x) :
    cover (d :: F) x = 0 := by
  have h1 := H.tiles.le_one x
  have h2 : 0 < cover L x := cover_pos.mpr ⟨b, hb, hx⟩
  rw [cover_append, cover_cons] at h1
  rw [cover_cons]
  omega

/-- A live block that shares no byte with the blocks written keeps all its bytes. -/
lemma frame_keep (H : HeapOk hs h lo F L) {l : List Block} (hf : Frame h h' l) (hb : b ∈ L) {x : ℕ}
    (hx : b.Has x) (hl : cover l x = 0) : h'.mem x = h.mem x := by
  have h1 := (H.inside (b := b) (by simp [hb])).2.2
  apply hf x hl
  left
  unfold Block.Has at hx
  unfold Block.top at h1
  omega

/-- In particular its header. -/
lemma frame_header (H : HeapOk hs h lo F L) {l : List Block} (hf : Frame h h' l) (hb : b ∈ L)
    (hl : ∀ x, b.Has x → cover l x = 0) : h'.mem.ld32 b.addr = b.size := by
  have h8 := (H.shape b (by simp [hb])).2.2
  rw [← H.live b hb]
  apply Mem.ld32_congr
  intro x h1 h2
  have hx : b.Has x := ⟨h1, by omega⟩
  exact H.frame_keep hf hb hx (hl x hx)

lemma frame_size (H : HeapOk hs h lo F L) (hf : Frame h h' F) (hb : b ∈ L) :
    h'.mem.ld32 b.addr = b.size := H.frame_header hf hb fun _ => H.cover_free hb

lemma perm (H : HeapOk hs h lo F L) {L' : List Block} (hp : L.Perm L') : HeapOk hs h lo F L' where
  state := H.state
  brk_eq := H.brk_eq
  start := H.start
  top_le := H.top_le
  aligned := H.aligned
  seg := H.seg
  spaced := H.spaced
  live := fun b hb => H.live b (hp.mem_iff.mpr hb)
  tiles := H.tiles.congr (cover_perm (hp.symm.append_left F))
  shape := fun b hb => H.shape b ((hp.append_left F).mem_iff.mpr hb)

/-- A store that leaves the headers alone. -/
lemma store (H : HeapOk hs h lo F L) {m : Mem}
    (hm : ∀ b ∈ F ++ L, ∀ x, b.Head x → m x = h.mem x) : HeapOk hs { h with mem := m } lo F L where
  state := H.state
  brk_eq := H.brk_eq
  start := H.start
  top_le := H.top_le
  aligned := H.aligned
  seg := H.seg.congr fun b hb => hm b (by simp [hb])
  spaced := H.spaced
  live := by
    intro b hb
    rw [← H.live b hb]
    apply Mem.ld32_congr
    intro x h1 h2
    exact hm b (by simp [hb]) x ⟨h1, by omega⟩
  tiles := H.tiles
  shape := H.shape

/-- The header of no block lies in the payload of a live one. -/
lemma head_out (H : HeapOk hs h lo F L) (hb : b ∈ L) (hd : d ∈ F ++ L) {x : ℕ} (hx : d.Head x) :
    x < b.addr + 8 ∨ b.top ≤ x := by
  have hd8 := (H.shape d hd).2.2
  by_contra hn
  have hbx : b.Has x := by
    unfold Block.Has
    unfold Block.top at hn
    omega
  have hdx : d.Has x := by
    unfold Block.Head at hx
    unfold Block.Has
    omega
  have hle := H.tiles.le_one x
  unfold Block.Head at hx
  rcases List.mem_append.mp hd with hd | hd
  · have h1 := H.cover_free hb hbx
    exact absurd hdx (cover_eq_zero.mp h1 d hd)
  · -- two live blocks that hold one address are the same block
    rw [cover_append] at hle
    by_cases he : d = b
    · subst he
      omega
    · obtain ⟨l₁, l₂, rfl⟩ := List.append_of_mem hb
      rw [cover_append, cover_cons, if_pos hbx] at hle
      have hd' : d ∈ l₁ ∨ d ∈ l₂ := by
        simp only [List.mem_append, List.mem_cons] at hd
        tauto
      rcases hd' with hd' | hd'
      · have : 0 < cover l₁ x := cover_pos.mpr ⟨d, hd', hdx⟩
        omega
      · have : 0 < cover l₂ x := cover_pos.mpr ⟨d, hd', hdx⟩
        omega

end HeapOk

/-! ### The arithmetic of a request -/

/-- The largest request whose rounding up to whole pages does not wrap. -/
def maxRequest : ℕ := 0xFFFFEFF8

lemma needOf_eq {size : ℕ} (hsize : size ≤ maxRequest) :
    needOf size = (size + 7) / 8 * 8 + 8 := by
  unfold maxRequest at hsize
  have h1 : u32 (size + (minAlign - 1)) = size + 7 := u32_of_lt (by unfold minAlign; omega)
  unfold needOf align8
  rw [h1]
  exact u32_of_lt (by unfold minAlign blockHdr; omega)

lemma needOf_bounds {size : ℕ} (hsize : size ≤ maxRequest) :
    size + 8 ≤ needOf size ∧ 8 ∣ needOf size ∧ needOf size ≤ 0xFFFFF000 := by
  rw [needOf_eq hsize]
  unfold maxRequest at hsize
  omega

lemma coreSize_bounds {need : ℕ} (hneed : need ≤ 0xFFFFF000) :
    need ≤ coreSize need ∧ 8 ∣ coreSize need ∧ 4096 ≤ coreSize need ∧
      coreSize need < 4294967296 := by
  have hmax : (if 4096 < need then need else 4096) = max need 4096 := by
    split_ifs <;> omega
  have hu : u32 (max need 4096 + 4095) = max need 4096 + 4095 := u32_of_lt (by omega)
  unfold coreSize
  rw [show (if need > 4096 then need else 4096) = max need 4096 from hmax, hu]
  omega

end LunariaOS.Libc
