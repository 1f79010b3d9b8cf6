import LunariaOS.Libc.Code

/-!
What the loops over the free list find, and what the stores into it do to the list.

`Heap.Lists h F`: the free list of `h` leads through the blocks of `F`, in address order. Each
rewriting of the list (a link pointed elsewhere, a block split off, a block put in, two blocks
joined) is one lemma that gives the new list, and says that only bytes of the blocks concerned were
written.
-/

namespace LunariaOS.Libc

open LunariaOS.Lib

/-! ### The loops -/

section Loops

variable {m : Mem} {a n : ℕ} {F : List Block}

/-- Where `malloc` stops: at the first block with room, or past the end. -/
lemma findFit_eq (need prev : ℕ) (hs : Seg m a F 0) (h0 : ∀ b ∈ F, b.addr ≠ 0)
    (hn : F.length < n) :
    (∃ G b K, F = G ++ b :: K ∧ need ≤ b.size ∧
      findFit m need n prev a = some (lastAddr prev G, b.addr)) ∨
    ((∀ b ∈ F, b.size < need) ∧ ∃ q, findFit m need n prev a = some (q, 0)) := by
  induction F generalizing a n prev with
  | nil =>
    obtain ⟨n, rfl⟩ : ∃ k, n = k + 1 := ⟨n - 1, by simp at hn; omega⟩
    obtain rfl : a = 0 := hs
    exact Or.inr ⟨by simp, prev, if_pos rfl⟩
  | cons b F ih =>
    obtain ⟨n, rfl⟩ : ∃ k, n = k + 1 := ⟨n - 1, by simp at hn; omega⟩
    obtain ⟨rfl, hsize, hs⟩ := hs
    have hb : ¬ b.addr = 0 := h0 b (by simp)
    by_cases hfit : need ≤ b.size
    · refine Or.inl ⟨[], b, F, rfl, hfit, ?_⟩
      unfold findFit
      rw [if_neg hb, if_pos (by rw [hsize]; exact hfit)]
      rfl
    · have step : findFit m need (n + 1) prev b.addr
          = findFit m need n b.addr (m.ld32 (b.addr + 4)) := by
        rw [findFit, if_neg hb, if_neg (by rw [hsize]; exact hfit)]
      rw [step]
      rcases ih b.addr hs (fun d hd => h0 d (by simp [hd])) (by simpa using hn) with
        ⟨G, d, K, rfl, h1, h2⟩ | ⟨h1, h2⟩
      · exact Or.inl ⟨b :: G, d, K, rfl, h1, h2⟩
      · exact Or.inr ⟨List.forall_mem_cons.mpr ⟨by omega, h1⟩, h2⟩

lemma lastBlock_eq {b : Block} (hs : Seg m a (F ++ [b]) 0) (h0 : ∀ d ∈ F ++ [b], d.addr ≠ 0)
    (hn : F.length < n) : lastBlock m n a = some b.addr := by
  induction F generalizing a n with
  | nil =>
    obtain ⟨n, rfl⟩ : ∃ k, n = k + 1 := ⟨n - 1, by simp at hn; omega⟩
    obtain ⟨rfl, -, hs⟩ := hs
    exact if_pos hs
  | cons d F ih =>
    obtain ⟨n, rfl⟩ : ∃ k, n = k + 1 := ⟨n - 1, by simp at hn; omega⟩
    obtain ⟨rfl, -, hs⟩ := hs
    have hnext : ¬ m.ld32 (d.addr + 4) = 0 := by
      rw [hs.first]
      cases F with
      | nil => exact h0 b (by simp)
      | cons e F => exact h0 e (by simp)
    rw [lastBlock, if_neg hnext]
    exact ih hs (fun e he => h0 e (by simp at he ⊢; tauto)) (by simpa using hn)

/-- Where `free` stops: the blocks before lie below `b`, the next one does not. -/
lemma findPlace_eq (b prev : ℕ) (hs : Seg m a F 0) (h0 : ∀ d ∈ F, d.addr ≠ 0)
    (hn : F.length < n) : ∃ G K, F = G ++ K ∧ (∀ d ∈ G, d.addr < b) ∧
      (∀ d ∈ K.head?, b ≤ d.addr) ∧ findPlace m b n prev a = some (lastAddr prev G, firstAddr 0 K) := by
  induction F generalizing a n prev with
  | nil =>
    obtain ⟨n, rfl⟩ : ∃ k, n = k + 1 := ⟨n - 1, by simp at hn; omega⟩
    obtain rfl : a = 0 := hs
    refine ⟨[], [], rfl, by simp, by simp, ?_⟩
    rw [findPlace, if_neg (by simp)]
    rfl
  | cons d F ih =>
    obtain ⟨n, rfl⟩ : ∃ k, n = k + 1 := ⟨n - 1, by simp at hn; omega⟩
    obtain ⟨rfl, -, hs⟩ := hs
    by_cases hd : d.addr < b
    · obtain ⟨G, K, rfl, h1, h2, h3⟩ :=
        ih d.addr hs (fun e he => h0 e (by simp [he])) (by simpa using hn)
      refine ⟨d :: G, K, rfl, List.forall_mem_cons.mpr ⟨hd, h1⟩, h2, ?_⟩
      rw [findPlace, if_pos ⟨h0 d (by simp), hd⟩]
      exact h3
    · refine ⟨[], d :: F, rfl, by simp, by simpa using hd, ?_⟩
      rw [findPlace, if_neg (by tauto)]
      rfl

end Loops

/-! ### The list as a whole -/

/-- The free list of `h` leads through the blocks of `F`. -/
structure Heap.Lists (h : Heap) (F : List Block) : Prop where
  seg : Seg h.mem h.freelist F 0
  roomy : Roomy F
  pos : ∀ b ∈ F, b.addr ≠ 0 ∧ b.top < 4294967296

@[simp] lemma link_heapBrk (h : Heap) (p v : ℕ) : (h.link p v).heapBrk = h.heapBrk := by
  unfold Heap.link; split_ifs <;> rfl

@[simp] lemma link_heapState (h : Heap) (p v : ℕ) : (h.link p v).heapState = h.heapState := by
  unfold Heap.link; split_ifs <;> rfl

@[simp] lemma link_brk (h : Heap) (p v : ℕ) : (h.link p v).brk = h.brk := by
  unfold Heap.link; split_ifs <;> rfl

section Link

variable {h : Heap} {G K : List Block} {v y : ℕ}

/-- Only the last block before the link is written. -/
lemma link_mem (h0 : ∀ b ∈ G, b.addr ≠ 0) {x : ℕ} (hx : ∀ b ∈ G, ¬ b.Head x) :
    (h.link (lastAddr 0 G) v).mem x = h.mem x := by
  rcases List.eq_nil_or_concat G with rfl | ⟨G, b, rfl⟩
  · rfl
  · rw [List.concat_eq_append] at *
    rw [lastAddr_append, Heap.link, if_pos (h0 b (by simp))]
    apply Mem.st32_of_out
    have := hx b (by simp)
    unfold Block.Head at this
    omega

/-- After the link is set the blocks before it lead to the new place. -/
lemma link_seg (hs : Seg h.mem h.freelist G y) (hr : Roomy G) (h0 : ∀ b ∈ G, b.addr ≠ 0)
    (hv : v < 4294967296) :
    Seg (h.link (lastAddr 0 G) v).mem (h.link (lastAddr 0 G) v).freelist G v := by
  rcases List.eq_nil_or_concat G with rfl | ⟨G, b, rfl⟩
  · rfl
  · rw [List.concat_eq_append] at *
    rw [lastAddr_append, Heap.link, if_pos (h0 b (by simp))]
    exact hs.relink hr hv

/-- The blocks `G` of a chain linked to the blocks `K` of another. -/
lemma link_lists (hG : Seg h.mem h.freelist G y) (hK : Seg h.mem v K 0) (hr : Roomy (G ++ K))
    (hpos : ∀ b ∈ G ++ K, b.addr ≠ 0 ∧ b.top < 4294967296) :
    (h.link (lastAddr 0 G) v).Lists (G ++ K) := by
  have h0 : ∀ b ∈ G, b.addr ≠ 0 := fun b hb => (hpos b (by simp [hb])).1
  have hv : v < 4294967296 := by
    rw [hK.first]
    cases K with
    | nil => decide
    | cons b K =>
      have := (hpos b (by simp)).2
      unfold Block.top at this
      exact lt_of_le_of_lt (Nat.le_add_right ..) this
  have hr' := List.pairwise_append.mp hr
  have hK' : Seg (h.link (lastAddr 0 G) v).mem v K 0 := by
    apply hK.congr
    intro d hd x hx
    apply link_mem h0
    intro b hb hbx
    have := hr'.2.2 b hb d hd
    unfold Block.Head at hx hbx
    omega
  exact ⟨seg_append.mpr ⟨v, link_seg hG hr'.1 h0 hv, hK'⟩, hr, hpos⟩

end Link

/-! ### Splitting a block off -/

section Take

/-- The block that `malloc` takes out of the free block `b`. -/
def taken (b : Block) (need : ℕ) : Block := if need + 16 ≤ b.size then ⟨b.addr, need⟩ else b

/-- What stays free of it. -/
def leftover (b : Block) (need : ℕ) : List Block :=
  if need + 16 ≤ b.size then [⟨b.addr + need, b.size - need⟩] else []

lemma cover_taken (b : Block) (need x : ℕ) :
    cover (taken b need :: leftover b need) x = cover [b] x := by
  unfold taken leftover
  split_ifs with h
  · rw [cover_split, Nat.add_sub_cancel' (by omega)]
  · rfl

variable {h : Heap} {G K : List Block} {b : Block} {need : ℕ}

lemma split_out {m : Mem} {x : ℕ} (hb : b.top < 4294967296) (hneed : need + 8 ≤ b.size)
    (hx : ¬ b.Has x) : split m b.addr need x = m x := by
  unfold Block.top at hb
  unfold Block.Has at hx
  have hrest : u32 (b.addr + need) = b.addr + need := u32_of_lt (by omega)
  simp only [split, hrest]
  rw [Mem.st32_of_out _ _ (by omega), Mem.st32_of_out _ _ (by omega),
    Mem.st32_of_out _ _ (by omega)]

/-- The words of the two parts once a block has been cut. -/
lemma split_words {m : Mem} (hb : b.top < 4294967296) (h8 : 8 ≤ need) (hneed : need ≤ b.size)
    (hsize : m.ld32 b.addr = b.size) :
    (split m b.addr need).ld32 b.addr = need ∧
    (split m b.addr need).ld32 (b.addr + need) = b.size - need ∧
    (split m b.addr need).ld32 (b.addr + need + 4) = m.ld32 (b.addr + 4) := by
  unfold Block.top at hb
  have hrest : u32 (b.addr + need) = b.addr + need := u32_of_lt (by omega)
  simp only [split, hrest, hsize]
  refine ⟨Mem.ld32_st32 _ _ (by omega), ?_, ?_⟩
  · rw [Mem.ld32_st32_of_ne _ _ (by omega), Mem.ld32_st32_of_ne _ _ (by omega),
      Mem.ld32_st32 _ _ (by omega)]
  · rw [Mem.ld32_st32_of_ne _ _ (by omega), Mem.ld32_st32 _ _ (Mem.ld32_lt ..)]

/-- Taking a free block, or the start of one, out of the list. -/
lemma take_lists (H : h.Lists (G ++ b :: K)) (hK : ∀ d ∈ K, b.top ≤ d.addr) (h8 : 8 ≤ need)
    (hfit : need ≤ b.size) (hneed : need + 16 < 4294967296) :
    (h.take need (lastAddr 0 G) b.addr).Lists (G ++ leftover b need ++ K) ∧
    (h.take need (lastAddr 0 G) b.addr).mem.ld32 b.addr = (taken b need).size ∧
    ∀ x, ¬ b.Has x → (∀ d ∈ G, ¬ d.Head x) →
      (h.take need (lastAddr 0 G) b.addr).mem x = h.mem x := by
  obtain ⟨hG, hsize, hseg⟩ := seg_mid.mp H.seg
  obtain ⟨hb0, hbtop⟩ := H.pos b (by simp)
  have hr := List.pairwise_append.mp H.roomy
  have h0 : ∀ d ∈ G, d.addr ≠ 0 := fun d hd => (H.pos d (by simp [hd])).1
  have hGb : ∀ d ∈ G, ∀ x, d.Head x → x < b.addr := by
    intro d hd x hx
    have := hr.2.2 d hd b (by simp)
    unfold Block.Head at hx
    omega
  have hGw : ∀ x, b.addr ≤ x → ∀ d ∈ G, ¬ d.Head x := by
    intro x hx d hd hdx
    exact absurd (hGb d hd x hdx) (by omega)
  have hu : u32 (need + blockHdr + minAlign) = need + 16 := u32_of_lt hneed
  unfold Heap.take leftover taken
  rw [hu, hsize]
  by_cases hs : need + 16 ≤ b.size
  · -- the rest of the block stays in the list
    obtain ⟨w1, w2, w3⟩ := split_words hbtop h8 hfit hsize
    have hout : ∀ x, ¬ b.Has x → split h.mem b.addr need x = h.mem x :=
      fun x => split_out hbtop (by omega)
    have hrest : u32 (b.addr + need) = b.addr + need :=
      u32_of_lt (by unfold Block.top at hbtop; omega)
    rw [if_pos hs, if_pos hs, if_pos hs, hrest, List.append_assoc, List.singleton_append]
    have hG' : Seg (split h.mem b.addr need) h.freelist G b.addr :=
      hG.congr fun d hd x hx => hout x fun hb => hGw x hb.1 d hd hx
    have hK' : Seg (split h.mem b.addr need) (h.mem.ld32 (b.addr + 4)) K 0 := by
      apply hseg.congr
      intro d hd x hx
      apply hout
      intro hb
      have := hK d hd
      unfold Block.Head at hx
      unfold Block.Has at hb
      unfold Block.top at this
      omega
    have hmid : Seg (split h.mem b.addr need) (b.addr + need)
        (⟨b.addr + need, b.size - need⟩ :: K) 0 := ⟨rfl, w2, by rw [w3]; exact hK'⟩
    have hroomy : Roomy (G ++ ⟨b.addr + need, b.size - need⟩ :: K) := by
      refine List.pairwise_append.mpr ⟨hr.1, List.pairwise_cons.mpr ⟨fun d hd => ?_,
        (List.pairwise_cons.mp hr.2.1).2⟩, fun d hd e he => ?_⟩
      · have := hK d hd
        unfold Block.top at this
        simp only
        omega
      · rcases List.mem_cons.mp he with rfl | he
        · have := hr.2.2 d hd b (by simp)
          simp only
          omega
        · exact hr.2.2 d hd e (by simp [he])
    refine ⟨link_lists hG' hmid hroomy fun d hd => ?_, ?_, fun x hx hxG => ?_⟩
    · rcases List.mem_append.mp hd with hd | hd
      · exact H.pos d (by simp [hd])
      · rcases List.mem_cons.mp hd with rfl | hd
        · unfold Block.top at *
          exact ⟨by simp only; omega, by simp only; omega⟩
        · exact H.pos d (by simp [hd])
    · rw [Mem.ld32_congr fun x hx _ => link_mem h0 (hGw x hx)]
      exact w1
    · rw [link_mem h0 hxG]
      exact hout x hx
  · -- the block goes as a whole
    rw [if_neg hs, if_neg hs, if_neg hs, List.append_nil]
    refine ⟨link_lists hG hseg (H.roomy.sublist (by simp)) fun d hd => ?_, ?_, fun x _ hxG => ?_⟩
    · exact H.pos d (by simp only [List.mem_append, List.mem_cons] at hd ⊢; tauto)
    · rw [Mem.ld32_congr fun x hx _ => link_mem h0 (hGw x hx)]
      exact hsize
    · exact link_mem h0 hxG

end Take

/-! ### Putting a block in, and joining blocks -/

section Join

variable {h : Heap} {G K : List Block} {b d : Block}

/-- A block linked in between the blocks below and above it. -/
lemma insert_lists (H : h.Lists (G ++ K)) (hsize : h.mem.ld32 b.addr = b.size)
    (hr : Roomy (G ++ b :: K)) (hb : b.addr ≠ 0 ∧ b.top < 4294967296) :
    (Heap.link { h with mem := h.mem.st32 (b.addr + 4) (firstAddr 0 K) }
      (lastAddr 0 G) b.addr).Lists (G ++ b :: K) ∧
    ∀ x, ¬ b.Head x → (∀ d ∈ G, ¬ d.Head x) →
      (Heap.link { h with mem := h.mem.st32 (b.addr + 4) (firstAddr 0 K) }
        (lastAddr 0 G) b.addr).mem x = h.mem x := by
  obtain ⟨y, hG, hK⟩ := seg_append.mp H.seg
  obtain rfl := hK.first
  have hout : ∀ x, ¬ b.Head x → h.mem.st32 (b.addr + 4) (firstAddr 0 K) x = h.mem x := by
    intro x hx
    apply Mem.st32_of_out
    unfold Block.Head at hx
    omega
  have hG' : Seg (h.mem.st32 (b.addr + 4) (firstAddr 0 K)) h.freelist G
      (firstAddr 0 K) := hG.congr fun d hd x hx => hout x (hr.head_ne (Or.inl hd) hx)
  have hK' : Seg (h.mem.st32 (b.addr + 4) (firstAddr 0 K))
      (firstAddr 0 K) K 0 := hK.congr fun d hd x hx => hout x (hr.head_ne (Or.inr hd) hx)
  have hlt : firstAddr 0 K < 4294967296 := by
    cases K with
    | nil => decide
    | cons d K =>
      have := (H.pos d (by simp)).2
      unfold Block.top at this
      exact lt_of_le_of_lt (Nat.le_add_right ..) this
  have hmid : Seg (h.mem.st32 (b.addr + 4) (firstAddr 0 K)) b.addr (b :: K) 0 := by
    refine ⟨rfl, ?_, ?_⟩
    · rw [Mem.ld32_st32_of_ne _ _ (by omega), hsize]
    · rw [Mem.ld32_st32 _ _ hlt]
      exact hK'
  have hpos : ∀ e ∈ G ++ b :: K, e.addr ≠ 0 ∧ e.top < 4294967296 := by
    intro e he
    rcases List.mem_append.mp he with he | he
    · exact H.pos e (by simp [he])
    · rcases List.mem_cons.mp he with rfl | he
      · exact hb
      · exact H.pos e (by simp [he])
  refine ⟨link_lists hG' hmid hr hpos, fun x hx hxG => ?_⟩
  rw [link_mem (fun e he => (H.pos e (by simp [he])).1) hxG]
  exact hout x hx

/-- A new size written to a block of the list. -/
lemma resize_lists (H : h.Lists (G ++ b :: K)) {n : ℕ} (hn : b.addr + n < 4294967296) :
    Heap.Lists { h with mem := h.mem.st32 b.addr n } (G ++ ⟨b.addr, n⟩ :: K) := by
  obtain ⟨hG, hsize, hK⟩ := seg_mid.mp H.seg
  have hout : ∀ x, ¬ b.Head x → h.mem.st32 b.addr n x = h.mem x := by
    intro x hx
    apply Mem.st32_of_out
    unfold Block.Head at hx
    omega
  refine ⟨seg_mid.mpr ⟨?_, Mem.ld32_st32 _ _ (by omega), ?_⟩, H.roomy.resize n, fun d hd => ?_⟩
  · exact hG.congr fun d hd x hx => hout x (H.roomy.head_ne (Or.inl hd) hx)
  · rw [Mem.ld32_st32_of_ne _ _ (by simp)]
    exact hK.congr fun d hd x hx => hout x (H.roomy.head_ne (Or.inr hd) hx)
  · rcases List.mem_append.mp hd with hd | hd
    · exact H.pos d (by simp [hd])
    · rcases List.mem_cons.mp hd with rfl | hd
      · exact ⟨(H.pos b (by simp)).1, hn⟩
      · exact H.pos d (by simp [hd])

/-- A block joined to the next one of the list when the two touch. -/
lemma merge_lists (H : h.Lists (G ++ b :: K)) (hK : K ≠ []) :
    Heap.Lists { h with mem := merge h.mem b.addr (firstAddr 0 K) } (G ++ glue b K) ∧
    ∀ x, ¬ b.Head x → merge h.mem b.addr (firstAddr 0 K) x = h.mem x := by
  obtain ⟨d, K, rfl⟩ := List.exists_cons_of_ne_nil hK
  obtain ⟨hG, hsize, hnext, hdsize, hK⟩ := seg_mid.mp H.seg
  obtain ⟨hb0, hb⟩ := H.pos b (by simp)
  have hd := (H.pos d (by simp)).2
  have hbd : b.addr + 8 ≤ d.addr :=
    (List.pairwise_cons.mp (List.pairwise_append.mp H.roomy).2.1).1 d (by simp)
  have htop : u32 (b.addr + h.mem.ld32 b.addr) = b.top := by
    rw [hsize]
    exact u32_of_lt hb
  rw [show firstAddr 0 (d :: K) = d.addr from rfl]
  unfold Block.top at hd
  by_cases ht : b.top = d.addr
  · have ht' : b.addr + b.size = d.addr := ht
    have hsum : u32 (b.size + d.size) = b.size + d.size := u32_of_lt (by omega)
    have hlink : (h.mem.st32 b.addr (b.size + d.size)).ld32 (d.addr + 4) = h.mem.ld32 (d.addr + 4) :=
      Mem.ld32_st32_of_ne _ _ (by omega)
    have hmerge : merge h.mem b.addr d.addr
        = (h.mem.st32 b.addr (b.size + d.size)).st32 (b.addr + 4) (h.mem.ld32 (d.addr + 4)) := by
      unfold merge
      simp only [hsize, hdsize, hsum, hlink]
      rw [if_pos (by rw [← hsize, htop, ht])]
    rw [glue_touch K ht, hmerge]
    have H1 := resize_lists H (n := b.size + d.size) (by omega)
    obtain ⟨hG1, hs1, -, -, hK1⟩ := seg_mid.mp H1.seg
    have hpre : Seg (h.mem.st32 b.addr (b.size + d.size)) h.freelist
        (G ++ [⟨b.addr, b.size + d.size⟩]) d.addr :=
      seg_mid.mpr ⟨hG1, hs1, by
        rw [Mem.ld32_st32_of_ne _ _ (by simp)]
        exact hnext⟩
    have hpost : Seg (h.mem.st32 b.addr (b.size + d.size)) (h.mem.ld32 (d.addr + 4)) K 0 := by
      rw [← hlink]
      exact hK1
    have hL := link_lists (h := { h with mem := h.mem.st32 b.addr (b.size + d.size) }) hpre hpost
      (H1.roomy.sublist (by simp))
      fun e he => H1.pos e (by simp only [List.mem_append, List.mem_cons] at he ⊢; tauto)
    rw [lastAddr_append, List.append_assoc, List.singleton_append, Heap.link, if_pos hb0] at hL
    refine ⟨hL, fun x hx => ?_⟩
    unfold Block.Head at hx
    rw [Mem.st32_of_out _ _ (by omega), Mem.st32_of_out _ _ (by omega)]
  · have hmerge : merge h.mem b.addr d.addr = h.mem := if_neg (by rw [htop]; exact ht)
    rw [hmerge, glue_apart K ht]
    exact ⟨H, fun x _ => rfl⟩

end Join

end LunariaOS.Libc
