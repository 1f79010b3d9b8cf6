import LunariaOS.Libc.Malloc

/-!
Giving blocks back, clearing and resizing them.

`free` puts the block between the free blocks below and above it and joins it to both neighbours
that it touches, so the list stays one of blocks that do not touch. `realloc` either cuts a block
and frees the rest, or takes a new block, copies the payload and frees the old one.
-/

namespace LunariaOS.Libc

open LunariaOS.Lib

variable {hs lo n : ℕ} {h h' : Heap} {F L G K : List Block} {b : Block}

/-! ### free -/

/-- The blocks below and above a block given back, with the block between them and joined to both. -/
def release (G : List Block) (b : Block) (K : List Block) : List Block :=
  if h : G = [] then glue b K else G.dropLast ++ glue (G.getLast h) (glue b K)

lemma release_concat (G : List Block) (p b : Block) (K : List Block) :
    release (G ++ [p]) b K = G ++ glue p (glue b K) := by
  unfold release
  rw [dif_neg (by simp), List.dropLast_concat, List.getLast_concat]

lemma cover_release (G : List Block) (b : Block) (K : List Block) (x : ℕ) :
    cover (release G b K) x = cover (G ++ b :: K) x := by
  rcases List.eq_nil_or_concat G with rfl | ⟨G, p, rfl⟩
  · exact cover_glue b K x
  · rw [List.concat_eq_append, release_concat, List.append_assoc, cover_append, cover_append,
      cover_glue, List.singleton_append, cover_cons, cover_cons, cover_glue]

/-- The block given back lies in one of the free blocks. -/
lemma release_within (G : List Block) (b : Block) (K : List Block) :
    ∃ d ∈ release G b K, b.Within d := by
  obtain ⟨d, hd, hbd⟩ := glue_within b K
  rcases List.eq_nil_or_concat G with rfl | ⟨G, p, rfl⟩
  · exact ⟨d, hd, hbd⟩
  · rw [List.concat_eq_append, release_concat]
    obtain ⟨e, he, hde⟩ := glue_keeps p hd
    exact ⟨e, List.mem_append_right _ he, hbd.trans hde⟩

lemma release_all {P : Block → Prop} (hG : ∀ d ∈ G, P d) (hb : P b) (hK : ∀ d ∈ K, P d)
    (hj : ∀ d e, P d → P e → P ⟨d.addr, d.size + e.size⟩) : ∀ d ∈ release G b K, P d := by
  have hbK : ∀ d ∈ glue b K, P d := glue_all hb hK fun d _ hd => hj b d hb hd
  rcases List.eq_nil_or_concat G with rfl | ⟨G, p, rfl⟩
  · exact hbK
  · rw [List.concat_eq_append] at *
    have hp : P p := hG p (by simp)
    rw [release_concat]
    intro d hd
    rcases List.mem_append.mp hd with hd | hd
    · exact hG d (by simp [hd])
    · exact glue_all hp hbK (fun e _ he => hj p e hp he) d hd

lemma spaced_release (hG : Spaced G) (hK : Spaced K) (hGb : ∀ d ∈ G, d.top ≤ b.addr)
    (hbK : ∀ d ∈ K, b.top ≤ d.addr) : Spaced (release G b K) := by
  have h1 : Spaced (glue b K) := hK.glue hbK
  rcases List.eq_nil_or_concat G with rfl | ⟨G, p, rfl⟩
  · exact h1
  · rw [List.concat_eq_append] at *
    rw [release_concat]
    obtain ⟨hG, -, hGp⟩ := List.pairwise_append.mp hG
    have hlow : ∀ d ∈ glue b K, b.addr ≤ d.addr := by
      refine glue_all (le_refl _) (fun d hd => ?_) fun d _ _ => le_refl _
      have := hbK d hd
      unfold Block.top at this
      omega
    have hp := hGb p (by simp)
    have h2 : Spaced (glue p (glue b K)) := h1.glue fun d hd => le_trans hp (hlow d hd)
    refine List.pairwise_append.mpr ⟨hG, h2, fun g hg d hd => ?_⟩
    have hgp := hGp g hg p (by simp)
    refine glue_all (P := fun d => g.top < d.addr) hgp (fun d hd => ?_) (fun d _ _ => hgp) d hd
    have := hlow d hd
    unfold Block.top at *
    omega

lemma joins_next (H : h.Lists (G ++ b :: K)) (cur : ℕ) (hcur : cur = firstAddr 0 K) :
    ∃ h', (if cur ≠ 0 then { h with mem := merge h.mem b.addr cur } else h) = h' ∧
      h'.Lists (G ++ glue b K) ∧ h'.heapBrk = h.heapBrk ∧ h'.brk = h.brk ∧
      h'.heapState = h.heapState ∧ ∀ x, ¬ b.Head x → h'.mem x = h.mem x := by
  subst hcur
  cases K with
  | nil => exact ⟨h, if_neg (by simp [firstAddr]), H, rfl, rfl, rfl, fun _ _ => rfl⟩
  | cons d K =>
    obtain ⟨h1, h2⟩ := merge_lists H (by simp)
    exact ⟨_, if_pos (H.pos d (by simp)).1, h1, rfl, rfl, rfl, h2⟩

lemma joins_lists (H : h.Lists (G ++ b :: K)) :
    (h.joins (lastAddr 0 G) b.addr (firstAddr 0 K)).Lists (release G b K) ∧
    (h.joins (lastAddr 0 G) b.addr (firstAddr 0 K)).heapBrk = h.heapBrk ∧
    (h.joins (lastAddr 0 G) b.addr (firstAddr 0 K)).brk = h.brk ∧
    (h.joins (lastAddr 0 G) b.addr (firstAddr 0 K)).heapState = h.heapState ∧
    ∀ x, ¬ b.Head x → (∀ d ∈ G, ¬ d.Head x) →
      (h.joins (lastAddr 0 G) b.addr (firstAddr 0 K)).mem x = h.mem x := by
  obtain ⟨h₁, e₁, H₁, b₁, k₁, s₁, m₁⟩ := joins_next H _ rfl
  unfold Heap.joins
  simp only [e₁]
  rcases List.eq_nil_or_concat G with rfl | ⟨G, p, rfl⟩
  · rw [if_neg (by simp [lastAddr])]
    exact ⟨H₁, b₁, k₁, s₁, fun x hx _ => m₁ x hx⟩
  · rw [List.concat_eq_append] at *
    obtain ⟨k, K', hk⟩ := glue_first b K
    rw [List.append_assoc, List.singleton_append] at H₁
    obtain ⟨h1, h2⟩ := merge_lists H₁ (by simp [hk])
    have hfirst : firstAddr 0 (glue b K) = b.addr := by rw [hk]; rfl
    rw [hfirst] at h1 h2
    rw [lastAddr_append, if_pos (H.pos p (by simp)).1, release_concat]
    exact ⟨h1, b₁, k₁, s₁, fun x hx hxG => (h2 x (hxG p (by simp))).trans (m₁ x hx)⟩

lemma blockOf_eq {a : ℕ} (ha : a + 8 < 4294967296) : blockOf (a + 8) = a := by
  unfold blockOf blockHdr u32
  omega

/-- Giving a live block back. -/
lemma free_ok (H : HeapOk hs h lo F (b :: L)) (hn : F.length < n) :
    ∃ F' h', h.free n (b.addr + 8) = some h' ∧ HeapOk hs h' lo F' L ∧ Frame h h' (b :: F) ∧
      h'.heapBrk = h.heapBrk ∧ ∃ d ∈ F', b.Within d := by
  have hb := H.top_lt (b := b) (by simp)
  have hb8 := (H.shape b (by simp)).2.2
  have hptr : blockOf (b.addr + 8) = b.addr :=
    blockOf_eq (by unfold Block.top at hb; omega)
  obtain ⟨G, K, rfl, hG, hK, hfind⟩ :=
    findPlace_eq b.addr 0 H.seg (fun d hd => (H.lists.pos d hd).1) hn
  obtain ⟨hsG, hsK, hsGK⟩ := List.pairwise_append.mp H.spaced
  have hpos : ∀ d ∈ G ++ K, 8 ≤ d.size := fun d hd =>
    (H.shape d (List.mem_append_left _ hd)).2.2
  -- the blocks before it end below it, and it ends below those after
  have hGb : ∀ d ∈ G, d.top ≤ b.addr := by
    intro d hd
    have h1 := hG d hd
    rcases H.apart (d := d) (by simp [hd]) (b := b) (by simp) with h | h
    · exact h
    · unfold Block.top at h
      omega
  have hbK : ∀ d ∈ K, b.top ≤ d.addr := by
    intro d hd
    have h1 : b.addr ≤ d.addr := by
      cases K with
      | nil => simp at hd
      | cons e K =>
        have he := hK e rfl
        rcases List.mem_cons.mp hd with rfl | hd
        · exact he
        · have := (List.pairwise_cons.mp hsK).1 d hd
          unfold Block.top at this
          omega
    have h2 := hpos d (by simp [hd])
    rcases H.apart (d := d) (by simp [hd]) (b := b) (by simp) with h | h
    · unfold Block.top at h
      omega
    · exact h
  have hroomy : Roomy (G ++ b :: K) := by
    obtain ⟨r1, r2, r3⟩ := List.pairwise_append.mp H.lists.roomy
    refine List.pairwise_append.mpr ⟨r1, List.pairwise_cons.mpr ⟨fun d hd => ?_, r2⟩, ?_⟩
    · have := hbK d hd
      unfold Block.top at this
      omega
    · intro d hd e he
      rcases List.mem_cons.mp he with rfl | he
      · have h1 := hGb d hd
        have h2 := hpos d (by simp [hd])
        unfold Block.top at h1
        omega
      · exact r3 d hd e he
  obtain ⟨hins, mins⟩ := insert_lists H.lists (H.live b (by simp)) hroomy hb
  obtain ⟨hl, hbk, hk, hst, hmem⟩ := joins_lists hins
  generalize hh : (Heap.link { h with mem := h.mem.st32 (b.addr + 4) (firstAddr 0 K) }
    (lastAddr 0 G) b.addr).joins (lastAddr 0 G) b.addr (firstAddr 0 K) = h' at *
  simp only [link_heapBrk, link_brk, link_heapState] at hbk hk hst
  have hfr : Frame h h' (b :: (G ++ K)) := by
    intro x hx _
    have hcov := cover_eq_zero.mp hx
    have hhead : ∀ d ∈ b :: (G ++ K), ¬ d.Head x := by
      intro d hd hdx
      have h8 : 8 ≤ d.size := by
        rcases List.mem_cons.mp hd with rfl | hd
        · exact hb8
        · exact hpos d hd
      unfold Block.Head at hdx
      exact hcov d hd ⟨hdx.1, by omega⟩
    have hG : ∀ d ∈ G, ¬ d.Head x := fun d hd => hhead d (by simp [hd])
    exact (hmem x (hhead b (by simp)) hG).trans (mins x (hhead b (by simp)) hG)
  refine ⟨release G b K, h', ?_, ?_, hfr, hbk, release_within G b K⟩
  · unfold Heap.free
    rw [if_neg (by omega), hptr]
    simp only [hfind, Option.bind_eq_bind, Option.bind_some]
    rw [hh]
  · refine ⟨hst.trans H.state, ?_, ?_, ?_, ?_, hl.seg, spaced_release hsG hsK hGb hbK, ?_, ?_, ?_⟩
    · rw [hk, hbk, H.brk_eq]
    · rw [hbk]
      exact H.start
    · rw [hbk]
      exact H.top_le
    · rw [hbk]
      exact H.aligned
    · intro d hd
      exact H.frame_header hfr (by simp [hd]) fun x hx => H.cover_freed hd hx
    · rw [hbk]
      refine H.tiles.congr fun x => ?_
      simp only [cover_append, cover_release, cover_cons]
      omega
    · intro d hd
      rcases List.mem_append.mp hd with hd | hd
      · refine release_all (P := fun d => 8 ∣ d.addr ∧ 8 ∣ d.size ∧ 8 ≤ d.size)
          (fun d hd => H.shape d (by simp [hd])) (H.shape b (by simp))
          (fun d hd => H.shape d (by simp [hd])) (fun d e hd he => ?_) d hd
        exact ⟨hd.1, Nat.dvd_add hd.2.1 he.2.1, by simp only; omega⟩
      · exact H.shape d (by simp [hd])

end LunariaOS.Libc
