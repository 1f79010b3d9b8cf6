import LunariaOS.Libc.Inv

/-!
Booting the allocator and taking blocks from it.

Each specification says that the call returns, which blocks are free and live afterwards, and that
only bytes of free blocks and of the new part of the region were written. `malloc` finds a block at
the latest in its second round: once the region has grown, the block at its end has room.
-/

namespace LunariaOS.Libc

open LunariaOS.Lib

variable {hs lo n : ℕ} {h h' : Heap} {F L : List Block} {b : Block}

/-! ### The start -/

lemma heapBoot_ok (hbrk : userBase ≤ h.brk ∧ h.brk ≤ userStack ∧ 8 ∣ h.brk) (hhs : 8 ∣ hs)
    (hhs32 : hs < 4294967296) (hfree : h.freelist = 0) :
    (h.brk < hs ∧ userStack < hs ∧ h.heapBoot hs = { h with heapState := -1 }) ∨
    ∃ lo, HeapOk hs (h.heapBoot hs) lo [] [] ∧ (h.heapBoot hs).mem = h.mem := by
  have h0 : ∀ brk, vmSbrk brk 0 = brk := fun brk => if_pos rfl
  have hinc : hs - h.brk < 4294967296 := by omega
  have hgrow := vmSbrk_eq hbrk.2.1 hinc
  unfold Heap.heapBoot Heap.sysSbrk
  simp only [h0]
  by_cases hw : hs > h.brk
  · simp only [if_pos hw, hgrow, Nat.add_sub_cancel' (le_of_lt hw)]
    by_cases hroom : hs ≤ userStack
    · rw [if_pos hroom, if_neg (by omega)]
      exact Or.inr ⟨hs, ⟨rfl, rfl, ⟨le_refl _, by omega, le_refl _⟩, hroom, hhs, hfree,
        List.Pairwise.nil, by simp, Tiles.nil _, by simp⟩, rfl⟩
    · rw [if_neg hroom, if_pos ⟨hw, le_refl _⟩]
      exact Or.inl ⟨hw, by omega, rfl⟩
  · simp only [if_neg hw]
    rw [if_neg (by omega)]
    exact Or.inr ⟨h.brk, ⟨rfl, rfl, ⟨by omega, hbrk.1, le_refl _⟩, hbrk.2.1, hbrk.2.2, hfree,
      List.Pairwise.nil, by simp, Tiles.nil _, by simp⟩, rfl⟩

/-! ### Taking a block -/

lemma leftover_all {P : Block → Prop} {need : ℕ}
    (hP : need + 16 ≤ b.size → P ⟨b.addr + need, b.size - need⟩) : ∀ d ∈ leftover b need, P d := by
  intro d hd
  unfold leftover at hd
  split_ifs at hd with h
  · rw [List.mem_singleton.mp hd]
    exact hP h
  · simp at hd

/-- The start of a free block becomes a live one. -/
lemma take_ok {G K : List Block} {need : ℕ} (H : HeapOk hs h lo (G ++ b :: K) L)
    (h8 : 8 ≤ need) (hd8 : 8 ∣ need) (hfit : need ≤ b.size) :
    HeapOk hs (h.take need (lastAddr 0 G) b.addr) lo (G ++ leftover b need ++ K)
      (taken b need :: L) ∧
    Frame h (h.take need (lastAddr 0 G) b.addr) (G ++ b :: K) := by
  have hb := H.shape b (by simp)
  have htop := H.top_lt (b := b) (by simp)
  have hsp := List.pairwise_append.mp H.spaced
  have hspb := List.pairwise_cons.mp hsp.2.1
  have hin := H.inside (b := b) (by simp)
  have hstack := H.top_le
  unfold Block.top at htop hin
  unfold userStack at hstack
  obtain ⟨hl, hsize, hmem⟩ := take_lists H.lists (fun d hd => le_of_lt (hspb.1 d hd)) h8 hfit
    (by omega)
  have hfr : Frame h (h.take need (lastAddr 0 G) b.addr) (G ++ b :: K) := by
    intro x hx _
    rw [cover_append, cover_cons] at hx
    have hxb : ¬ b.Has x := fun hb => by rw [if_pos hb] at hx; omega
    have hxG : cover G x = 0 := by omega
    refine hmem x hxb fun d hd hdx => cover_eq_zero.mp hxG d hd ?_
    have := (H.shape d (by simp [hd])).2.2
    unfold Block.Head at hdx
    exact ⟨hdx.1, by omega⟩
  have hkeep : (h.take need (lastAddr 0 G) b.addr).heapBrk = h.heapBrk
      ∧ (h.take need (lastAddr 0 G) b.addr).brk = h.brk
      ∧ (h.take need (lastAddr 0 G) b.addr).heapState = h.heapState := by
    unfold Heap.take
    split_ifs <;> simp
  have haddr : (taken b need).addr = b.addr := by
    unfold taken
    split_ifs <;> rfl
  refine ⟨⟨?_, ?_, ?_, ?_, ?_, hl.seg, ?_, ?_, ?_, ?_⟩, hfr⟩
  · rw [hkeep.2.2, H.state]
  · rw [hkeep.1, hkeep.2.1, H.brk_eq]
  · rw [hkeep.1]
    exact H.start
  · rw [hkeep.1]
    exact H.top_le
  · rw [hkeep.1]
    exact H.aligned
  · rw [List.append_assoc]
    refine List.pairwise_append.mpr ⟨hsp.1, List.pairwise_append.mpr ⟨?_, hspb.2, ?_⟩, ?_⟩
    · unfold leftover
      split_ifs
      · exact List.pairwise_singleton ..
      · exact List.Pairwise.nil
    · refine leftover_all fun hr d hd => ?_
      have := hspb.1 d hd
      unfold Block.top at *
      simp only
      omega
    · intro d hd e he
      rcases List.mem_append.mp he with he | he
      · refine leftover_all (P := fun e => d.top < e.addr) (fun hr => ?_) e he
        have := hsp.2.2 d hd b (by simp)
        simp only
        omega
      · exact hsp.2.2 d hd e (by simp [he])
  · refine List.forall_mem_cons.mpr ⟨by rw [haddr, hsize], fun d hd => H.frame_size hfr hd⟩
  · rw [hkeep.1]
    refine H.tiles.congr fun x => ?_
    have := cover_taken b need x
    simp only [cover_append, cover_cons, cover_nil] at this ⊢
    omega
  · intro d hd
    simp only [List.mem_append, List.mem_cons] at hd
    rcases hd with ((hd | hd) | hd) | hd | hd
    · exact H.shape d (by simp [hd])
    · exact leftover_all (P := fun d => 8 ∣ d.addr ∧ 8 ∣ d.size ∧ 8 ≤ d.size)
        (fun hr => ⟨by simp only; omega, by simp only; omega, by simp only; omega⟩) d hd
    · exact H.shape d (by simp [hd])
    · subst hd
      unfold taken
      split_ifs
      · exact ⟨hb.1, hd8, h8⟩
      · exact hb
    · exact H.shape d (by simp [hd])

lemma taken_size {need : ℕ} (hfit : need ≤ b.size) :
    need ≤ (taken b need).size ∧ (taken b need).addr = b.addr := by
  unfold taken
  split_ifs
  · exact ⟨le_refl _, rfl⟩
  · exact ⟨hfit, rfl⟩

/-- Where some free block has room, the loop ends at once with a block. -/
lemma mallocLoop_found {need : ℕ} (H : HeapOk hs h lo F L) (h8 : 8 ≤ need) (hd8 : 8 ∣ need)
    (hex : ∃ b ∈ F, need ≤ b.size) (hn : F.length < n) :
    ∃ k F' h', Heap.mallocLoop need (n + 1) h = some (k.addr + 8, h') ∧ need ≤ k.size ∧
      HeapOk hs h' lo F' (k :: L) ∧ Frame h h' F ∧ h'.heapBrk = h.heapBrk := by
  rcases findFit_eq need 0 H.seg (fun b hb => (H.lists.pos b hb).1) hn with
    ⟨G, b, K, rfl, hfit, hfind⟩ | ⟨hnone, -⟩
  · obtain ⟨h1, h2⟩ := take_ok H h8 hd8 hfit
    have htop := H.top_lt (b := b) (by simp)
    have hk := taken_size hfit
    have hb8 := (H.shape b (by simp)).2.2
    have hu : u32 (b.addr + blockHdr) = b.addr + 8 :=
      u32_of_lt (by unfold Block.top at htop; unfold blockHdr; omega)
    refine ⟨taken b need, _, _, ?_, hk.1, h1, h2, ?_⟩
    · rw [hk.2, Heap.mallocLoop, hfind]
      simp only [Option.bind_eq_bind, Option.bind_some]
      rw [if_pos htop.1, hu]
    · unfold Heap.take
      split_ifs <;> simp
  · obtain ⟨b, hb, hfit⟩ := hex
    exact absurd (hnone b hb) (by omega)

/-! ### Growing the region -/

/-- The blocks of the list with a new one at its end, joined to the last one when they touch. -/
def extend (F : List Block) (d : Block) : List Block :=
  if h : F = [] then [d] else F.dropLast ++ glue (F.getLast h) [d]

lemma extend_concat (G : List Block) (p d : Block) : extend (G ++ [p]) d = G ++ glue p [d] := by
  unfold extend
  rw [dif_neg (by simp), List.dropLast_concat, List.getLast_concat]

lemma mem_extend {d e : Block} (he : e ∈ extend F d) :
    e ∈ F ∨ e = d ∨ ∃ p ∈ F, e = ⟨p.addr, p.size + d.size⟩ := by
  rcases List.eq_nil_or_concat F with rfl | ⟨G, p, rfl⟩
  · exact Or.inr (Or.inl (by simpa [extend] using he))
  · rw [List.concat_eq_append] at *
    rw [extend_concat] at he
    rcases List.mem_append.mp he with he | he
    · exact Or.inl (by simp [he])
    · refine glue_all (P := fun e => e ∈ G ++ [p] ∨ e = d ∨
        ∃ q ∈ G ++ [p], e = ⟨q.addr, q.size + d.size⟩) (Or.inl (by simp)) ?_ ?_ e he
      · intro e he
        exact Or.inr (Or.inl (List.mem_singleton.mp he))
      · intro e he _
        rw [List.mem_singleton.mp he]
        exact Or.inr (Or.inr ⟨p, by simp, rfl⟩)

lemma length_extend (F : List Block) (d : Block) : (extend F d).length ≤ F.length + 1 := by
  rcases List.eq_nil_or_concat F with rfl | ⟨G, p, rfl⟩
  · exact le_refl _
  · rw [List.concat_eq_append, extend_concat]
    by_cases ht : p.top = d.addr
    · rw [glue_touch [] ht]
      simp
    · rw [glue_apart [] ht]
      simp

lemma cover_extend (F : List Block) (d : Block) (x : ℕ) :
    cover (extend F d) x = cover (d :: F) x := by
  rcases List.eq_nil_or_concat F with rfl | ⟨G, p, rfl⟩
  · rfl
  · rw [List.concat_eq_append, extend_concat, cover_append, cover_glue]
    simp only [cover_cons, cover_append, cover_nil]
    omega

lemma spaced_extend {d : Block} (hs : Spaced F) (hd : ∀ e ∈ F, e.top ≤ d.addr) :
    Spaced (extend F d) := by
  rcases List.eq_nil_or_concat F with rfl | ⟨G, p, rfl⟩
  · exact List.pairwise_singleton ..
  · rw [List.concat_eq_append] at *
    rw [extend_concat]
    obtain ⟨hG, -, hGp⟩ := List.pairwise_append.mp hs
    refine List.pairwise_append.mpr ⟨hG, ?_, fun g hg e he => ?_⟩
    · refine Spaced.glue (List.pairwise_singleton ..) fun e he => ?_
      rw [List.mem_singleton.mp he]
      exact hd p (by simp)
    · have hgp := hGp g hg p (by simp)
      refine glue_all (P := fun e => g.top < e.addr) hgp (fun e he => ?_) (fun e _ _ => hgp) e he
      have := hd p (by simp)
      rw [List.mem_singleton.mp he]
      unfold Block.top at *
      omega

/-- Where the list takes in the new block, some block is at least as large. -/
lemma extend_large (F : List Block) (d : Block) : ∃ e ∈ extend F d, d.size ≤ e.size := by
  rcases List.eq_nil_or_concat F with rfl | ⟨G, p, rfl⟩
  · exact ⟨d, by simp [extend], le_refl _⟩
  · rw [List.concat_eq_append, extend_concat]
    by_cases ht : p.top = d.addr
    · rw [glue_touch [] ht]
      exact ⟨⟨p.addr, p.size + d.size⟩, by simp, by simp⟩
    · rw [glue_apart [] ht]
      exact ⟨d, by simp, le_refl _⟩

lemma addTail_lists {d : Block} (H : h.Lists F) (hsize : h.mem.ld32 d.addr = d.size)
    (hnext : h.mem.ld32 (d.addr + 4) = 0) (hr : Roomy (F ++ [d]))
    (hd : d.addr ≠ 0 ∧ d.top < 4294967296) (htop : ∀ e ∈ F, e.top ≤ d.addr) (hn : F.length < n) :
    ∃ h', h.addTail n d.addr = some h' ∧ h'.Lists (extend F d) ∧
      h'.heapBrk = h.heapBrk ∧ h'.brk = h.brk ∧ h'.heapState = h.heapState ∧
      ∀ x, (∀ e ∈ F, ¬ e.Head x) → h'.mem x = h.mem x := by
  have hpos : ∀ e ∈ F ++ [d], e.addr ≠ 0 ∧ e.top < 4294967296 := by
    intro e he
    rcases List.mem_append.mp he with he | he
    · exact H.pos e he
    · rw [List.mem_singleton.mp he]
      exact hd
  have hlink : (h.link (lastAddr 0 F) d.addr).Lists (F ++ [d]) :=
    link_lists H.seg ⟨rfl, hsize, hnext⟩ hr hpos
  unfold Heap.addTail
  rcases List.eq_nil_or_concat F with rfl | ⟨G, p, rfl⟩
  · have hnil : h.freelist = 0 := H.seg
    rw [if_pos hnil]
    exact ⟨_, rfl, hlink, rfl, rfl, rfl, fun x _ => rfl⟩
  · rw [List.concat_eq_append] at *
    have hp := H.pos p (by simp)
    have hfirst : ¬ h.freelist = 0 := by
      rw [H.seg.first]
      cases G with
      | nil => exact hp.1
      | cons e G => exact (H.pos e (by simp)).1
    have hlast := lastBlock_eq (n := n) H.seg (fun e he => (H.pos e he).1) (by simp at hn; omega)
    have hpsize : h.mem.ld32 p.addr = p.size := H.seg.size_eq (by simp)
    have hptop : u32 (p.addr + p.size) = p.top := u32_of_lt hp.2
    rw [if_neg hfirst, hlast, extend_concat]
    simp only [Option.bind_eq_bind, Option.bind_some, hpsize, hsize, hptop]
    by_cases ht : p.top = d.addr
    · have ht' : p.addr + p.size = d.addr := ht
      have hdtop := hd.2
      unfold Block.top at hdtop
      have hsum : u32 (p.size + d.size) = p.size + d.size := u32_of_lt (by omega)
      rw [if_pos ht, hsum, glue_touch [] ht]
      refine ⟨_, rfl, resize_lists H (by omega), rfl, rfl, rfl, fun x hx => ?_⟩
      have := hx p (by simp)
      unfold Block.Head at this
      exact Mem.st32_of_out _ _ (by omega)
    · rw [lastAddr_append, Heap.link, if_pos hp.1, List.append_assoc] at hlink
      rw [if_neg ht, glue_apart [] ht]
      refine ⟨_, rfl, hlink, rfl, rfl, rfl, fun x hx => ?_⟩
      have := hx p (by simp)
      unfold Block.Head at this
      exact Mem.st32_of_out _ _ (by omega)

/-- The region grows by a free block with room for the request, or the break stays where it is. -/
lemma morecore_ok {need : ℕ} (H : HeapOk hs h lo F L) (hneed : need ≤ 0xFFFFF000)
    (hn : F.length < n) :
    (vmSbrk h.brk (coreSize need) = h.brk ∧ h.morecore n need = some (false, h)) ∨
    ∃ F' h', h.morecore n need = some (true, h') ∧ (∃ b ∈ F', need ≤ b.size) ∧
      F'.length ≤ F.length + 1 ∧ HeapOk hs h' lo F' L ∧ Frame h h' F ∧ h.heapBrk ≤ h'.heapBrk := by
  obtain ⟨c1, c2, c3, c4⟩ := coreSize_bounds hneed
  generalize hreq : coreSize need = req at *
  have hstack := H.top_le
  have hstart := H.start
  have hle : h.brk ≤ userStack := by
    rw [H.brk_eq]
    exact hstack
  have hbrk := vmSbrk_eq hle c4
  unfold userStack at hstack hbrk
  unfold userBase at hstart
  have hu : u32 (h.heapBrk + req) ≠ h.heapBrk := by
    unfold u32
    omega
  unfold Heap.morecore Heap.sysSbrk
  simp only [hreq]
  by_cases hroom : h.brk + req ≤ 8384512
  · rw [if_pos hroom, H.brk_eq] at hbrk
    rw [H.brk_eq] at hroom
    have hu' : u32 (h.heapBrk + req) = h.heapBrk + req := u32_of_lt (by omega)
    rw [H.brk_eq, hbrk, hu', if_neg (by simp)]
    -- the header of the new block lies above every block there is
    have hlow : ∀ e ∈ F ++ L, e.top ≤ h.heapBrk := fun e he => (H.inside he).2.2
    have hout : ∀ x, x < h.heapBrk ∨ h.heapBrk + 8 ≤ x →
        (h.mem.st32 h.heapBrk req).st32 (h.heapBrk + 4) 0 x = h.mem x := by
      intro x hx
      rw [Mem.st32_of_out _ _ (by omega), Mem.st32_of_out _ _ (by omega)]
    have hH : Heap.Lists { h with
        mem := (h.mem.st32 h.heapBrk req).st32 (h.heapBrk + 4) 0
        heapBrk := h.heapBrk + req, brk := h.heapBrk + req } F := by
      refine ⟨H.seg.congr fun e he x hx => hout x ?_, H.lists.roomy, H.lists.pos⟩
      have h1 := hlow e (by simp [he])
      have h2 := (H.shape e (by simp [he])).2.2
      unfold Block.top at h1
      unfold Block.Head at hx
      omega
    obtain ⟨h', hadd, hl, hb, hbk, hst, hmem⟩ := addTail_lists (n := n) (d := ⟨h.heapBrk, req⟩) hH
      (by simp only; rw [Mem.ld32_st32_of_ne _ _ (by omega), Mem.ld32_st32 _ _ c4])
      (Mem.ld32_st32 _ _ (by omega))
      (List.pairwise_append.mpr ⟨H.lists.roomy, List.pairwise_singleton .., fun e he d hd => by
        have h1 := hlow e (by simp [he])
        have h2 := (H.shape e (by simp [he])).2.2
        rw [List.mem_singleton.mp hd]
        unfold Block.top at h1
        simp only
        omega⟩)
      ⟨by simp only; omega, by simp only [Block.top]; omega⟩
      (fun e he => hlow e (by simp [he])) hn
    obtain ⟨e, he, hlarge⟩ := extend_large F ⟨h.heapBrk, req⟩
    have hb' : h'.heapBrk = h.heapBrk + req := hb
    have hfr : Frame h h' F := by
      intro x hx hreg
      rw [hmem x fun d hd hdx => cover_eq_zero.mp hx d hd ?_]
      · exact hout x (by omega)
      · have := (H.shape d (by simp [hd])).2.2
        unfold Block.Head at hdx
        exact ⟨hdx.1, by omega⟩
    refine Or.inr ⟨extend F ⟨h.heapBrk, req⟩, h', ?_, ⟨e, he, le_trans c1 hlarge⟩,
      length_extend .., ?_, hfr, by omega⟩
    · rw [hadd]
      rfl
    · refine ⟨hst.trans H.state, ?_, ?_, ?_, ?_, hl.seg, ?_, ?_, ?_, ?_⟩
      · rw [hbk, hb]
      · rw [hb']
        exact ⟨H.start.1, H.start.2.1, by omega⟩
      · rw [hb']
        exact hroom
      · rw [hb']
        exact Nat.dvd_add H.aligned c2
      · exact spaced_extend H.spaced fun d hd => hlow d (by simp [hd])
      · exact fun d hd => H.frame_size hfr hd
      · rw [hb']
        refine (H.tiles.grow H.start.2.2).congr fun x => ?_
        rw [cover_append, cover_extend, cover_cons, cover_cons, cover_append]
        omega
      · intro d hd
        rcases List.mem_append.mp hd with hd | hd
        · rcases mem_extend hd with hd | rfl | ⟨p, hp, rfl⟩
          · exact H.shape d (by simp [hd])
          · exact ⟨H.aligned, c2, by simp only; omega⟩
          · have := H.shape p (by simp [hp])
            exact ⟨this.1, Nat.dvd_add this.2.1 c2, by simp only; omega⟩
        · exact H.shape d (by simp [hd])
  · rw [if_neg hroom, H.brk_eq] at hbrk
    have hsame : { h with brk := h.heapBrk } = h :=
      congrArg (fun b => { h with brk := b }) H.brk_eq.symm
    rw [H.brk_eq, hbrk, if_pos hu.symm, hsame]
    exact Or.inl ⟨rfl, rfl⟩

/-! ### malloc -/

lemma Frame.trans {h₁ h₂ h₃ : Heap} {l l' : List Block} (h12 : Frame h₁ h₂ l) (h23 : Frame h₂ h₃ l')
    (hle : h₁.heapBrk ≤ h₂.heapBrk) (hle' : h₂.heapBrk ≤ h₃.heapBrk)
    (hl : ∀ x, x < h₁.heapBrk ∨ h₃.heapBrk ≤ x → cover l x = 0 → cover l' x = 0) :
    Frame h₁ h₃ l := by
  intro x hx hreg
  rw [h23 x (hl x hreg hx) (by omega), h12 x hx (by omega)]

/-- The outcome of a call that asks for `size` bytes. -/
def Got (hs : ℕ) (h : Heap) (lo : ℕ) (F L : List Block) (size r : ℕ) (h' : Heap) : Prop :=
  (r = 0 ∧ h' = h ∧ (∀ b ∈ F, b.size < needOf size) ∧
    vmSbrk h.brk (coreSize (needOf size)) = h.brk) ∨
  ∃ k F', r = k.addr + 8 ∧ needOf size ≤ k.size ∧ HeapOk hs h' lo F' (k :: L) ∧ Frame h h' F ∧
    h.heapBrk ≤ h'.heapBrk

lemma mallocLoop_ok {size : ℕ} (H : HeapOk hs h lo F L) (hsize : size ≤ maxRequest)
    (hn : enough ≤ n) : ∃ r h', Heap.mallocLoop (needOf size) n h = some (r, h') ∧
      Got hs h lo F L size r h' := by
  obtain ⟨n1, n2, n3⟩ := needOf_bounds hsize
  have hlen := H.length_lt
  obtain ⟨n, rfl⟩ : ∃ k, n = k + 2 := ⟨n - 2, by unfold enough at *; omega⟩
  by_cases hex : ∃ b ∈ F, needOf size ≤ b.size
  · obtain ⟨k, F', h', h1, h2, h3, h4, h5⟩ :=
      mallocLoop_found (n := n + 1) H (by omega) n2 hex (by omega)
    exact ⟨_, h', h1, Or.inr ⟨k, F', rfl, h2, h3, h4, le_of_eq h5.symm⟩⟩
  · have hall : ∀ b ∈ F, b.size < needOf size := by
      intro b hb
      by_contra hn
      exact hex ⟨b, hb, by omega⟩
    obtain ⟨q, hq⟩ : ∃ q, findFit h.mem (needOf size) (n + 1) 0 h.freelist = some (q, 0) := by
      rcases findFit_eq (n := n + 1) (needOf size) 0 H.seg (fun b hb => (H.lists.pos b hb).1)
        (by omega) with ⟨G, b, K, rfl, hfit, -⟩ | ⟨-, hq⟩
      · exact absurd ⟨b, by simp, hfit⟩ hex
      · exact hq
    have hstep : ∀ x, h.morecore (n + 1) (needOf size) = some x →
        Heap.mallocLoop (needOf size) (n + 2) h =
          if x.1 then Heap.mallocLoop (needOf size) (n + 1) x.2 else some (0, x.2) := by
      intro x hx
      rw [Heap.mallocLoop, hq]
      simp only [Option.bind_eq_bind, Option.bind_some, if_neg (show ¬ 0 ≠ 0 by omega), hx]
    rcases morecore_ok (n := n + 1) H n3 (by omega) with
      ⟨hno, hmore⟩ | ⟨F', h', hmore, hex', hlen', H', hfr, hle⟩
    · rw [hstep _ hmore]
      exact ⟨0, h, rfl, Or.inl ⟨rfl, rfl, hall, hno⟩⟩
    · obtain ⟨k, F'', h'', h1, h2, h3, h4, h5⟩ :=
        mallocLoop_found (n := n) H' (by omega) n2 hex' (by omega)
      rw [hstep _ hmore]
      refine ⟨_, h'', h1, Or.inr ⟨k, F'', rfl, h2, h3, ?_, by omega⟩⟩
      refine hfr.trans h4 hle (le_of_eq h5.symm) fun x hreg hx => ?_
      -- no address of the old region, or past the new one, has become free
      have t := H.tiles x
      have t' := H'.tiles x
      rw [cover_append] at t t'
      rcases hreg with hreg | hreg
      · have hiff : (lo ≤ x ∧ x < h'.heapBrk) ↔ (lo ≤ x ∧ x < h.heapBrk) := by omega
        simp only [hiff] at t'
        omega
      · rw [if_neg (by omega)] at t'
        omega

/-- Before the first call: nothing has been allocated, and the break is where the loader put it. -/
def Fresh (h : Heap) : Prop :=
  h.heapState = 0 ∧ h.freelist = 0 ∧ userBase ≤ h.brk ∧ h.brk ≤ userStack ∧ 8 ∣ h.brk

/-- The break could not be grown up to `__heap_start`, and every call fails from then on. -/
def Failed (hs : ℕ) (h : Heap) : Prop :=
  h.heapState = -1 ∧ h.freelist = 0 ∧ h.brk < hs ∧ vmSbrk h.brk (hs - h.brk) = h.brk

/-- The states that the allocator can be in when the blocks of `L` are live. -/
def Sound (hs : ℕ) (h : Heap) (L : List Block) : Prop :=
  (L = [] ∧ (Fresh h ∨ Failed hs h)) ∨ ∃ lo F, HeapOk hs h lo F L

/-- What a call that asks for `size` bytes comes to: the allocator is out of use, or it was booted
with some blocks free, and then it served the request from them. -/
def Served (hs : ℕ) (h : Heap) (L : List Block) (size r : ℕ) (h' : Heap) : Prop :=
  (r = 0 ∧ L = [] ∧ Failed hs h' ∧ h'.mem = h.mem) ∨
  ∃ h₁ lo F, h₁.mem = h.mem ∧ HeapOk hs h₁ lo F L ∧ Got hs h₁ lo F L size r h'

lemma malloc_ok {size : ℕ} (S : Sound hs h L) (hhs : 8 ∣ hs) (hhs32 : hs < 4294967296)
    (hsize : size ≤ maxRequest) (hn : enough ≤ n) :
    ∃ r h', h.malloc hs n size = some (r, h') ∧ Served hs h L size r h' := by
  unfold Heap.malloc
  rcases S with ⟨rfl, hf | hf⟩ | ⟨lo, F, H⟩
  · obtain ⟨h0, hfree, hbrk⟩ := hf
    simp only [if_pos h0]
    rcases heapBoot_ok hbrk hhs hhs32 hfree with ⟨h1, h2, h3⟩ | ⟨lo, H, hm⟩
    · rw [h3, if_pos (by simp)]
      refine ⟨0, _, rfl, Or.inl ⟨rfl, rfl, ⟨rfl, hfree, h1, ?_⟩, rfl⟩⟩
      show vmSbrk h.brk (hs - h.brk) = h.brk
      rw [vmSbrk_eq hbrk.2.1 (by omega), if_neg (by omega)]
    · obtain ⟨r, h', hr, hg⟩ := mallocLoop_ok H hsize hn
      rw [if_neg (by rw [H.state]; omega)]
      exact ⟨r, h', hr, Or.inr ⟨_, lo, [], hm, H, hg⟩⟩
  · have h0 : ¬ h.heapState = 0 := by rw [hf.1]; omega
    simp only [if_neg h0]
    rw [if_pos (by rw [hf.1]; omega)]
    exact ⟨0, h, rfl, Or.inl ⟨rfl, rfl, hf, rfl⟩⟩
  · obtain ⟨r, h', hr, hg⟩ := mallocLoop_ok H hsize hn
    have h0 : ¬ h.heapState = 0 := by rw [H.state]; omega
    simp only [if_neg h0]
    rw [if_neg (by rw [H.state]; omega)]
    exact ⟨r, h', hr, Or.inr ⟨h, lo, F, rfl, H, hg⟩⟩

end LunariaOS.Libc
