import LunariaOS.Libc.Free

/-!
`calloc` and `realloc`.

The overflow test of `calloc` is exact. `realloc` makes a block smaller by cutting it and freeing the
rest, and otherwise takes a block, copies the old payload into it and frees the old block; the two
blocks are live together while the bytes are copied, so they do not overlap.
-/

namespace LunariaOS.Libc

open LunariaOS.Lib

variable {hs lo n : ℕ} {h h' : Heap} {F L : List Block} {b k : Block}

/-- The bytes of the blocks of `L` are as they were. -/
def Keeps (h h' : Heap) (L : List Block) : Prop :=
  ∀ b ∈ L, ∀ x, b.Has x → h'.mem x = h.mem x

lemma Keeps.trans {h₁ h₂ h₃ : Heap} (h12 : Keeps h₁ h₂ L) (h23 : Keeps h₂ h₃ L) :
    Keeps h₁ h₃ L := fun b hb x hx => (h23 b hb x hx).trans (h12 b hb x hx)

lemma Keeps.mono {L' : List Block} (hk : Keeps h h' L) (hL : L' ⊆ L) : Keeps h h' L' :=
  fun b hb => hk b (hL hb)

/-! ### The outcome of a request -/

/-- A request for `size` bytes that is refused: every free block is too small and the break cannot
be grown, up to the start of the heap or by what the request needs. -/
def Refused (hs : ℕ) (h : Heap) (size : ℕ) : Prop :=
  Failed hs h ∨ ∃ F, Seg h.mem h.freelist F 0 ∧ (∀ b ∈ F, b.size < needOf size) ∧
    vmSbrk h.brk (coreSize (needOf size)) = h.brk

/-- A request for `size` bytes that is served, with the new block `k`, or refused. -/
lemma Served.cases {size r : ℕ} (S : Served hs h L size r h') :
    Keeps h h' L ∧ ((r = 0 ∧ Refused hs h' size ∧ Sound hs h' L) ∨
      ∃ k, r = k.addr + 8 ∧ needOf size ≤ k.size ∧ ∃ lo F, HeapOk hs h' lo F (k :: L)) := by
  rcases S with ⟨hr, rfl, hf, hm⟩ | ⟨h₁, lo, F, hm, H, hg⟩
  · exact ⟨fun b hb => by simp at hb, Or.inl ⟨hr, Or.inl hf, Or.inl ⟨rfl, Or.inr hf⟩⟩⟩
  · rcases hg with ⟨hr, rfl, hfit, hno⟩ | ⟨k, F', hr, hk, H', hfr, -⟩
    · refine ⟨fun b hb x hx => by rw [hm], Or.inl ⟨hr, Or.inr ⟨F, H.seg, hfit, hno⟩, ?_⟩⟩
      exact Or.inr ⟨lo, F, H⟩
    · refine ⟨fun b hb x hx => ?_, Or.inr ⟨k, hr, hk, lo, F', H'⟩⟩
      rw [← hm]
      exact H.frame_keep hfr hb hx (H.cover_free hb hx)

/-! ### calloc -/

/-- The division finds every product that does not fit. -/
lemma calloc_check {count size : ℕ} :
    (count ≠ 0 ∧ u32 (count * size) / count ≠ size) ↔ 4294967296 ≤ count * size := by
  constructor
  · rintro ⟨h0, hne⟩
    by_contra hlt
    rw [u32_of_lt (by omega), Nat.mul_div_cancel_left _ (by omega)] at hne
    exact hne rfl
  · intro hle
    have h0 : count ≠ 0 := by
      rintro rfl
      simp at hle
    refine ⟨h0, fun he => ?_⟩
    have h1 := u32_lt (count * size)
    have h2 := Nat.div_mul_le_self (u32 (count * size)) count
    rw [he, Nat.mul_comm] at h2
    omega

/-- Bytes written in the payload of a live block. -/
lemma HeapOk.fill (H : HeapOk hs h lo F L) (hk : k ∈ L) {c : ℕ} (hc : c + 8 ≤ k.size)
    (f : ℕ → UInt8) : HeapOk hs { h with mem := h.mem.blit (k.addr + 8) c f } lo F L := by
  apply H.store
  intro d hd x hx
  have := H.head_out hk hd hx
  unfold Block.top at this
  exact Mem.blit_of_out _ _ (by omega)

lemma keeps_fill (H : HeapOk hs h lo F (k :: L)) {c : ℕ} (hc : c + 8 ≤ k.size) (f : ℕ → UInt8) :
    Keeps h { h with mem := h.mem.blit (k.addr + 8) c f } L := by
  intro d hd x hx
  have hcov := H.cover_freed hd hx
  rw [cover_cons] at hcov
  have hx : ¬ k.Has x := fun hk => by rw [if_pos hk] at hcov; omega
  unfold Block.Has at hx
  exact Mem.blit_of_out _ _ (by omega)

lemma calloc_ok {count size : ℕ} (S : Sound hs h L) (hhs : 8 ∣ hs) (hhs32 : hs < 4294967296)
    (hreq : count * size ≤ maxRequest ∨ 4294967296 ≤ count * size) (hn : enough ≤ n) :
    ∃ r h', h.calloc hs n count size = some (r, h') ∧ Keeps h h' L ∧
      ((r = 0 ∧ Sound hs h' L) ∨ ∃ k, r = k.addr + 8 ∧ count * size ≤ maxRequest ∧
        needOf (count * size) ≤ k.size ∧ (∃ lo F, HeapOk hs h' lo F (k :: L)) ∧ ∀ i, i < count * size → h'.mem (r + i) = 0) := by
  unfold Heap.calloc
  by_cases hbig : 4294967296 ≤ count * size
  · simp only [if_pos (calloc_check.mpr hbig)]
    exact ⟨0, h, rfl, fun b hb x hx => rfl, Or.inl ⟨rfl, S⟩⟩
  · have hsmall : count * size ≤ maxRequest := by omega
    have hu : u32 (count * size) = count * size := u32_of_lt (by omega)
    have hchk : ¬ (count ≠ 0 ∧ u32 (count * size) / count ≠ size) :=
      fun hc => hbig (calloc_check.mp hc)
    obtain ⟨r, h', hr, hS⟩ := malloc_ok (n := n) S hhs hhs32 hsmall hn
    simp only [if_neg hchk]
    simp only [hu, hr, Option.bind_eq_bind, Option.bind_some]
    obtain ⟨hk, ⟨rfl, -, hs'⟩ | ⟨k, rfl, hkn, lo, F, H⟩⟩ := hS.cases
    · exact ⟨0, h', if_neg (by simp), hk, Or.inl ⟨rfl, hs'⟩⟩
    · have hneed := needOf_bounds hsmall
      rw [if_pos (by omega)]
      refine ⟨_, _, rfl, hk.trans (keeps_fill H (by omega) _), Or.inr ⟨k, rfl, hsmall, hkn,
        ⟨lo, F, ?_⟩, ?_⟩⟩
      · exact H.fill (by simp) (by omega) _
      · intro i hi
        exact memset_in _ _ _ hi

/-! ### realloc -/

/-- The payload of a block from its header. -/
lemma payload_eq (H : HeapOk hs h lo F L) (hb : b ∈ L) : h.payload (b.addr + 8) = b.size - 8 := by
  have htop := H.top_lt (b := b) (by simp [hb])
  have h8 := (H.shape b (by simp [hb])).2.2
  unfold Block.top at htop
  unfold Heap.payload
  rw [blockOf_eq (by omega), H.live b hb]
  unfold u32 blockHdr
  omega

/-- A live block made smaller. -/
lemma shrink_ok {size : ℕ} (H : HeapOk hs h lo F (b :: L)) (hsize : size + 8 ≤ b.size)
    (hn : enough ≤ n) : ∃ k F' h', h.shrink n (b.addr + 8) size = some h' ∧ k.addr = b.addr ∧
      needOf size ≤ k.size ∧ HeapOk hs h' lo F' (k :: L) ∧ Keeps h h' L ∧
      (∀ i, i < size → h'.mem (b.addr + 8 + i) = h.mem (b.addr + 8 + i)) ∧
      (k = b ∨ k.size < b.size ∧ ∃ d ∈ F', Block.Within ⟨k.top, b.size - k.size⟩ d) := by
  obtain ⟨ha8, hs8, -⟩ := H.shape b (by simp)
  have htop := H.top_lt (b := b) (by simp)
  have hin := H.inside (b := b) (by simp)
  have hstack := H.top_le
  have hlen := H.length_lt
  unfold userStack at hstack
  unfold Block.top at htop hin
  have hmax : size ≤ maxRequest := by
    unfold maxRequest
    omega
  have hneed := needOf_eq hmax
  have hbounds := needOf_bounds hmax
  have hu : u32 (needOf size + blockHdr + minAlign) = needOf size + 16 :=
    u32_of_lt (by unfold blockHdr minAlign; omega)
  unfold Heap.shrink
  simp only [blockOf_eq (a := b.addr) (by omega), H.live b (by simp), hu]
  by_cases hcut : b.size ≥ needOf size + 16
  · rw [if_pos hcut]
    have hrest : u32 (b.addr + needOf size) = b.addr + needOf size := u32_of_lt (by omega)
    have hptr : u32 (b.addr + needOf size + blockHdr) = b.addr + needOf size + 8 :=
      u32_of_lt (by unfold blockHdr; omega)
    simp only [hrest, hptr]
    -- both parts are live until the upper one is given back
    have hout : ∀ x, ¬ b.Has x → (h.mem.st32 (b.addr + needOf size) (b.size - needOf size)).st32
        b.addr (needOf size) x = h.mem x := by
      intro x hx
      unfold Block.Has at hx
      rw [Mem.st32_of_out _ _ (by omega), Mem.st32_of_out _ _ (by omega)]
    have hothers : ∀ d ∈ F ++ L, ∀ x, d.Has x → ¬ b.Has x := by
      intro d hd x hdx hbx
      rcases List.mem_append.mp hd with hd | hd
      · have := H.cover_free (b := b) (by simp) hbx
        exact cover_eq_zero.mp this d hd hdx
      · have := H.cover_freed hd hdx
        rw [cover_cons, if_pos hbx] at this
        omega
    have hhead : ∀ d ∈ F ++ L, ∀ x, d.Head x → d.Has x := by
      intro d hd x hdx
      have := (H.shape d (by simp only [List.mem_append, List.mem_cons] at hd ⊢; tauto)).2.2
      exact ⟨hdx.1, lt_of_lt_of_le hdx.2 (by omega)⟩
    have H₁ : HeapOk hs { h with mem :=
        (h.mem.st32 (b.addr + needOf size) (b.size - needOf size)).st32 b.addr (needOf size) } lo F
        (⟨b.addr + needOf size, b.size - needOf size⟩ :: ⟨b.addr, needOf size⟩ :: L) := by
      refine ⟨H.state, H.brk_eq, H.start, H.top_le, H.aligned, ?_, H.spaced, ?_, ?_, ?_⟩
      · apply H.seg.congr
        intro d hd x hx
        exact hout x (hothers d (by simp [hd]) x (hhead d (by simp [hd]) x hx))
      · refine List.forall_mem_cons.mpr ⟨?_, List.forall_mem_cons.mpr ⟨Mem.ld32_st32 _ _ (by omega),
          fun d hd => ?_⟩⟩
        · simp only
          rw [Mem.ld32_st32_of_ne _ _ (by omega), Mem.ld32_st32 _ _ (by omega)]
        · rw [← H.live d (by simp [hd])]
          apply Mem.ld32_congr
          intro x h1 h2
          have hx : d.Has x := hhead d (by simp [hd]) x ⟨h1, by omega⟩
          exact hout x (hothers d (by simp [hd]) x hx)
      · refine H.tiles.congr fun x => ?_
        have hcut : cover (⟨b.addr, needOf size⟩ :: ⟨b.addr + needOf size, b.size - needOf size⟩ :: L) x
            = cover (b :: L) x := by
          rw [cover_split, Nat.add_sub_cancel' (by omega)]
        simp only [cover_append, cover_cons] at hcut ⊢
        omega
      · intro d hd
        simp only [List.mem_append, List.mem_cons] at hd
        rcases hd with hd | rfl | rfl | hd
        · exact H.shape d (by simp [hd])
        · exact ⟨by simp only; omega, by simp only; omega, by simp only; omega⟩
        · exact ⟨ha8, hbounds.2.1, by simp only; omega⟩
        · exact H.shape d (by simp [hd])
    obtain ⟨F', h', hfree, H', hfr, -, hback⟩ := free_ok (n := n) H₁ (by omega)
    refine ⟨⟨b.addr, needOf size⟩, F', h', hfree, rfl, le_refl _, H', ?_, ?_,
      Or.inr ⟨by simp only; omega, hback⟩⟩
    · intro d hd x hx
      rw [H₁.frame_keep hfr (by simp [hd]) hx (H₁.cover_freed (by simp [hd]) hx)]
      exact hout x (hothers d (by simp [hd]) x hx)
    · intro i hi
      have hx : (⟨b.addr, needOf size⟩ : Block).Has (b.addr + 8 + i) :=
        ⟨by simp only; omega, by simp only; omega⟩
      rw [H₁.frame_keep hfr (b := ⟨b.addr, needOf size⟩) (by simp) hx
        (H₁.cover_freed (by simp) hx)]
      simp only
      rw [Mem.st32_of_out _ _ (by omega), Mem.st32_of_out _ _ (by omega)]
  · rw [if_neg hcut]
    exact ⟨b, F, h, rfl, rfl, by omega, H, fun d hd x hx => rfl, fun i hi => rfl, Or.inl rfl⟩

/-- The bytes of the block `b` that `k` does not hold lie in one of the free blocks of `F`: those
behind `k` when the block stayed where it is, and all of them when it moved. -/
def GivenBack (b k : Block) (F : List Block) : Prop :=
  (k.addr = b.addr ∧ (k = b ∨ k.size < b.size ∧
    ∃ d ∈ F, Block.Within ⟨k.top, b.size - k.size⟩ d)) ∨
  (k.Apart b ∧ b.size < k.size ∧ ∃ d ∈ F, b.Within d)

/-- What `realloc` comes to for a live block and a request that is not 0. -/
lemma resize_ok {size : ℕ} (H : HeapOk hs h lo F (b :: L)) (hhs : 8 ∣ hs) (hhs32 : hs < 4294967296)
    (h0 : size ≠ 0) (hsize : size ≤ maxRequest) (hn : enough ≤ n) :
    ∃ r h', h.realloc hs n (b.addr + 8) size = some (r, h') ∧ Keeps h h' L ∧
      ((r = 0 ∧ Sound hs h' (b :: L) ∧ Keeps h h' (b :: L)) ∨
        ∃ k lo F, r = k.addr + 8 ∧ needOf size ≤ k.size ∧ HeapOk hs h' lo F (k :: L) ∧
          (∀ i, i < size → i + 8 < b.size → h'.mem (r + i) = h.mem (b.addr + 8 + i)) ∧
          GivenBack b k F) := by
  have hb8 := (H.shape b (by simp)).2.2
  have hneed := needOf_bounds hsize
  unfold Heap.realloc
  simp only [if_neg (show ¬ b.addr + 8 = 0 by omega), if_neg h0, payload_eq H (b := b) (by simp)]
  by_cases hfit : b.size - 8 ≥ size
  · have hsize8 : size + 8 ≤ b.size := by omega
    obtain ⟨k, F', h', hs', hk, hkn, H', hkeep, hcopy, hback⟩ := shrink_ok H hsize8 hn
    simp only [if_pos hfit, hs', Option.bind_eq_bind, Option.bind_some]
    refine ⟨_, h', rfl, hkeep, Or.inr ⟨k, lo, F', by rw [hk], hkn, H', ?_, Or.inl ⟨hk, hback⟩⟩⟩
    exact fun i hi _ => hcopy i hi
  · obtain ⟨r, h₁, hr, hS⟩ := malloc_ok (n := n) (Or.inr ⟨lo, F, H⟩) hhs hhs32 hsize hn
    simp only [if_neg hfit, hr, Option.bind_eq_bind, Option.bind_some]
    obtain ⟨hkeep, ⟨rfl, -, hs'⟩ | ⟨k, rfl, hkn, lo', F', H₁⟩⟩ := hS.cases
    · exact ⟨0, h₁, if_pos rfl, hkeep.mono (by simp), Or.inl ⟨rfl, hs', hkeep⟩⟩
    · -- both blocks are live while the payload is copied
      have hkb : k.Apart b := by
        have := (List.pairwise_append.mp H₁.pairwise).2.1
        exact (List.pairwise_cons.mp this).1 b (by simp)
      have hk8 := (H₁.shape k (by simp)).2.2
      have hcopy : memcpy h₁.mem (k.addr + 8) (b.addr + 8) (b.size - 8)
          = h₁.mem.blit (k.addr + 8) (b.size - 8) fun i => h₁.mem (b.addr + 8 + i) := by
        apply memcpy_eq
        unfold Block.Apart Block.top at hkb
        omega
      have H₂ := (H₁.fill (k := k) (by simp) (c := b.size - 8) (by omega)
        fun i => h₁.mem (b.addr + 8 + i)).perm (List.Perm.swap b k L)
      obtain ⟨F₂, h', hfree, H', hfr, -, hback⟩ := free_ok (n := n) H₂
        (by have := H₁.length_lt; omega)
      rw [if_neg (by omega), hcopy]
      simp only [hfree, Option.bind_some]
      refine ⟨_, h', rfl, ?_, Or.inr ⟨k, lo', F₂, rfl, hkn, H', ?_,
        Or.inr ⟨hkb, by omega, hback⟩⟩⟩
      · have hk12 := keeps_fill H₁ (c := b.size - 8) (by omega) fun i => h₁.mem (b.addr + 8 + i)
        refine ((hkeep.mono (by simp)).trans (hk12.mono (by simp))).trans ?_
        intro d hd x hx
        exact H₂.frame_keep hfr (by simp [hd]) hx (H₂.cover_freed (by simp [hd]) hx)
      · intro i hi hib
        have hx : k.Has (k.addr + 8 + i) := ⟨by omega, by omega⟩
        rw [H₂.frame_keep hfr (by simp) hx (H₂.cover_freed (by simp) hx)]
        simp only
        rw [Mem.blit_of_in _ _ (by omega) (by omega), Nat.add_sub_cancel_left]
        exact hkeep b (by simp) _ ⟨by omega, by omega⟩

end LunariaOS.Libc
