import LunariaOS.Libc.Tidy

/-!
What `realloc` does to the block it is given and to all others.

The block stays where it is or moves, or stays as it is when the request is refused. What it no longer
holds goes to the free list, where it is one piece with whatever it touches, so that the requests that
fit in it are served from the list.
-/

namespace LunariaOS.Libc

open LunariaOS.Lib

/-- The block at `q` keeps all its bytes, its header among them. -/
def Client.Same (c c' : Client) (q : ℕ) : Prop :=
  ∀ x, (c.heap.blockAt q).Has x → c'.heap.mem x = c.heap.mem x

/-- The bytes of `b` are free: they lie in one block of the free list, and a request that they have
room for is served without growing the break. -/
structure Client.Free (hs : ℕ) (c : Client) (b : Block) : Prop where
  listed : ∃ F, Seg c.heap.mem c.heap.freelist F 0 ∧ ∃ d ∈ F, b.Within d
  served : ∀ req ≤ maxRequest, needOf req ≤ b.size → ∃ r c',
    Returns (fun n => c.call hs n (.malloc req)) (r, c') ∧ r ≠ 0 ∧ c'.heap.brk = c.heap.brk

/-- How a call of `realloc` for the pointer `p` ends, by what it returns. -/
inductive Client.Resized (hs : ℕ) (c c' : Client) (p req : ℕ) : ℕ → Prop
  | refused (h0 : req ≠ 0) (live : c'.live = c.live) (same : c.Same c' p) :
      Client.Resized hs c c' p req 0
  | freed (h0 : req = 0) (live : c'.live = c.live.erase p) (free : c'.Free hs (c.heap.blockAt p)) :
      Client.Resized hs c c' p req 0
  | stayed (h0 : req ≠ 0) (live : c'.live = p :: c.live.erase p)
      (room : req + blockHdr ≤ c'.heap.sizeAt p)
      (bytes : ∀ i, i < req → c'.heap.mem (p + i) = c.heap.mem (p + i))
      (rest : c'.heap.sizeAt p = c.heap.sizeAt p ∨ c'.heap.sizeAt p < c.heap.sizeAt p ∧
        c'.Free hs ⟨(c'.heap.blockAt p).top, c.heap.sizeAt p - c'.heap.sizeAt p⟩) :
      Client.Resized hs c c' p req p
  | moved {r : ℕ} (h0 : req ≠ 0) (ne : r ≠ 0 ∧ r ≠ p) (live : c'.live = r :: c.live.erase p)
      (apart : (c'.heap.blockAt r).Apart (c.heap.blockAt p))
      (room : req + blockHdr ≤ c'.heap.sizeAt r)
      (bytes : ∀ i, i < req → i + blockHdr < c.heap.sizeAt p →
        c'.heap.mem (r + i) = c.heap.mem (p + i))
      (free : c'.Free hs (c.heap.blockAt p)) : Client.Resized hs c c' p req r

section

variable {hs lo size : ℕ} {m : Mem} {c c' : Client} {F L : List Block} {b d : Block}

/-- What lies in a free block is free. -/
lemma HeapOk.free (H : HeapOk hs c.heap lo F L) (hd : d ∈ F) (hb : b.Within d) : c.Free hs b := by
  refine ⟨⟨F, H.seg, d, hd, hb⟩, fun req hreq hfit => ?_⟩
  have hsize : b.size ≤ d.size := by
    obtain ⟨h1, h2⟩ := hb
    unfold Block.top at h2
    omega
  have hneed := needOf_bounds hreq
  obtain ⟨k, F', h', hr, -, H', -, hbrk⟩ := mallocLoop_found (n := F.length + 1) H
    (by omega) hneed.2.1 ⟨d, hd, hfit.trans hsize⟩ (by omega)
  have hmalloc : c.heap.malloc hs (F.length + 1 + 1) req = some (k.addr + 8, h') := by
    unfold Heap.malloc
    have h0 : ¬ c.heap.heapState = 0 := by rw [H.state]; omega
    simp only [if_neg h0]
    rw [if_neg (by rw [H.state]; omega)]
    exact hr
  have hcall : c.call hs (F.length + 1 + 1) (.malloc req) =
      some (k.addr + 8, ⟨h', held c.live (k.addr + 8)⟩) := by
    simp only [Client.call, hmalloc, Option.bind_eq_bind, Option.bind_some]
  refine ⟨_, _, (call_steady hs c _).returns hcall, by omega, ?_⟩
  show h'.brk = c.heap.brk
  rw [H'.brk_eq, hbrk, H.brk_eq]

/-- The blocks of the pointers that are not resized are among those that a call keeps. -/
lemma Client.Holds.same {L' : List Block} (H : c.Holds hs L) (hperm : L.Perm (b :: L'))
    (hok : HeapOk hs c.heap lo F L) (hkeep : Keeps c.heap c'.heap L') {q : ℕ} (hq : q ∈ c.live)
    (hne : q ≠ ptrOf b) : c.Same c' q := by
  obtain ⟨d, hd, rfl⟩ := List.mem_map.mp (H.live.mem_iff.mp hq)
  have hd' : d ∈ L' := by
    rcases List.mem_cons.mp (hperm.mem_iff.mp hd) with rfl | h
    · exact absurd rfl hne
    · exact h
  unfold Client.Same
  rw [hok.blockAt hd]
  exact hkeep d hd'

/-- **What `realloc` comes to.** However a program has used the heap, with requests that do not wrap,
a resized block keeps the bytes that fit, a block that moves is given back, what a shrink cuts off is
free for later requests, a refused request changes no block, and no other block changes at all. -/
theorem realloc_resizes (hhs : 8 ∣ hs) (hhs32 : hs < 4294967296)
    (hsize : size ≤ userStack - userBase) (hc : Reach hs maxRequest (Client.start m size) c)
    {p req : ℕ} (hp : p ∈ c.live) (hreq : req ≤ maxRequest) :
    ∃ r c', Returns (fun n => c.call hs n (.realloc p req)) (r, c') ∧ c'.Ok hs ∧
      c.Resized hs c' p req r ∧ ∀ q ∈ c.live, q ≠ p → c.Same c' q := by
  obtain ⟨L, H⟩ := reach_holds hhs hhs32 hsize (le_refl _) hc
  have hbooted : ∃ lo F, HeapOk hs c.heap lo F L := by
    rcases H.sound with ⟨rfl, -⟩ | h
    · have := H.live.mem_iff.mp hp
      simp at this
    · exact h
  obtain ⟨lo, F, hok⟩ := hbooted
  by_cases h0 : req = 0
  · subst h0
    obtain ⟨c', b, L', rfl, hperm, hcall, H', hkeep, hlive, lo', F', hok', d, hd, hback⟩ :=
      free_call (n := enough) H hp (le_refl _)
    rw [← realloc_zero H hp] at hcall
    refine ⟨0, c', (call_steady hs c _).returns hcall, H'.ok, .freed rfl hlive ?_,
      fun q hq hne => H.same hperm hok hkeep hq hne⟩
    rw [hok.blockAt (hperm.mem_iff.mpr List.mem_cons_self)]
    exact hok'.free hd hback
  · obtain ⟨r, c', b, L', rfl, hperm, hcall, hkeep, hr⟩ :=
      resize_call H hp hhs hhs32 h0 hreq (le_refl enough)
    have hb : b ∈ L := hperm.mem_iff.mpr List.mem_cons_self
    have hothers : ∀ q ∈ c.live, q ≠ ptrOf b → c.Same c' q :=
      fun q hq hne => H.same hperm hok hkeep hq hne
    have hret := (call_steady hs c _).returns hcall
    rcases hr with ⟨rfl, H', hlive, hall⟩ |
      ⟨k, rfl, H', -, hroom, -, hbytes, hlive, lo', F', hok', hback⟩
    · refine ⟨0, c', hret, H'.ok, .refused h0 hlive ?_, hothers⟩
      unfold Client.Same
      rw [hok.blockAt hb]
      exact hall b List.mem_cons_self
    · refine ⟨ptrOf k, c', hret, H'.ok, ?_, hothers⟩
      have hk : c'.heap.sizeAt (ptrOf k) = k.size := hok'.sizeAt (by simp)
      have hbs : c.heap.sizeAt (ptrOf b) = b.size := hok.sizeAt hb
      rcases hback with ⟨haddr, hrest⟩ | ⟨hapart, -, d, hd, hwithin⟩
      · have hptr : ptrOf k = ptrOf b := by
          unfold ptrOf
          rw [haddr]
        have hle : k.size ≤ b.size := by
          rcases hrest with rfl | ⟨hlt, -⟩
          · exact le_rfl
          · exact hlt.le
        rw [hptr] at hbytes hlive hroom hk ⊢
        refine .stayed h0 hlive hroom (fun i hi => hbytes i hi (by omega)) ?_
        rw [hk, hbs, ← hptr, hok'.blockAt (by simp)]
        rcases hrest with rfl | ⟨hlt, d, hd, hwithin⟩
        · exact Or.inl rfl
        · exact Or.inr ⟨hlt, hok'.free hd hwithin⟩
      · have hne : ptrOf k ≠ ptrOf b := by
          have h8 := (hok'.shape k (by simp)).2.2
          have h8' := (hok.shape b (by simp [hb])).2.2
          unfold Block.Apart Block.top at hapart
          unfold ptrOf
          omega
        refine .moved h0 ⟨by unfold ptrOf; omega, hne⟩ hlive ?_ hroom hbytes ?_
        · rw [hok'.blockAt (by simp), hok.blockAt hb]
          exact hapart
        · rw [hok.blockAt hb]
          exact hok'.free hd hwithin

end

/-- The first program with a block of 100 bytes, taken as the heap is booted. -/
lemma first_block : ∃ c, Reach userBase maxRequest firstProgram c ∧ userBase + 8 ∈ c.live ∧
    (c.call userBase 8 (.realloc (userBase + 8) 0)).map
      (fun x => (x.1, x.2.live, x.2.heap.freelist)) = some (0, [], userBase) := by
  have key : (firstProgram.call userBase 8 (.malloc 100)).map (fun x => (x.2.live,
      (x.2.call userBase 8 (.realloc (userBase + 8) 0)).map
        (fun y => (y.1, y.2.live, y.2.heap.freelist)))) =
      some ([userBase + 8], some (0, [], userBase)) := by decide +kernel
  obtain ⟨⟨r, c⟩, hcall, hx⟩ := Option.map_eq_some_iff.mp key
  rw [Prod.mk.injEq] at hx
  have hallowed : firstProgram.Allowed userBase maxRequest (.malloc 100) := by
    show 100 ≤ maxRequest
    decide
  refine ⟨c, .step .start hallowed ((call_steady _ _ _).returns hcall), ?_, hx.2⟩
  rw [show c.live = [userBase + 8] from hx.1]
  exact List.mem_singleton_self _

theorem realloc_resizes_first : ∃ (c : Client) (r : ℕ) (c' : Client), userBase + 8 ∈ c.live ∧
    Returns (fun n => c.call userBase n (.realloc (userBase + 8) 40)) (r, c') ∧ c'.Ok userBase ∧
      c.Resized userBase c' (userBase + 8) 40 r ∧
      ∀ q ∈ c.live, q ≠ userBase + 8 → c.Same c' q := by
  obtain ⟨c, hc, hp, -⟩ := first_block
  obtain ⟨r, c', h⟩ := realloc_resizes (by decide) (by decide) (by decide) hc hp
    (show 40 ≤ maxRequest by decide)
  exact ⟨c, r, c', hp, h⟩

/-- A request for no bytes gives the block back: 0 is returned, and the block is free. -/
theorem realloc_zero_frees : ∃ c c' : Client, Reach userBase maxRequest firstProgram c ∧
    userBase + 8 ∈ c.live ∧
    Returns (fun n => c.call userBase n (.realloc (userBase + 8) 0)) (0, c') ∧
      userBase + 8 ∉ c'.live ∧ c'.heap.freelist = blockOf (userBase + 8) := by
  obtain ⟨c, hc, hp, key⟩ := first_block
  obtain ⟨⟨r, c'⟩, hcall, hx⟩ := Option.map_eq_some_iff.mp key
  rw [Prod.mk.injEq, Prod.mk.injEq] at hx
  obtain ⟨hr, hlive, hfree⟩ := hx
  obtain rfl : r = 0 := hr
  refine ⟨c, c', hc, hp, (call_steady _ _ _).returns hcall, ?_, ?_⟩
  · rw [show c'.live = [] from hlive]
    exact List.not_mem_nil
  · rw [show c'.heap.freelist = userBase from hfree]
    decide

end LunariaOS.Libc
