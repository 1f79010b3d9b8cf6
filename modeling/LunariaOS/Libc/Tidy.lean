import LunariaOS.Libc.Runs

/-!
The heap stays well formed over every run, and what a request returns.

The first result is about requests that stay clear of the top of the 32-bit range by a page or more;
the second is about all requests whose rounding does not wrap, and says what each call returns. Past
that bound the sum in `malloc` wraps: the last request of all gets a block with no payload.
-/

namespace LunariaOS.Libc

open LunariaOS.Lib

/-- The block of a pointer: where it starts, and the size in its header. -/
def Heap.blockAt (h : Heap) (p : ℕ) : Block := ⟨blockOf p, h.sizeAt p⟩

/-- The heap from `lo` on, with the free blocks `F` and the blocks that the program holds. -/
structure Client.Tidy (hs : ℕ) (c : Client) (lo : ℕ) (F : List Block) : Prop where
  list : Seg c.heap.mem c.heap.freelist F 0
  start : hs ≤ lo
  tiles : Tiles lo c.heap.heapBrk (F ++ c.live.map c.heap.blockAt)
  ascending : Spaced F
  aligned : ∀ p ∈ c.live, 8 ∣ p
  apart : (c.live.map c.heap.blockAt).Pairwise Block.Apart
  whole : c.live = [] → lo < c.heap.heapBrk → F = [⟨lo, c.heap.heapBrk - lo⟩]

/-- There is no heap yet, or the heap is tidy. -/
def Client.Ok (hs : ℕ) (c : Client) : Prop :=
  (c.heap.heapState ≠ 1 ∧ c.live = [] ∧ c.heap.freelist = 0) ∨ ∃ lo F, c.Tidy hs lo F

section

variable {hs limit size : ℕ} {m : Mem} {c : Client} {L : List Block}

lemma HeapOk.blockAt {lo : ℕ} {h : Heap} {F : List Block} (H : HeapOk hs h lo F L) {b : Block}
    (hb : b ∈ L) : h.blockAt (ptrOf b) = b := by
  have htop := H.top_lt (b := b) (by simp [hb])
  have h8 := (H.shape b (by simp [hb])).2.2
  unfold Block.top at htop
  unfold Heap.blockAt
  rw [H.sizeAt hb]
  unfold ptrOf
  rw [blockOf_eq (by omega)]

lemma Client.Holds.ok (H : c.Holds hs L) : c.Ok hs := by
  rcases H.sound with ⟨rfl, hf⟩ | ⟨lo, F, hok⟩
  · refine Or.inl ⟨?_, List.Perm.eq_nil H.live, ?_⟩
    · rcases hf with hf | hf
      · rw [hf.1]; decide
      · rw [hf.1]; decide
    · rcases hf with hf | hf
      · exact hf.2.1
      · exact hf.2.1
  · have hblock : ∀ b ∈ L, c.heap.blockAt (ptrOf b) = b := fun b hb => hok.blockAt hb
    have hmap : (c.live.map c.heap.blockAt).Perm L := by
      refine (H.live.map _).trans ?_
      rw [List.map_map, List.map_congr_left (f := c.heap.blockAt ∘ ptrOf) (g := id) hblock, List.map_id]
    have hpair : (c.live.map c.heap.blockAt).Pairwise Block.Apart := by
      refine (hmap.pairwise_iff fun h => Or.symm h).mpr ?_
      exact (List.pairwise_append.mp hok.pairwise).2.1
    refine Or.inr ⟨lo, F, hok.seg, hok.start.1, ?_, hok.spaced, ?_, hpair, ?_⟩
    · exact hok.tiles.congr (cover_perm (hmap.append_left F))
    · intro p hp
      obtain ⟨b, hb, rfl⟩ := List.mem_map.mp (H.live.mem_iff.mp hp)
      have := (hok.shape b (by simp [hb])).1
      unfold ptrOf
      omega
    · intro hnil hlt
      have hL : L = [] := by
        have := H.live
        rw [hnil] at this
        simpa using this.symm.eq_nil
      subst hL
      have ht := hok.tiles
      rw [List.append_nil] at ht
      exact hok.spaced.eq_single ht (fun b hb => by have := hok.shape b (by simp [hb]); omega) hlt

/-- **The heap stays well formed.** However a program uses the heap, free and held blocks tile it
from its start, at or past `__heap_start`, up to the break; the free list ascends and no two of its
blocks touch; held blocks do not overlap, and once none is held the free list is one block. Every
call returns, a pointer that it returns is aligned and its block holds the bytes asked for, and
`malloc` fails only when no free block fits and the break is not grown. -/
theorem heap_tidy (hhs : 8 ∣ hs) (hhs32 : hs < 4294967296) (hsize : size ≤ userStack - userBase)
    (hc : Reach hs 0xFFFFE000 (Client.start m size) c) :
    c.Ok hs ∧ ∀ a, c.Allowed hs 0xFFFFE000 a →
      ∃ r c', Returns (fun n => c.call hs n a) (r, c') ∧
        (r ≠ 0 → 8 ∣ r ∧ a.bytes + blockHdr ≤ c'.heap.sizeAt r) ∧
        ∀ req, a = .malloc req → r = 0 → Refused hs c'.heap req := by
  have hlimit : 0xFFFFE000 ≤ maxRequest := by decide
  obtain ⟨L, H⟩ := reach_holds hhs hhs32 hsize hlimit hc
  refine ⟨H.ok, fun a ha => ?_⟩
  obtain ⟨r, c', L', hcall, H', hr⟩ := call_ok H hhs hhs32 hlimit ha (le_refl enough)
  refine ⟨r, c', (call_steady hs c a).returns hcall, hr, ?_⟩
  rintro req rfl rfl
  obtain ⟨r, c'', L'', hcall', -, -, ⟨-, href, -⟩ | ⟨k, hk, -⟩⟩ :=
    malloc_call H hhs hhs32 (le_trans ha hlimit) (le_refl enough)
  · rw [hcall] at hcall'
    have := Option.some.inj hcall'
    rw [Prod.mk.injEq] at this
    rw [this.2]
    exact href
  · rw [hcall] at hcall'
    have := Option.some.inj hcall'
    rw [Prod.mk.injEq] at this
    exact absurd (this.1.trans hk) (by unfold ptrOf; omega)

/-- **What a request returns.** While a program asks for at most `maxRequest` bytes at a time, every
request returns and leaves the heap well formed. What `malloc` and `calloc` return is 0 or a block
with the payload asked for, cleared by `calloc`, and `realloc` moves a block only to one that is at
least as large. -/
theorem requests_served (hhs : 8 ∣ hs) (hhs32 : hs < 4294967296)
    (hsize : size ≤ userStack - userBase)
    (hc : Reach hs maxRequest (Client.start m size) c) :
    (∀ req, req ≤ maxRequest → ∃ r c', Returns (fun n => c.call hs n (.malloc req)) (r, c') ∧
      c'.Ok hs ∧ (r = 0 ∨ req + blockHdr ≤ c'.heap.sizeAt r)) ∧
    (∀ count req, count * req ≤ maxRequest ∨ 4294967296 ≤ count * req →
      ∃ r c', Returns (fun n => c.call hs n (.calloc count req)) (r, c') ∧ c'.Ok hs ∧
        (r = 0 ∨ count * req + blockHdr ≤ c'.heap.sizeAt r ∧
          ∀ i, i < count * req → c'.heap.mem (r + i) = 0)) ∧
    ∀ p req, p ∈ c.live → req ≤ maxRequest →
      ∃ r c', Returns (fun n => c.call hs n (.realloc p req)) (r, c') ∧ c'.Ok hs ∧
        (r = 0 ∨ r = p ∨ c.heap.sizeAt p ≤ c'.heap.sizeAt r) := by
  obtain ⟨L, H⟩ := reach_holds hhs hhs32 hsize (le_refl _) hc
  refine ⟨fun req hreq => ?_, fun count req hreq => ?_, fun p req hp hreq => ?_⟩
  · obtain ⟨r, c', L', hcall, H', -, hr⟩ := malloc_call H hhs hhs32 hreq (le_refl enough)
    refine ⟨r, c', (call_steady hs c _).returns hcall, H'.ok, ?_⟩
    rcases hr with ⟨hr, -⟩ | ⟨k, -, -, -, hk⟩
    · exact Or.inl hr
    · exact Or.inr hk
  · obtain ⟨r, c', L', hcall, H', -, hr⟩ := calloc_call H hhs hhs32 hreq (le_refl enough)
    refine ⟨r, c', (call_steady hs c _).returns hcall, H'.ok, ?_⟩
    rcases hr with ⟨hr, -⟩ | ⟨k, -, -, -, hk, hzero⟩
    · exact Or.inl hr
    · exact Or.inr ⟨hk, hzero⟩
  · by_cases h0 : req = 0
    · subst h0
      obtain ⟨c', b, L', -, -, hcall, H', -⟩ := free_call (n := enough) H hp (le_refl _)
      rw [← realloc_zero H hp] at hcall
      exact ⟨0, c', (call_steady hs c _).returns hcall, H'.ok, Or.inl rfl⟩
    · obtain ⟨r, c', b, L', -, -, hcall, -, hr⟩ :=
        resize_call H hp hhs hhs32 h0 hreq (le_refl enough)
      rcases hr with ⟨hr, H', -⟩ | ⟨k, -, H', -, -, hk, -⟩
      · exact ⟨r, c', (call_steady hs c _).returns hcall, H'.ok, Or.inl hr⟩
      · exact ⟨r, c', (call_steady hs c _).returns hcall, H'.ok, Or.inr hk⟩

end

/-! ### A first program -/

/-- A program of no bytes whose image ends where the window starts. -/
def firstProgram : Client := Client.start (fun _ => 0) 0

instance (hs limit : ℕ) (c : Client) : (a : Act) → Decidable (c.Allowed hs limit a)
  | .malloc size => inferInstanceAs (Decidable (size ≤ limit))
  | .calloc count size =>
    inferInstanceAs (Decidable (count * size ≤ limit ∨ 4294967296 ≤ count * size))
  | .realloc ptr size => inferInstanceAs (Decidable ((ptr = 0 ∨ ptr ∈ c.live) ∧ size ≤ limit))
  | .free ptr => inferInstanceAs (Decidable (ptr = 0 ∨ ptr ∈ c.live))
  | .store a _ => inferInstanceAs
    (Decidable (a < hs ∨ c.heap.brk ≤ a ∨ ∃ p ∈ c.live, p ≤ a ∧ a + 8 < p + c.heap.sizeAt p))

/-- The program after the actions, each of which it may do and carries out with `n` steps. -/
def Client.after (hs limit n : ℕ) (c : Client) : List Act → Option Client
  | [] => some c
  | a :: as =>
    if c.Allowed hs limit a then (c.call hs n a).bind fun x => x.2.after hs limit n as else none

lemma Reach.after {hs limit n : ℕ} {c₀ : Client} {as : List Act} : ∀ {c c' : Client},
    Reach hs limit c₀ c → c.after hs limit n as = some c' → Reach hs limit c₀ c' := by
  induction as with
  | nil =>
    rintro c c' hc ⟨⟩
    exact hc
  | cons a as ih =>
    intro c c' hc h
    unfold Client.after at h
    split_ifs at h with ha
    obtain ⟨x, hx, h⟩ := Option.bind_eq_some_iff.mp h
    exact ih (.step hc ha ((call_steady hs c a).returns hx)) h

/-- Two blocks are taken, the first is given back, and the second, written to, has to move. -/
def firstActs : List Act :=
  [.malloc 100, .malloc 50, .free (userBase + 8), .store (userBase + 120) 7,
    .realloc (userBase + 120) 200]

theorem heap_tidy_first : ∃ c, firstProgram.after userBase 0xFFFFE000 8 firstActs = some c ∧
    c.live = [userBase + 184] ∧ c.Ok userBase ∧
    ∀ a, c.Allowed userBase 0xFFFFE000 a →
      ∃ r c', Returns (fun n => c.call userBase n a) (r, c') ∧
        (r ≠ 0 → 8 ∣ r ∧ a.bytes + blockHdr ≤ c'.heap.sizeAt r) ∧
        ∀ req, a = .malloc req → r = 0 → Refused userBase c'.heap req := by
  have hlive : (firstProgram.after userBase 0xFFFFE000 8 firstActs).map Client.live =
      some [userBase + 184] := by decide +kernel
  obtain ⟨c, hc, hl⟩ := Option.map_eq_some_iff.mp hlive
  exact ⟨c, hc, hl, heap_tidy (by decide) (by decide) (by decide) (Reach.start.after hc)⟩

theorem requests_served_first : ∃ c, firstProgram.after userBase maxRequest 8 firstActs = some c ∧
    (∃ r c', Returns (fun n => c.call userBase n (.malloc 100)) (r, c') ∧
      c'.Ok userBase ∧ (r = 0 ∨ 100 + blockHdr ≤ c'.heap.sizeAt r)) ∧
    (∃ r c', Returns (fun n => c.call userBase n (.calloc 5 20)) (r, c') ∧ c'.Ok userBase ∧
      (r = 0 ∨ 5 * 20 + blockHdr ≤ c'.heap.sizeAt r ∧
        ∀ i, i < 5 * 20 → c'.heap.mem (r + i) = 0)) ∧
    ∃ r c', Returns (fun n => c.call userBase n (.realloc (userBase + 184) 20)) (r, c') ∧
      c'.Ok userBase ∧
      (r = 0 ∨ r = userBase + 184 ∨ c.heap.sizeAt (userBase + 184) ≤ c'.heap.sizeAt r) := by
  have hlive : (firstProgram.after userBase maxRequest 8 firstActs).map Client.live =
      some [userBase + 184] := by decide +kernel
  obtain ⟨c, hc, hl⟩ := Option.map_eq_some_iff.mp hlive
  obtain ⟨hmalloc, hcalloc, hrealloc⟩ :=
    requests_served (by decide) (by decide) (by decide) (Reach.start.after hc)
  refine ⟨c, hc, hmalloc 100 (by decide), hcalloc 5 20 (Or.inl (by decide)), ?_⟩
  exact hrealloc (userBase + 184) 20 (hl ▸ List.mem_singleton_self _) (by decide)

/-- A request for all but one of the 2^32 bytes returns a block of 8 bytes, all of them header. -/
theorem largest_request_short :
    ∃ r c', Returns (fun n => firstProgram.call userBase n (.malloc 0xFFFFFFFF)) (r, c') ∧
      r ≠ 0 ∧ ¬ 0xFFFFFFFF + blockHdr ≤ c'.heap.sizeAt r := by
  have key : (firstProgram.call userBase 8 (.malloc 0xFFFFFFFF)).map
      (fun x => (x.1, x.2.heap.sizeAt x.1)) = some (userBase + 8, 8) := by decide +kernel
  obtain ⟨⟨r, c'⟩, hcall, hx⟩ := Option.map_eq_some_iff.mp key
  have hr : r = userBase + 8 := congrArg Prod.fst hx
  have hsize : c'.heap.sizeAt r = 8 := congrArg Prod.snd hx
  refine ⟨r, c', (call_steady _ _ _).returns hcall, ?_, ?_⟩
  · rw [hr]
    decide
  · rw [hsize]
    decide

end LunariaOS.Libc
