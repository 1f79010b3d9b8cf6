import LunariaOS.Lib.Fuel
import LunariaOS.Libc.Realloc

/-!
Programs that use the heap.

A program holds the pointers that the allocator has given it and not yet taken back. It calls the
allocator with these pointers only, and it stores bytes in the payloads of its blocks and outside
the heap. Every call that it may make returns, and keeps the blocks that it holds.
-/

namespace LunariaOS.Libc

open LunariaOS.Lib

/-! ### More steps change no result -/

lemma findFit_steady (m : Mem) (need p b : ℕ) : Steady fun n => findFit m need n p b := by
  intro n
  induction n generalizing p b with
  | zero => exact Below.none _
  | succ n ih => exact Below.ite (Below.refl _) (Below.ite (Below.refl _) (ih _ _))

lemma lastBlock_steady (m : Mem) (p : ℕ) : Steady fun n => lastBlock m n p := by
  intro n
  induction n generalizing p with
  | zero => exact Below.none _
  | succ n ih => exact Below.ite (Below.refl _) (ih _)

lemma findPlace_steady (m : Mem) (b p d : ℕ) : Steady fun n => findPlace m b n p d := by
  intro n
  induction n generalizing p d with
  | zero => exact Below.none _
  | succ n ih => exact Below.ite (ih _ _) (Below.refl _)

lemma addTail_steady (h : Heap) (b : ℕ) : Steady fun n => h.addTail n b := fun n =>
  Below.ite (Below.refl _) (Below.bind (lastBlock_steady h.mem h.freelist n) fun _ => Below.refl _)

lemma morecore_steady (h : Heap) (need : ℕ) : Steady fun n => h.morecore n need := fun n =>
  Below.ite (Below.refl _) (Below.bind (addTail_steady _ _ n) fun _ => Below.refl _)

lemma mallocLoop_steady (need : ℕ) (h : Heap) : Steady fun n => Heap.mallocLoop need n h := by
  intro n
  induction n generalizing h with
  | zero => exact Below.none _
  | succ n ih =>
    apply Below.bind (findFit_steady h.mem need 0 h.freelist n)
    rintro ⟨p, b⟩
    apply Below.ite (Below.refl _)
    apply Below.bind (morecore_steady h need n)
    rintro ⟨grown, h'⟩
    exact Below.ite (ih h') (Below.refl _)

lemma malloc_steady (hs : ℕ) (h : Heap) (size : ℕ) : Steady fun n => h.malloc hs n size := fun n =>
  Below.ite (Below.refl _) (mallocLoop_steady _ _ n)

lemma free_steady (h : Heap) (ptr : ℕ) : Steady fun n => h.free n ptr := fun n =>
  Below.ite (Below.refl _) (Below.bind (findPlace_steady _ _ _ _ n) fun _ => Below.refl _)

lemma calloc_steady (hs : ℕ) (h : Heap) (count size : ℕ) :
    Steady fun n => h.calloc hs n count size := fun n =>
  Below.ite (Below.refl _) (Below.bind (malloc_steady hs h _ n) fun _ => Below.refl _)

lemma shrink_steady (h : Heap) (ptr size : ℕ) : Steady fun n => h.shrink n ptr size := fun n =>
  Below.ite (free_steady _ _ n) (Below.refl _)

lemma realloc_steady (hs : ℕ) (h : Heap) (ptr size : ℕ) :
    Steady fun n => h.realloc hs n ptr size := by
  intro n
  apply Below.ite (malloc_steady hs h size n)
  apply Below.ite (Below.bind (free_steady h ptr n) fun _ => Below.refl _)
  apply Below.ite (Below.bind (shrink_steady h ptr size n) fun _ => Below.refl _)
  apply Below.bind (malloc_steady hs h size n)
  rintro ⟨p, h'⟩
  exact Below.ite (Below.refl _) (Below.bind (free_steady _ ptr n) fun _ => Below.refl _)

/-! ### Programs -/

/-- The heap of a program and the pointers that it holds. -/
structure Client where
  heap : Heap
  live : List ℕ

/-- What a program does with the heap. -/
inductive Act
  | malloc (size : ℕ)
  | calloc (count size : ℕ)
  | realloc (ptr size : ℕ)
  | free (ptr : ℕ)
  | store (a : ℕ) (v : UInt8)
  deriving DecidableEq

/-- The bytes that an action asks for. -/
def Act.bytes : Act → ℕ
  | .malloc size => size
  | .calloc count size => count * size
  | .realloc _ size => size
  | .free _ => 0
  | .store _ _ => 0

/-- The size of the block at `ptr`, header included. -/
def Heap.sizeAt (h : Heap) (ptr : ℕ) : ℕ := h.mem.ld32 (blockOf ptr)

/-- The pointers held once a call has returned `r`. -/
def held (live : List ℕ) (r : ℕ) : List ℕ := if r = 0 then live else r :: live

/-- The pointers held once `realloc` has been called: a block that could not be resized stays. -/
def Client.kept (c : Client) (ptr size r : ℕ) : List ℕ :=
  if r = 0 ∧ size ≠ 0 then c.live else c.live.erase ptr

/-- Carry out an action with `n` steps: what it returns, and the program afterwards. -/
def Client.call (hs n : ℕ) (c : Client) : Act → Option (ℕ × Client)
  | .malloc size => do
    let (r, h) ← c.heap.malloc hs n size
    some (r, ⟨h, held c.live r⟩)
  | .calloc count size => do
    let (r, h) ← c.heap.calloc hs n count size
    some (r, ⟨h, held c.live r⟩)
  | .realloc ptr size => do
    let (r, h) ← c.heap.realloc hs n ptr size
    some (r, ⟨h, held (c.kept ptr size r) r⟩)
  | .free ptr => do
    let h ← c.heap.free n ptr
    some (0, ⟨h, c.live.erase ptr⟩)
  | .store a v => some (0, { c with heap := { c.heap with mem := Function.update c.heap.mem a v } })

lemma call_steady (hs : ℕ) (c : Client) (a : Act) : Steady fun n => c.call hs n a := by
  intro n
  cases a with
  | malloc size => exact Below.bind (malloc_steady hs _ _ n) fun _ => Below.refl _
  | calloc count size => exact Below.bind (calloc_steady hs _ _ _ n) fun _ => Below.refl _
  | realloc ptr size => exact Below.bind (realloc_steady hs _ _ _ n) fun _ => Below.refl _
  | free ptr => exact Below.bind (free_steady _ _ n) fun _ => Below.refl _
  | store a v => exact Below.refl _

/-- What a program may do: it frees and resizes pointers that it holds, it stores in the payloads of
its blocks and outside the heap, and it asks for at most `limit` bytes. A product of `calloc` that
does not fit in 32 bits is also allowed. -/
def Client.Allowed (hs limit : ℕ) (c : Client) : Act → Prop
  | .malloc size => size ≤ limit
  | .calloc count size => count * size ≤ limit ∨ 4294967296 ≤ count * size
  | .realloc ptr size => (ptr = 0 ∨ ptr ∈ c.live) ∧ size ≤ limit
  | .free ptr => ptr = 0 ∨ ptr ∈ c.live
  | .store a _ => a < hs ∨ c.heap.brk ≤ a ∨ ∃ p ∈ c.live, p ≤ a ∧ a + 8 < p + c.heap.sizeAt p

/-- The program as it is entered, its image of `size` bytes loaded. -/
def Client.start (mem : Mem) (size : ℕ) : Client :=
  ⟨{ mem := mem, freelist := 0, heapBrk := 0, heapState := 0, brk := vmNoteLoad size }, []⟩

/-- The states that a program reaches by what it may do. -/
inductive Reach (hs limit : ℕ) (c₀ : Client) : Client → Prop
  | start : Reach hs limit c₀ c₀
  | step {c c' : Client} {a : Act} {r : ℕ} : Reach hs limit c₀ c → c.Allowed hs limit a →
      Returns (fun n => c.call hs n a) (r, c') → Reach hs limit c₀ c'

/-! ### What a program holds -/

/-- Where the payload of a block starts. -/
def ptrOf (b : Block) : ℕ := b.addr + 8

/-- The pointers that a program holds are those of the live blocks of its heap. -/
structure Client.Holds (hs : ℕ) (c : Client) (L : List Block) : Prop where
  sound : Sound hs c.heap L
  live : c.live.Perm (L.map ptrOf)

section Calls

variable {hs lo n limit : ℕ} {c c' : Client} {F L : List Block} {h : Heap}

lemma HeapOk.sizeAt (H : HeapOk hs h lo F L) {b : Block} (hb : b ∈ L) : h.sizeAt (ptrOf b) = b.size := by
  have htop := H.top_lt (b := b) (by simp [hb])
  have h8 := (H.shape b (by simp [hb])).2.2
  unfold Block.top at htop
  unfold Heap.sizeAt ptrOf
  rw [blockOf_eq (by omega), H.live b hb]

/-- A held pointer is that of a live block, and the other live blocks are those of the others. -/
lemma Client.Holds.split (H : c.Holds hs L) {p : ℕ} (hp : p ∈ c.live) :
    ∃ b L' lo F, p = ptrOf b ∧ L.Perm (b :: L') ∧ HeapOk hs c.heap lo F (b :: L') ∧
      (c.live.erase p).Perm (L'.map ptrOf) := by
  obtain ⟨b, hb, rfl⟩ := List.mem_map.mp (H.live.mem_iff.mp hp)
  obtain ⟨l₁, l₂, rfl⟩ := List.append_of_mem hb
  have hperm : (l₁ ++ b :: l₂).Perm (b :: (l₁ ++ l₂)) := List.perm_middle
  have hlive : (ptrOf b :: c.live.erase (ptrOf b)).Perm (ptrOf b :: (l₁ ++ l₂).map ptrOf) :=
    ((List.perm_cons_erase hp).symm.trans H.live).trans (hperm.map _)
  rcases H.sound with ⟨hnil, -⟩ | ⟨lo, F, hok⟩
  · simp at hnil
  · exact ⟨b, l₁ ++ l₂, lo, F, rfl, hperm, hok.perm hperm, (List.perm_cons _).mp hlive⟩

lemma Client.Holds.ne_zero (H : c.Holds hs L) {p : ℕ} (hp : p ∈ c.live) : p ≠ 0 := by
  obtain ⟨b, L', lo, F, rfl, -⟩ := H.split hp
  unfold ptrOf
  omega

/-- What a pointer that a call has returned is good for. -/
lemma HeapOk.granted {size : ℕ} {k : Block} (H : HeapOk hs h lo F (k :: L))
    (hsize : size ≤ maxRequest) (hk : needOf size ≤ k.size) :
    8 ∣ ptrOf k ∧ size + 8 ≤ h.sizeAt (ptrOf k) := by
  have h1 := H.shape k (by simp)
  have h2 := needOf_bounds hsize
  rw [H.sizeAt (b := k) (by simp)]
  unfold ptrOf
  omega

lemma held_zero (l : List ℕ) : held l 0 = l := if_pos rfl

lemma held_ptr (l : List ℕ) (k : Block) : held l (ptrOf k) = ptrOf k :: l :=
  if_neg (by unfold ptrOf; omega)

lemma malloc_call {size : ℕ} (H : c.Holds hs L) (hhs : 8 ∣ hs) (hhs32 : hs < 4294967296)
    (hsize : size ≤ maxRequest) (hn : enough ≤ n) :
    ∃ r c' L', c.call hs n (.malloc size) = some (r, c') ∧ c'.Holds hs L' ∧
      Keeps c.heap c'.heap L ∧ ((r = 0 ∧ Refused hs c'.heap size ∧ L' = L) ∨
        ∃ k, r = ptrOf k ∧ L' = k :: L ∧ 8 ∣ r ∧ size + 8 ≤ c'.heap.sizeAt r) := by
  obtain ⟨r, h', hr, hS⟩ := malloc_ok (n := n) H.sound hhs hhs32 hsize hn
  have hcall : c.call hs n (.malloc size) = some (r, ⟨h', held c.live r⟩) := by
    simp only [Client.call, hr, Option.bind_eq_bind, Option.bind_some]
  obtain ⟨hkeep, ⟨rfl, href, hs'⟩ | ⟨k, rfl, hk, lo, F, H'⟩⟩ := hS.cases
  · exact ⟨0, _, L, hcall, ⟨hs', by rw [held_zero]; exact H.live⟩, hkeep, Or.inl ⟨rfl, href, rfl⟩⟩
  · refine ⟨ptrOf k, _, k :: L, hcall, ⟨Or.inr ⟨lo, F, H'⟩, ?_⟩, hkeep,
      Or.inr ⟨k, rfl, rfl, H'.granted hsize hk⟩⟩
    show (held c.live (ptrOf k)).Perm _
    rw [held_ptr]
    exact H.live.cons _

lemma calloc_call {count size : ℕ} (H : c.Holds hs L) (hhs : 8 ∣ hs) (hhs32 : hs < 4294967296)
    (hreq : count * size ≤ maxRequest ∨ 4294967296 ≤ count * size) (hn : enough ≤ n) :
    ∃ r c' L', c.call hs n (.calloc count size) = some (r, c') ∧ c'.Holds hs L' ∧
      Keeps c.heap c'.heap L ∧ ((r = 0 ∧ L' = L) ∨
        ∃ k, r = ptrOf k ∧ L' = k :: L ∧ 8 ∣ r ∧ count * size + 8 ≤ c'.heap.sizeAt r ∧
          ∀ i, i < count * size → c'.heap.mem (r + i) = 0) := by
  obtain ⟨r, h', hr, hkeep, hS⟩ := calloc_ok (n := n) H.sound hhs hhs32 hreq hn
  have hcall : c.call hs n (.calloc count size) = some (r, ⟨h', held c.live r⟩) := by
    simp only [Client.call, hr, Option.bind_eq_bind, Option.bind_some]
  rcases hS with ⟨rfl, hs'⟩ | ⟨k, rfl, hsmall, hk, ⟨lo, F, H'⟩, hzero⟩
  · exact ⟨0, _, L, hcall, ⟨hs', by rw [held_zero]; exact H.live⟩, hkeep, Or.inl ⟨rfl, rfl⟩⟩
  · have hg := H'.granted hsmall hk
    refine ⟨ptrOf k, _, k :: L, hcall, ⟨Or.inr ⟨lo, F, H'⟩, ?_⟩, hkeep,
      Or.inr ⟨k, rfl, rfl, hg.1, hg.2, hzero⟩⟩
    show (held c.live (ptrOf k)).Perm _
    rw [held_ptr]
    exact H.live.cons _

lemma free_call {p : ℕ} (H : c.Holds hs L) (hp : p ∈ c.live) (hn : enough ≤ n) :
    ∃ c' b L', p = ptrOf b ∧ L.Perm (b :: L') ∧ c.call hs n (.free p) = some (0, c') ∧
      c'.Holds hs L' ∧ Keeps c.heap c'.heap L' ∧ c'.live = c.live.erase p ∧
      ∃ lo F, HeapOk hs c'.heap lo F L' ∧ ∃ d ∈ F, b.Within d := by
  obtain ⟨b, L', lo, F, rfl, hperm, hok, hlive⟩ := H.split hp
  obtain ⟨F', h', hfree, H', hfr, -, hback⟩ := free_ok (n := n) hok (by have := hok.length_lt; omega)
  have hcall : c.call hs n (.free (ptrOf b)) = some (0, ⟨h', c.live.erase (ptrOf b)⟩) := by
    have hfree' : c.heap.free n (ptrOf b) = some h' := hfree
    simp only [Client.call, hfree', Option.bind_eq_bind, Option.bind_some]
  refine ⟨_, b, L', rfl, hperm, hcall, ⟨Or.inr ⟨lo, F', H'⟩, hlive⟩, fun d hd x hx => ?_, rfl,
    lo, F', H', hback⟩
  exact hok.frame_keep hfr (by simp [hd]) hx (hok.cover_freed hd hx)

lemma resize_call {p size : ℕ} (H : c.Holds hs L) (hp : p ∈ c.live) (hhs : 8 ∣ hs)
    (hhs32 : hs < 4294967296) (h0 : size ≠ 0) (hsize : size ≤ maxRequest) (hn : enough ≤ n) :
    ∃ r c' b L', p = ptrOf b ∧ L.Perm (b :: L') ∧ c.call hs n (.realloc p size) = some (r, c') ∧
      Keeps c.heap c'.heap L' ∧ ((r = 0 ∧ c'.Holds hs (b :: L') ∧ c'.live = c.live ∧
          Keeps c.heap c'.heap (b :: L')) ∨
        ∃ k, r = ptrOf k ∧ c'.Holds hs (k :: L') ∧ 8 ∣ r ∧ size + 8 ≤ c'.heap.sizeAt r ∧
          (r = p ∨ c.heap.sizeAt p ≤ c'.heap.sizeAt r) ∧
          (∀ i, i < size → i + 8 < c.heap.sizeAt p → c'.heap.mem (r + i) = c.heap.mem (p + i)) ∧
          c'.live = r :: c.live.erase p ∧
          ∃ lo F, HeapOk hs c'.heap lo F (k :: L') ∧ GivenBack b k F) := by
  obtain ⟨b, L', lo, F, rfl, hperm, hok, hlive⟩ := H.split hp
  obtain ⟨r, h', hr, hkeep, hS⟩ := resize_ok (n := n) hok hhs hhs32 h0 hsize hn
  have hcall : c.call hs n (.realloc (ptrOf b) size)
      = some (r, ⟨h', held (c.kept (ptrOf b) size r) r⟩) := by
    have hr' : c.heap.realloc hs n (ptrOf b) size = some (r, h') := hr
    simp only [Client.call, hr', Option.bind_eq_bind, Option.bind_some]
  refine ⟨r, _, b, L', rfl, hperm, hcall, hkeep, ?_⟩
  rcases hS with ⟨rfl, hs', hb⟩ | ⟨k, lo', F', hrk, hk, H', hcopy, hback⟩
  · have hlive' : held (c.kept (ptrOf b) size 0) 0 = c.live := by
      rw [held_zero, Client.kept, if_pos ⟨rfl, h0⟩]
    refine Or.inl ⟨rfl, ⟨hs', ?_⟩, hlive', hb⟩
    show (held (c.kept (ptrOf b) size 0) 0).Perm _
    rw [hlive']
    exact H.live.trans (hperm.map _)
  · obtain rfl : r = ptrOf k := hrk
    have hg := H'.granted hsize hk
    have hlive' : held (c.kept (ptrOf b) size (ptrOf k)) (ptrOf k) =
        ptrOf k :: c.live.erase (ptrOf b) := by
      rw [held_ptr, Client.kept, if_neg (by unfold ptrOf; omega)]
    refine Or.inr ⟨k, rfl, ⟨Or.inr ⟨lo', F', H'⟩, ?_⟩, hg.1, hg.2, ?_, fun i hi hib => ?_, hlive',
      lo', F', H', hback⟩
    · show (held (c.kept (ptrOf b) size (ptrOf k)) (ptrOf k)).Perm _
      rw [hlive']
      exact hlive.cons _
    · rw [hok.sizeAt (b := b) (by simp), H'.sizeAt (b := k) (by simp)]
      unfold ptrOf
      rcases hback with ⟨he, -⟩ | ⟨-, hlt, -⟩
      · exact Or.inl (by rw [he])
      · exact Or.inr hlt.le
    · rw [hok.sizeAt (b := b) (by simp)] at hib
      exact hcopy i hi hib

lemma store_call {a : ℕ} {v : UInt8} (H : c.Holds hs L) (ha : c.Allowed hs limit (.store a v)) :
    ∃ c', c.call hs n (.store a v) = some (0, c') ∧ c'.Holds hs L := by
  refine ⟨_, rfl, ⟨?_, H.live⟩⟩
  rcases H.sound with h | ⟨lo, F, hok⟩
  · exact Or.inl h
  · refine Or.inr ⟨lo, F, hok.store fun d hd x hx => Function.update_of_ne ?_ ..⟩
    rintro rfl
    have hin := hok.inside hd
    have hstart := hok.start
    have hd8 := (hok.shape d hd).2.2
    unfold Block.top at hin
    have hxd : d.addr ≤ x ∧ x < d.addr + 8 := hx
    rcases ha with ha | ha | ⟨p, hp, h1, h2⟩
    · omega
    · rw [hok.brk_eq] at ha
      omega
    · obtain ⟨b, hb, rfl⟩ := List.mem_map.mp (H.live.mem_iff.mp hp)
      have hout := hok.head_out hb hd hx
      rw [hok.sizeAt hb] at h2
      unfold ptrOf at h1 h2
      unfold Block.top at hout
      omega

/-- Resizing the null pointer is a plain request. -/
lemma realloc_null (H : c.Holds hs L) (size : ℕ) :
    c.call hs n (.realloc 0 size) = c.call hs n (.malloc size) := by
  have h0 : 0 ∉ c.live := fun h => H.ne_zero h rfl
  have hk : ∀ r, c.kept 0 size r = c.live := by
    intro r
    unfold Client.kept
    rw [List.erase_of_not_mem h0]
    split_ifs <;> rfl
  simp only [Client.call, Heap.realloc, if_pos, hk]

/-- Resizing to no bytes gives the block back. -/
lemma realloc_zero (H : c.Holds hs L) {p : ℕ} (hp : p ∈ c.live) :
    c.call hs n (.realloc p 0) = c.call hs n (.free p) := by
  have hk : c.kept p 0 0 = c.live.erase p := if_neg (by simp)
  simp only [Client.call, Heap.realloc, if_neg (H.ne_zero hp), if_pos, Option.bind_eq_bind,
    Option.bind_assoc, Option.bind_some, hk, held_zero]

lemma free_null (H : c.Holds hs L) : c.call hs n (.free 0) = some (0, c) := by
  have h0 : 0 ∉ c.live := fun h => H.ne_zero h rfl
  simp only [Client.call, Heap.free, if_pos, Option.bind_eq_bind, Option.bind_some]
  rw [List.erase_of_not_mem h0]

/-- Whatever a program may do returns, and leaves it with the pointers of live blocks. -/
lemma call_ok {a : Act} (H : c.Holds hs L) (hhs : 8 ∣ hs) (hhs32 : hs < 4294967296)
    (hlimit : limit ≤ maxRequest) (ha : c.Allowed hs limit a) (hn : enough ≤ n) :
    ∃ r c' L', c.call hs n a = some (r, c') ∧ c'.Holds hs L' ∧
      (r ≠ 0 → 8 ∣ r ∧ a.bytes + 8 ≤ c'.heap.sizeAt r) := by
  cases a with
  | malloc size =>
    obtain ⟨r, c', L', hc, H', -, ⟨rfl, -⟩ | ⟨k, -, -, hg⟩⟩ :=
      malloc_call (n := n) H hhs hhs32 (le_trans ha hlimit) hn
    · exact ⟨0, c', L', hc, H', fun h => absurd rfl h⟩
    · exact ⟨r, c', L', hc, H', fun _ => hg⟩
  | calloc count size =>
    obtain ⟨r, c', L', hc, H', -, ⟨rfl, -⟩ | ⟨k, -, -, h1, h2, -⟩⟩ :=
      calloc_call (n := n) H hhs hhs32 (ha.imp_left fun h => le_trans h hlimit) hn
    · exact ⟨0, c', L', hc, H', fun h => absurd rfl h⟩
    · exact ⟨r, c', L', hc, H', fun _ => ⟨h1, h2⟩⟩
  | realloc p size =>
    obtain ⟨hp, hsize⟩ := ha
    rcases hp with rfl | hp
    · rw [realloc_null H]
      obtain ⟨r, c', L', hc, H', -, ⟨rfl, -⟩ | ⟨k, -, -, hg⟩⟩ :=
        malloc_call (n := n) H hhs hhs32 (le_trans hsize hlimit) hn
      · exact ⟨0, c', L', hc, H', fun h => absurd rfl h⟩
      · exact ⟨r, c', L', hc, H', fun _ => hg⟩
    · by_cases h0 : size = 0
      · subst h0
        rw [realloc_zero H hp]
        obtain ⟨c', b, L', -, -, hc, H', -⟩ := free_call (n := n) H hp hn
        exact ⟨0, c', L', hc, H', fun h => absurd rfl h⟩
      · obtain ⟨r, c', b, L', -, -, hc, -, ⟨rfl, H', -⟩ | ⟨k, -, H', h1, h2, -⟩⟩ :=
          resize_call (n := n) H hp hhs hhs32 h0 (le_trans hsize hlimit) hn
        · exact ⟨0, c', _, hc, H', fun h => absurd rfl h⟩
        · exact ⟨r, c', _, hc, H', fun _ => ⟨h1, h2⟩⟩
  | free p =>
    rcases ha with rfl | hp
    · exact ⟨0, c, L, free_null H, H, fun h => absurd rfl h⟩
    · obtain ⟨c', b, L', -, -, hc, H', -⟩ := free_call (n := n) H hp hn
      exact ⟨0, c', L', hc, H', fun h => absurd rfl h⟩
  | store x v =>
    obtain ⟨c', hc, H'⟩ := store_call (n := n) H ha
    exact ⟨0, c', L, hc, H', fun h => absurd rfl h⟩

end Calls

/-! ### Every run -/

section Reach

variable {hs limit size : ℕ} {m : Mem} {c : Client}

lemma start_holds (hs : ℕ) (m : Mem) (hsize : size ≤ userStack - userBase) :
    (Client.start m size).Holds hs [] := by
  have h := vmNoteLoad_bounds hsize
  exact ⟨Or.inl ⟨rfl, Or.inl ⟨rfl, rfl, h.1, h.2.1, h.2.2⟩⟩, List.Perm.refl _⟩

lemma reach_holds (hhs : 8 ∣ hs) (hhs32 : hs < 4294967296) (hsize : size ≤ userStack - userBase)
    (hlimit : limit ≤ maxRequest) (hc : Reach hs limit (Client.start m size) c) :
    ∃ L, c.Holds hs L := by
  induction hc with
  | start => exact ⟨[], start_holds hs m hsize⟩
  | step _ ha hr ih =>
    obtain ⟨L, H⟩ := ih
    obtain ⟨r, c', L', hcall, H', -⟩ := call_ok H hhs hhs32 hlimit ha (le_refl enough)
    have := hr.unique ((call_steady hs _ _).returns hcall)
    rw [Prod.mk.injEq] at this
    exact ⟨L', this.2 ▸ H'⟩

end Reach

end LunariaOS.Libc
