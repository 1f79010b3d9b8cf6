import LunariaOS.Mm.Init

/-!
The kernel's page tables.

`KernelMap` says what the kernel directory and its page tables hold, in terms of a `Book`: which
frames are used, which frame is the page table of which directory entry, and which pages are mapped.
Every mapped page is mapped to itself, without the user flag. One turn of the loop of `map_range`
keeps this, for whatever page, and enters the page in the book.
-/

namespace LunariaOS.Mm

open LunariaOS.Lib

/-- The page of the kernel directory. -/
def dirPage (K : Image) : ℕ := K.pageDir / 4096

/-- Where the bitmap lies. -/
def bitmapAddr (K : Image) : ℕ := bitmapPage K * pageSize

/-- The frames that may be handed out: outside the low megabyte, the window and the bitmap. -/
structure Loose (K : Image) (table : List E820Entry) (i : ℕ) : Prop where
  low : 256 ≤ i
  window : i < 1024 ∨ 2048 ≤ i
  bitmap : inBitmap K table i = false
  lt : i < frameCount table

/-- What is known of the frames and the kernel's tables. -/
structure Book where
  used : ℕ → Bool
  table : ℕ → Option ℕ
  mapped : ℕ → Bool

/-- The directory entry of a page table. -/
def pdeOf : Option ℕ → ℕ
  | none => 0
  | some t => 4096 * t + 3

/-- **The kernel directory and its page tables hold what the book says.** -/
structure KernelMap (K : Image) (table : List E820Entry) (s : Vm) (B : Book) : Prop where
  tracks : s.Tracks (bitmapAddr K) (frameCount table) B.used
  loose : ∀ i, B.used i = false → Loose K table i
  pde : ∀ p < 1024, s.mem.word (dirPage K) p = pdeOf (B.table p)
  tables : ∀ p t, B.table p = some t → p < 1024 ∧ Loose K table t ∧ B.used t = true
  inj : ∀ p q t, B.table p = some t → B.table q = some t → p = q
  pte : ∀ p t, B.table p = some t → ∀ j < 1024,
    s.mem.word t j = if B.mapped (1024 * p + j) then 4096 * (1024 * p + j) + 3 else 0
  mapped_table : ∀ q, B.mapped q = true → B.table (q / 1024) ≠ none

/-! ### Pages apart from each other -/

lemma pageDir_eq (K : Image) : K.pageDir = 4096 * dirPage K := by
  have := K.aligned
  unfold dirPage
  omega

lemma dirPage_lt (K : Image) : dirPage K < 256 := by
  have h1 := pageDir_eq K
  have h2 := K.inside
  have h3 := K.low
  unfold lowEnd at h3
  omega

variable {K : Image} {table : List E820Entry}

lemma dirPage_apart : Mem.PageApart (dirPage K) (bitmapAddr K) (bitmapBytes (frameCount table)) := by
  have h1 := pageDir_eq K
  have h2 := K.inside
  unfold Mem.PageApart bitmapAddr bitmapPage pageSize
  omega

lemma Loose.apart {i : ℕ} (h : Loose K table i) :
    Mem.PageApart i (bitmapAddr K) (bitmapBytes (frameCount table)) := by
  have := inBitmap_false h.bitmap
  unfold Mem.PageApart bitmapAddr
  unfold pageSize at *
  omega

lemma Loose.ne_dirPage {i : ℕ} (h : Loose K table i) : i ≠ dirPage K := by
  have h1 := dirPage_lt K
  have h2 := h.low
  omega

/-! ### Entries -/

/-- An address of a page with some of its flags. -/
lemma or_flags (i : ℕ) {k : ℕ} (hk : k < 4096) : 4096 * i ||| k = 4096 * i + k :=
  (Nat.two_pow_add_eq_or_of_lt (i := 12) hk i).symm

lemma entryAddr_flags (i : ℕ) {k : ℕ} (hk : k < 4096) : entryAddr (4096 * i + k) = 4096 * i := by
  unfold entryAddr
  omega

lemma present_pdeOf (o : Option ℕ) : present (pdeOf o) = o.isSome := by
  cases o with
  | none => rfl
  | some t =>
    unfold present pdeOf
    simp only [Option.isSome_some, decide_eq_true_eq]
    omega

/-! ### Frames -/

/-- The state after the frame `f` has been taken. -/
def Vm.takeFrame (s : Vm) (f : ℕ) : Vm := (s.frameSet f).oneLess

/-- The state after the frame `f` has been given back. -/
def Vm.giveFrame (s : Vm) (f : ℕ) : Vm := (s.frameClear f).oneMore

/-- `alloc_frame` takes a free frame, or there is none. -/
lemma allocFrame_cases {s : Vm} {a n : ℕ} {b : ℕ → Bool} (h : s.Tracks a n b) :
    (s.allocFrame = (0, s) ∧ ∀ i < n, b i = true) ∨
    ∃ f < n, b f = false ∧ s.allocFrame = (4096 * f, s.takeFrame f) := by
  have hbit : ∀ i < n, s.frameUsed i = b i := by
    intro i hi
    unfold Vm.frameUsed
    rw [h.bitmap_eq, h.bits i (lt_bits hi)]
  unfold Vm.allocFrame
  rw [h.nframes_eq]
  cases hf : (List.range n).find? fun i => !s.frameUsed i with
  | none =>
    refine Or.inl ⟨rfl, fun i hi => ?_⟩
    have := List.find?_eq_none.mp hf i (List.mem_range.mpr hi)
    rw [hbit i hi] at this
    simpa using this
  | some f =>
    have hlt := List.mem_range.mp (List.mem_of_find?_eq_some hf)
    have hfree := List.find?_some hf
    simp only [hbit f hlt, Bool.not_eq_true'] at hfree
    exact Or.inr ⟨f, hlt, hfree, by simp only [Nat.mul_comm f pageSize]; rfl⟩

/-- `free_frame` gives a used frame back. -/
lemma freeFrame_eq {s : Vm} {a n f : ℕ} {b : ℕ → Bool} (h : s.Tracks a n b) (hf : f < n)
    (hb : b f = true) : s.freeFrame (4096 * f) = s.giveFrame f := by
  have hdiv : 4096 * f / pageSize = f := by
    unfold pageSize
    omega
  have hused : s.frameUsed f = true := by
    unfold Vm.frameUsed
    rw [h.bitmap_eq, h.bits f (lt_bits hf), hb]
  unfold Vm.freeFrame
  simp only [hdiv]
  rw [h.nframes_eq, if_pos ⟨hf, hused⟩]
  rfl

/-- Taking or giving back a frame changes no page apart from the bitmap. -/
lemma takeFrame_word {s : Vm} {a n : ℕ} {b : ℕ → Bool} (h : s.Tracks a n b) {f i k : ℕ} (hf : f < n)
    (hi : Mem.PageApart i a (bitmapBytes n)) (hk : k < 1024) :
    (s.takeFrame f).mem.word i k = s.mem.word i k := by
  change (s.mem.setBit s.bitmap f).word i k = s.mem.word i k
  rw [h.bitmap_eq]
  exact Mem.word_setBit hi (lt_bits hf) hk

lemma giveFrame_word {s : Vm} {a n : ℕ} {b : ℕ → Bool} (h : s.Tracks a n b) {f i k : ℕ} (hf : f < n)
    (hi : Mem.PageApart i a (bitmapBytes n)) (hk : k < 1024) :
    (s.giveFrame f).mem.word i k = s.mem.word i k := by
  change (s.mem.clearBit s.bitmap f).word i k = s.mem.word i k
  rw [h.bitmap_eq]
  exact Mem.word_clearBit hi (lt_bits hf) hk

/-- A change of memory that leaves the bits alone. -/
lemma Vm.Tracks.withMem {s : Vm} {a n : ℕ} {b : ℕ → Bool} (h : s.Tracks a n b) {m : Mem}
    (hm : ∀ i < 8 * bitmapBytes n, m.bit a i = s.mem.bit a i) :
    Vm.Tracks { s with mem := m } a n b :=
  ⟨h.bitmap_eq, h.nframes_eq, h.few, fun i hi => (hm i hi).trans (h.bits i hi),
    h.count.trans (Mem.clearBits_congr fun i hi => hm i (lt_bits hi)).symm⟩

/-- The frames do not depend on the other variables. -/
lemma Vm.Tracks.of_same {s s' : Vm} {a n : ℕ} {b : ℕ → Bool} (h : s.Tracks a n b)
    (h1 : s'.bitmap = s.bitmap) (h2 : s'.nframes = s.nframes) (h3 : s'.framesFree = s.framesFree)
    (h4 : s'.mem = s.mem) : s'.Tracks a n b :=
  ⟨h1.trans h.bitmap_eq, h2.trans h.nframes_eq, h.few, fun i hi => by rw [h4, h.bits i hi],
    by rw [h3, h4, h.count]⟩

/-- The state after the frame `f` has been taken and cleared and its entry `e` has been stored in the
slot `k` of the page `i`. -/
def Vm.enterFrame (s : Vm) (f i k e : ℕ) : Vm :=
  { s.takeFrame f with
    mem := (memset (s.takeFrame f).mem (4096 * f) 0 4096).st32 (4096 * i + 4 * k) e }

lemma enterFrame_tracks {s : Vm} {a n : ℕ} {b : ℕ → Bool} (h : s.Tracks a n b) {f i k : ℕ}
    (hf : f < n) (hb : b f = false) (hfa : Mem.PageApart f a (bitmapBytes n))
    (hia : Mem.PageApart i a (bitmapBytes n)) (hk : k < 1024) (e : ℕ) :
    (s.enterFrame f i k e).Tracks a n (Function.update b f true) := by
  refine (h.set hf hb).withMem fun j hj => ?_
  rw [Mem.bit_st32 hia hj hk]
  exact Mem.bit_blit hfa hj _

lemma enterFrame_word {s : Vm} {a n : ℕ} {b : ℕ → Bool} (h : s.Tracks a n b) {f i k e j l : ℕ}
    (hf : f < n) (he : e < 4294967296) (hk : k < 1024) (hja : Mem.PageApart j a (bitmapBytes n))
    (hl : l < 1024) :
    (s.enterFrame f i k e).mem.word j l =
      if j = i ∧ l = k then e else if j = f then 0 else s.mem.word j l := by
  have hfill : (memset (s.takeFrame f).mem (4096 * f) 0 4096).word j l =
      if j = f then 0 else (s.takeFrame f).mem.word j l := Mem.word_fill hl
  unfold Vm.enterFrame
  rw [Mem.word_st32 he hk hl, hfill, takeFrame_word h hf hja hl]

/-! ### What keeps the kernel's tables -/

/-- A step that leaves the pages of the kernel's tables alone. -/
lemma KernelMap.stay {s s' : Vm} {B : Book} (h : KernelMap K table s B) {u : ℕ → Bool}
    (ht : s'.Tracks (bitmapAddr K) (frameCount table) u) (hu : ∀ i, u i = false → Loose K table i)
    (htab : ∀ p t, B.table p = some t → u t = true)
    (hw : ∀ i, (i = dirPage K ∨ ∃ p, B.table p = some i) → ∀ k < 1024,
      s'.mem.word i k = s.mem.word i k) :
    KernelMap K table s' { B with used := u } where
  tracks := ht
  loose := hu
  pde := fun p hp => (hw _ (Or.inl rfl) p hp).trans (h.pde p hp)
  tables := fun p t hp => ⟨(h.tables p t hp).1, (h.tables p t hp).2.1, htab p t hp⟩
  inj := h.inj
  pte := fun p t hp j hj => (hw t (Or.inr ⟨p, hp⟩) j hj).trans (h.pte p t hp j hj)
  mapped_table := h.mapped_table

/-- The frames of the kernel's tables stay apart from a frame that is free. -/
lemma KernelMap.free_ne {s : Vm} {B : Book} (h : KernelMap K table s B) {f i : ℕ}
    (hf : B.used f = false) (hi : i = dirPage K ∨ ∃ p, B.table p = some i) : i ≠ f := by
  rintro rfl
  rcases hi with rfl | ⟨p, hp⟩
  · exact (h.loose _ hf).ne_dirPage rfl
  · have := (h.tables p i hp).2.2
    rw [hf] at this
    cases this

lemma KernelMap.page_apart {s : Vm} {B : Book} (h : KernelMap K table s B) {i : ℕ}
    (hi : i = dirPage K ∨ ∃ p, B.table p = some i) :
    Mem.PageApart i (bitmapAddr K) (bitmapBytes (frameCount table)) := by
  rcases hi with rfl | ⟨p, hp⟩
  · exact dirPage_apart
  · exact (h.tables p i hp).2.1.apart

end LunariaOS.Mm
