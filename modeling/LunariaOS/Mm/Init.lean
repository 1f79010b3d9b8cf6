import LunariaOS.Mm.Code

/-!
The frames after `memory_init`.

`Tracks` says which of the frames are marked used and that the count of the free ones is right. A
frame that is marked or cleared changes one bit of it and no memory but the bitmap, and the two loops
of `memory_init` are runs of such steps.
-/

namespace LunariaOS.Mm

open LunariaOS.Lib

/-- The bitmap at `a` marks the frame `i`, of the `n` there are, as `b i` says, and `frames_free`
counts the others. The last byte of the bitmap may have bits to spare, which `b` tells as well. -/
structure Vm.Tracks (s : Vm) (a n : ℕ) (b : ℕ → Bool) : Prop where
  bitmap_eq : s.bitmap = a
  nframes_eq : s.nframes = n
  few : n ≤ 1048576
  bits : ∀ i < 8 * bitmapBytes n, s.mem.bit a i = b i
  count : s.framesFree = s.mem.clearBits a n

variable {s : Vm} {a n i : ℕ} {b : ℕ → Bool}

/-! ### Single frames -/

lemma lt_bits (hi : i < n) : i < 8 * bitmapBytes n := by
  unfold bitmapBytes
  omega

lemma Vm.Tracks.congr (h : s.Tracks a n b) {b' : ℕ → Bool}
    (hb : ∀ i < 8 * bitmapBytes n, b' i = b i) : s.Tracks a n b' :=
  ⟨h.bitmap_eq, h.nframes_eq, h.few, fun i hi => (h.bits i hi).trans (hb i hi).symm, h.count⟩

/-- A frame that was used becomes free. -/
lemma Vm.Tracks.clear (h : s.Tracks a n b) (hi : i < n) (hb : b i = true) :
    (s.frameClear i).oneMore.Tracks a n (Function.update b i false) := by
  have hset : s.mem.bit a i = true := (h.bits i (lt_bits hi)).trans hb
  have hcount := Mem.clearBits_clearBit hi hset
  have hle := (s.mem.clearBit a i).clearBits_le a n
  have hfew := h.few
  refine ⟨h.bitmap_eq, h.nframes_eq, h.few, fun j hj => ?_, ?_⟩
  · change (s.mem.clearBit s.bitmap i).bit a j = _
    rw [h.bitmap_eq, Mem.bit_clearBit, h.bits j hj]
    by_cases hij : i = j
    · subst hij
      simp
    · rw [Function.update_of_ne (Ne.symm hij)]
      simp [hij]
  · change u32 (s.framesFree + 1) = (s.mem.clearBit s.bitmap i).clearBits a n
    rw [h.bitmap_eq, hcount, h.count]
    exact u32_of_lt (by omega)

/-- A frame that was free becomes used. -/
lemma Vm.Tracks.set (h : s.Tracks a n b) (hi : i < n) (hb : b i = false) :
    (s.frameSet i).oneLess.Tracks a n (Function.update b i true) := by
  have hclear : s.mem.bit a i = false := (h.bits i (lt_bits hi)).trans hb
  have hcount := Mem.clearBits_setBit hi hclear
  have hle := s.mem.clearBits_le a n
  have hfew := h.few
  refine ⟨h.bitmap_eq, h.nframes_eq, h.few, fun j hj => ?_, ?_⟩
  · change (s.mem.setBit s.bitmap i).bit a j = _
    rw [h.bitmap_eq, Mem.bit_setBit, h.bits j hj]
    by_cases hij : i = j
    · subst hij
      simp
    · rw [Function.update_of_ne (Ne.symm hij)]
      simp [hij]
  · change u32 (s.framesFree + 4294967295) = (s.mem.setBit s.bitmap i).clearBits a n
    rw [h.bitmap_eq, h.count]
    unfold u32
    omega

/-! ### The two loops -/

lemma topUsable_lt (table : List E820Entry) : topUsable table < 4294967296 := by
  have key : ∀ (l : List E820Entry) (top : ℕ), top < 4294967296 →
      l.foldl (fun top e =>
        if e.counts then
          let stop := u32 (e.baseLo + e.lenLo)
          let stop := if stop < e.baseLo then 0xFFFFFFFF else stop
          if stop > top then stop else top
        else top) top < 4294967296 := by
    intro l
    induction l with
    | nil => exact fun _ h => h
    | cons e l ih =>
      intro top htop
      rw [List.foldl_cons]
      apply ih
      have := u32_lt (e.baseLo + e.lenLo)
      dsimp only
      split_ifs <;> omega
  exact key table 0 (by omega)

/-- The number of frames below the end of memory. -/
def frameCount (table : List E820Entry) : ℕ := topUsable table / pageSize

lemma frameCount_le (table : List E820Entry) : frameCount table ≤ 1048575 := by
  have := topUsable_lt table
  unfold frameCount pageSize
  omega

/-- The first page after the kernel, where the bitmap goes. -/
def bitmapPage (K : Image) : ℕ := (K.kernelEnd + pageSize - 1) / pageSize

/-- The pages of the bitmap. -/
def bitmapPages (table : List E820Entry) : ℕ :=
  (bitmapBytes (frameCount table) + pageSize - 1) / pageSize

/-- The frame `i` holds a part of the bitmap. -/
def inBitmap (K : Image) (table : List E820Entry) (i : ℕ) : Bool :=
  bitmapPage K ≤ i && decide (i < bitmapPage K + bitmapPages table)

/-- The frames that `memory_init` leaves used; the bits to spare are set as well. -/
def usedAtStart (K : Image) (table : List E820Entry) (i : ℕ) : Bool :=
  heldBack table i || decide (frameCount table ≤ i) || inBitmap K table i

/-- A bitmap full of ones. -/
lemma memset_bits (m : Mem) (a n : ℕ) (hi : i < 8 * bitmapBytes n) :
    (memset m a 0xFF (bitmapBytes n)).bit a i = true := by
  have hin : i / 8 < bitmapBytes n := by omega
  have hones : ∀ k < 8, (255 : ℕ).testBit k = true := by decide
  unfold Mem.bit
  rw [memset_in _ _ _ hin]
  exact hones _ (Nat.mod_lt _ (by omega))

lemma clearBits_zero {m : Mem} (h : ∀ i < n, m.bit a i = true) : m.clearBits a n = 0 := by
  unfold Mem.clearBits
  rw [Finset.card_eq_zero, Finset.filter_eq_empty_iff]
  intro i hi hbit
  rw [h i (Finset.mem_range.mp hi)] at hbit
  cases hbit

/-- When all frames are used, none is counted as free. -/
lemma Vm.Tracks.full (h : s.Tracks a n b) (hfull : ∀ i < n, b i = true) : s.framesFree = 0 := by
  rw [h.count]
  exact clearBits_zero fun i hi => (h.bits i (lt_bits hi)).trans (hfull i hi)

/-- The loop over the frames clears those that are not held back. -/
lemma clearLoop_tracks (table : List E820Entry) {k : ℕ} (hk : k ≤ n)
    (h : s.Tracks a n fun _ => true) :
    ((List.range k).foldl (fun s idx =>
      if heldBack table idx then s else (s.frameClear idx).oneMore) s).Tracks a n
      fun i => heldBack table i || decide (k ≤ i) := by
  induction k with
  | zero => exact h.congr fun i _ => by simp
  | succ k ih =>
    have ih := ih (by omega)
    rw [List.range_succ, List.foldl_append, List.foldl_cons, List.foldl_nil]
    by_cases hheld : heldBack table k = true
    · rw [if_pos hheld]
      refine ih.congr fun i _ => ?_
      by_cases hik : i = k
      · subst hik
        simp [hheld]
      · have hiff : k + 1 ≤ i ↔ k ≤ i := by omega
        simp [hiff]
    · rw [if_neg hheld]
      refine (ih.clear (by omega) (by simp)).congr fun i _ => ?_
      by_cases hik : i = k
      · subst hik
        simpa using hheld
      · have hiff : k + 1 ≤ i ↔ k ≤ i := by omega
        rw [Function.update_of_ne hik]
        simp [hiff]

/-- The loop over the pages of the bitmap marks them used. -/
lemma bitmapLoop_tracks (K : Image) {b : ℕ → Bool} (k : ℕ) (h : s.Tracks a n b)
    (hspare : ∀ i, n ≤ i → b i = true) :
    ((List.range k).foldl (fun s k =>
      let i := (bitmapPage K * pageSize + k * pageSize) / pageSize
      if i < n ∧ !s.frameUsed i then (s.frameSet i).oneLess else s) s).Tracks a n
      fun i => b i || (bitmapPage K ≤ i && decide (i < bitmapPage K + k)) := by
  induction k with
  | zero =>
    refine h.congr fun i _ => ?_
    by_cases hi : bitmapPage K ≤ i
    · simp [hi]
    · simp [hi]
  | succ k ih =>
    rw [List.range_succ, List.foldl_append, List.foldl_cons, List.foldl_nil]
    generalize (List.range k).foldl _ s = s' at ih ⊢
    have hi : (bitmapPage K * pageSize + k * pageSize) / pageSize = bitmapPage K + k := by
      unfold pageSize
      omega
    simp only [hi]
    have hother : ∀ i, i ≠ bitmapPage K + k →
        (i < bitmapPage K + (k + 1) ↔ i < bitmapPage K + k) := by
      intro i hne
      omega
    by_cases hfree : bitmapPage K + k < n ∧ (!s'.frameUsed (bitmapPage K + k)) = true
    · have hbit := ih.bits _ (lt_bits hfree.1)
      have hclear : s'.mem.bit a (bitmapPage K + k) = false := by
        have := hfree.2
        unfold Vm.frameUsed at this
        rw [ih.bitmap_eq] at this
        simpa using this
      rw [if_pos hfree]
      refine (ih.set hfree.1 (hbit.symm.trans hclear)).congr fun i _ => ?_
      by_cases hik : i = bitmapPage K + k
      · subst hik
        simp
      · rw [Function.update_of_ne hik]
        simp [hother i hik]
    · rw [if_neg hfree]
      refine ih.congr fun i hin => ?_
      by_cases hspared : n ≤ i
      · simp [hspare i hspared]
      by_cases hik : i = bitmapPage K + k
      · have hused : s'.frameUsed (bitmapPage K + k) = true := by
          by_contra hu
          exact hfree ⟨by omega, by simpa using hu⟩
        unfold Vm.frameUsed at hused
        rw [ih.bitmap_eq, ih.bits _ (by omega)] at hused
        subst hik
        rw [hused]
        simp
      · simp [hother i hik]

/-- **The frames after `memory_init`.** -/
theorem memoryInit_tracks (K : Image) (table : List E820Entry) (s : Vm) :
    (memoryInit K table s).Tracks (bitmapPage K * pageSize) (frameCount table)
      (usedAtStart K table) := by
  have hfew := frameCount_le table
  have hones : ∀ i < 8 * bitmapBytes (frameCount table), (memset s.mem (bitmapPage K * pageSize) 0xFF
      (bitmapBytes (frameCount table))).bit (bitmapPage K * pageSize) i = true :=
    fun i hi => memset_bits s.mem _ _ hi
  have h0 : Vm.Tracks { s with
      memTop := topUsable table, nframes := frameCount table, bitmap := bitmapPage K * pageSize
      framesFree := 0
      mem := memset s.mem (bitmapPage K * pageSize) 0xFF (bitmapBytes (frameCount table)) }
      (bitmapPage K * pageSize) (frameCount table) fun _ => true :=
    ⟨rfl, rfl, by omega, hones, (clearBits_zero fun i hi => hones i (lt_bits hi)).symm⟩
  have h1 := clearLoop_tracks table le_rfl h0
  exact bitmapLoop_tracks K (bitmapPages table) h1 fun i hi =>
    Bool.or_eq_true_iff.mpr (Or.inr (decide_eq_true hi))

/-! ### What the firmware says -/

/-- The first address of an entry, of 64 bits. -/
def E820Entry.base (e : E820Entry) : ℕ := e.baseLo + 4294967296 * e.baseHi

/-- The length of an entry, of 64 bits. -/
def E820Entry.len (e : E820Entry) : ℕ := e.lenLo + 4294967296 * e.lenHi

/-- The entry covers the address `x`. -/
def E820Entry.Has (e : E820Entry) (x : ℕ) : Prop := e.base ≤ x ∧ x < e.base + e.len

/-- Every byte of the frame `i` is usable memory below 4 GiB and in no entry of another type. -/
def PageOfRam (table : List E820Entry) (i : ℕ) : Prop :=
  ∀ x, i * pageSize ≤ x → x < i * pageSize + pageSize → x < 4294967296 ∧
    (∃ e ∈ table, e.type = e820Usable ∧ e.Has x) ∧ ∀ e ∈ table, e.type ≠ e820Usable → ¬ e.Has x

/-- What `memory_init` should leave: a free frame is memory and belongs to nobody, and the free
frames are counted. -/
def Vm.SafeFrames (table : List E820Entry) (s : Vm) : Prop :=
  (∀ i < s.nframes, s.frameUsed i = false →
    PageOfRam table i ∧ lowEnd ≤ i * pageSize ∧
    (i * pageSize + pageSize ≤ userBase ∨ userTop ≤ i * pageSize) ∧
    (i * pageSize + pageSize ≤ s.bitmap ∨ s.bitmap + bitmapBytes s.nframes ≤ i * pageSize)) ∧
  s.framesFree = ((Finset.range s.nframes).filter fun i => s.frameUsed i = false).card

/-- A page that `memory_init` takes for free memory: it lies below the end of memory, from 1 MiB on,
outside the window and the bitmap, and starts in an entry that the kernel counts. -/
def Offered (K : Image) (table : List E820Entry) (i : ℕ) : Prop :=
  i * pageSize + pageSize ≤ topUsable table ∧ lowEnd ≤ i * pageSize ∧
    (i * pageSize < userBase ∨ userTop ≤ i * pageSize) ∧ inUsable table (i * pageSize) = true ∧
    inBitmap K table i = false

lemma offered_iff (K : Image) (table : List E820Entry) (i : ℕ) :
    Offered K table i ↔ i < frameCount table ∧ usedAtStart K table i = false := by
  have hcount : i * pageSize + pageSize ≤ topUsable table ↔ i < frameCount table := by
    unfold frameCount pageSize
    omega
  unfold Offered usedAtStart heldBack
  rw [hcount]
  simp only [Bool.or_eq_false_iff, decide_eq_false_iff_not, Bool.not_eq_true', not_or, not_and,
    not_lt, not_le, ge_iff_le, Bool.not_eq_false]
  constructor
  · rintro ⟨h1, h2, h3, h4, h5⟩
    exact ⟨h1, ⟨⟨h2, fun hb => by omega, h4⟩, h1⟩, h5⟩
  · rintro ⟨h1, ⟨⟨h2, h3, h4⟩, -⟩, h5⟩
    refine ⟨h1, h2, ?_, h4, h5⟩
    by_cases hb : i * pageSize < userBase
    · exact Or.inl hb
    · exact Or.inr (h3 (by omega))

/-- A page outside the pages of the bitmap holds no byte of it. -/
lemma inBitmap_false {K : Image} {table : List E820Entry} {i : ℕ} (h : inBitmap K table i = false) :
    i * pageSize + pageSize ≤ bitmapPage K * pageSize ∨
      bitmapPage K * pageSize + bitmapBytes (frameCount table) ≤ i * pageSize := by
  unfold inBitmap bitmapPages at h
  generalize bitmapBytes (frameCount table) = bytes at *
  generalize bitmapPage K = p at *
  unfold pageSize at *
  by_cases h1 : p ≤ i
  · right
    have h2 : ¬ i < p + (bytes + 4096 - 1) / 4096 := by
      intro hlt
      simp [h1] at h
      omega
    omega
  · left
    omega

/-- The free frames are memory when the pages that are offered are. That a free frame lies from 1 MiB on,
outside the window and the bitmap, and that `frames_free` is right, holds for every table. -/
lemma safeFrames_iff (K : Image) (table : List E820Entry) (s : Vm) :
    (memoryInit K table s).SafeFrames table ↔ ∀ i, Offered K table i → PageOfRam table i := by
  have ht := memoryInit_tracks K table s
  have hused : ∀ i < frameCount table,
      (memoryInit K table s).frameUsed i = usedAtStart K table i := by
    intro i hi
    unfold Vm.frameUsed
    rw [ht.bitmap_eq, ht.bits i (lt_bits hi)]
  unfold Vm.SafeFrames
  rw [ht.nframes_eq, ht.bitmap_eq]
  constructor
  · rintro ⟨h, -⟩ i hi
    obtain ⟨hlt, hfree⟩ := (offered_iff K table i).mp hi
    exact (h i hlt ((hused i hlt).trans hfree)).1
  · intro h
    refine ⟨fun i hlt hfree => ?_, ?_⟩
    · have hi := (offered_iff K table i).mpr ⟨hlt, (hused i hlt).symm.trans hfree⟩
      obtain ⟨-, h2, h3, -, h5⟩ := id hi
      refine ⟨h i hi, h2, ?_, inBitmap_false h5⟩
      -- the window ends and starts at a page
      unfold userBase userTop pageSize at *
      omega
    · rw [ht.count]
      unfold Mem.clearBits Vm.frameUsed
      rw [ht.bitmap_eq]

/-- A kernel whose image ends at `0x20000`. -/
def smallKernel : Image where
  pageDir := 0x1F000
  kernelEnd := 0x20000
  aligned := by decide
  nonNull := by decide
  inside := by decide
  low := by decide

/-- A usable entry below 4 GiB. -/
def E820Entry.usable (base len : ℕ) : E820Entry where
  baseLo := u32 base
  baseHi := 0
  lenLo := u32 len
  lenHi := 0
  type := e820Usable
  baseLo_lt := u32_lt _
  lenLo_lt := u32_lt _

/-- The memory before the kernel has started. -/
def bareVm : Vm where
  mem := fun _ => 0
  memTop := 0
  nframes := 0
  framesFree := 0
  bitmap := 0
  cr3 := 0
  curDir := 0
  brk := 0
  faultCount := 0

end LunariaOS.Mm
