import LunariaOS.Mm.Boot

/-!
Which frames the kernel can reach once `paging_init` is done.

Every frame that can be handed out is one that `memory_init` left free, and the kernel clears or
fills it through its own map. Whether it is mapped is a question of the memory map alone: of the
pages that `paging_init` maps for it and of the number of page tables that these need.
-/

namespace LunariaOS.Mm

open LunariaOS.Lib

variable {K : Image} {table : List E820Entry} {s : Vm} {B : Book} {n : ℕ}

/-! ### The walk of the processor -/

lemma testBit_flags (i : ℕ) : (4096 * i + 3).testBit 1 = true ∧ (4096 * i + 3).testBit 2 = false := by
  simp only [Nat.testBit_eq_decide_div_mod_eq, decide_eq_true_eq, decide_eq_false_iff_not]
  omega

/-- A page is found where it is, for the kernel only, or not at all. -/
lemma KernelMap.walk_eq (h : KernelMap K table s B) {v : ℕ} (hv : v < 4294967296) :
    s.walk K.pageDir v = if B.mapped (v / 4096) then
      some { addr := 4096 * (v / 4096), writable := true, user := false } else none := by
  have hp : v / 4194304 < 1024 := by omega
  have hpde : s.mem.ld32 (pdeAt K.pageDir v) = pdeOf (B.table (v / 4194304)) := by
    unfold pdeAt
    rw [pageDir_eq]
    exact h.pde _ hp
  have hq : v / 4096 / 1024 = v / 4194304 := by omega
  unfold Vm.walk
  rw [hpde]
  cases ht : B.table (v / 4194304) with
  | none =>
    have hno : B.mapped (v / 4096) = false := by
      by_contra hm
      refine h.mapped_table (v / 4096) (by simpa using hm) ?_
      rw [hq, ht]
    rw [if_neg, hno]
    · rfl
    · rintro ⟨h1, -⟩
      rw [present_pdeOf] at h1
      cases h1
  | some t =>
    have hpte := h.pte _ t ht (v / 4096 % 1024) (Nat.mod_lt _ (by omega))
    have hpage : 1024 * (v / 4194304) + v / 4096 % 1024 = v / 4096 := by omega
    have haddr : pteAt (entryAddr (pdeOf (some t))) v = 4096 * t + 4 * (v / 4096 % 1024) := by
      unfold pdeOf
      rw [entryAddr_flags t (by omega)]
      rfl
    rw [hpage] at hpte
    change s.mem.ld32 (4096 * t + 4 * (v / 4096 % 1024)) = _ at hpte
    simp only [haddr, hpte]
    by_cases hm : B.mapped (v / 4096) = true
    · have h1 : present (4096 * (v / 4096) + 3) = true := by
        unfold present
        simp only [decide_eq_true_eq]
        omega
      obtain ⟨b1, b2⟩ := testBit_flags (v / 4096)
      obtain ⟨c1, c2⟩ := testBit_flags t
      rw [if_pos hm, if_pos hm, if_pos ⟨present_pdeOf _, h1⟩, entryAddr_flags _ (by omega)]
      unfold pdeOf
      simp only [b1, b2, c1, c2, Bool.and_self]
    · rw [if_neg hm, if_neg hm, if_neg]
      rintro ⟨-, h1⟩
      cases h1

/-! ### Counting page tables -/

/-- The frames that `memory_init` leaves free. -/
def freeAtStart (K : Image) (table : List E820Entry) : Finset ℕ :=
  (Finset.range (frameCount table)).filter fun i => usedAtStart K table i = false

/-- The directory entries under which `paging_init` maps pages. -/
def tablesNeeded (table : List E820Entry) : Finset ℕ :=
  (Finset.range 1024).filter fun p => ∃ j ∈ Finset.range 1024, Paged table (1024 * p + j)

/-- The directory entries with a page table. -/
def Book.tabled (B : Book) : Finset ℕ := (Finset.range 1024).filter fun p => (B.table p).isSome

lemma Book.mem_tabled {p : ℕ} : p ∈ B.tabled ↔ p < 1024 ∧ ∃ t, B.table p = some t := by
  unfold Book.tabled
  rw [Finset.mem_filter, Finset.mem_range, Option.isSome_iff_exists]

lemma Paged.lt {l : List E820Entry} {r : ℕ} (h : Paged l r) : r < 1048576 := by
  rcases h with h | ⟨e, -, -, -, -, h, -⟩
  · omega
  · have : e.mapEnd < 4294967296 := u32_lt _
    omega

lemma mem_tablesNeeded {l : List E820Entry} {p : ℕ} :
    p ∈ tablesNeeded l ↔ ∃ r, Paged l r ∧ r / 1024 = p := by
  unfold tablesNeeded
  simp only [Finset.mem_filter, Finset.mem_range]
  constructor
  · rintro ⟨-, j, hj, h⟩
    exact ⟨_, h, by omega⟩
  · rintro ⟨r, h, rfl⟩
    have := h.lt
    exact ⟨by omega, r % 1024, Nat.mod_lt _ (by omega), by rwa [Nat.div_add_mod]⟩

lemma mem_freeAtStart {i : ℕ} :
    i ∈ freeAtStart K table ↔ i < frameCount table ∧ usedAtStart K table i = false := by
  unfold freeAtStart
  rw [Finset.mem_filter, Finset.mem_range]

/-- Where all pages are mapped, every page table that is needed is there. -/
lemma KernelMap.tablesNeeded_subset (h : KernelMap K table s B) {l : List E820Entry}
    (hall : ∀ r, Paged l r → B.mapped r = true) : tablesNeeded l ⊆ B.tabled := by
  intro p hp
  obtain ⟨r, hr, rfl⟩ := mem_tablesNeeded.mp hp
  have hlt := hr.lt
  exact Book.mem_tabled.mpr
    ⟨by omega, Option.ne_none_iff_exists'.mp (h.mapped_table r (hall r hr))⟩

/-- A page table is there for one of the pages. -/
lemma Grows.tabled_page {P : ℕ → Prop} (h : Grows (Book.start K table) B P) {p : ℕ}
    (hp : p ∈ B.tabled) : ∃ r, P r ∧ r / 1024 = p := by
  obtain ⟨-, t, ht⟩ := Book.mem_tabled.mp hp
  exact (h.tables p t ht rfl).2

section FromStart

variable {P : ℕ → Prop} (hmap : KernelMap K table s B) (hgrows : Grows (Book.start K table) B P)

include hmap hgrows

/-- The page tables lie in different frames, all of which were free. -/
lemma tabled_card_le : B.tabled.card ≤ (freeAtStart K table).card := by
  apply Finset.card_le_card_of_injOn fun p => (B.table p).getD 0
  · intro p hp
    obtain ⟨-, t, ht⟩ := Book.mem_tabled.mp hp
    simp only [ht, Option.getD_some]
    exact mem_freeAtStart.mpr ⟨(hmap.tables p t ht).2.1.lt, (hgrows.tables p t ht rfl).1⟩
  · intro p hp q hq e
    obtain ⟨-, t, ht⟩ := Book.mem_tabled.mp hp
    obtain ⟨-, u, hu⟩ := Book.mem_tabled.mp hq
    simp only [ht, hu, Option.getD_some] at e
    rw [← e] at hu
    exact hmap.inj p q t ht hu

/-- When no frame is left, all of them are page tables. -/
lemma full_card_le (hfull : B.Full table) : (freeAtStart K table).card ≤ B.tabled.card := by
  apply Finset.card_le_card_of_surjOn fun p => (B.table p).getD 0
  intro i hi
  obtain ⟨hlt, hfree⟩ := mem_freeAtStart.mp hi
  rcases hgrows.frames i (hfull i hlt) with h1 | ⟨p, -, hp⟩
  · rw [show (Book.start K table).used i = usedAtStart K table i from rfl, hfree] at h1
    cases h1
  · exact ⟨p, Book.mem_tabled.mpr ⟨(hmap.tables p i hp).1, i, hp⟩, by simp [hp]⟩

end FromStart

/-- The loops end when no entry wraps or when there are too few frames for all page tables. -/
lemma mapAll_turns (K : Image) (table : List E820Entry) (s : Vm)
    (h : (∀ e ∈ table, ¬ e.Wraps) ∨ (freeAtStart K table).card < 1024) :
    ∃ r, mapAll K turns table (cleared K table s) = some r := by
  have hstart := kernelMap_start K table s
  rcases h with hw | hfew
  · obtain ⟨ok, s', -, -, e, -⟩ := mapAll_covers hstart hw
    exact ⟨(ok, s'), e⟩
  · obtain ⟨s', B', P, -, hmap, hgrows, hend⟩ := mapAll_ends turns hstart
    rcases hend with ⟨e, -⟩ | ⟨e, -⟩ | ⟨-, hall⟩
    · exact ⟨_, e⟩
    · exact ⟨_, e⟩
    · have hsub : Finset.range 1024 ⊆ B'.tabled := by
        intro p hp
        have hlt := Finset.mem_range.mp hp
        exact Book.mem_tabled.mpr ⟨hlt, Option.ne_none_iff_exists'.mp (hall le_rfl p hlt)⟩
      have h1 := Finset.card_le_card hsub
      rw [Finset.card_range] at h1
      have h2 := tabled_card_le hmap hgrows
      omega

/-- **When the loops of `paging_init` end.** -/
theorem mapAll_returns_iff (K : Image) (table : List E820Entry) (s : Vm) :
    (∃ n r, mapAll K n table (cleared K table s) = some r) ↔
      (∀ e ∈ table, ¬ e.Wraps) ∨ (freeAtStart K table).card < 1024 := by
  refine ⟨?_, fun h => ⟨turns, mapAll_turns K table s h⟩⟩
  rintro ⟨n, r, hr⟩
  obtain ⟨s', B', P, -, hmap, hgrows, hend⟩ := mapAll_ends n (kernelMap_start K table s)
  rcases hend with ⟨-, hw⟩ | ⟨-, hfull, p, hp, hnone⟩ | ⟨e, -⟩
  · exact Or.inl fun e he hew => hw ⟨e, he, hew⟩
  · right
    have hlt : B'.tabled.card < (Finset.range 1024).card := by
      refine Finset.card_lt_card ⟨Finset.filter_subset _ _, fun hsub => ?_⟩
      obtain ⟨-, t, ht⟩ := Book.mem_tabled.mp (hsub (Finset.mem_range.mpr hp))
      rw [hnone] at ht
      cases ht
    rw [Finset.card_range] at hlt
    exact (full_card_le hmap hgrows hfull).trans_lt hlt
  · change mapAll K n table (cleared K table s) = none at e
    rw [e] at hr
    cases hr

/-- What `paging_init` does on a memory map without an entry that wraps: it maps all pages exactly
when there are frames for all page tables. -/
theorem mapAll_ok_iff (K : Image) (table : List E820Entry) (s : Vm) (hw : ∀ e ∈ table, ¬ e.Wraps) :
    ∃ ok s' B', mapAll K turns table (cleared K table s) = some (ok, s') ∧ KernelMap K table s' B' ∧
      (ok = true ↔ (tablesNeeded table).card ≤ (freeAtStart K table).card) ∧
      (ok = true → ∀ r, B'.mapped r = true ↔ Paged table r) := by
  obtain ⟨ok, s', B', P, e, -, hmap, hgrows, htrue, hfalse⟩ :=
    mapAll_covers (kernelMap_start K table s) hw
  have hmapped : ∀ r, B'.mapped r = true ↔ P r := by
    intro r
    rw [hgrows.mapped r]
    exact or_iff_right (fun h => by cases h)
  refine ⟨ok, s', B', e, hmap, ?_, fun hok r => (hmapped r).trans (htrue hok r)⟩
  cases ok with
  | true =>
    -- every table that is needed is there
    have hsub : tablesNeeded table ⊆ B'.tabled :=
      hmap.tablesNeeded_subset fun r hr => (hmapped r).mpr ((htrue rfl r).mpr hr)
    exact iff_of_true rfl ((Finset.card_le_card hsub).trans (tabled_card_le hmap hgrows))
  | false =>
    obtain ⟨hsub, ⟨q, hq, hnone⟩, hfull⟩ := hfalse rfl
    have hstrict : B'.tabled ⊂ tablesNeeded table := by
      refine ⟨fun p hp => ?_, fun hback => ?_⟩
      · obtain ⟨r, hr, rfl⟩ := hgrows.tabled_page hp
        exact mem_tablesNeeded.mpr ⟨r, hsub r hr, rfl⟩
      · obtain ⟨-, t, ht⟩ := Book.mem_tabled.mp (hback (mem_tablesNeeded.mpr ⟨q, hq, rfl⟩))
        rw [hnone] at ht
        cases ht
    refine iff_of_false (by decide) ?_
    rw [not_le]
    exact (full_card_le hmap hgrows hfull).trans_lt (Finset.card_lt_card hstrict)

/-! ### Free frames -/

/-- Every frame that is free in `s` is mapped to itself, and may be written, in the kernel directory
of `s'`. -/
def FramesMapped (K : Image) (s s' : Vm) : Prop :=
  ∀ i < s.nframes, s.frameUsed i = false → ∀ v, v / 4096 = i →
    ∃ l, s'.walk K.pageDir v = some l ∧ l.addr = entryAddr v ∧ l.writable = true

/-- What `paging_init` should do: its loops end, and when every page table could be allocated, every
frame that `memory_init` left free can be written. -/
def PagingServes (K : Image) (table : List E820Entry) (s : Vm) : Prop :=
  (∃ n r, pagingInit K n table (memoryInit K table s) = some r) ∧
  ∀ n s', pagingInit K n table (memoryInit K table s) = some (true, s') →
    FramesMapped K (memoryInit K table s) s'

lemma pagingInit_returns (K : Image) (table : List E820Entry) (s : Vm) :
    (∃ n r, pagingInit K n table (memoryInit K table s) = some r) ↔
      ∃ n r, mapAll K n table (cleared K table s) = some r := by
  simp only [pagingInit_eq, Option.map_eq_some_iff]
  constructor
  · rintro ⟨n, r, x, hx, -⟩
    exact ⟨n, x, hx⟩
  · rintro ⟨n, x, hx⟩
    exact ⟨n, _, x, hx, rfl⟩

/-- More than one number of turns gives the same result. -/
lemma pagingInit_unique {n n' : ℕ} {r r' : Bool × Vm} (h : pagingInit K n table s = some r)
    (h' : pagingInit K n' table s = some r') : r = r' :=
  ((pagingInit_steady K table s).returns h).unique ((pagingInit_steady K table s).returns h')

/-- What must hold for every free frame to be mapped, on a memory map without an entry that wraps. -/
lemma framesMapped_iff (K : Image) (table : List E820Entry) (s : Vm)
    (hw : ∀ e ∈ table, ¬ e.Wraps) :
    (∀ n s', pagingInit K n table (memoryInit K table s) = some (true, s') →
      FramesMapped K (memoryInit K table s) s') ↔
    ((tablesNeeded table).card ≤ (freeAtStart K table).card →
      ∀ i, Offered K table i → Paged table i) := by
  obtain ⟨ok, s', B', e, hmap, hok, hpaged⟩ := mapAll_ok_iff K table s hw
  have he : pagingInit K turns table (memoryInit K table s) =
      some (ok, { s' with cr3 := K.pageDir }) := by
    rw [pagingInit_eq, e]
    rfl
  have ht := memoryInit_tracks K table s
  have hfree : ∀ i, (i < (memoryInit K table s).nframes ∧
      (memoryInit K table s).frameUsed i = false) ↔ Offered K table i := by
    intro i
    rw [offered_iff, ht.nframes_eq]
    refine and_congr_right fun hi => ?_
    unfold Vm.frameUsed
    rw [ht.bitmap_eq, ht.bits i (lt_bits hi)]
  have hwalk : ∀ i, Offered K table i → ∀ v, v / 4096 = i →
      ({ s' with cr3 := K.pageDir } : Vm).walk K.pageDir v = if B'.mapped i then
        some { addr := 4096 * i, writable := true, user := false } else none := by
    intro i hi v hv
    have hlt := ((offered_iff K table i).mp hi).1
    have hcount := frameCount_le table
    subst hv
    exact hmap.walk_eq (by omega)
  constructor
  · intro h hcard i hi
    obtain rfl := hok.mpr hcard
    obtain ⟨hlt, hused⟩ := (hfree i).mpr hi
    obtain ⟨l, hl, -⟩ := h turns _ he i hlt hused (4096 * i) (by omega)
    rw [hwalk i hi _ (by omega)] at hl
    split_ifs at hl with hm
    exact (hpaged rfl i).mp hm
  · intro h n s'' h'' i hlt hused v hv
    obtain hr := pagingInit_unique h'' he
    have hi := (hfree i).mp ⟨hlt, hused⟩
    obtain ⟨rfl, rfl⟩ := Prod.mk.inj hr
    have hm := (hpaged rfl i).mpr (h (hok.mp rfl) i hi)
    refine ⟨{ addr := 4096 * i, writable := true, user := false }, ?_, ?_, rfl⟩
    · rw [hwalk i hi v hv, if_pos hm]
    · rw [entryAddr_eq, hv]

/-- **When `paging_init` ends and maps every free frame**: either no entry reaches into the last page
of the address space, and if there are frames for the page tables of all the pages it maps, every
page that counts as free memory is one of these; or there is such an entry and fewer than 1024
frames are free. -/
theorem pagingInit_serves (K : Image) (table : List E820Entry) (s : Vm) :
    PagingServes K table s ↔
      ((∀ e ∈ table, ¬ e.Wraps) ∧ ((tablesNeeded table).card ≤ (freeAtStart K table).card →
        ∀ i, Offered K table i → Paged table i)) ∨
      ((∃ e ∈ table, e.Wraps) ∧ (freeAtStart K table).card < 1024) := by
  unfold PagingServes
  rw [pagingInit_returns, mapAll_returns_iff]
  by_cases hw : ∀ e ∈ table, ¬ e.Wraps
  · have hno : ¬ ∃ e ∈ table, e.Wraps := fun ⟨e, he, hew⟩ => hw e he hew
    rw [framesMapped_iff K table s hw]
    simp only [hno, false_and, or_false]
    exact ⟨fun h => ⟨hw, h.2⟩, fun h => ⟨Or.inl hw, h.2⟩⟩
  · have hyes : ∃ e ∈ table, e.Wraps := by
      push Not at hw
      exact hw
    constructor
    · rintro ⟨h | h, -⟩
      · exact absurd h hw
      · exact Or.inr ⟨hyes, h⟩
    · rintro (⟨h, -⟩ | ⟨-, h⟩)
      · exact absurd h hw
      · refine ⟨Or.inr h, fun n s' hs' => ?_⟩
        -- with such an entry the loops end without a frame
        obtain ⟨s₁, B₁, P, -, -, -, hend⟩ := mapAll_ends n (kernelMap_start K table s)
        rw [pagingInit_eq] at hs'
        rcases hend with ⟨-, h1⟩ | ⟨e, -⟩ | ⟨e, -⟩
        · exact absurd hyes h1
        · change mapAll K n table (cleared K table s) = _ at e
          rw [e] at hs'
          cases hs'
        · change mapAll K n table (cleared K table s) = _ at e
          rw [e] at hs'
          cases hs'

/-- Some memory from 1 MiB on, and the last megabyte below 4 GiB. -/
def highTable : List E820Entry := [.usable 0x100000 0x4000, .usable 0xFFF00000 0x100000]

/-- **The frames of the last megabyte are free and not mapped**: the allocator counts the entry, whose
end is 0 in 32 bits, and `map_usable` skips it. -/
theorem high_frames_unmapped : ¬ PagingServes smallKernel highTable bareVm := by
  rintro ⟨-, h⟩
  have hwraps : ∀ e ∈ highTable, ¬ e.Wraps := by decide
  have hneeded : tablesNeeded highTable ⊆ {0} := by
    intro p hp
    obtain ⟨r, hpaged, rfl⟩ := mem_tablesNeeded.mp hp
    rw [Finset.mem_singleton]
    rcases hpaged with hlow | ⟨e, he, hskip, hrange⟩
    · omega
    · unfold highTable at he
      simp only [List.mem_cons, List.not_mem_nil, or_false] at he
      rcases he with rfl | rfl
      · have hend : 4096 * r < 0x104000 := hrange.2.2.1
        omega
      · exact absurd hskip (by decide)
  have hfree : 0x100 ∈ freeAtStart smallKernel highTable :=
    mem_freeAtStart.mpr ⟨by decide +kernel, by decide +kernel⟩
  have hcard : (tablesNeeded highTable).card ≤ (freeAtStart smallKernel highTable).card :=
    (Finset.card_le_card hneeded).trans (Finset.card_pos.mpr ⟨_, hfree⟩)
  have hoffered : Offered smallKernel highTable 0xFFF00 :=
    (offered_iff ..).mpr ⟨by decide +kernel, by decide +kernel⟩
  have hpaged := (framesMapped_iff _ _ _ hwraps).mp h hcard 0xFFF00 hoffered
  exact absurd hpaged (by decide +kernel)

end LunariaOS.Mm
