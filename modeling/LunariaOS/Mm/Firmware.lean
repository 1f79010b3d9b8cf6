import LunariaOS.Lib.Cover
import LunariaOS.Mm.Region

/-!
The memory maps on which `memory_init` hands out nothing but memory.

It looks at the first byte of a page only, and at no entry of another type. So a map must say something
more: where a usable entry ends inside a page that is taken, another one goes on; an entry that comes
round past 4 GiB does so to usable memory; and no entry of another type reaches into a page that is taken.
-/

namespace LunariaOS.Mm

open LunariaOS.Lib

/-- The address behind an entry. -/
def E820Entry.stop (e : E820Entry) : ℕ := e.base + e.len

variable {K : Image} {table : List E820Entry} {e : E820Entry} {i : ℕ}

/-- The page `i` is taken for memory: it lies from 1 MiB on outside the window and the bitmap, below the
end of memory, and an entry has its start within 2 GiB of the base, or comes round to it. -/
def Taken (K : Image) (table : List E820Entry) (i : ℕ) : Prop :=
  256 ≤ i ∧ (i < 1024 ∨ 2048 ≤ i) ∧ i < frameCount table ∧ inBitmap K table i = false ∧
    ∃ e ∈ table, e.Near (i * pageSize) ∨ e.ComesRound (i * pageSize)

/-- The entries fit the pages that are taken. -/
structure Regular (K : Image) (table : List E820Entry) : Prop where
  /-- A usable entry that ends inside a page is continued. -/
  ends : ∀ e ∈ table, e.type = e820Usable → e.stop % pageSize ≠ 0 → Taken K table (e.stop / pageSize) →
    ∃ e' ∈ table, e'.type = e820Usable ∧ e'.Has e.stop
  /-- An entry that runs past 4 GiB comes round to usable memory. -/
  round : ∀ e ∈ table, ∀ i, e.ComesRound (i * pageSize) → Taken K table i →
    ∃ e' ∈ table, e'.type = e820Usable ∧ e'.Has (i * pageSize)
  /-- No page from the first to the last one of an entry of another type is taken. -/
  others : ∀ e ∈ table, e.type ≠ e820Usable → 0 < e.len →
    ∀ i, e.base / pageSize ≤ i → i ≤ (e.stop - 1) / pageSize → ¬ Taken K table i

lemma Taken.addr_lt (h : Taken K table i) : i * pageSize + pageSize ≤ 4294967296 := by
  have h1 := h.2.2.1
  have h2 := frameCount_le table
  unfold pageSize
  omega

lemma offered_iff_taken (K : Image) (table : List E820Entry) (i : ℕ) :
    Offered K table i ↔ Taken K table i := by
  have hcount : i * pageSize + pageSize ≤ topUsable table ↔ i < frameCount table := by
    unfold frameCount pageSize
    omega
  have hlow : lowEnd ≤ i * pageSize ↔ 256 ≤ i := by
    unfold lowEnd pageSize
    omega
  have hwin : (i * pageSize < userBase ∨ userTop ≤ i * pageSize) ↔ (i < 1024 ∨ 2048 ≤ i) := by
    unfold userBase userTop pageSize
    omega
  unfold Offered Taken
  rw [hcount, hlow, hwin]
  constructor
  · rintro ⟨h1, h2, h3, h4, h5⟩
    have haddr : i * pageSize < 4294967296 := by
      have := frameCount_le table
      unfold pageSize
      omega
    exact ⟨h2, h3, h1, h5, (inUsable_iff table haddr).mp h4⟩
  · rintro ⟨h2, h3, h1, h5, h4⟩
    have haddr : i * pageSize < 4294967296 := by
      have := frameCount_le table
      unfold pageSize
      omega
    exact ⟨h1, h2, h3, (inUsable_iff table haddr).mpr h4, h5⟩

/-- An address within 2 GiB of the base of an entry that counts lies in the entry. -/
lemma E820Entry.Near.has {x : ℕ} (h : e.Near x) : e.type = e820Usable ∧ e.Has x := by
  obtain ⟨⟨hcounts, h1, h2⟩, -⟩ := h
  unfold E820Entry.counts at hcounts
  have hcounts := of_decide_eq_true hcounts
  refine ⟨hcounts.1, ?_, ?_⟩
  · unfold E820Entry.base
    rw [hcounts.2]
    omega
  · unfold E820Entry.base E820Entry.len
    rw [hcounts.2]
    omega

/-- **A page of usable memory**, by the entries that end in it and those of another type. -/
lemma pageOfRam_iff (hi : i * pageSize + pageSize ≤ 4294967296) : PageOfRam table i ↔
    (∃ e ∈ table, e.type = e820Usable ∧ e.Has (i * pageSize)) ∧
      (∀ e ∈ table, e.type = e820Usable → e.stop % pageSize ≠ 0 → i = e.stop / pageSize →
        ∃ e' ∈ table, e'.type = e820Usable ∧ e'.Has e.stop) ∧
      ∀ e ∈ table, e.type ≠ e820Usable → 0 < e.len →
        ¬ (e.base / pageSize ≤ i ∧ i ≤ (e.stop - 1) / pageSize) := by
  have hlt : i * pageSize < i * pageSize + pageSize := Nat.lt_add_of_pos_right (by decide)
  have hcover := covered_iff (fun e => e ∈ table ∧ e.type = e820Usable) E820Entry.base
    E820Entry.stop hlt
  have hends : ∀ e : E820Entry, (i * pageSize < e.stop ∧ e.stop < i * pageSize + pageSize) ↔
      (e.stop % pageSize ≠ 0 ∧ i = e.stop / pageSize) := by
    intro e
    unfold pageSize
    omega
  have hmeets : ∀ e : E820Entry,
      (e.base < e.stop ∧ e.base < i * pageSize + pageSize ∧ i * pageSize < e.stop) ↔
        (0 < e.len ∧ e.base / pageSize ≤ i ∧ i ≤ (e.stop - 1) / pageSize) := by
    intro e
    unfold E820Entry.stop pageSize
    omega
  constructor
  · intro h
    obtain ⟨⟨e, ⟨he, ht⟩, hhas⟩, hgo⟩ := hcover.mp fun x h1 h2 => by
      obtain ⟨-, ⟨e, he, ht, hhas⟩, -⟩ := h x h1 h2
      exact ⟨e, ⟨he, ht⟩, hhas⟩
    refine ⟨⟨e, he, ht, hhas⟩, fun e he ht hu hi => ?_, fun e he ht hlen hr => ?_⟩
    · obtain ⟨h1, h2⟩ := (hends e).mpr ⟨hu, hi⟩
      obtain ⟨e', ⟨he', ht'⟩, hhas'⟩ := hgo e ⟨he, ht⟩ h1 h2
      exact ⟨e', he', ht', hhas'⟩
    · exact (misses_iff hlt).mp (fun x h1 h2 => (h x h1 h2).2.2 e he ht) ((hmeets e).mpr ⟨hlen, hr⟩)
  · rintro ⟨⟨e, he, ht, hhas⟩, hgo, hothers⟩ x h1 h2
    refine ⟨by omega, ?_, fun e he ht => ?_⟩
    · obtain ⟨e', ⟨he', ht'⟩, hhas'⟩ := hcover.mpr ⟨⟨e, ⟨he, ht⟩, hhas⟩, fun e ⟨he, ht⟩ h3 h4 => by
        obtain ⟨hu, hi⟩ := (hends e).mp ⟨h3, h4⟩
        obtain ⟨e', he', ht', hhas'⟩ := hgo e he ht hu hi
        exact ⟨e', ⟨he', ht'⟩, hhas'⟩⟩ x h1 h2
      exact ⟨e', he', ht', hhas'⟩
    · refine (misses_iff hlt).mpr (fun hm => ?_) x h1 h2
      obtain ⟨hlen, hr⟩ := (hmeets e).mp hm
      exact hothers e he ht hlen hr

/-- **When every free frame is memory**: exactly for the tables whose entries fit the pages that are
taken. -/
theorem memoryInit_safe (K : Image) (table : List E820Entry) (s : Vm) :
    (memoryInit K table s).SafeFrames table ↔ Regular K table := by
  rw [safeFrames_iff]
  simp only [offered_iff_taken]
  constructor
  · intro h
    have hram := fun i (hi : Taken K table i) => (pageOfRam_iff hi.addr_lt).mp (h i hi)
    exact ⟨fun e he ht hu hi => (hram _ hi).2.1 e he ht hu rfl, fun e _ i _ hi => (hram i hi).1,
      fun e he ht hlen i h1 h2 hi => (hram i hi).2.2 e he ht hlen ⟨h1, h2⟩⟩
  · intro h i hi
    refine (pageOfRam_iff hi.addr_lt).mpr ⟨?_, fun e he ht hu hie => ?_, fun e he ht hlen hr => ?_⟩
    · obtain ⟨-, -, -, -, e, he, hnear | hround⟩ := id hi
      · exact ⟨e, he, hnear.has⟩
      · exact h.round e he i hround hi
    · exact h.ends e he ht hu (hie ▸ hi)
    · exact h.others e he ht hlen i hr.1 hr.2 hi

/-- Two usable entries, the first of which ends in the middle of a page. -/
def unevenTable : List E820Entry := [.usable 0x100000 0x1800, .usable 0x200000 0x1000]

/-- **The frame `0x101` is handed out though only its first half is memory.** -/
theorem uneven_frame_free : ¬ (memoryInit smallKernel unevenTable bareVm).SafeFrames unevenTable := by
  intro h
  have ht := memoryInit_tracks smallKernel unevenTable bareVm
  have hlt : 0x101 < (memoryInit smallKernel unevenTable bareVm).nframes := by
    rw [ht.nframes_eq]
    decide
  have hfree : (memoryInit smallKernel unevenTable bareVm).frameUsed 0x101 = false := by
    unfold Vm.frameUsed
    rw [ht.bitmap_eq, ht.bits _ (lt_bits (by rw [← ht.nframes_eq]; exact hlt))]
    decide +kernel
  obtain ⟨-, ⟨e, he, -, hhas⟩, -⟩ := (h.1 0x101 hlt hfree).1 0x101800 (by decide) (by decide)
  unfold unevenTable at he
  simp only [List.mem_cons, List.not_mem_nil, or_false] at he
  rcases he with rfl | rfl
  · exact absurd hhas.2 (by decide)
  · exact absurd hhas.1 (by decide)

end LunariaOS.Mm
