import LunariaOS.Mm.Init

/-!
Which addresses `in_usable` finds in the memory map.

The distance of an address to the base of an entry is read as a signed number. An address 2 GiB or
more above the base is missed, and an entry that runs past 4 GiB comes round to low addresses.
-/

namespace LunariaOS.Mm

open LunariaOS.Lib

/-! ### Addresses and entries -/

namespace E820Entry

variable (e : E820Entry) (addr : ℕ)

/-- The address lies in the entry, as far as that is below 4 GiB. -/
def Contains : Prop :=
  e.counts = true ∧ e.baseLo ≤ addr ∧ addr < min (e.baseLo + e.lenLo) 4294967296

/-- The address lies in the entry, less than 2 GiB above its base. -/
def Near : Prop := e.Contains addr ∧ addr < e.baseLo + 2147483648

/-- The address lies in the entry, 2 GiB or more above its base. -/
def Far : Prop := e.Contains addr ∧ e.baseLo + 2147483648 ≤ addr

/-- The entry runs past 4 GiB, and the address lies in what is left of it, counted from 0, less than
2 GiB after the base. -/
def ComesRound : Prop :=
  e.counts = true ∧ addr + 4294967296 < e.baseLo + e.lenLo ∧
    addr + 4294967296 < e.baseLo + 2147483648

/-- What `in_usable` asks of an entry. -/
lemma found_iff (h : addr < 4294967296) :
    (e.counts = true ∧ i32 (addr - e.baseLo : ℤ) ≥ 0 ∧ i32 (addr - e.baseLo : ℤ) < e.lenLo) ↔
      e.Near addr ∨ e.ComesRound addr := by
  have h1 := e.baseLo_lt
  have h2 := e.lenLo_lt
  unfold Near ComesRound Contains i32
  constructor
  · rintro ⟨hc, h3, h4⟩
    by_cases hle : e.baseLo ≤ addr
    · exact Or.inl ⟨⟨hc, hle, by omega⟩, by omega⟩
    · exact Or.inr ⟨hc, by omega, by omega⟩
  · rintro (⟨⟨hc, h3, h4⟩, h5⟩ | ⟨hc, h3, h4⟩)
    · exact ⟨hc, by omega, by omega⟩
    · exact ⟨hc, by omega, by omega⟩

lemma contains_iff : e.Contains addr ↔ e.Near addr ∨ e.Far addr := by
  unfold Near Far
  constructor
  · intro h
    by_cases hlt : addr < e.baseLo + 2147483648
    · exact Or.inl ⟨h, hlt⟩
    · exact Or.inr ⟨h, by omega⟩
  · rintro (h | h)
    · exact h.1
    · exact h.1

end E820Entry

variable (table : List E820Entry)

lemma inUsable_iff {addr : ℕ} (h : addr < 4294967296) :
    inUsable table addr = true ↔ ∃ e ∈ table, e.Near addr ∨ e.ComesRound addr := by
  unfold inUsable
  simp only [List.any_eq_true, decide_eq_true_eq]
  exact exists_congr fun e => and_congr_right fun _ => e.found_iff addr h

/-- `in_usable` is right about the address: an entry has it within 2 GiB of its base, or else one has
it further up exactly when one comes round to it. -/
def RightAt (addr : ℕ) : Prop :=
  (∃ e ∈ table, e.Near addr) ∨ ((∃ e ∈ table, e.Far addr) ↔ ∃ e ∈ table, e.ComesRound addr)

lemma rightAt_iff {addr : ℕ} (h : addr < 4294967296) :
    (inUsable table addr = true ↔ ∃ e ∈ table, e.Contains addr) ↔ RightAt table addr := by
  rw [inUsable_iff table h]
  simp only [E820Entry.contains_iff, and_or_left, exists_or]
  unfold RightAt
  by_cases hn : ∃ e ∈ table, e.Near addr
  · simp [hn]
  · simp only [hn, false_or]
    exact Iff.comm.trans (by rfl)

/-! ### Frames -/

/-- A whole frame of usable memory between 1 MiB and the end of memory, outside the window and the
bitmap. -/
def WholeFrame (K : Image) (i : ℕ) : Prop :=
  (∀ x, i * pageSize ≤ x → x < i * pageSize + pageSize → ∃ e ∈ table, e.Contains x) ∧
    lowEnd ≤ i * pageSize ∧ i * pageSize + pageSize ≤ topUsable table ∧
    (i * pageSize < userBase ∨ userTop ≤ i * pageSize) ∧ inBitmap K table i = false

/-- Where `in_usable` is right, and which frames `memory_init` gives to the allocator: it withholds no
whole frame of usable memory exactly when the start of each is found. -/
theorem inUsable_right_iff (K : Image) (table : List E820Entry) (s : Vm) :
    (∀ addr < 4294967296,
      ((inUsable table addr = true ↔ ∃ e ∈ table, e.Contains addr) ↔ RightAt table addr)) ∧
    ((∀ i, WholeFrame table K i → (memoryInit K table s).frameUsed i = false) ↔
      ∀ i, WholeFrame table K i →
        ∃ e ∈ table, e.Near (i * pageSize) ∨ e.ComesRound (i * pageSize)) := by
  refine ⟨fun addr h => rightAt_iff table h, forall_congr' fun i => imp_congr_right ?_⟩
  rintro ⟨hwhole, hlow, htop, hwin, hbm⟩
  have ht := memoryInit_tracks K table s
  have hlt : i < frameCount table := by
    unfold frameCount pageSize at *
    omega
  have haddr : i * pageSize < 4294967296 := by
    have := frameCount_le table
    unfold pageSize
    omega
  have hused : (memoryInit K table s).frameUsed i = usedAtStart K table i := by
    unfold Vm.frameUsed
    rw [ht.bitmap_eq, ht.bits i (lt_bits hlt)]
  have hoff := offered_iff K table i
  rw [hused, ← inUsable_iff table haddr]
  constructor
  · intro hfree
    exact (hoff.mpr ⟨hlt, hfree⟩).2.2.2.1
  · intro hin
    exact (hoff.mp ⟨htop, hlow, hwin, hin, hbm⟩).2

/-- More than 2 GiB of memory from 1 MiB on. -/
def longTable : List E820Entry := [.usable 0x100000 0x90000000]

theorem inUsable_right_iff_long :
    (inUsable longTable 0x200000 = true ↔ ∃ e ∈ longTable, e.Contains 0x200000) ↔
      RightAt longTable 0x200000 :=
  (inUsable_right_iff smallKernel longTable bareVm).1 0x200000 (by decide)

/-- The address 2 GiB above the base of a longer entry is not found. -/
theorem long_entry_missed :
    inUsable longTable 0x80100000 = false ∧ ∃ e ∈ longTable, e.Contains 0x80100000 := by
  refine ⟨by decide +kernel, _, List.mem_singleton.mpr rfl, ?_, ?_, ?_⟩
  · decide +kernel
  · decide +kernel
  · decide +kernel

end LunariaOS.Mm
