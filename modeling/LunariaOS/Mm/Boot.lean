import LunariaOS.Lib.Fuel
import LunariaOS.Mm.Usable

/-!
`paging_init` on every memory map.

With an entry that reaches into the last page of the address space the loops may run on for ever:
they do if there are frames for all 1024 page tables, and else run out of frames. The page tables
are frames that were free, no two the same one, so that counting both says when the frames run out.
-/

namespace LunariaOS.Mm

open LunariaOS.Lib

variable {K : Image} {table : List E820Entry} {s : Vm} {B : Book} {n : ℕ}

/-! ### More turns -/

lemma mapRange_steady (K : Image) (stop : ℕ) (user : Bool) (n v : ℕ) (s : Vm) :
    Below (s.mapRange K stop user n v) (s.mapRange K stop user (n + 1) v) := by
  induction n generalizing v s with
  | zero => exact Below.none _
  | succ n ih =>
    unfold Vm.mapRange
    apply Below.ite
    · apply Below.ite
      · exact Below.refl _
      · exact ih _ _
    · exact Below.refl _

lemma mapSupervisor_steady (K : Image) (n start stop : ℕ) (s : Vm) :
    Below (s.mapSupervisor K n start stop) (s.mapSupervisor K (n + 1) start stop) := by
  unfold Vm.mapSupervisor
  apply Below.ite
  · exact Below.refl _
  · apply Below.bind
    · exact Below.ite (mapRange_steady _ _ _ _ _ _) (Below.refl _)
    · intro x
      apply Below.bind
      · exact Below.ite (mapRange_steady _ _ _ _ _ _) (Below.refl _)
      · exact fun _ => Below.refl _

lemma mapUsable_steady (K : Image) (n : ℕ) (l : List E820Entry) (s : Vm) :
    Below (s.mapUsable K n l) (s.mapUsable K (n + 1) l) := by
  induction l generalizing s with
  | nil => exact Below.refl _
  | cons e l ih =>
    unfold Vm.mapUsable
    apply Below.bind
    · rw [mapEntry_eq, mapEntry_eq]
      exact Below.ite (Below.refl _) (mapSupervisor_steady _ _ _ _ _)
    · intro x
      apply Below.bind
      · exact ih _
      · exact fun _ => Below.refl _

lemma pagingInit_steady (K : Image) (table : List E820Entry) (s : Vm) :
    Steady fun n => pagingInit K n table s := by
  intro n
  unfold pagingInit
  apply Below.bind
  · exact mapRange_steady _ _ _ _ _ _
  · intro x
    apply Below.bind
    · exact mapUsable_steady _ _ _ _
    · exact fun _ => Below.refl _

/-! ### Ranges that may not end -/

/-- How a run of loops may go: it maps all, which it cannot when `W` holds; or it is stuck without a
frame for a page table; or it goes on, with every page table there. -/
def Ends (K : Image) (table : List E820Entry) (n : ℕ) (s : Vm) (B : Book) (W : Prop)
    (o : Option (Bool × Vm)) : Prop :=
  ∃ s' B' P, s'.curDir = s.curDir ∧ KernelMap K table s' B' ∧ Grows B B' P ∧
    ((o = some (true, s') ∧ ¬ W) ∨
    (o = some (false, s') ∧ B'.Full table ∧ ∃ p < 1024, B'.table p = none) ∨
    (o = none ∧ (turns ≤ n → ∀ p < 1024, B'.table p ≠ none)))

lemma Ends.nothing (h : KernelMap K table s B) {W : Prop} (hW : ¬ W) :
    Ends K table n s B W (some (true, s)) :=
  ⟨s, B, fun _ => False, rfl, h, Grows.refl B fun _ => id, Or.inl ⟨rfl, hW⟩⟩

lemma Ends.congr {W W' : Prop} {o : Option (Bool × Vm)} (h : Ends K table n s B W o)
    (hW : W ↔ W') : Ends K table n s B W' o := by rwa [← propext hW]

lemma Ends.seq {W W' : Prop} {o : Option (Bool × Vm)} {f : Vm → Option (Bool × Vm)}
    (h : Ends K table n s B W o)
    (h' : ∀ s₁ B₁, KernelMap K table s₁ B₁ → Ends K table n s₁ B₁ W' (f s₁)) :
    Ends K table n s B (W ∨ W')
      (o.bind fun x => (f x.2).bind fun y => some (x.1 && y.1, y.2)) := by
  obtain ⟨s₁, B₁, P₁, hcur₁, hmap₁, hgrows₁, hend₁⟩ := h
  obtain ⟨s₂, B₂, P₂, hcur₂, hmap₂, hgrows₂, hend₂⟩ := h' s₁ B₁ hmap₁
  rcases hend₁ with ⟨rfl, hW₁⟩ | ⟨rfl, hfull₁, p, hp, hnone⟩ | ⟨rfl, hall⟩
  · refine ⟨s₂, B₂, _, hcur₂.trans hcur₁, hmap₂, hgrows₁.trans hgrows₂, ?_⟩
    rcases hend₂ with ⟨e, hW₂⟩ | ⟨e, h2⟩ | ⟨e, h2⟩
    · refine Or.inl ⟨?_, fun hW => hW.elim hW₁ hW₂⟩
      rw [Option.bind_some, e]
      rfl
    · refine Or.inr (Or.inl ⟨?_, h2⟩)
      rw [Option.bind_some, e]
      rfl
    · refine Or.inr (Or.inr ⟨?_, h2⟩)
      rw [Option.bind_some, e]
      rfl
  · -- stuck already, which the second run does not change
    have hfull₂ : B₂.Full table := fun i hi => hgrows₂.used i (hfull₁ i hi)
    have hnone₂ := hgrows₂.full_none hmap₂ hfull₁ hnone
    refine ⟨s₂, B₂, _, hcur₂.trans hcur₁, hmap₂, hgrows₁.trans hgrows₂, ?_⟩
    rcases hend₂ with ⟨e, -⟩ | ⟨e, -⟩ | ⟨e, h2⟩
    · refine Or.inr (Or.inl ⟨?_, hfull₂, p, hp, hnone₂⟩)
      rw [Option.bind_some, e]
      rfl
    · refine Or.inr (Or.inl ⟨?_, hfull₂, p, hp, hnone₂⟩)
      rw [Option.bind_some, e]
      rfl
    · refine Or.inr (Or.inr ⟨?_, h2⟩)
      rw [Option.bind_some, e]
      rfl
  · exact ⟨s₁, B₁, P₁, hcur₁, hmap₁, hgrows₁, Or.inr (Or.inr ⟨rfl, hall⟩)⟩

lemma mapRange_ends (h : KernelMap K table s B) {q : ℕ} (stop : ℕ) (hq : q < 1048576) :
    Ends K table n s B (0xFFFFF000 < stop) (s.mapRange K stop false n (4096 * q)) := by
  obtain ⟨k, hk, s', B', hcur, hmap, hgrows, hbelow, hend⟩ := mapRange_run stop n h hq
  have hlt : ∀ i, pageAfter q i < 1048576 := fun i => Nat.mod_lt _ (by omega)
  refine ⟨s', B', _, hcur, hmap, hgrows, ?_⟩
  rcases hend with ⟨e, rfl⟩ | ⟨e, hge⟩ | ⟨e, -, hnone, hfull⟩
  · refine Or.inr (Or.inr ⟨e, fun hturns p hp => ?_⟩)
    -- all pages have been mapped
    have hvisited : ∃ i < k, 1024 * p = pageAfter q i := by
      refine ⟨(1024 * p + 1048576 - q) % 1048576, ?_, ?_⟩
      · unfold turns at hturns
        omega
      · unfold pageAfter
        omega
    have htab := hmap.mapped_table _ ((hgrows.mapped _).mpr (Or.inr hvisited))
    rwa [Nat.mul_div_cancel_left _ (by omega)] at htab
  · have := hlt k
    exact Or.inl ⟨e, by omega⟩
  · have := hlt k
    exact Or.inr (Or.inl ⟨e, hfull, _, by omega, hnone⟩)

lemma mapSupervisor_ends (h : KernelMap K table s B) {start : ℕ} (stop : ℕ)
    (hstart : start < 4294967296) :
    Ends K table n s B (start < stop ∧ 0xFFFFF000 < stop) (s.mapSupervisor K n start stop) := by
  unfold Vm.mapSupervisor
  by_cases hempty : start ≥ stop
  · rw [if_pos hempty]
    exact Ends.nothing h (by omega)
  rw [if_neg hempty]
  have hlow : Ends K table n s B False
      (if start < userBase then
        s.mapRange K (if stop < userBase then stop else userBase) false n (entryAddr start)
      else some (true, s)) := by
    by_cases hs : start < userBase
    · rw [if_pos hs, entryAddr_eq]
      refine (mapRange_ends h _ (by omega)).congr (iff_of_false ?_ id)
      unfold userBase
      split_ifs <;> omega
    · rw [if_neg hs]
      exact Ends.nothing h id
  have hhigh : ∀ s₁ B₁, KernelMap K table s₁ B₁ → Ends K table n s₁ B₁ (0xFFFFF000 < stop)
      (if stop > userTop then
        s₁.mapRange K stop false n (entryAddr (if start > userTop then start else userTop))
      else some (true, s₁)) := by
    intro s₁ B₁ h₁
    by_cases hs : stop > userTop
    · rw [if_pos hs, entryAddr_eq]
      refine mapRange_ends h₁ _ ?_
      unfold userTop
      split_ifs <;> omega
    · rw [if_neg hs]
      refine Ends.nothing h₁ ?_
      unfold userTop at hs
      omega
  refine Ends.congr (hlow.seq hhigh) ?_
  rw [false_or]
  omega

lemma mapEntry_ends (h : KernelMap K table s B) (e : E820Entry) :
    Ends K table n s B e.Wraps (s.mapEntry K n e) := by
  rw [mapEntry_eq]
  by_cases hskip : e.skipped = true
  · rw [if_pos hskip]
    refine Ends.nothing h fun hw => ?_
    rw [hw.1] at hskip
    cases hskip
  · rw [if_neg hskip]
    have hskip : e.skipped = false := by simpa using hskip
    exact (mapSupervisor_ends h _ e.mapBase_lt).congr ⟨fun hw => ⟨hskip, hw⟩, fun hw => hw.2⟩

lemma mapUsable_ends (h : KernelMap K table s B) (l : List E820Entry) :
    Ends K table n s B (∃ e ∈ l, e.Wraps) (s.mapUsable K n l) := by
  induction l generalizing s B with
  | nil => exact Ends.nothing h fun ⟨e, he, _⟩ => by cases he
  | cons e l ih =>
    refine Ends.congr ((mapEntry_ends h e).seq fun s₁ B₁ h₁ => ih h₁) ?_
    simp only [List.mem_cons, exists_eq_or_imp]

/-! ### From the start -/

/-- The book before `paging_init`: nothing is mapped. -/
def Book.start (K : Image) (table : List E820Entry) : Book where
  used := usedAtStart K table
  table := fun _ => none
  mapped := fun _ => false

lemma usedAtStart_loose {i : ℕ} (h : usedAtStart K table i = false) : Loose K table i := by
  unfold usedAtStart at h
  simp only [Bool.or_eq_false_iff, decide_eq_false_iff_not, not_le] at h
  obtain ⟨⟨hheld, hlt⟩, hbitmap⟩ := h
  unfold heldBack at hheld
  simp only [decide_eq_false_iff_not] at hheld
  refine ⟨?_, ?_, hbitmap, hlt⟩
  · by_contra hlow
    exact hheld (Or.inl (by unfold lowEnd pageSize; omega))
  · by_contra hwindow
    exact hheld (Or.inr (Or.inl (by unfold userBase userTop pageSize; omega)))

lemma kernelMap_start (K : Image) (table : List E820Entry) (s : Vm) :
    KernelMap K table { memoryInit K table s with
      mem := memset (memoryInit K table s).mem K.pageDir 0 4096 } (Book.start K table) where
  tracks := (memoryInit_tracks K table s).withMem fun i hi => by
    rw [pageDir_eq]
    exact Mem.bit_blit dirPage_apart hi _
  loose := fun _ h => usedAtStart_loose h
  pde := fun p hp => by
    have := Mem.word_fill (m := (memoryInit K table s).mem) (i := dirPage K) (j := dirPage K) hp
    rw [if_pos rfl, ← pageDir_eq] at this
    exact this
  tables := fun _ _ h => by cases h
  inj := fun _ _ _ h => by cases h
  pte := fun _ _ h => by cases h
  mapped_table := fun _ h => by cases h

/-- The state in which `paging_init` starts to map. -/
def cleared (K : Image) (table : List E820Entry) (s : Vm) : Vm :=
  { memoryInit K table s with mem := memset (memoryInit K table s).mem K.pageDir 0 4096 }

/-- The loops of `paging_init`. -/
def mapAll (K : Image) (n : ℕ) (table : List E820Entry) (s : Vm) : Option (Bool × Vm) :=
  (s.mapRange K lowEnd false n 0).bind fun x =>
    (x.2.mapUsable K n table).bind fun y => some (x.1 && y.1, y.2)

lemma pagingInit_eq (K : Image) (n : ℕ) (table : List E820Entry) (s : Vm) :
    pagingInit K n table (memoryInit K table s) =
      (mapAll K n table (cleared K table s)).map fun x => (x.1, { x.2 with cr3 := K.pageDir }) := by
  unfold pagingInit mapAll
  change ((cleared K table s).mapRange K lowEnd false n 0).bind _ = _
  cases (cleared K table s).mapRange K lowEnd false n 0 with
  | none => rfl
  | some x =>
    change (x.2.mapUsable K n table).bind _ = _
    simp only [Option.bind_some]
    cases x.2.mapUsable K n table with
    | none => rfl
    | some y => rfl

lemma mapAll_covers (h : KernelMap K table s B) {l : List E820Entry} (hw : ∀ e ∈ l, ¬ e.Wraps) :
    Covers K table s B (Paged l) (mapAll K turns l s) := by
  have hlow : Covers K table s B (fun r => 0 ≤ r ∧ 4096 * r < lowEnd)
      (s.mapRange K lowEnd false turns 0) := mapRange_covers h (by omega) (by decide)
  refine (hlow.seq fun s₁ B₁ h₁ => mapUsable_covers hw h₁).congr fun r => ?_
  unfold Paged
  refine or_congr ?_ Iff.rfl
  unfold lowEnd
  omega

lemma mapAll_ends (n : ℕ) (h : KernelMap K table s B) :
    Ends K table n s B (∃ e ∈ table, e.Wraps) (mapAll K n table s) := by
  have hlow : Ends K table n s B False (s.mapRange K lowEnd false n 0) :=
    (mapRange_ends h (q := 0) lowEnd (by omega)).congr (iff_of_false (by decide) id)
  exact (hlow.seq fun s₁ B₁ h₁ => mapUsable_ends h₁ table).congr (by rw [false_or])

end LunariaOS.Mm
