import LunariaOS.Mm.Paging

/-!
What `paging_init` maps for a memory map.

An entry that `map_usable` does not skip is mapped from its base, or from 1 MiB on, up to an end
that is computed in 32 bits, without the window. An end in the last page of the address space is
never reached by the loop, whose address wraps before, and such an entry ends only when the frames
run out. Apart from that the loops end, and map all that is asked for or run out of frames.
-/

namespace LunariaOS.Mm

open LunariaOS.Lib

/-- Where `map_usable` starts to map an entry. -/
def E820Entry.mapBase (e : E820Entry) : ℕ := if e.baseLo < lowEnd then lowEnd else e.baseLo

/-- Where `map_usable` stops to map an entry. -/
def E820Entry.mapEnd (e : E820Entry) : ℕ := u32 (e.mapBase + e.lenLo)

/-- `map_usable` skips the entry. -/
def E820Entry.skipped (e : E820Entry) : Bool :=
  !e.counts || decide (u32 (e.baseLo + e.lenLo) < e.baseLo ∨ u32 (e.baseLo + e.lenLo) ≤ lowEnd)

/-- The page `r` is one that `map_supervisor` maps for a range. -/
def InRange (start stop r : ℕ) : Prop :=
  start < stop ∧ start / 4096 ≤ r ∧ 4096 * r < stop ∧ (r < 1024 ∨ 2048 ≤ r)

/-- The page `r` is one that `map_usable` maps for the entry. -/
def E820Entry.Maps (e : E820Entry) (r : ℕ) : Prop :=
  e.skipped = false ∧ InRange e.mapBase e.mapEnd r

/-- The entry is mapped up to an end in the last page of the address space. -/
def E820Entry.Wraps (e : E820Entry) : Prop :=
  e.skipped = false ∧ e.mapBase < e.mapEnd ∧ 0xFFFFF000 < e.mapEnd

/-- The page `r` is one that `paging_init` maps. -/
def Paged (table : List E820Entry) (r : ℕ) : Prop := r < 256 ∨ ∃ e ∈ table, e.Maps r

instance (start stop r : ℕ) : Decidable (InRange start stop r) :=
  inferInstanceAs (Decidable (_ ∧ _))

instance (e : E820Entry) (r : ℕ) : Decidable (e.Maps r) := inferInstanceAs (Decidable (_ ∧ _))

instance (e : E820Entry) : Decidable e.Wraps := inferInstanceAs (Decidable (_ ∧ _))

instance (table : List E820Entry) (r : ℕ) : Decidable (Paged table r) :=
  inferInstanceAs (Decidable (_ ∨ _))

variable {K : Image} {table : List E820Entry} {s : Vm} {B : Book}

lemma E820Entry.mapBase_lt (e : E820Entry) : e.mapBase < 4294967296 := by
  have := e.baseLo_lt
  unfold E820Entry.mapBase lowEnd
  split_ifs <;> omega

lemma mapEntry_eq (K : Image) (n : ℕ) (s : Vm) (e : E820Entry) : s.mapEntry K n e =
    if e.skipped then some (true, s) else s.mapSupervisor K n e.mapBase e.mapEnd := by
  unfold Vm.mapEntry E820Entry.skipped
  by_cases hc : e.counts = true
  · simp only [hc, Bool.not_true, Bool.false_or, decide_eq_true_eq, Bool.false_eq_true, if_false]
    rfl
  · simp only [hc, Bool.not_false, Bool.true_or, if_true]

/-! ### Ranges that end -/

/-- The loops `o`, started with the book `B`, have ended: all pages of `P` are mapped, or some of
them, until a page table was needed and no frame was left. -/
def Covers (K : Image) (table : List E820Entry) (s : Vm) (B : Book) (P : ℕ → Prop)
    (o : Option (Bool × Vm)) : Prop :=
  ∃ ok s' B' P', o = some (ok, s') ∧ s'.curDir = s.curDir ∧ KernelMap K table s' B' ∧
    Grows B B' P' ∧ (ok = true → ∀ r, P' r ↔ P r) ∧
    (ok = false → (∀ r, P' r → P r) ∧ (∃ q, P q ∧ B'.table (q / 1024) = none) ∧ B'.Full table)

lemma Covers.nothing (h : KernelMap K table s B) {P : ℕ → Prop} (hP : ∀ r, ¬ P r) :
    Covers K table s B P (some (true, s)) :=
  ⟨true, s, B, P, rfl, rfl, h, Grows.refl B hP, fun _ _ => Iff.rfl, fun h => by cases h⟩

/-- When no frame is left, the page tables stay as they are. -/
lemma Grows.full_none {B' : Book} {P : ℕ → Prop} (h : Grows B B' P) {s' : Vm}
    (hmap : KernelMap K table s' B') (hfull : B.Full table) {p : ℕ} (hp : B.table p = none) :
    B'.table p = none := by
  cases ht : B'.table p with
  | none => rfl
  | some t =>
    have hfree := (h.tables p t ht hp).1
    rw [hfull t (hmap.tables p t ht).2.1.lt] at hfree
    cases hfree

lemma Covers.congr {P P' : ℕ → Prop} {o : Option (Bool × Vm)} (h : Covers K table s B P o)
    (hP : ∀ r, P r ↔ P' r) : Covers K table s B P' o := by
  have : P = P' := funext fun r => propext (hP r)
  rwa [← this]

/-- One run of loops after another. -/
lemma Covers.seq {P P' : ℕ → Prop} {o : Option (Bool × Vm)} {f : Vm → Option (Bool × Vm)}
    (h : Covers K table s B P o)
    (h' : ∀ s₁ B₁, KernelMap K table s₁ B₁ → Covers K table s₁ B₁ P' (f s₁)) :
    Covers K table s B (fun r => P r ∨ P' r)
      (o.bind fun x => (f x.2).bind fun y => some (x.1 && y.1, y.2)) := by
  obtain ⟨ok₁, s₁, B₁, P₁, rfl, hcur₁, hmap₁, hgrows₁, htrue₁, hfalse₁⟩ := h
  obtain ⟨ok₂, s₂, B₂, P₂, e₂, hcur₂, hmap₂, hgrows₂, htrue₂, hfalse₂⟩ := h' s₁ B₁ hmap₁
  refine ⟨ok₁ && ok₂, s₂, B₂, _, ?_, hcur₂.trans hcur₁, hmap₂, hgrows₁.trans hgrows₂, ?_, ?_⟩
  · rw [Option.bind_some, e₂, Option.bind_some]
  · intro hok r
    rw [Bool.and_eq_true] at hok
    rw [htrue₁ hok.1, htrue₂ hok.2]
  · intro hok
    have hsub₂ : ∀ r, P₂ r → P' r := by
      intro r hr
      cases ok₂ with
      | true => exact (htrue₂ rfl r).mp hr
      | false => exact (hfalse₂ rfl).1 r hr
    cases ok₁ with
    | true =>
      -- the second run is stuck
      obtain ⟨-, ⟨q, hq, hnone⟩, hfull⟩ := hfalse₂ hok
      exact ⟨fun r => Or.imp (htrue₁ rfl r).mp (hsub₂ r), ⟨q, Or.inr hq, hnone⟩, hfull⟩
    | false =>
      obtain ⟨hsub, ⟨q, hq, hnone⟩, hfull⟩ := hfalse₁ rfl
      exact ⟨fun r => Or.imp (hsub r) (hsub₂ r),
        ⟨q, Or.inl hq, hgrows₂.full_none hmap₂ hfull hnone⟩,
        fun i hi => hgrows₂.used i (hfull i hi)⟩

/-- Turns that are sure to suffice for a range that ends. -/
def turns : ℕ := 1048577

/-- A range that ends before the last page of the address space. -/
lemma mapRange_covers (h : KernelMap K table s B) {q stop : ℕ} (hq : q < 1048576)
    (hstop : stop ≤ 0xFFFFF000) :
    Covers K table s B (fun r => q ≤ r ∧ 4096 * r < stop)
      (s.mapRange K stop false turns (4096 * q)) := by
  obtain ⟨k, hk, s', B', hcur, hmap, hgrows, hbelow, hend⟩ := mapRange_run stop turns h hq
  -- no address wraps on the way
  have hline : ∀ i ≤ k, pageAfter q i = q + i := by
    intro i hi
    induction i with
    | zero => exact Nat.mod_eq_of_lt hq
    | succ i ih =>
      have h1 := hbelow i (by omega)
      rw [ih (by omega)] at h1
      exact Nat.mod_eq_of_lt (by omega)
  have hvisited : ∀ r, (∃ i < k, r = pageAfter q i) ↔ q ≤ r ∧ r < q + k := by
    intro r
    constructor
    · rintro ⟨i, hi, rfl⟩
      rw [hline i (by omega)]
      omega
    · rintro ⟨h1, h2⟩
      refine ⟨r - q, by omega, ?_⟩
      rw [hline _ (by omega)]
      omega
  have hlast : ∀ i < k, 4096 * (q + i) < stop := by
    intro i hi
    rw [← hline i (by omega)]
    exact hbelow i hi
  rcases hend with ⟨-, rfl⟩ | ⟨e, hge⟩ | ⟨e, hlt, hnone, hfull⟩
  · have := hlast 1048576 (by decide)
    omega
  · rw [hline k le_rfl] at hge
    refine ⟨true, s', B', _, e, hcur, hmap, hgrows, fun _ r => ?_, fun h => by cases h⟩
    rw [hvisited]
    constructor
    · rintro ⟨h1, h2⟩
      have := hlast (r - q) (by omega)
      omega
    · omega
  · rw [hline k le_rfl] at hlt hnone
    refine ⟨false, s', B', _, e, hcur, hmap, hgrows, (fun hf => by cases hf),
      fun _ => ⟨fun r hr => ?_, ⟨q + k, ⟨by omega, hlt⟩, hnone⟩, hfull⟩⟩
    have hr := (hvisited r).mp hr
    exact ⟨hr.1, by omega⟩

lemma entryAddr_eq (v : ℕ) : entryAddr v = 4096 * (v / 4096) := Nat.mul_comm ..

/-- The part of a range below the window. -/
lemma mapLow_covers (h : KernelMap K table s B) {start stop : ℕ} (hlt : start < stop) :
    Covers K table s B (fun r => InRange start stop r ∧ r < 1024)
      (if start < userBase then
        s.mapRange K (if stop < userBase then stop else userBase) false turns (entryAddr start)
      else some (true, s)) := by
  by_cases hs : start < userBase
  · rw [if_pos hs, entryAddr_eq]
    unfold userBase at *
    refine (mapRange_covers h (by omega) ?_).congr fun r => ?_
    · split_ifs <;> omega
    · unfold InRange
      split_ifs <;> omega
  · rw [if_neg hs]
    refine Covers.nothing h fun r hr => hs ?_
    unfold InRange at hr
    unfold userBase
    omega

lemma mapSupervisor_covers (h : KernelMap K table s B) {start stop : ℕ} (hstart : start < 4294967296)
    (hstop : stop ≤ 0xFFFFF000) :
    Covers K table s B (InRange start stop) (s.mapSupervisor K turns start stop) := by
  unfold Vm.mapSupervisor
  by_cases hempty : start ≥ stop
  · rw [if_pos hempty]
    exact Covers.nothing h fun r hr => by
      have := hr.1
      omega
  rw [if_neg hempty]
  have hlow := mapLow_covers h (Nat.lt_of_not_ge hempty)
  have hhigh : ∀ s₁ B₁, KernelMap K table s₁ B₁ →
      Covers K table s₁ B₁ (fun r => InRange start stop r ∧ 2048 ≤ r)
      (if stop > userTop then
        s₁.mapRange K stop false turns (entryAddr (if start > userTop then start else userTop))
      else some (true, s₁)) := by
    intro s₁ B₁ h₁
    by_cases hs : stop > userTop
    · rw [if_pos hs, entryAddr_eq]
      refine (mapRange_covers h₁ ?_ hstop).congr fun r => ?_
      · unfold userTop
        split_ifs <;> omega
      · unfold InRange userTop at *
        split_ifs <;> omega
    · rw [if_neg hs]
      refine Covers.nothing h₁ fun r hr => hs ?_
      unfold InRange at hr
      unfold userTop
      omega
  refine Covers.congr (hlow.seq hhigh) fun r => ?_
  unfold InRange
  omega

lemma mapEntry_covers (h : KernelMap K table s B) {e : E820Entry} (he : ¬ e.Wraps) :
    Covers K table s B e.Maps (s.mapEntry K turns e) := by
  rw [mapEntry_eq]
  by_cases hskip : e.skipped = true
  · rw [if_pos hskip]
    exact Covers.nothing h fun r hr => by
      rw [hr.1] at hskip
      cases hskip
  · rw [if_neg hskip]
    have hskip : e.skipped = false := by simpa using hskip
    by_cases hempty : e.mapBase < e.mapEnd
    · refine (mapSupervisor_covers h e.mapBase_lt ?_).congr fun r => ?_
      · by_contra hend
        exact he ⟨hskip, hempty, by omega⟩
      · exact ⟨fun hr => ⟨hskip, hr⟩, fun hr => hr.2⟩
    · unfold Vm.mapSupervisor
      rw [if_pos (by omega)]
      exact Covers.nothing h fun r hr => hempty hr.2.1

lemma mapUsable_covers {l : List E820Entry} (hl : ∀ e ∈ l, ¬ e.Wraps)
    (h : KernelMap K table s B) :
    Covers K table s B (fun r => ∃ e ∈ l, e.Maps r) (s.mapUsable K turns l) := by
  induction l generalizing s B with
  | nil => exact Covers.nothing h fun r ⟨e, he, _⟩ => by cases he
  | cons e l ih =>
    have h1 := mapEntry_covers h (hl e List.mem_cons_self)
    have h2 : ∀ s₁ B₁, KernelMap K table s₁ B₁ →
        Covers K table s₁ B₁ (fun r => ∃ e ∈ l, e.Maps r) (s₁.mapUsable K turns l) :=
      fun s₁ B₁ h₁ => ih (fun e' he' => hl e' (List.mem_cons_of_mem _ he')) h₁
    refine Covers.congr (h1.seq h2) fun r => ?_
    simp only [List.mem_cons, exists_eq_or_imp]

end LunariaOS.Mm
