import LunariaOS.Edit.Session
import LunariaOS.Edit.View
import LunariaOS.Fs.OpenFaults

/-!
Loads that fail.

`fs_read` copies each sector into the buffer of the editor as soon as it has been read. So a load
whose first sectors are read and a later one is not returns -1 with their bytes in the buffer. And
`startup` takes -1 for a file that is not there.
-/

namespace LunariaOS.Edit

open LunariaOS.Lib LunariaOS.Fs

variable {sb : Superblock} {d : Disk}

/-! ### What a read copies -/

/-- The sectors of a file of `size` bytes. -/
def sectorsOf (size : ℕ) : ℕ := (size + 511) / 512

/-- The loop of `fs_read` ends well when no transfer fails, and else has copied the sectors before the
one that does. -/
lemma readLoop_copied (lba off remaining : ℕ) (buf : Mem) (d : Disk) (h : 512 ∣ off) :
    (readLoop lba off remaining buf d).1 =
        decide (landed (sectorsOf remaining) d.fault = sectorsOf remaining) ∧
      (readLoop lba off remaining buf d).2.1 =
        buf.blit off (min remaining (512 * landed (sectorsOf remaining) d.fault))
          fun i => fileByte d lba (off + i) := by
  induction remaining using Nat.strong_induction_on generalizing off buf d with
  | _ n ih =>
    rw [readLoop]
    by_cases h0 : n = 0
    · subst h0
      rw [if_pos rfl]
      exact ⟨rfl, (buf.blit_zero off _).symm⟩
    obtain ⟨m, hm⟩ : ∃ m, sectorsOf n = m + 1 := ⟨(n - 1) / 512, by unfold sectorsOf; omega⟩
    rw [if_neg h0, hm]
    unfold ataReadSectors landed
    cases hf : d.fault 0 with
    | true =>
      simp only [if_true]
      refine ⟨(decide_eq_false (by omega)).symm, ?_⟩
      rw [Nat.mul_zero, Nat.min_zero, Mem.blit_zero]
    | false =>
      simp only [Bool.false_eq_true, if_false]
      set take := if n < 512 then n else 512 with htake
      have hrest : sectorsOf (n - take) = m := by
        unfold sectorsOf at hm ⊢
        split_ifs at htake <;> omega
      have hle : landed m (fun k => d.fault (k + 1)) ≤ m := landed_le m _
      by_cases hlast : n < 512
      · -- the last sector
        have hm0 : m = 0 := by
          unfold sectorsOf at hm
          omega
        have htake' : take = n := if_pos hlast
        subst hm0
        rw [htake', Nat.sub_self, readLoop, if_pos rfl]
        refine ⟨rfl, ?_⟩
        rw [landed, show min n (512 * (0 + 1)) = n by omega]
        refine buf.blit_congr fun i hi => ?_
        unfold fileByte
        rw [show (off + i) / 512 = off / 512 by omega, show (off + i) % 512 = i by omega]
      · have htake' : take = 512 := if_neg hlast
        obtain ⟨h1, h2⟩ := ih (n - take) (by omega) (off + take)
          (buf.blit off take (d.sectors (u32 (lba + off / 512))).mem)
          { d with fault := fun k => d.fault (k + 1) } (by omega)
        rw [hrest] at h1 h2
        dsimp only at h1 h2
        refine ⟨h1.trans (decide_eq_decide.mpr (by omega)), h2.trans ?_⟩
        generalize landed m (fun k => d.fault (k + 1)) = l at hle
        rw [Mem.blit_blit _ _ _ _ _ _ (fun i => fileByte d lba (off + i)) (fun i hi => ?_)
          (fun i _ => ?_)]
        · rw [htake', show 512 + min (n - 512) (512 * l) = min n (512 * (l + 1)) by omega]
        · unfold fileByte
          rw [show (off + i) / 512 = off / 512 by omega, show (off + i) % 512 = i by omega]
        · rw [add_assoc]
          rfl

/-- `fs_find` gives the entry of the slot when none of the directory sectors up to it fails. -/
lemma lookup_serves (name : CStr) (n sec j : ℕ) (r : Mem × ℕ) (d : Disk)
    (h : (lookup sb name n sec d.calm).1 = some (r.1, sec + j, r.2)) :
    (d.Serves (j + 1) →
        (lookup sb name n sec d).1 = some (r.1, sec + j, r.2) ∧
          (lookup sb name n sec d).2.fault = fun k => d.fault (k + (j + 1))) ∧
      (¬ d.Serves (j + 1) → (lookup sb name n sec d).1 = none) := by
  induction n generalizing sec j d with
  | zero => cases h
  | succ n ih =>
    unfold lookup at h ⊢
    rw [d.calm_working.read] at h
    unfold ataReadSectors
    rw [serves_succ]
    dsimp only at h ⊢
    have hcalm : d.calm.sectors = d.sectors := rfl
    rw [hcalm] at h
    cases hf : d.fault 0 with
    | true => exact ⟨fun hs => by simp at hs, fun _ => rfl⟩
    | false =>
      simp only [Bool.false_eq_true, if_false, true_and]
      cases hm : matchIn (d.sectors (u32 (sb.dirLba + sec))).mem name with
      | some i =>
        rw [hm] at h
        have hr := Option.some.inj h
        obtain rfl : j = 0 := Nat.left_eq_add.mp (Prod.ext_iff.mp (Prod.ext_iff.mp hr).2).1
        exact ⟨fun _ => ⟨h, rfl⟩, fun hs => absurd (fun j hj => absurd hj (Nat.not_lt_zero j)) hs⟩
      | none =>
        rw [hm] at h
        obtain ⟨j, rfl⟩ : ∃ i, j = i + 1 := by
          have := lookup_sec h
          exact ⟨j - 1, by dsimp only at this; omega⟩
        have hsec : sec + (j + 1) = sec + 1 + j := by omega
        rw [hsec] at h ⊢
        obtain ⟨h1, h2⟩ := ih (sec + 1) j { d with fault := fun k => d.fault (k + 1) } h
        refine ⟨fun hs => ⟨(h1 hs).1, (h1 hs).2.trans ?_⟩, fun hs => h2 hs⟩
        funext k
        show d.fault (k + (j + 1) + 1) = _
        rfl

/-- The sectors of the file in the slot `k` that are read before the transfer that fails. -/
def readBefore (sb : Superblock) (d : Disk) (k : ℕ) : ℕ :=
  landed (sectorsOf (entry sb d k).size) fun j => d.fault (j + (k / 16 + 1))

lemma readBefore_le (sb : Superblock) (d : Disk) (k : ℕ) :
    readBefore sb d k ≤ sectorsOf (entry sb d k).size := landed_le _ _

/-- `fs_find` on a name that is there, under any faults. -/
lemma fsFind_serves {name : CStr} {k : ℕ} (h : slotOf sb d name = some k) :
    (d.Serves (k / 16 + 1) → ∃ d', fsFind sb name d = (some (entry sb d k), d') ∧
      d'.sectors = d.sectors ∧ d'.fault = fun j => d.fault (j + (k / 16 + 1))) ∧
    (¬ d.Serves (k / 16 + 1) → ∃ d', fsFind sb name d = (none, d')) := by
  have hcalm : (lookup sb name sb.dirSectors 0 d.calm).1 =
      some (slotMem sb d k, 0 + k / 16, k % 16) := by
    rw [lookup_eq_slotOf d.calm_working, Nat.zero_add]
    exact congrArg (Option.map _) h
  obtain ⟨h1, h2⟩ := lookup_serves name sb.dirSectors 0 (k / 16) (slotMem sb d k, k % 16) d hcalm
  have hs := (@lookup_faults sb name sb.dirSectors 0 d).1
  unfold fsFind
  generalize lookup sb name sb.dirSectors 0 d = x at *
  obtain ⟨r, d'⟩ := x
  refine ⟨fun hserves => ?_, fun hserves => ?_⟩
  · obtain ⟨rfl, hf⟩ := h1 hserves
    exact ⟨d', rfl, hs, hf⟩
  · obtain rfl : r = none := h2 hserves
    exact ⟨d', rfl⟩

lemma fsFind_absent {name : CStr} (h : slotOf sb d name = none) :
    ∃ d', fsFind sb name d = (none, d') := by
  cases hf : fsFind sb name d with
  | mk e d' =>
    cases e with
    | none => exact ⟨d', rfl⟩
    | some e =>
      obtain ⟨k, hk, -⟩ := (@fsFind_faults sb name d).2 e (by rw [hf])
      rw [h] at hk
      cases hk

/-- **`fs_read` under any faults.** It finds no file, or it returns -1 before it has copied a byte, or
it copies the sectors before the transfer that fails. -/
inductive ReadOf (sb : Superblock) (d : Disk) (name : CStr) (buf : Mem) (max : ℕ) :
    ℤ → Mem → Prop
  | absent (h : slotOf sb d name = none) : ReadOf sb d name buf max (-1) buf
  | refused (k : ℕ) (h : slotOf sb d name = some k)
      (hr : ¬ (d.Serves (k / 16 + 1) ∧ (entry sb d k).size ≤ max)) :
      ReadOf sb d name buf max (-1) buf
  | failed (k : ℕ) (h : slotOf sb d name = some k) (hs : d.Serves (k / 16 + 1))
      (hm : (entry sb d k).size ≤ max) (hl : readBefore sb d k < sectorsOf (entry sb d k).size) :
      ReadOf sb d name buf max (-1)
        (buf.blit 0 (512 * readBefore sb d k) (fileByte d (entry sb d k).lba))
  | done (k : ℕ) (h : slotOf sb d name = some k) (hs : d.Serves (k / 16 + 1))
      (hm : (entry sb d k).size ≤ max) (hl : readBefore sb d k = sectorsOf (entry sb d k).size) :
      ReadOf sb d name buf max (i32 (entry sb d k).size)
        (buf.blit 0 (entry sb d k).size (fileByte d (entry sb d k).lba))

theorem fsRead_readOf (sb : Superblock) (d : Disk) (name : CStr) (buf : Mem) (max : ℕ) :
    ReadOf sb d name buf max (fsRead sb name buf max d).1 (fsRead sb name buf max d).2.1 := by
  unfold fsRead
  cases hslot : slotOf sb d name with
  | none =>
    obtain ⟨d', hf⟩ := fsFind_absent hslot
    rw [hf]
    exact .absent hslot
  | some k =>
    obtain ⟨h1, h2⟩ := fsFind_serves hslot
    by_cases hserves : d.Serves (k / 16 + 1)
    · obtain ⟨d', hf, hsec, hfault⟩ := h1 hserves
      rw [hf]
      dsimp only
      by_cases hm : (entry sb d k).size > max
      · rw [if_pos hm]
        exact .refused k hslot fun h => absurd h.2 (not_le.mpr hm)
      rw [if_neg hm]
      obtain ⟨hok, hbuf⟩ := readLoop_copied (entry sb d k).lba 0 (entry sb d k).size buf d' (dvd_zero _)
      have hbyte : (fun i => fileByte d' (entry sb d k).lba (0 + i)) =
          fileByte d (entry sb d k).lba := by
        funext i
        unfold fileByte
        rw [hsec, Nat.zero_add]
      have hle := readBefore_le sb d k
      have hl : landed (sectorsOf (entry sb d k).size) d'.fault = readBefore sb d k := by
        rw [hfault]
        rfl
      rw [hbyte, hl] at hbuf
      rw [hl] at hok
      generalize readLoop (entry sb d k).lba 0 (entry sb d k).size buf d' = x at hok hbuf ⊢
      obtain ⟨ok, buf', d''⟩ := x
      dsimp only at hok hbuf
      subst hbuf hok
      by_cases hall : readBefore sb d k = sectorsOf (entry sb d k).size
      · rw [decide_eq_true hall, Nat.min_eq_left (by rw [hall]; unfold sectorsOf; omega)]
        exact .done k hslot hserves (not_lt.mp hm) hall
      · have hlt : readBefore sb d k < sectorsOf (entry sb d k).size := by omega
        rw [decide_eq_false hall, Nat.min_eq_right (by unfold sectorsOf at hlt; omega)]
        exact .failed k hslot hserves (not_lt.mp hm) hlt
    · obtain ⟨d', hf⟩ := h2 hserves
      rw [hf]
      exact .refused k hslot fun h => hserves h.1

/-! ### The buffer after a load that fails -/

/-- What `load_into` promises when it returns -1. -/
structure Untouched (v v' : View) : Prop where
  text : v'.s.text = v.s.text
  len : v'.s.len = v.s.len
  pos : v'.s.pos = v.s.pos
  top : v'.top = v.top
  offx : v'.offx = v.offx
  dirty : v'.s.dirty = v.s.dirty
  fname : v'.s.fname = v.s.fname

/-- If a sector of the file cannot be read, the bytes of the sectors before it are the ones that the
text begins with anyway. -/
def Keeps (sb : Superblock) (s : State) (name : CStr) : Prop :=
  ∀ k, slotOf sb s.disk name = some k → s.disk.Serves (k / 16 + 1) →
    (entry sb s.disk k).size ≤ bufMax - 1 →
    readBefore sb s.disk k < sectorsOf (entry sb s.disk k).size →
    ∀ i < s.len, i < 512 * readBefore sb s.disk k →
      fileByte s.disk (entry sb s.disk k).lba i = s.buf i

lemma text_eq_iff (s : State) (buf : Mem) (d : Disk) :
    ({ s with buf := buf, disk := d } : State).text = s.text ↔ ∀ i < s.len, buf i = s.buf i := by
  unfold State.text
  simp

/-- The text that a failing read leaves. -/
lemma text_keeps {s : State} {name : CStr} (h : (fsRead sb name s.buf (bufMax - 1) s.disk).1 < 0) :
    (∀ i < s.len, (fsRead sb name s.buf (bufMax - 1) s.disk).2.1 i = s.buf i) ↔
      Keeps sb s name := by
  have hread := fsRead_readOf sb s.disk name s.buf (bufMax - 1)
  unfold Keeps
  generalize (fsRead sb name s.buf (bufMax - 1) s.disk).1 = n at h hread
  generalize (fsRead sb name s.buf (bufMax - 1) s.disk).2.1 = buf at hread ⊢
  cases hread with
  | absent hslot =>
    refine iff_of_true (fun _ _ => rfl) fun k hk => ?_
    rw [hslot] at hk
    cases hk
  | refused k hslot hr =>
    refine iff_of_true (fun _ _ => rfl) fun k' hk hs hm => ?_
    obtain rfl : k = k' := Option.some.inj (hslot.symm.trans hk)
    exact absurd ⟨hs, hm⟩ hr
  | failed k hslot hs hm hl =>
    constructor
    · intro hbuf k' hk _ _ _ i hi hi'
      obtain rfl : k = k' := Option.some.inj (hslot.symm.trans hk)
      have := hbuf i hi
      rwa [Mem.blit_of_in _ _ (Nat.zero_le i) (by omega), Nat.sub_zero] at this
    · intro hkeep i hi
      by_cases hi' : i < 512 * readBefore sb s.disk k
      · rw [Mem.blit_of_in _ _ (Nat.zero_le i) (by omega), Nat.sub_zero]
        exact hkeep k hslot hs hm hl i hi hi'
      · rw [Mem.blit_of_out _ _ (by omega)]
  | done k hslot hs hm hl =>
    have hb : bufMax = 65536 := rfl
    rw [i32_of_lt (by omega)] at h
    omega

/-- A read that delivers the whole file overwrites nothing before a failure. -/
lemma keeps_of_done {s : State} {name : CStr}
    (h : 0 ≤ (fsRead sb name s.buf (bufMax - 1) s.disk).1) : Keeps sb s name := by
  have hread := fsRead_readOf sb s.disk name s.buf (bufMax - 1)
  generalize (fsRead sb name s.buf (bufMax - 1) s.disk).1 = n at h hread
  generalize (fsRead sb name s.buf (bufMax - 1) s.disk).2.1 = buf at hread
  cases hread with
  | absent => omega
  | refused => omega
  | failed => omega
  | done k hslot hs hm hl =>
    intro k' hk _ _ hlt
    obtain rfl : k = k' := Option.some.inj (hslot.symm.trans hk)
    omega

/-- **A load that fails** leaves everything as it was if and only if the sectors that it has read
before the failure hold what the text begins with. -/
theorem untouched_iff (sb : Superblock) (v : View) (name : CStr) :
    ((v.loadInto sb name).1 = false → Untouched v (v.loadInto sb name).2) ↔ Keeps sb v.s name := by
  unfold View.loadInto
  rcases @State.loadInto_cases sb v.s name with ⟨hn, e⟩ | ⟨hn, e⟩
  · rw [e, ← text_keeps hn]
    dsimp only
    constructor
    · intro h
      exact (text_eq_iff v.s _ _).mp (h rfl).text
    · intro h _
      exact ⟨(text_eq_iff v.s _ _).mpr h, rfl, rfl, rfl, rfl, rfl, rfl⟩
  · rw [e]
    exact iff_of_true (fun h => by cases h) (keeps_of_done hn)

/-- The text `a` in the editor, on a disk with a file of two sectors. The directory and the first
sector of the file are read, the second one is not. -/
def halfRead : View where
  s := { State.loaded { longF.disk with fault := fun n => n == 2 } with
    buf := fun _ => 97
    len := 1 }
  top := 0
  offx := 0

theorem not_untouched_halfRead :
    (halfRead.loadInto longF.sb pathF).1 = false ∧
      ¬ Untouched halfRead (halfRead.loadInto longF.sb pathF).2 := by
  refine ⟨by decide +kernel, fun h => ?_⟩
  have := h.text
  exact absurd this (by decide +kernel)

end LunariaOS.Edit
