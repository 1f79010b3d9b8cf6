import LunariaOS.Fs.Calls

/-!
The command `cat`: `fs_cat` prints a file sector by sector.

The loop turns what it has read into a string by a NUL after its last byte. A sector that the file
fills has no room for it.
-/

namespace LunariaOS.Fs

open LunariaOS.Lib

/-! ### The code -/

/-- What a run of `fs_cat` does: its result, the characters it prints and the places of the sector
buffer at which it stores a NUL. -/
structure CatRun where
  rc : ℤ
  out : List UInt8
  stores : List ℕ
  disk : Disk

/-- The loop of `fs_cat`: whether every transfer succeeded, the characters, the places and the disk.
`term_print_color` prints the buffer up to its first NUL, at `n` at the latest. -/
def catLoop (lba remaining : ℕ) (d : Disk) : Bool × List UInt8 × List ℕ × Disk :=
  if remaining = 0 then (true, [], [], d)
  else
    match ataReadSectors d lba with
    | (none, d) => (false, [], [], d)
    | (some buf, d) =>
      let n := if remaining < 512 then remaining else 512
      let buf := Function.update buf n 0
      let (ok, out, stores, d) := catLoop (u32 (lba + 1)) (remaining - n) d
      (ok, cstr ((List.range (n + 1)).map buf) ++ out, n :: stores, d)
termination_by remaining
decreasing_by split <;> omega

/-- `fs_cat`. -/
def fsCat (sb : Superblock) (name : CStr) (d : Disk) : CatRun :=
  match fsFind sb name d with
  | (none, d) => ⟨-1, [], [], d⟩
  | (some e, d) =>
    match catLoop e.lba e.size d with
    | (false, out, stores, d) => ⟨-1, out, stores, d⟩
    | (true, out, stores, d) => ⟨0, out ++ [10], stores, d⟩

/-! ### One sector and more -/

section Loop

variable {sb : Superblock} {d : Disk}

lemma catLoop_zero (lba : ℕ) (d : Disk) : catLoop lba 0 d = (true, [], [], d) := by
  rw [catLoop, if_pos rfl]

/-- A file that fills a sector has its first NUL stored behind the buffer. -/
lemma catLoop_full (hw : d.Working) (lba : ℕ) {remaining : ℕ} (h : 512 ≤ remaining) :
    512 ∈ (catLoop lba remaining d).2.2.1 := by
  rw [catLoop, if_neg (by omega), hw.read]
  dsimp only
  rw [if_neg (by omega)]
  exact List.mem_cons_self

/-- A file that ends in its first sector. -/
lemma catLoop_short (hw : d.Working) (lba : ℕ) {remaining : ℕ} (h0 : 0 < remaining)
    (h : remaining < 512) : catLoop lba remaining d =
      (true, cstr ((List.range remaining).map (d.sectors lba).mem), [remaining], d) := by
  rw [catLoop, if_neg (by omega), hw.read]
  dsimp only
  rw [if_pos h, Nat.sub_self, catLoop_zero]
  have htext : (List.range (remaining + 1)).map (Function.update (d.sectors lba).mem remaining 0) =
      (List.range remaining).map (d.sectors lba).mem ++ [0] := by
    rw [List.range_succ, List.map_append, List.map_singleton, Function.update_self]
    congr 1
    refine List.map_congr_left fun i hi => Function.update_of_ne ?_ _ _
    have := List.mem_range.mp hi
    omega
  have hcut : ∀ l : List UInt8, cstr (l ++ [0]) = cstr l := by
    intro l
    unfold cstr
    induction l with
    | nil => rfl
    | cons a l ih => simp only [List.cons_append, List.takeWhile_cons, ih]
  simp only [htext, hcut, List.append_nil]

lemma fsCat_working (hw : d.Working) {name : CStr} {k : ℕ} (hk : slotOf sb d name = some k) :
    (fsCat sb name d).stores = (catLoop (entry sb d k).lba (entry sb d k).size d).2.2.1 := by
  unfold fsCat
  rw [fsFind_working hw, hk]
  dsimp only [Option.map_some]
  rcases catLoop (entry sb d k).lba (entry sb d k).size d with ⟨ok, out, stores, d'⟩
  cases ok <;> rfl

end Loop

/-! ### The command -/

/-- `fs_cat` stays in its buffer, and prints the bytes of a file without NULs and a newline. `size` is
the size of the file, and `bytes` are its bytes. -/
def CatRun.Right (r : CatRun) (bytes : List UInt8) : Prop :=
  (∀ i ∈ r.stores, i < 512) ∧ (0 ∉ bytes → r.rc = 0 ∧ r.out = bytes ++ [10])

/-- The bytes that `fs_read` returns for a file, with room for them. -/
def readBytes (sb : Superblock) (d : Disk) (name : CStr) (size : ℕ) : List UInt8 :=
  (List.range size).map (fsRead sb name (fun _ => 0) size d).2.1

/-- `fs_cat` is right exactly for the files shorter than a sector. -/
theorem fsCat_right_iff {sb : Superblock} {d : Disk} (hw : d.Working) {name : CStr} {k : ℕ}
    (hk : slotOf sb d name = some k) :
    (fsCat sb name d).Right (readBytes sb d name (entry sb d k).size) ↔
      (entry sb d k).size < 512 := by
  have hread : readBytes sb d name (entry sb d k).size =
      (List.range (entry sb d k).size).map fun i => fileByte d (entry sb d k).lba i := by
    unfold readBytes
    rw [fsRead_working hw, hk]
    dsimp only
    rw [if_pos le_rfl]
    refine List.map_congr_left fun i hi => ?_
    have := List.mem_range.mp hi
    dsimp only
    rw [Mem.blit_of_in _ _ (by omega) (by omega), Nat.sub_zero]
  rw [hread]
  have hlba : (entry sb d k).lba < 4294967296 := Mem.ld32_lt _ _
  have hfind := @fsFind_working sb d hw name
  rw [hk, Option.map_some] at hfind
  constructor
  · rintro ⟨h, -⟩
    by_contra hge
    have hmem : 512 ∈ (fsCat sb name d).stores := by
      rw [fsCat_working hw hk]
      exact catLoop_full hw _ (by omega)
    exact absurd (h 512 hmem) (by omega)
  · intro hlt
    generalize entry sb d k = e at *
    by_cases h0 : e.size = 0
    · have hrun : fsCat sb name d = ⟨0, [10], [], d⟩ := by
        unfold fsCat
        rw [hfind]
        dsimp only
        rw [h0, catLoop_zero]
        rfl
      rw [hrun, h0]
      exact ⟨fun i hi => (by cases hi), fun _ => ⟨rfl, rfl⟩⟩
    · have hrun : fsCat sb name d =
          ⟨0, cstr ((List.range e.size).map (d.sectors e.lba).mem) ++ [10], [e.size], d⟩ := by
        unfold fsCat
        rw [hfind]
        dsimp only
        rw [catLoop_short hw e.lba (by omega) hlt]
      have hbytes : (List.range e.size).map (fun i => fileByte d e.lba i) =
          (List.range e.size).map (d.sectors e.lba).mem := by
        refine List.map_congr_left fun i hi => ?_
        have hi' := List.mem_range.mp hi
        unfold fileByte
        rw [Nat.div_eq_of_lt (by omega), Nat.mod_eq_of_lt (by omega), Nat.add_zero, u32_of_lt hlba]
      rw [hrun, hbytes]
      refine ⟨fun i hi => ?_, fun hz => ⟨rfl, ?_⟩⟩
      · rw [List.mem_singleton.mp hi]
        exact hlt
      · have : cstr ((List.range e.size).map (d.sectors e.lba).mem) =
            (List.range e.size).map (d.sectors e.lba).mem := by
          unfold cstr
          rw [List.takeWhile_eq_self_iff]
          intro b hb
          rw [decide_eq_true_eq]
          rintro rfl
          exact hz hb
        dsimp only
        rw [this]

/-- A disk with one file of `size` bytes, all of them `A`. -/
def oneFile (size : ℕ) : Disk where
  sectors := fun l => if l = 200 then
      Sector.ofMem (putEntry (fun _ => 0) 0
        { name := 65 :: List.replicate 22 0, type := fsFile, lba := 300, size := size })
    else fun _ => 65
  fault := fun _ => false

/-- The directory of that disk. -/
def oneDir : Superblock := ⟨200, 1, 300⟩

/-- The name of the file. -/
def nameA : CStr := ⟨[65], by decide⟩

theorem fsCat_right_iff_ten : (fsCat oneDir nameA (oneFile 10)).Right
    (readBytes oneDir (oneFile 10) nameA (entry oneDir (oneFile 10) 0).size) ↔
      (entry oneDir (oneFile 10) 0).size < 512 :=
  @fsCat_right_iff oneDir (oneFile 10) rfl nameA 0 (by decide +kernel)

/-- A file of one sector: the NUL goes behind the buffer. -/
theorem cat_sector_overruns :
    slotOf oneDir (oneFile 512) nameA = some 0 ∧ (oneFile 512).Working ∧
      ¬ (fsCat oneDir nameA (oneFile 512)).Right (readBytes oneDir (oneFile 512) nameA 512) := by
  have hk : slotOf oneDir (oneFile 512) nameA = some 0 := by decide +kernel
  have hw : (oneFile 512).Working := rfl
  have hsize : (entry oneDir (oneFile 512) 0).size = 512 := by decide +kernel
  refine ⟨hk, hw, fun h => ?_⟩
  have hmem : 512 ∈ (fsCat oneDir nameA (oneFile 512)).stores := by
    rw [fsCat_working hw hk]
    exact catLoop_full hw _ hsize.ge
  exact absurd (h.1 512 hmem) (by omega)

end LunariaOS.Fs
