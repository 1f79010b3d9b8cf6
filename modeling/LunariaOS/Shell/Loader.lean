import LunariaOS.Window
import LunariaOS.Fs.Success

/-!
Program images, plain and flat.

`shell_run_program` reads a file to the bottom of the window. A file that starts with a header of
twelve bytes, `LUNB`, the size of the image and the offset of its entry point, holds an image that
belongs elsewhere in the window, and is copied there. `build_flat` in the compiler writes such files.
-/

namespace LunariaOS.Shell

open LunariaOS.Lib LunariaOS.Fs

/-- `USER_PROG_MAX`. -/
def userProgMax : ℕ := 0x200000
/-- `TCC_FLAT_BASE`. -/
def tccFlatBase : ℕ := 0x680000
/-- `TCC_FLAT_MAX`. -/
def tccFlatMax : ℕ := 0x10000
/-- `TCC_FLAT_MAGIC0` to `TCC_FLAT_MAGIC3`: the letters `LUNB`. -/
def tccFlatMagic : List UInt8 := [76, 85, 78, 66]

/-! ### The compiler -/

/-- The header that `build_flat` writes. -/
def flatHeader (size entry : ℕ) : List UInt8 :=
  tccFlatMagic ++ [leByte size 0, leByte size 1, leByte size 2, leByte size 3,
    leByte entry 0, leByte entry 1, leByte entry 2, leByte entry 3]

/-- The file that `build_flat` writes, when `tcc_relocate_at` has returned `size` with the image in
the memory `m`, and `_start` is at `start`. -/
def buildFlat (m : Mem) (size : ℤ) (start : ℕ) : Option (List UInt8) :=
  if size < 0 then none
  else if start = 0 ∨ start < tccFlatBase then none
  else if u32 (size.toNat + 12) > tccFlatMax then none
  else some (flatHeader size.toNat (start - tccFlatBase) ++
    (List.range size.toNat).map fun i => m (tccFlatBase + i))

/-! ### The loader -/

/-- `rd32_le`. -/
def rd32Le (m : Mem) (p : ℕ) : ℕ :=
  (m p).toNat ||| (m (p + 1)).toNat <<< 8 ||| (m (p + 2)).toNat <<< 16 |||
    (m (p + 3)).toNat <<< 24

/-- The memory of a process that is about to be entered, its break and its first instruction. -/
structure Entry where
  mem : Mem
  brk : ℕ
  eip : ℕ

/-- Whether the file at the bottom of the window starts with the magic. -/
def hasMagic (m : Mem) : Bool :=
  m userBase == 76 && m (userBase + 1) == 85 && m (userBase + 2) == 78 && m (userBase + 3) == 66

/-- The part of `shell_run_program` after `fs_read` has put a file of `size` bytes at the bottom of
the window. -/
def loadImage (m : Mem) (size : ℕ) : Option Entry :=
  if size ≥ 12 ∧ hasMagic m = true then
    let fsize := rd32Le m (userBase + 4)
    let fentry := rd32Le m (userBase + 8)
    if fsize > size - 12 ∨ u32 (fsize + 12) > tccFlatMax ∨ u32 (tccFlatBase + fsize) > userStack ∨
        fentry ≥ fsize then none
    else some {
      mem := memcpy m tccFlatBase (userBase + 12) fsize
      brk := vmNoteLoad (u32 (tccFlatBase - userBase + fsize))
      eip := u32 (tccFlatBase + fentry) }
  else some { mem := m, brk := vmNoteLoad size, eip := userBase }

/-- `shell_run_program` in the window `m` of a new process, up to `enter_user`. -/
def shellRunProgram (sb : Superblock) (name : CStr) (m : Mem) (d : Disk) : Option Entry × Disk :=
  let (size, buf, d) := fsRead sb name (fun i => m (userBase + i)) userProgMax d
  if size < 0 then (none, d)
  else (loadImage (m.blit userBase userProgMax buf) size.toNat, d)

/-! ### The header -/

lemma rd32Le_eq (m : Mem) (p : ℕ) : rd32Le m p = m.ld32 p := by
  have h0 := (m p).toNat_lt
  have h1 := (m (p + 1)).toNat_lt
  have h2 := (m (p + 2)).toNat_lt
  have low : (m p).toNat ||| (m (p + 1)).toNat <<< 8 = (m p).toNat + 256 * (m (p + 1)).toNat := by
    rw [Nat.lor_comm, ← Nat.shiftLeft_add_eq_or_of_lt h0, Nat.shiftLeft_eq]
    omega
  have mid : ((m p).toNat + 256 * (m (p + 1)).toNat) ||| (m (p + 2)).toNat <<< 16 =
      (m p).toNat + 256 * (m (p + 1)).toNat + 65536 * (m (p + 2)).toNat := by
    have hlt : (m p).toNat + 256 * (m (p + 1)).toNat < 2 ^ 16 := by omega
    rw [Nat.lor_comm, ← Nat.shiftLeft_add_eq_or_of_lt hlt, Nat.shiftLeft_eq]
    omega
  have hlt : (m p).toNat + 256 * (m (p + 1)).toNat + 65536 * (m (p + 2)).toNat < 2 ^ 24 := by omega
  unfold rd32Le Mem.ld32
  rw [low, mid, Nat.lor_comm, ← Nat.shiftLeft_add_eq_or_of_lt hlt, Nat.shiftLeft_eq]
  omega

/-- The file `l` at the bottom of the window. -/
def atBase (m : Mem) (l : List UInt8) : Mem := m.blit userBase l.length fun i => l.getD i 0

lemma atBase_in (m : Mem) {l : List UInt8} {i : ℕ} (h : i < l.length) :
    atBase m l (userBase + i) = l.getD i 0 := by
  unfold atBase
  rw [Mem.blit_of_in _ _ (by omega) (by omega), Nat.add_sub_cancel_left]

/-- The bytes behind the header. -/
lemma atBase_behind (m : Mem) {l : List UInt8} {i : ℕ} (h : 12 + i < l.length) :
    atBase m l (userBase + 12 + i) = l.getD (12 + i) 0 := by
  have hassoc : userBase + 12 + i = userBase + (12 + i) := Nat.add_assoc _ _ _
  rw [hassoc]
  exact atBase_in m h

/-- `fs_read` puts the file at the bottom of the window. -/
lemma shellRunProgram_eq {sb : Superblock} {d : Disk} (hw : d.Working) {name : CStr} {f : File}
    (hf : view sb d name = some f) (hlen : f.bytes.length ≤ userProgMax) (m : Mem) :
    shellRunProgram sb name m d = (loadImage (atBase m f.bytes) f.bytes.length, d) := by
  have h32 : f.bytes.length ≤ 4294966784 := hlen.trans (by decide)
  have hi : i32 f.bytes.length = f.bytes.length :=
    i32_of_lt (lt_of_le_of_lt hlen (by decide))
  have hmem : ∀ g : ℕ → UInt8, m.blit userBase userProgMax
      (Mem.blit (fun i => m (userBase + i)) 0 f.bytes.length g) =
      m.blit userBase f.bytes.length g := by
    intro g
    funext x
    by_cases hin : userBase ≤ x ∧ x < userBase + f.bytes.length
    · rw [Mem.blit_of_in _ _ hin.1 (by omega), Mem.blit_of_in _ _ (by omega) (by omega),
        Mem.blit_of_in _ _ hin.1 hin.2, Nat.sub_zero]
    · rw [Mem.blit_of_out _ (a := userBase) (n := f.bytes.length) _ (by omega)]
      by_cases hout : userBase ≤ x ∧ x < userBase + userProgMax
      · rw [Mem.blit_of_in _ _ hout.1 hout.2, Mem.blit_of_out _ _ (by omega)]
        exact congrArg m (Nat.add_sub_cancel' hout.1)
      · exact Mem.blit_of_out _ _ (by omega)
  have hread := fsRead_view hw hf h32 (fun i => m (userBase + i)) userProgMax hlen
  rw [hi] at hread
  have hneg : ¬ ((f.bytes.length : ℤ) < 0) := by omega
  unfold shellRunProgram
  simp only [hread, if_neg hneg, hmem, Int.toNat_natCast]
  rfl

lemma hasMagic_atBase (m : Mem) {l : List UInt8} (h : 4 ≤ l.length) :
    hasMagic (atBase m l) = true ↔ l.take 4 = tccFlatMagic := by
  have h0 := atBase_in m (l := l) (i := 0) (by omega)
  have h1 := atBase_in m (l := l) (i := 1) (by omega)
  have h2 := atBase_in m (l := l) (i := 2) (by omega)
  have h3 := atBase_in m (l := l) (i := 3) (by omega)
  rw [Nat.add_zero] at h0
  unfold hasMagic
  rw [h0, h1, h2, h3]
  obtain ⟨a, b, c, e, l, rfl⟩ : ∃ a b c e l', l = a :: b :: c :: e :: l' := by
    cases l with
    | nil => simp at h
    | cons a l =>
      cases l with
      | nil => simp at h
      | cons b l =>
        cases l with
        | nil => simp at h
        | cons c l =>
          cases l with
          | nil => simp at h
          | cons e l => exact ⟨a, b, c, e, l, rfl⟩
  simp [tccFlatMagic, and_assoc]

/-- A little-endian word in the file. -/
lemma ld32_atBase (m : Mem) {l : List UInt8} {c v : ℕ} (hc : c + 4 ≤ l.length)
    (hv : v < 4294967296) (hb : ∀ j < 4, l.getD (c + j) 0 = leByte v j) :
    (atBase m l).ld32 (userBase + c) = v := by
  have key : ∀ j < 4, atBase m l (userBase + c + j) = leByte v j := by
    intro j hj
    rw [Nat.add_assoc, atBase_in m (by omega), hb j hj]
  have h0 := key 0 (by omega)
  rw [Nat.add_zero] at h0
  unfold Mem.ld32
  rw [h0, key 1 (by omega), key 2 (by omega), key 3 (by omega)]
  exact leByte_sum hv

/-! ### Loading a flat image -/

/-- A flat image goes from behind its header to its own place: the guards keep the sums below
`2^32`, the copy below the stack, and the source away from the destination. -/
lemma loadImage_flat {m : Mem} {size fsize fentry : ℕ} (hsize : size ≤ userProgMax)
    (h12 : 12 ≤ size) (hmagic : hasMagic m = true) (hfsize : m.ld32 (userBase + 4) = fsize)
    (hfentry : m.ld32 (userBase + 8) = fentry) :
    loadImage m size =
      if fsize + 12 ≤ size ∧ fsize + 12 ≤ tccFlatMax ∧ fentry < fsize then
        some {
          mem := m.blit tccFlatBase fsize fun i => m (userBase + 12 + i)
          brk := vmNoteLoad (tccFlatBase - userBase + fsize)
          eip := tccFlatBase + fentry }
      else none := by
  unfold userProgMax at hsize
  unfold loadImage
  rw [if_pos ⟨h12, hmagic⟩]
  simp only [rd32Le_eq, hfsize, hfentry]
  by_cases hfit : fsize > size - 12
  · rw [if_pos (Or.inl hfit), if_neg (by omega)]
  · have h1 : u32 (fsize + 12) = fsize + 12 := u32_of_lt (by omega)
    have h2 : u32 (tccFlatBase + fsize) = tccFlatBase + fsize :=
      u32_of_lt (by unfold tccFlatBase; omega)
    rw [h1, h2]
    by_cases hok : fsize + 12 ≤ size ∧ fsize + 12 ≤ tccFlatMax ∧ fentry < fsize
    · obtain ⟨-, hmax, hent⟩ := id hok
      unfold tccFlatMax at hmax
      have h3 : u32 (tccFlatBase - userBase + fsize) = tccFlatBase - userBase + fsize :=
        u32_of_lt (by unfold tccFlatBase userBase; omega)
      have h4 : u32 (tccFlatBase + fentry) = tccFlatBase + fentry :=
        u32_of_lt (by unfold tccFlatBase; omega)
      have hapart : userBase + 12 + fsize ≤ tccFlatBase := by
        unfold userBase tccFlatBase
        omega
      have hguards : ¬ (fsize > size - 12 ∨ fsize + 12 > tccFlatMax ∨
          tccFlatBase + fsize > userStack ∨ fentry ≥ fsize) := by
        unfold tccFlatMax tccFlatBase userStack
        omega
      rw [if_neg hguards, if_pos hok, h3, h4, memcpy_eq m (Or.inr hapart)]
    · rw [if_neg hok, if_pos (by omega)]

/-- Where the break is after a flat image has been loaded. -/
lemma vmNoteLoad_flat {n : ℕ} (h : n + 12 ≤ tccFlatMax) :
    tccFlatBase + n ≤ vmNoteLoad (tccFlatBase - userBase + n) := by
  unfold tccFlatMax at h
  have h1 : u32 (tccFlatBase - userBase + n + pageSize - 1) =
      tccFlatBase - userBase + n + pageSize - 1 :=
    u32_of_lt (by unfold tccFlatBase userBase pageSize; omega)
  have h2 : u32 (userBase + (tccFlatBase - userBase + n + pageSize - 1) / pageSize * pageSize) =
      userBase + (tccFlatBase - userBase + n + pageSize - 1) / pageSize * pageSize :=
    u32_of_lt (by unfold tccFlatBase userBase pageSize; omega)
  unfold vmNoteLoad
  simp only [h1, h2]
  rw [if_neg (by omega)]
  unfold tccFlatBase userBase pageSize
  omega

/-! ### The two programs together -/

lemma flatHeader_length (size entry : ℕ) : (flatHeader size entry).length = 12 := rfl

lemma buildFlat_eq (m : Mem) {n entry : ℕ} (hn : n ≤ tccFlatMax - 12) :
    buildFlat m n (tccFlatBase + entry) =
      some (flatHeader n entry ++ (List.range n).map fun i => m (tccFlatBase + i)) := by
  unfold tccFlatMax at hn
  have h1 : u32 (n + 12) = n + 12 := u32_of_lt (by omega)
  unfold buildFlat
  rw [if_neg (by omega), Int.toNat_natCast, h1, if_neg (by unfold tccFlatBase; omega),
    if_neg (by unfold tccFlatMax; omega), Nat.add_sub_cancel_left]

/-- The words of the header. -/
lemma flatHeader_word {n entry : ℕ} (l : List UInt8) {j : ℕ} (hj : j < 4) :
    (flatHeader n entry ++ l).getD (4 + j) 0 = leByte n j ∧
      (flatHeader n entry ++ l).getD (8 + j) 0 = leByte entry j := by
  obtain rfl | rfl | rfl | rfl : j = 0 ∨ j = 1 ∨ j = 2 ∨ j = 3 := by omega
  · exact ⟨rfl, rfl⟩
  · exact ⟨rfl, rfl⟩
  · exact ⟨rfl, rfl⟩
  · exact ⟨rfl, rfl⟩

/-- **Flat binaries round-trip and are confined.** The file that the compiler writes for an image is
accepted by the loader, which puts the same bytes at the same place, enters them where the compiler
said and sets the break behind them. And whatever a file with the magic holds, the loader rejects it
or copies bytes of the file into the window, below the stack and away from where they came from, and
enters it inside the copy. -/
theorem flat_binaries {sb : Superblock} {d : Disk} (hw : d.Working) {name : CStr} {f : File}
    (hf : view sb d name = some f) (m : Mem) :
    (∀ image n entry, 1 ≤ n → n ≤ tccFlatMax - 12 → entry < n →
      ∃ file, buildFlat image n (tccFlatBase + entry) = some file ∧ (f.bytes = file →
        ∃ e, (shellRunProgram sb name m d).1 = some e ∧
          (∀ i < n, e.mem (tccFlatBase + i) = image (tccFlatBase + i)) ∧
          (∀ x, x < tccFlatBase ∨ tccFlatBase + n ≤ x → e.mem x = atBase m file x) ∧
          e.eip = tccFlatBase + entry ∧ tccFlatBase + n ≤ e.brk)) ∧
    (12 ≤ f.bytes.length → f.bytes.length ≤ userProgMax → f.bytes.take 4 = tccFlatMagic →
      (shellRunProgram sb name m d).1 = none ∨
      ∃ e fsize fentry, (shellRunProgram sb name m d).1 = some e ∧
        12 + fsize ≤ f.bytes.length ∧ tccFlatBase + fsize ≤ userStack ∧
        userBase + 12 + fsize ≤ tccFlatBase ∧
        e.mem = (atBase m f.bytes).blit tccFlatBase fsize (fun i => f.bytes.getD (12 + i) 0) ∧
        fentry < fsize ∧ e.eip = tccFlatBase + fentry) := by
  refine ⟨fun image n entry hn1 hn hentry => ⟨_, buildFlat_eq image hn, fun hfile => ?_⟩,
    fun h12 hlen hmagic => ?_⟩
  · have hmax : n + 12 ≤ tccFlatMax := by
      unfold tccFlatMax at hn ⊢
      omega
    have hlen : f.bytes.length = n + 12 := by
      rw [hfile]
      simp [flatHeader_length]
      omega
    have hle : f.bytes.length ≤ userProgMax := by
      unfold tccFlatMax at hmax
      unfold userProgMax
      omega
    have hmagic : hasMagic (atBase m f.bytes) = true :=
      (hasMagic_atBase m (by omega)).mpr (by rw [hfile]; rfl)
    have h32 : n < 4294967296 := by
      unfold tccFlatMax at hmax
      omega
    have hword := fun j (hj : j < 4) => @flatHeader_word n entry
      ((List.range n).map fun i => image (tccFlatBase + i)) j hj
    rw [← hfile] at hword ⊢
    have hload := loadImage_flat hle (by omega) hmagic
      (ld32_atBase m (by omega) h32 fun j hj => (hword j hj).1)
      (ld32_atBase m (by omega) (by omega) fun j hj => (hword j hj).2)
    rw [if_pos ⟨by omega, hmax, hentry⟩] at hload
    rw [shellRunProgram_eq hw hf hle, hload]
    refine ⟨_, rfl, fun i hi => ?_, fun x hx => ?_, rfl, vmNoteLoad_flat hmax⟩
    · simp only
      rw [Mem.blit_of_in _ _ (by omega) (by omega), Nat.add_sub_cancel_left,
        atBase_behind m (by omega), hfile,
        List.getD_append_right _ _ _ _ (by rw [flatHeader_length]; omega), flatHeader_length,
        Nat.add_sub_cancel_left, List.getD_eq_getElem _ _ (by simpa using hi)]
      simp
    · simp only
      rw [Mem.blit_of_out _ _ hx]
  · have hmagic' := (hasMagic_atBase m (l := f.bytes) (by omega)).mpr hmagic
    have hload := loadImage_flat hlen h12 hmagic' rfl rfl
    rw [shellRunProgram_eq hw hf hlen, hload]
    split_ifs with hok
    · right
      obtain ⟨hfit, hmax, hent⟩ := hok
      generalize (atBase m f.bytes).ld32 (userBase + 4) = fsize at *
      generalize (atBase m f.bytes).ld32 (userBase + 8) = fentry at *
      refine ⟨_, fsize, fentry, rfl, by omega, ?_, ?_, ?_, hent, rfl⟩
      · unfold tccFlatMax at hmax
        unfold tccFlatBase userStack
        omega
      · unfold tccFlatMax at hmax
        unfold userBase tccFlatBase
        omega
      · simp only
        refine Mem.blit_congr _ fun i hi => ?_
        rw [atBase_behind m (by omega)]
    · exact Or.inl rfl

/-- An image of two bytes, of which the second is the entry point. -/
def tinyFlat : List UInt8 := flatHeader 2 1 ++ [144, 244]

/-- The blank disk with this image in the file `f`. -/
def withFlat : State := blank.step (.write pathF fsFile (fun i => tinyFlat.getD i 0) 14)

lemma withFlat_view : view withFlat.sb withFlat.disk pathF = some ⟨fsFile, tinyFlat⟩ :=
  (fsWrite_view blank_wellFormed (by decide) fsFile (fun i => tinyFlat.getD i 0) (by decide)
    (blank_addressed.fits blank_wellFormed pathF fsFile _ (by decide)) (by decide +kernel)).trans
    (by decide)

theorem flat_binaries_tiny :
    (∃ file, buildFlat (fun x => if x = tccFlatBase then 144 else 244) (2 : ℕ) (tccFlatBase + 1) =
        some file ∧ (tinyFlat = file →
      ∃ e, (shellRunProgram withFlat.sb pathF (fun _ => 0) withFlat.disk).1 = some e ∧
        (∀ i < 2, e.mem (tccFlatBase + i) =
          if tccFlatBase + i = tccFlatBase then 144 else 244) ∧
        (∀ x, x < tccFlatBase ∨ tccFlatBase + 2 ≤ x → e.mem x = atBase (fun _ => 0) file x) ∧
        e.eip = tccFlatBase + 1 ∧ tccFlatBase + 2 ≤ e.brk)) ∧
    ((shellRunProgram withFlat.sb pathF (fun _ => 0) withFlat.disk).1 = none ∨
      ∃ e fsize fentry, (shellRunProgram withFlat.sb pathF (fun _ => 0) withFlat.disk).1 = some e ∧
        12 + fsize ≤ tinyFlat.length ∧ tccFlatBase + fsize ≤ userStack ∧
        userBase + 12 + fsize ≤ tccFlatBase ∧
        e.mem = (atBase (fun _ => 0) tinyFlat).blit tccFlatBase fsize
          (fun i => tinyFlat.getD (12 + i) 0) ∧
        fentry < fsize ∧ e.eip = tccFlatBase + fentry) :=
  have hw : withFlat.disk.Working := (fsWrite_sound blank_wellFormed (by decide)
    (blank_addressed.fits blank_wellFormed pathF fsFile _ (by decide))).working
  ⟨(flat_binaries hw withFlat_view (fun _ => 0)).1 _ 2 1 (by decide) (by decide) (by decide),
    (flat_binaries hw withFlat_view (fun _ => 0)).2 (by decide) (by decide) (by decide)⟩

end LunariaOS.Shell
