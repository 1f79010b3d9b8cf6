import LunariaOS.Fs.WellFormed
import LunariaOS.Seeder.Code

/-!
Whether the kernel finds on the image what the host tool was given.

`Laid` says where the files lie and what the entries say, whatever their names are. The buffer of 23
bytes holds 22 of the characters of `prog_<p>.bin`, so the prefix and the extension come off right for
a `p` of at most 16 characters, and for one of 17 without a dot.
-/

namespace LunariaOS.Seeder

open LunariaOS.Lib LunariaOS.Fs

/-! ### Names -/

section Names

lemma cutDot_append {p r : List UInt8} (h : 46 ∉ r) : cutDot (p ++ 46 :: r) = p := by
  unfold cutDot
  rw [if_pos (by simp)]
  have hr : ∀ b ∈ r.reverse, (b != 46) = true := fun b hb => by
    have : b ≠ 46 := fun e => h (e ▸ List.mem_reverse.mp hb)
    simpa using this
  unfold List.rdropWhile
  rw [List.reverse_append, List.reverse_cons, List.append_assoc, List.dropWhile_append_of_pos hr]
  simp

/-- The names that come out as they should. -/
def Good (p : List UInt8) : Prop := p.length ≤ 16 ∨ p.length = 17 ∧ 46 ∉ p

instance (p : List UInt8) : Decidable (Good p) :=
  inferInstanceAs (Decidable (p.length ≤ 16 ∨ p.length = 17 ∧ 46 ∉ p))

/-- The name of a program file. -/
def progName (p : List UInt8) : List UInt8 := ascii "prog_" ++ p ++ ascii ".bin"

lemma progName_take (p : List UInt8) : ((progName p).take 22).take 5 = ascii "prog_" ∧
    ((progName p).take 22).drop 5 = (p ++ ascii ".bin").take 17 := by
  have h5 : (ascii "prog_").length = 5 := by decide
  unfold progName
  constructor
  · rw [List.take_take, List.append_assoc, List.take_left' (by rw [h5]; rfl)]
  · rw [List.drop_take, List.append_assoc, List.drop_left' h5]

lemma seedName_progName (p : List UInt8) :
    seedName (progName p) = cutDot ((p ++ ascii ".bin").take 17) := by
  obtain ⟨h1, h2⟩ := progName_take p
  unfold seedName
  dsimp only
  rw [if_pos h1, h2]

/-- A good name comes out. -/
lemma seedName_good {p : List UInt8} (h : Good p) : seedName (progName p) = p := by
  rw [seedName_progName]
  have hbin : ascii ".bin" = 46 :: ascii "bin" := by decide
  rcases h with h | ⟨h, hdot⟩
  · rw [List.take_append, List.take_of_length_le (by omega), hbin,
      show 17 - p.length = (16 - p.length) + 1 by omega, List.take_succ_cons]
    refine cutDot_append fun hm => ?_
    exact absurd (List.mem_of_mem_take hm) (by decide)
  · rw [List.take_append_of_le_length (by omega), List.take_of_length_le (by omega)]
    unfold cutDot
    rw [if_neg hdot]

/-- Whatever comes out is good. -/
lemma good_seedName (p : List UInt8) : Good (seedName (progName p)) := by
  rw [seedName_progName]
  have hl : ((p ++ ascii ".bin").take 17).length ≤ 17 := List.length_take_le ..
  generalize (p ++ ascii ".bin").take 17 = q at hl
  unfold cutDot
  split_ifs with hdot
  · left
    have := (List.rdropWhile_prefix (· != 46) q).length_le
    rw [List.length_dropLast]
    omega
  · rcases Nat.lt_or_ge q.length 17 with h | h
    · exact Or.inl (by omega)
    · exact Or.inr ⟨by omega, hdot⟩

end Names

/-! ### Where the files lie -/

/-- The sector at which the file number `k` starts. -/
def startOf (fs : List (CStr × List UInt8)) (k : ℕ) : ℕ :=
  fsDataLba + ((fs.take k).map fun f => ceilSectors f.2.length).sum

section Start

variable {fs : List (CStr × List UInt8)} {f : CStr × List UInt8} {j k : ℕ}

lemma startOf_succ (h : fs[k]? = some f) : startOf fs (k + 1) = startOf fs k + ceilSectors f.2.length := by
  unfold startOf
  rw [List.take_add_one, h]
  simp [Nat.add_assoc]

lemma startOf_append (h : k ≤ fs.length) (l : List (CStr × List UInt8)) :
    startOf (fs ++ l) k = startOf fs k := by
  unfold startOf
  rw [List.take_append_of_le_length h]

lemma startOf_le (h : j ≤ k) : startOf fs j ≤ startOf fs k := by
  induction k with
  | zero => rw [Nat.le_zero.mp h]
  | succ k ih =>
    rcases Nat.lt_or_ge j (k + 1) with hj | hj
    · refine (ih (by omega)).trans ?_
      cases hk : fs[k]? with
      | some f => exact startOf_succ hk ▸ Nat.le_add_right ..
      | none =>
        have hl := List.getElem?_eq_none_iff.mp hk
        unfold startOf
        rw [List.take_of_length_le hl, List.take_of_length_le (by omega)]
    · rw [show j = k + 1 by omega]

lemma startOf_end (hj : fs[j]? = some f) (h : j < k) :
    startOf fs j + ceilSectors f.2.length ≤ startOf fs k :=
  startOf_succ hj ▸ startOf_le h

lemma dataLba_le : fsDataLba ≤ startOf fs k := Nat.le_add_right ..

end Start

/-- The files `fs` lie one after the other, with their entries, above what was on the image. -/
structure Laid (base : Mem) (fs : List (CStr × List UInt8)) (s : Seed) : Prop where
  low : ∀ x < fsDataLba * 512, s.img x = base x
  next : s.nextLba = startOf fs fs.length
  length : s.entries.length = fs.length
  entries : ∀ k f, fs[k]? = some f →
    s.entries[k]? = some (newEntry f.1 fsFile (startOf fs k) (u32 f.2.length))
  data : ∀ k f, fs[k]? = some f → ∀ i < f.2.length, s.img (512 * startOf fs k + i) = f.2.getD i 0

/-- One more file. -/
lemma Laid.snoc {base : Mem} {fs : List (CStr × List UInt8)} {s : Seed} (h : Laid base fs s)
    (f : CStr × List UInt8) (img : Mem) (hout : ∀ x < 512 * s.nextLba, img x = s.img x)
    (hin : ∀ i < f.2.length, img (512 * s.nextLba + i) = f.2.getD i 0) :
    Laid base (fs ++ [f])
      { img := img
        nextLba := s.nextLba + ceilSectors f.2.length
        entries := s.entries ++ [newEntry f.1 fsFile s.nextLba (u32 f.2.length)] } := by
  have hnext := h.next
  have hge : fsDataLba ≤ s.nextLba := hnext ▸ dataLba_le
  have hcases : ∀ k g, (fs ++ [f])[k]? = some g → fs[k]? = some g ∧ k < fs.length ∨
      k = fs.length ∧ g = f := by
    intro k g hg
    rcases Nat.lt_or_ge k fs.length with hk | hk
    · rw [List.getElem?_append_left hk] at hg
      exact Or.inl ⟨hg, hk⟩
    · rw [List.getElem?_append_right hk] at hg
      rcases Nat.eq_zero_or_pos (k - fs.length) with h0 | h0
      · rw [h0] at hg
        exact Or.inr ⟨by omega, (Option.some.inj hg).symm⟩
      · rw [List.getElem?_eq_none_iff.mpr (by rw [List.length_singleton]; exact h0)] at hg
        cases hg
  refine ⟨fun x hx => ?_, ?_, by simp [h.length], fun k g hg => ?_, fun k g hg i hi => ?_⟩
  · rw [← h.low x hx]
    exact hout x (by omega)
  · have hlast : (fs ++ [f])[fs.length]? = some f := by simp
    rw [List.length_append, List.length_singleton, startOf_succ hlast, startOf_append le_rfl, hnext]
  · rcases hcases k g hg with ⟨hg', hk⟩ | ⟨rfl, rfl⟩
    · dsimp only
      rw [List.getElem?_append_left (by rw [h.length]; exact hk), startOf_append hk.le]
      exact h.entries k g hg'
    · dsimp only
      rw [← h.length, List.getElem?_append_right le_rfl, h.length, startOf_append le_rfl, hnext]
      simp
  · rcases hcases k g hg with ⟨hg', hk⟩ | ⟨rfl, rfl⟩
    · dsimp only
      rw [startOf_append hk.le]
      have hend := startOf_end hg' hk
      rw [← hnext] at hend
      rw [hout _ (by unfold ceilSectors at hend; omega)]
      exact h.data k g hg' i hi
    · dsimp only
      rw [startOf_append le_rfl, ← hnext]
      exact hin i hi

/-! ### The loops -/

lemma progLoop_eq (img : Mem) (pos lba : ℕ) (data : List UInt8) :
    progLoop img pos lba data =
      (img.blit pos (512 * ceilSectors data.length) fun i => data.getD i 0,
        lba + ceilSectors data.length) := by
  induction img, pos, lba, data using progLoop.induct with
  | case1 img pos lba =>
    unfold progLoop
    rw [if_pos rfl]
    have h0 : ceilSectors ([] : List UInt8).length = 0 := rfl
    rw [h0, Nat.mul_zero, Mem.blit_zero, Nat.add_zero]
  | case2 img pos lba data hne ih =>
    unfold progLoop
    have hpos := List.length_pos_of_ne_nil hne
    have hc : ceilSectors data.length = ceilSectors (data.drop 512).length + 1 := by
      unfold ceilSectors
      rw [List.length_drop]
      omega
    rw [if_neg hne, ih, hc]
    refine Prod.ext ?_ (by dsimp only; omega)
    funext x
    dsimp only
    by_cases h1 : pos ≤ x ∧ x < pos + 512
    · rw [Mem.blit_of_out _ _ (by omega), Mem.blit_of_in _ _ h1.1 h1.2,
        Mem.blit_of_in _ _ h1.1 (by omega), List.getD_eq_getElem?_getD, List.getD_eq_getElem?_getD,
        List.getElem?_take_of_lt (by omega)]
    · by_cases h2 : pos + 512 ≤ x ∧ x < pos + 512 + 512 * ceilSectors (data.drop 512).length
      · rw [Mem.blit_of_in _ _ h2.1 h2.2, Mem.blit_of_in _ _ (by omega) (by omega),
          List.getD_eq_getElem?_getD, List.getD_eq_getElem?_getD, List.getElem?_drop,
          show 512 + (x - (pos + 512)) = x - pos by omega]
      · rw [Mem.blit_of_out _ _ (by omega), Mem.blit_of_out _ _ (by omega),
          Mem.blit_of_out _ _ (by omega)]

lemma Laid.addText {base : Mem} {fs : List (CStr × List UInt8)} {s : Seed} (h : Laid base fs s)
    (f : CStr × List UInt8) (hlen : f.2.length < 4294967296) :
    Laid base (fs ++ [f]) (addText s f) := by
  have hs := h.snoc f (fwriteAt s.img (s.nextLba * 512) f.2)
    (fun x hx => Mem.blit_of_out _ _ (by omega)) (fun i hi => by
      unfold fwriteAt
      rw [Mem.blit_of_in _ _ (by omega) (by omega), show 512 * s.nextLba + i - s.nextLba * 512 = i by
        omega])
  rw [u32_of_lt hlen] at hs
  exact hs

/-- A program file that is given to the tool. -/
structure Prog where
  path : CStr
  name : CStr
  data : List UInt8
  named : baseName path.bytes = progName name.bytes
  name_ne : name.bytes ≠ []
  name_lt : name.length < fsMaxName

/-- The file that the tool makes of a program. -/
def Prog.stored (a : Prog) : CStr × List UInt8 := (strOf (seedName (baseName a.path.bytes)), a.data)

/-- The argument. -/
def Prog.arg (a : Prog) : CStr × Option (List UInt8) := (a.path, some a.data)

/-- No offset of a program and no count of sectors overflows its `int`. -/
def Offsets (lba : ℕ) : List Prog → Prop
  | [] => True
  | a :: l => lba * 512 < 2147483648 ∧ lba + ceilSectors a.data.length < 2147483648 ∧
      Offsets (lba + ceilSectors a.data.length) l

lemma addProg_eq (s : Seed) (a : Prog) : addProg s a.path a.data =
    if s.nextLba * 512 < 2147483648 ∧ s.nextLba + ceilSectors a.data.length < 2147483648 then
      some
        { img := s.img.blit (s.nextLba * 512) (512 * ceilSectors a.data.length) fun i =>
            a.data.getD i 0
          nextLba := s.nextLba + ceilSectors a.data.length
          entries := s.entries ++
            [newEntry a.stored.1 fsFile s.nextLba (u32 a.data.length)] }
    else none := by
  unfold addProg
  rw [progLoop_eq]
  unfold ceilSectors
  by_cases h : s.nextLba * 512 < 2147483648 ∧ s.nextLba + (a.data.length + 511) / 512 < 2147483648
  · rw [if_pos h, if_neg (by omega)]
    rfl
  · rw [if_neg h, if_pos (by omega)]

/-- **The loop over the programs** ends unless an offset overflows, and then the programs are laid. -/
lemma addProgs_laid {base : Mem} {l : List Prog} {fs : List (CStr × List UInt8)} {s : Seed}
    (h : Laid base fs s) (hlen : fs.length + l.length ≤ 1024) (hnext : s.nextLba < 2147483648) :
    (Offsets s.nextLba l → ∃ s', addProgs s (l.map Prog.arg) = some s') ∧
      ∀ s', addProgs s (l.map Prog.arg) = some s' →
        Offsets s.nextLba l ∧ Laid base (fs ++ l.map Prog.stored) s' ∧
          s'.nextLba < 2147483648 := by
  induction l generalizing fs s with
  | nil =>
    refine ⟨fun _ => ⟨s, rfl⟩, fun s' e => ⟨trivial, ?_⟩⟩
    obtain rfl := Option.some.inj e
    rw [List.map_nil, List.append_nil]
    exact ⟨h, hnext⟩
  | cons a l ih =>
    rw [List.length_cons] at hlen
    have hroom : ¬ s.entries.length ≥ fsDirSectors * fsEntriesPerSector := by
      have : fsDirSectors * fsEntriesPerSector = 1024 := rfl
      rw [h.length]
      omega
    have hstep : addProgs s ((a :: l).map Prog.arg) =
        (addProg s a.path a.data).bind fun s => addProgs s (l.map Prog.arg) := by
      refine (if_neg hroom).trans ?_
      dsimp only
      cases addProg s a.path a.data <;> rfl
    rw [hstep, addProg_eq]
    unfold Offsets
    by_cases ho : s.nextLba * 512 < 2147483648 ∧ s.nextLba + ceilSectors a.data.length < 2147483648
    · rw [if_pos ho]
      have hs := h.snoc a.stored (s.img.blit (s.nextLba * 512)
        (512 * ceilSectors a.data.length) fun i => a.data.getD i 0)
        (fun x hx => Mem.blit_of_out _ _ (by omega)) (fun i hi => by
          have hi : i < a.data.length := hi
          rw [Mem.blit_of_in _ _ (by omega) (by unfold ceilSectors; omega),
            show 512 * s.nextLba + i - s.nextLba * 512 = i by omega]
          rfl)
      obtain ⟨h1, h2⟩ := ih hs (by rw [List.length_append, List.length_singleton]; omega) ho.2
      rw [List.append_assoc] at h2
      exact ⟨fun hoff => h1 hoff.2.2, fun s' e => by
        obtain ⟨h3, h4⟩ := h2 s' e
        exact ⟨⟨ho.1, ho.2, h3⟩, h4⟩⟩
    · rw [if_neg ho]
      exact ⟨fun hoff => absurd ⟨hoff.1, hoff.2.1⟩ ho, fun s' e => (by cases e)⟩

/-! ### The directory -/

lemma putDir_out (es : List FileEntry) (img : Mem) (k x : ℕ)
    (h : x < 32 * (16 * fsDirLba + k) ∨ 32 * (16 * fsDirLba + k + es.length) ≤ x) :
    putDir img k es x = img x := by
  induction es generalizing img k with
  | nil => rfl
  | cons e es ih =>
    rw [List.length_cons] at h
    unfold putDir
    rw [ih _ _ (by omega)]
    exact Mem.blit_of_out _ _ (by omega)

lemma putDir_entry {es : List FileEntry} (hes : ∀ e ∈ es, e.name.length = 23 ∧
    e.lba < 4294967296 ∧ e.size < 4294967296) (img : Mem) (k : ℕ) {i : ℕ} {e : FileEntry}
    (he : es[i]? = some e) : entryAt (putDir img k es) (16 * fsDirLba + (k + i)) = e := by
  induction es generalizing img k i with
  | nil => cases he
  | cons a es ih =>
    unfold putDir
    cases i with
    | zero =>
      obtain rfl := Option.some.inj he
      obtain ⟨h1, h2, h3⟩ := hes a List.mem_cons_self
      refine Eq.trans ?_ (entryAt_putEntry img (16 * fsDirLba + k) h1 h2 h3)
      exact entryAt_congr fun x hx hx' => putDir_out _ _ _ _ (Or.inl (by omega))
    | succ i =>
      have := ih (fun e he => hes e (List.mem_cons_of_mem _ he))
        (putEntry img (16 * fsDirLba + k) a) (k + 1) he
      rwa [show k + 1 + i = k + (i + 1) by omega] at this

/-- The superblock that the tool writes. -/
def seedSb : Superblock := ⟨fsDirLba, fsDirSectors, fsDataLba⟩

lemma entryAt_shift {m m' : Mem} {i j : ℕ} (h : ∀ c < 32, m (32 * i + c) = m' (32 * j + c)) :
    entryAt m i = entryAt m' j := by
  have hw : ∀ c, c + 4 ≤ 32 → m.ld32 (32 * i + c) = m'.ld32 (32 * j + c) := by
    intro c hc
    have h1 : m (32 * i + c + 1) = m' (32 * j + c + 1) := h (c + 1) (by omega)
    have h2 : m (32 * i + c + 2) = m' (32 * j + c + 2) := h (c + 2) (by omega)
    have h3 : m (32 * i + c + 3) = m' (32 * j + c + 3) := h (c + 3) (by omega)
    unfold Mem.ld32
    rw [h c (by omega), h1, h2, h3]
  unfold entryAt
  rw [h 23 (by omega), hw 24 (by omega), hw 28 (by omega)]
  congr 1
  exact List.map_congr_left fun c hc => h c ((List.mem_range.mp hc).trans (by decide))

lemma diskOf_mem (img : Mem) (lba : ℕ) {c : ℕ} (hc : c < 512) :
    ((diskOf img).sectors lba).mem c = img (512 * lba + c) :=
  Sector.ofMem_mem (fun i => img (512 * lba + i)) hc

lemma slotMem_diskOf (img : Mem) {k c : ℕ} (hk : k < 1024) (hc : c < 32) :
    slotMem seedSb (diskOf img) k (32 * (k % 16) + c) = img (32 * (16 * fsDirLba + k) + c) := by
  have hd : seedSb.dirLba = 200 := rfl
  have hd' : fsDirLba = 200 := rfl
  unfold slotMem
  rw [hd, hd', u32_of_lt (by omega), diskOf_mem _ _ (by omega)]
  congr 1
  omega

lemma entry_diskOf (img : Mem) {k : ℕ} (hk : k < 1024) :
    entry seedSb (diskOf img) k = entryAt img (16 * fsDirLba + k) :=
  entryAt_shift fun _ hc => slotMem_diskOf img hk hc

/-! ### The image -/

section Image

variable {base : Mem} {fs : List (CStr × List UInt8)} {s : Seed}

/-- What is known of the tool at its end: the files are laid, they fit the directory, no name is
longer than its field, and the sectors are counted without overflow. -/
structure Done (base : Mem) (fs : List (CStr × List UInt8)) (s : Seed) : Prop extends
    Laid base fs s where
  length_le : fs.length ≤ 1024
  nextLba_lt : s.nextLba < 2147483648
  names : ∀ f ∈ fs, f.1.length < fsMaxName

/-- The image at the end. -/
def Seed.image (s : Seed) : Mem := putDir s.img 0 s.entries

variable (h : Done base fs s) {k : ℕ} {f : CStr × List UInt8}

include h

lemma Done.end_le (hf : fs[k]? = some f) :
    startOf fs k + ceilSectors f.2.length ≤ s.nextLba := by
  obtain ⟨hk, -⟩ := List.getElem?_eq_some_iff.mp hf
  rw [h.next]
  exact startOf_end hf hk

lemma Done.entry_eq (hf : fs[k]? = some f) : entry seedSb (diskOf s.image) k =
    newEntry f.1 fsFile (startOf fs k) (u32 f.2.length) := by
  obtain ⟨hk, -⟩ := List.getElem?_eq_some_iff.mp hf
  have hle := h.length_le
  have hes : ∀ e ∈ s.entries, e.name.length = 23 ∧ e.lba < 4294967296 ∧ e.size < 4294967296 := by
    intro e he
    obtain ⟨i, hi⟩ := List.getElem?_of_mem he
    obtain ⟨hlt, -⟩ := List.getElem?_eq_some_iff.mp hi
    rw [h.length] at hlt
    have hg : fs[i]? = some fs[i] := List.getElem?_eq_getElem hlt
    rw [h.entries i _ hg] at hi
    obtain rfl := Option.some.inj hi
    have hend := h.end_le hg
    have hnext := h.nextLba_lt
    exact ⟨newEntry_name_length _ _ _ (h.names _ (List.getElem_mem hlt)),
      show startOf fs i < 4294967296 by omega, u32_lt _⟩
  rw [entry_diskOf _ (by omega)]
  have := putDir_entry hes s.img 0 (h.entries k f hf)
  rwa [Nat.zero_add] at this

lemma Done.low_image {x : ℕ} (hx : x < fsDataLba * 512)
    (hout : x < 512 * fsDirLba ∨ 512 * fsDirLba + 32 * fs.length ≤ x) : s.image x = base x := by
  unfold Seed.image
  rw [putDir_out _ _ _ _ (by rw [h.length]; omega)]
  exact h.low x hx

lemma Done.not_live (hbase : ∀ x, 512 * fsDirLba ≤ x → x < 512 * fsDirLba + 32768 → base x = 0)
    (hk : fs.length ≤ k) (hk' : k < 1024) : ¬ Live seedSb (diskOf s.image) k := by
  have hd : fsDirLba = 200 := rfl
  have hdata : fsDataLba = 300 := rfl
  have hm := slotMem_diskOf s.image hk' (show 0 < 32 by decide)
  unfold Live
  rw [Nat.add_zero] at hm
  rw [hm, Nat.add_zero, h.low_image (by omega) (Or.inr (by omega)), hbase _ (by omega) (by omega)]
  exact not_not.mpr rfl

lemma Done.live_iff (hf : fs[k]? = some f) : Live seedSb (diskOf s.image) k ↔ f.1.bytes ≠ [] := by
  rw [live_iff_name, h.entry_eq hf]
  exact newEntry_live _ _ _ (h.names f (List.mem_of_getElem? hf))

lemma Done.nameOf_eq (hf : fs[k]? = some f) : nameOf seedSb (diskOf s.image) k = f.1.bytes := by
  unfold nameOf
  rw [h.entry_eq hf]
  exact cstr_newEntry _ _ _ (h.names f (List.mem_of_getElem? hf))

lemma Done.term (hf : fs[k]? = some f) : 0 ∈ (entry seedSb (diskOf s.image) k).name := by
  rw [h.entry_eq hf]
  exact zero_mem_newEntry _ _ _ (h.names f (List.mem_of_getElem? hf))

/-- **The slots of a name** are those of its files. -/
lemma Done.named_iff (hbase : ∀ x, 512 * fsDirLba ≤ x → x < 512 * fsDirLba + 32768 → base x = 0)
    (hk : k < 1024) (p : CStr) : Named seedSb (diskOf s.image) p k ↔
      ∃ f, fs[k]? = some f ∧ f.1.bytes ≠ [] ∧ f.1 = p := by
  cases hf : fs[k]? with
  | none =>
    refine ⟨fun hn => absurd hn.1 (h.not_live hbase (List.getElem?_eq_none_iff.mp hf) hk), ?_⟩
    rintro ⟨f, e, -⟩
    cases e
  | some f =>
    rw [named_iff_of_term fun _ => h.term hf, h.live_iff hf, h.nameOf_eq hf]
    constructor
    · exact fun ⟨h1, h2⟩ => ⟨f, rfl, h1, CStr.ext h2⟩
    · rintro ⟨g, e, h1, h2⟩
      obtain rfl := Option.some.inj e
      exact ⟨h1, congrArg CStr.bytes h2⟩

/-- The bytes of a file are on the disk. -/
lemma Done.fileByte_eq (hf : fs[k]? = some f) {i : ℕ} (hi : i < f.2.length) :
    fileByte (diskOf s.image) (startOf fs k) i = f.2.getD i 0 := by
  have hd : fsDirLba = 200 := rfl
  have hdata : fsDataLba = 300 := rfl
  have hend := h.end_le hf
  have hnext := h.nextLba_lt
  have hlow : fsDataLba ≤ startOf fs k := dataLba_le
  have hle := h.length_le
  unfold ceilSectors at hend
  rw [← h.data k f hf i hi]
  unfold fileByte
  rw [u32_of_lt (by omega), diskOf_mem _ _ (Nat.mod_lt _ (by omega)),
    show 512 * (startOf fs k + i / 512) + i % 512 = 512 * startOf fs k + i by omega]
  exact putDir_out _ _ _ _ (Or.inr (by rw [h.length]; omega))

end Image

/-! ### The whole run -/

section Run

variable (f : Mem)

/-- The first four files. -/
def firstFiles : Seed := builtins.foldl addText ⟨emptyImage f, fsDataLba, []⟩

omit f in
lemma builtins_lengths : builtins.map (fun b => b.2.length) = [22, 23, 626, 413] := by
  have h1 : text1.length = 22 := by decide +kernel
  have h2 : text2.length = 23 := by decide +kernel
  have h3 : text3.length = 626 := by decide +kernel
  have h4 : text4.length = 413 := by decide +kernel
  unfold builtins
  rw [List.map_cons, List.map_cons, List.map_cons, List.map_cons, List.map_nil, h1, h2, h3, h4]

lemma laid_firstFiles : Laid (emptyImage f) builtins (firstFiles f) := by
  have h0 : Laid (emptyImage f) [] ⟨emptyImage f, fsDataLba, []⟩ :=
    ⟨fun _ _ => rfl, rfl, rfl, fun _ _ e => (by cases e), fun _ _ e => (by cases e)⟩
  have h1 : ∀ b ∈ builtins, b.2.length < 4294967296 := by
    intro b hb
    have hm : b.2.length ∈ builtins.map fun b => b.2.length := List.mem_map_of_mem hb
    rw [builtins_lengths] at hm
    generalize b.2.length = n at hm
    simp only [List.mem_cons, List.not_mem_nil, or_false] at hm
    omega
  have hall : ∀ l, (∀ b ∈ l, b.2.length < 4294967296) → ∀ fs s, Laid (emptyImage f) fs s →
      Laid (emptyImage f) (fs ++ l) (l.foldl addText s) := by
    intro l
    induction l with
    | nil => exact fun _ fs s h => by rwa [List.append_nil]
    | cons b l ih =>
      intro hl fs s h
      have := ih (fun b hb => hl b (List.mem_cons_of_mem _ hb)) _ _
        (h.addText b (hl b List.mem_cons_self))
      rwa [List.append_assoc] at this
  exact hall builtins h1 [] _ h0

omit f in
/-- Where the next file goes depends on the lengths alone. -/
lemma startOf_lengths (fs : List (CStr × List UInt8)) :
    startOf fs fs.length = fsDataLba + ((fs.map fun b => b.2.length).map ceilSectors).sum := by
  unfold startOf
  rw [List.take_length, List.map_map]
  rfl

lemma nextLba_firstFiles : (firstFiles f).nextLba = 305 := by
  rw [(laid_firstFiles f).next, startOf_lengths, builtins_lengths]
  rfl

lemma superBytes_length : superBytes.length = 20 := by decide

/-- The directory is empty before the entries are written. -/
lemma emptyImage_dir (x : ℕ) (h : 512 * fsDirLba ≤ x) (h' : x < 512 * fsDirLba + 32768) :
    emptyImage f x = 0 := by
  have h1 : fsSuperLba * 512 + 20 ≤ x := le_trans (by decide) h
  have h2 : fsDirLba * 512 ≤ x := le_trans (by decide) h
  have h3 : x < fsDirLba * 512 + fsDirSectors * 512 := lt_of_lt_of_le h' (by decide)
  unfold emptyImage fwriteAt
  rw [superBytes_length, Mem.blit_of_out _ _ (Or.inr h1), Mem.blit_of_in _ _ h2 h3]

lemma emptyImage_super {c : ℕ} (h : c < 20) :
    emptyImage f (512 * fsSuperLba + c) = superBytes.getD c 0 := by
  have h1 : fsSuperLba * 512 ≤ 512 * fsSuperLba + c := by omega
  have h2 : 512 * fsSuperLba + c < fsSuperLba * 512 + 20 := by omega
  have h3 : 512 * fsSuperLba + c - fsSuperLba * 512 = c := by omega
  unfold emptyImage fwriteAt
  rw [superBytes_length, Mem.blit_of_in _ _ h1 h2, h3]

lemma strOf_good {p : CStr} (h : Good p.bytes) : strOf (seedName (progName p.bytes)) = p := by
  rw [seedName_good h]
  exact CStr.ext (cstr_bytes p)

lemma good_strOf (p : List UInt8) : Good (strOf (seedName (progName p))).bytes := by
  have hq := good_seedName p
  generalize seedName (progName p) = q at hq
  have hpre : cstr q <+: q := List.takeWhile_prefix _
  show Good (cstr q)
  have hle := hpre.length_le
  rcases hq with hq | ⟨hq, hdot⟩
  · exact Or.inl (by omega)
  · rcases Nat.lt_or_ge (cstr q).length 17 with hl | hl
    · exact Or.inl (by omega)
    · exact Or.inr ⟨by omega, fun hm => hdot (hpre.subset hm)⟩

lemma Good.lt {p : List UInt8} (h : Good p) : p.length < fsMaxName := by
  have : fsMaxName = 23 := rfl
  rcases h with h | ⟨h, -⟩ <;> omega

lemma Prog.stored_eq (a : Prog) : a.stored = (strOf (seedName (progName a.name.bytes)), a.data) := by
  unfold Prog.stored
  rw [a.named]

/-- What the tool has done when it ends. -/
lemma main_done {l : List Prog} (hlen : l.length ≤ 1020) :
    (Offsets 305 l → ∃ img, seederMain f (l.map Prog.arg) = some img) ∧
      ∀ img, seederMain f (l.map Prog.arg) = some img → Offsets 305 l ∧
        ∃ s, Done (emptyImage f) (builtins ++ l.map Prog.stored) s ∧ img = s.image := by
  have hb : builtins.length = 4 := rfl
  obtain ⟨h1, h2⟩ := addProgs_laid (l := l) (laid_firstFiles f) (by omega)
    (by rw [nextLba_firstFiles]; omega)
  rw [nextLba_firstFiles] at h1 h2
  have hmain : seederMain f (l.map Prog.arg) =
      (addProgs (firstFiles f) (l.map Prog.arg)).map Seed.image := rfl
  rw [hmain]
  refine ⟨fun ho => ?_, fun img himg => ?_⟩
  · obtain ⟨s, hs⟩ := h1 ho
    exact ⟨s.image, by rw [hs]; rfl⟩
  · obtain ⟨s, hs, rfl⟩ := Option.map_eq_some_iff.mp himg
    obtain ⟨ho, hl, hn⟩ := h2 s hs
    refine ⟨ho, s, { toLaid := hl, length_le := ?_, nextLba_lt := hn, names := fun g hg => ?_ }, rfl⟩
    · rw [List.length_append, List.length_map]
      omega
    · rcases List.mem_append.mp hg with hg | hg
      · have : ∀ b ∈ builtins, b.1.length < fsMaxName := by decide +kernel
        exact this g hg
      · obtain ⟨a, -, rfl⟩ := List.mem_map.mp hg
        rw [Prog.stored_eq]
        exact (good_strOf a.name.bytes).lt

end Run

/-! ### What the kernel reads -/

/-- **What is wanted of the image**: the kernel mounts it, its directory is well formed, and every
program is read back. -/
structure Seeded (l : List Prog) (img : Mem) : Prop where
  mounted : (fsMount (diskOf img)).1 = some seedSb
  dirOk : DirOk ceilSectors seedSb (diskOf img)
  read : ∀ a ∈ l, ∀ buf max, a.data.length ≤ max → fsRead seedSb a.name buf max (diskOf img) =
    ((a.data.length : ℤ), buf.blit 0 a.data.length fun i => a.data.getD i 0, diskOf img)

/-- The programs that the tool gets right. -/
structure Seedable (l : List Prog) : Prop where
  good : ∀ a ∈ l, Good a.name.bytes
  size : ∀ a ∈ l, a.data.length < 2147483648
  offsets : Offsets 305 l

section Kernel

variable {f : Mem} {l : List Prog} {s : Seed}

lemma diskOf_working (img : Mem) : (diskOf img).Working := rfl

/-- The files under their names, when the names come out. -/
lemma names_nodup (hdistinct : (l.map Prog.name).Nodup)
    (hbuiltin : ∀ a ∈ l, ∀ b ∈ builtins, a.name ≠ b.1) (hgood : ∀ a ∈ l, Good a.name.bytes) :
    ((builtins ++ l.map Prog.stored).map Prod.fst).Nodup := by
  have hst : (l.map Prog.stored).map Prod.fst = l.map Prog.name := by
    rw [List.map_map]
    refine List.map_congr_left fun a ha => ?_
    rw [Function.comp_apply, Prog.stored_eq]
    exact strOf_good (hgood a ha)
  rw [List.map_append, hst, List.nodup_append]
  refine ⟨by decide +kernel, hdistinct, fun n hn m hm e => ?_⟩
  obtain ⟨b, hb, rfl⟩ := List.mem_map.mp hn
  obtain ⟨a, ha, rfl⟩ := List.mem_map.mp hm
  exact hbuiltin a ha b hb e.symm

lemma mounted (h : Done (emptyImage f) (builtins ++ l.map Prog.stored) s) :
    (fsMount (diskOf s.image)).1 = some seedSb := by
  have hsec : ∀ c < 20, ((diskOf s.image).sectors fsSuperLba).mem c = superBytes.getD c 0 := by
    intro c hc
    have hlow : 512 * fsSuperLba + c < fsDataLba * 512 := lt_of_lt_of_le
      (Nat.add_lt_add_left hc _) (by decide)
    have hdir : 512 * fsSuperLba + c < 512 * fsDirLba := lt_of_lt_of_le
      (Nat.add_lt_add_left hc _) (by decide)
    have := h.low_image hlow (Or.inl hdir)
    rw [emptyImage_super f hc] at this
    rw [← this]
    exact diskOf_mem s.image fsSuperLba (hc.trans (by decide))
  unfold fsMount
  rw [(diskOf_working s.image).read]
  generalize ((diskOf s.image).sectors fsSuperLba).mem = sec at hsec
  have hmap : (List.range 20).map sec = (List.range 20).map fun c => superBytes.getD c 0 :=
    List.map_congr_left fun c hc => hsec c (List.mem_range.mp hc)
  have hld : ∀ a, a + 4 ≤ 20 → sec.ld32 a = Mem.ld32 (fun c => superBytes.getD c 0) a := fun a ha =>
    Mem.ld32_congr fun c _ hc => hsec c (by omega)
  have h8 : Mem.ld32 (fun c => superBytes.getD c 0) 8 = fsDirLba := by decide +kernel
  have h12 : Mem.ld32 (fun c => superBytes.getD c 0) 12 = fsDirSectors := by decide +kernel
  have h16 : Mem.ld32 (fun c => superBytes.getD c 0) 16 = fsDataLba := by decide +kernel
  have hmagic : cstr ((List.range 20).map fun c => superBytes.getD c 0) = fsMagic := by
    decide +kernel
  dsimp only
  rw [hmap, hld 8 (by omega), hld 12 (by omega), hld 16 (by omega), hmagic, h8, h12, h16,
    if_neg (not_not.mpr rfl)]
  rfl

/-- **The directory is well formed** when all names come out and no size overflows. -/
lemma Done.dirOk (h : Done (emptyImage f) (builtins ++ l.map Prog.stored) s)
    (hdistinct : (l.map Prog.name).Nodup) (hbuiltin : ∀ a ∈ l, ∀ b ∈ builtins, a.name ≠ b.1)
    (hgood : ∀ a ∈ l, Good a.name.bytes) :
    DirOk ceilSectors seedSb (diskOf s.image) := by
  have hcount : slotCount seedSb = 1024 := rfl
  have hnodup := names_nodup hdistinct hbuiltin hgood
  generalize builtins ++ l.map Prog.stored = fs at h hnodup
  have hget : ∀ k < slotCount seedSb, Live seedSb (diskOf s.image) k → ∃ g, fs[k]? = some g := by
    intro k hk hl
    cases hg : fs[k]? with
    | some g => exact ⟨g, rfl⟩
    | none =>
      exact absurd hl (h.not_live (emptyImage_dir f) (List.getElem?_eq_none_iff.mp hg)
        (by omega))
  have hceil : ∀ n, ceilSectors (u32 n) ≤ ceilSectors n := fun n =>
    Nat.div_le_div_right (Nat.add_le_add_right (u32_le n) _)
  have hbelow : ∀ j k g g', fs[j]? = some g → fs[k]? = some g' → j < k →
      startOf fs j + ceilSectors (u32 g.2.length) ≤ startOf fs k := by
    intro j k g g' hj _ hjk
    have := startOf_end hj hjk
    have := hceil g.2.length
    omega
  refine ⟨fun k hk hl => ?_, fun j hj k hk lj lk e => ?_, fun k hk hl _ => ?_,
    fun j hj k hk lj lk hne => ?_⟩
  · obtain ⟨g, hg⟩ := hget k hk hl
    exact h.term hg
  · obtain ⟨g, hg⟩ := hget j hj lj
    obtain ⟨g', hg'⟩ := hget k hk lk
    rw [h.nameOf_eq hg, h.nameOf_eq hg'] at e
    have hj' : (fs.map Prod.fst)[j]? = some g.1 := by rw [List.getElem?_map, hg]; rfl
    have hk' : (fs.map Prod.fst)[k]? = some g'.1 := by rw [List.getElem?_map, hg']; rfl
    have hlt := (List.getElem?_eq_some_iff.mp hj').1
    exact (List.getElem?_inj hlt hnodup).mp (hj'.trans ((congrArg some (CStr.ext e)).trans hk'.symm))
  · obtain ⟨g, hg⟩ := hget k hk hl
    rw [h.entry_eq hg]
    exact dataLba_le
  · obtain ⟨g, hg⟩ := hget j hj lj
    obtain ⟨g', hg'⟩ := hget k hk lk
    unfold extentOf
    rw [h.entry_eq hg, h.entry_eq hg', disjoint_extent]
    rcases Nat.lt_or_gt_of_ne hne with hlt | hlt
    · exact Or.inr (Or.inr (Or.inl (hbelow j k g g' hg hg' hlt)))
    · exact Or.inr (Or.inr (Or.inr (hbelow k j g' g hg' hg hlt)))

/-- A program whose name comes out and whose size does not overflow is read back. -/
lemma Done.read (h : Done (emptyImage f) (builtins ++ l.map Prog.stored) s)
    (hdir : DirOk ceilSectors seedSb (diskOf s.image)) {a : Prog} (ha : a ∈ l)
    (hgood : Good a.name.bytes) (hsize : a.data.length < 2147483648) (buf : Mem) (max : ℕ)
    (hmax : a.data.length ≤ max) : fsRead seedSb a.name buf max (diskOf s.image) =
      ((a.data.length : ℤ), buf.blit 0 a.data.length fun i => a.data.getD i 0, diskOf s.image) := by
  have hmem : (a.name, a.data) ∈ builtins ++ l.map Prog.stored := by
    refine List.mem_append.mpr (Or.inr (List.mem_map.mpr ⟨a, ha, ?_⟩))
    rw [Prog.stored_eq, strOf_good hgood]
  generalize builtins ++ l.map Prog.stored = fs at h hmem
  obtain ⟨k, hk⟩ := List.getElem?_of_mem hmem
  have hlt : k < 1024 := (List.getElem?_eq_some_iff.mp hk).1.trans_le h.length_le
  have hnamed : Named seedSb (diskOf s.image) a.name k :=
    (h.named_iff (emptyImage_dir f) hlt a.name).mpr ⟨_, hk, a.name_ne, rfl⟩
  rw [fsRead_working (diskOf_working _), (hdir.slotOf_eq hlt).mpr hnamed]
  dsimp only
  rw [h.entry_eq hk]
  have hu : u32 a.data.length = a.data.length := u32_of_lt (by omega)
  unfold newEntry
  dsimp only
  rw [hu, if_pos hmax, i32_of_lt hsize]
  congr 2
  exact Mem.blit_congr _ fun i hi => h.fileByte_eq hk hi

/-- The kernel's answer is at most `2^31 - 1`, and it is -1 where no slot has the name. -/
lemma fsRead_lt {sb : Superblock} {d : Disk} (hw : d.Working) (name : CStr) (buf : Mem) (max : ℕ) :
    (fsRead sb name buf max d).1 < 2147483648 ∧
      (slotOf sb d name = none → (fsRead sb name buf max d).1 = -1) := by
  rw [fsRead_working hw]
  cases slotOf sb d name with
  | none => exact ⟨by dsimp only; omega, fun _ => rfl⟩
  | some k =>
    refine ⟨?_, fun e => by cases e⟩
    dsimp only
    split_ifs
    · show i32 _ < _
      unfold i32
      omega
    · show (-1 : ℤ) < _
      omega

/-- A program that is read back has a name that comes out: no slot has any other. -/
lemma Done.good_of_read (h : Done (emptyImage f) (builtins ++ l.map Prog.stored) s) {a : Prog}
    (hbuiltin : ∀ b ∈ builtins, a.name ≠ b.1)
    (hread : (fsRead seedSb a.name (fun _ => 0) a.data.length (diskOf s.image)).1 = a.data.length) :
    Good a.name.bytes := by
  by_contra hbad
  have hnone : slotOf seedSb (diskOf s.image) a.name = none := by
    rw [slotOf_eq_none_iff]
    intro k hk hn
    obtain ⟨g, hg, -, hga⟩ := (h.named_iff (emptyImage_dir f) hk a.name).mp hn
    rcases List.mem_append.mp (List.mem_of_getElem? hg) with hb | hb
    · exact hbuiltin g hb hga.symm
    · obtain ⟨b, -, rfl⟩ := List.mem_map.mp hb
      rw [Prog.stored_eq] at hga
      exact hbad (hga ▸ good_strOf b.name.bytes)
  have := (fsRead_lt (diskOf_working s.image) a.name (fun _ => 0) a.data.length).2 hnone
  rw [hread] at this
  omega

/-- **When the tool does its job**: for every list of distinct programs that fits the directory, the
image is what is wanted just when every name has at most 16 characters, or 17 without a dot, no size
reaches `2^31` and no offset overflows its `int`. -/
theorem seed_iff (f : Mem) {l : List Prog} (hlen : l.length ≤ 1020)
    (hdistinct : (l.map Prog.name).Nodup) (hbuiltin : ∀ a ∈ l, ∀ b ∈ builtins, a.name ≠ b.1) :
    (∃ img, seederMain f (l.map Prog.arg) = some img ∧ Seeded l img) ↔ Seedable l := by
  obtain ⟨hrun, hdone⟩ := main_done f hlen
  constructor
  · rintro ⟨img, himg, hs⟩
    obtain ⟨ho, s, h, rfl⟩ := hdone img himg
    have hval : ∀ a ∈ l, (fsRead seedSb a.name (fun _ => 0) a.data.length (diskOf s.image)).1 =
        a.data.length := fun a ha => congrArg Prod.fst (hs.read a ha _ _ le_rfl)
    refine ⟨fun a ha => h.good_of_read (hbuiltin a ha) (hval a ha), fun a ha => ?_, ho⟩
    have := (@fsRead_lt seedSb _ (diskOf_working s.image) a.name (fun _ => 0) a.data.length).1
    rw [hval a ha] at this
    omega
  · rintro ⟨hgood, hsize, ho⟩
    obtain ⟨img, himg⟩ := hrun ho
    obtain ⟨-, s, h, rfl⟩ := hdone img himg
    have hdir := h.dirOk hdistinct hbuiltin hgood
    exact ⟨s.image, himg, mounted h, hdir, fun a ha buf max hmax =>
      h.read hdir ha (hgood a ha) (hsize a ha) buf max hmax⟩

/-- A program `p`, of 600 bytes, in a directory `bin`. -/
def progP : Prog where
  path := ⟨ascii "bin/prog_p.bin", by decide⟩
  name := ⟨ascii "p", by decide⟩
  data := List.replicate 600 7
  named := by decide
  name_ne := by decide
  name_lt := by decide

theorem seed_iff_progP : (∃ img, seederMain (fun _ => 0) ([progP].map Prog.arg) = some img ∧
    Seeded [progP] img) ↔ Seedable [progP] :=
  seed_iff (fun _ => 0) (by decide) (by decide) (by decide +kernel)

/-- A program whose name has 18 letters. -/
def progLong : Prog where
  path := ⟨ascii "bin/prog_abcdefghijklmnopqr.bin", by decide⟩
  name := ⟨ascii "abcdefghijklmnopqr", by decide⟩
  data := []
  named := by decide
  name_ne := by decide
  name_lt := by decide

/-- A name of 18 letters loses its last one. -/
theorem long_name_cut : ¬ ∀ (f : Mem) (l : List Prog), l.length ≤ 1020 → (l.map Prog.name).Nodup →
    (∀ a ∈ l, ∀ b ∈ builtins, a.name ≠ b.1) →
    ∃ img, seederMain f (l.map Prog.arg) = some img ∧ Seeded l img := by
  intro h
  have hb : ∀ a ∈ [progLong], ∀ b ∈ builtins, a.name ≠ b.1 := by decide +kernel
  obtain ⟨img, himg, hs⟩ := h (fun _ => 0) [progLong] (by decide) (by decide) hb
  obtain ⟨-, hdone⟩ := main_done (fun _ => 0) (l := [progLong]) (by decide)
  obtain ⟨-, s, hd, rfl⟩ := hdone img himg
  have hmem : progLong ∈ [progLong] := List.mem_singleton_self _
  have hbad : ¬ Good progLong.name.bytes := by decide
  exact hbad (hd.good_of_read (hb _ hmem) (congrArg Prod.fst (hs.read _ hmem _ _ le_rfl)))

end Kernel

end LunariaOS.Seeder
