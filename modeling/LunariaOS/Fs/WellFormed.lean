import LunariaOS.Fs.Fits

/-!
The directory stays well formed in every run.

The code's own count of sectors and the exact one agree on a directory without huge files, so
`Sound` there is well-formedness in the exact count, and the rule for calls carries it through a
run.
-/

namespace LunariaOS.Fs

open LunariaOS.Lib

variable {sb : Superblock} {d : Disk}

lemma ceilSectors_eq {size : ℕ} (h : size ≤ 4294966784) : sectorsOf size = ceilSectors size :=
  sectorsOf_eq h

/-- Well-formedness depends only on the sector counts of the files that are there. -/
lemma DirOk.congr {cnt cnt' : ℕ → ℕ} (h : DirOk cnt sb d)
    (he : ∀ k < slotCount sb, Live sb d k → cnt (entry sb d k).size = cnt' (entry sb d k).size) :
    DirOk cnt' sb d := by
  refine ⟨h.term, h.uniq, fun k hk hl hpos => ?_, fun j hj k hk lj lk hjk => ?_⟩
  · exact h.above k hk hl (by rw [he k hk hl]; exact hpos)
  · unfold extentOf
    rw [← he j hj lj, ← he k hk lk]
    exact h.disj j hj k hk lj lk hjk

/-- A well-formed file system on a working disk: the directory and the data lie where the
superblock says, and no file is so long that its sector count or its last sector number wraps
around. -/
structure WellFormed (sb : Superblock) (d : Disk) : Prop where
  working : d.Working
  layout : Layout sb
  dirOk : DirOk ceilSectors sb d
  sizes : SizesOk sb d
  ends : EndsBy ceilSectors sb d 4294967295

theorem WellFormed.sound (h : WellFormed sb d) : Sound sb d where
  working := h.working
  dirOk := h.dirOk.congr fun k hk hl => (ceilSectors_eq (h.sizes k hk hl)).symm
  ends := fun k hk hl => by
    rw [ceilSectors_eq (h.sizes k hk hl)]
    exact h.ends k hk hl

theorem Sound.wellFormed (h : Sound sb d) (hL : Layout sb) (hz : SizesOk sb d) :
    WellFormed sb d where
  working := h.working
  layout := hL
  dirOk := h.dirOk.congr fun k hk hl => ceilSectors_eq (hz k hk hl)
  sizes := hz
  ends := fun k hk hl => by
    rw [← ceilSectors_eq (hz k hk hl)]
    exact h.ends k hk hl

/-- One call keeps the file system well formed. -/
theorem step_wellFormed {s : State} {c : Call} (hs : WellFormed s.sb s.disk) (hfit : c.Fits s) :
    WellFormed (s.step c).sb (s.step c).disk := by
  rw [step_sb s hs.working]
  have hS : Upward Set.univ := fun _ _ _ _ => trivial
  obtain ⟨hd, hz⟩ := step_rule hs.layout hS (P := SizesOk s.sb)
    (fun _ hsize _ hz hwr => hwr.sizesOk hz hsize) (fun _ _ hz _ hdel => hdel.sizesOk hz) rfl
    (fun _ _ => trivial) hfit hs.sound hs.sizes
  exact hd.wellFormed hs.layout hz

/-- Well-formedness is an invariant of the calls that fit. -/
theorem run_wellFormed {s : State} (hs : WellFormed s.sb s.disk) {l : List Call}
    (hl : Along State.step (fun s c => c.Fits s) s l) :
    WellFormed (run State.step s l).sb (run State.step s l).disk :=
  run_inv (P := fun s => WellFormed s.sb s.disk) (fun _ _ => step_wellFormed) hs hl

lemma run_sb {s : State} (hs : WellFormed s.sb s.disk) {l : List Call}
    (hl : Along State.step (fun s c => c.Fits s) s l) : (run State.step s l).sb = s.sb := by
  induction l generalizing s with
  | nil => rfl
  | cons c l ih => exact (ih (step_wellFormed hs hl.1) hl.2).trans (step_sb s hs.working c)

/-! ### The empty file system -/

/-- A disk that holds nothing but zeros, under a directory of one sector. -/
def blank : State where
  sb := { dirLba := 1, dirSectors := 1, dataLba := 2 }
  disk := { sectors := fun _ _ => 0, fault := fun _ => false }
  handles := fun _ => Handle.zero
  wbuf := fun _ => 0

/-- The path `d`. -/
def pathD : CStr := ⟨[100], by decide⟩

/-- The path `f`. -/
def pathF : CStr := ⟨[102], by decide⟩

/-- The path `d/f`. -/
def pathDF : CStr := ⟨[100, 47, 102], by decide⟩

/-- The path `f/x`. -/
def pathFX : CStr := ⟨[102, 47, 120], by decide⟩

lemma blank_not_live (k : ℕ) : ¬ Live blank.sb blank.disk k := by
  unfold Live slotMem Sector.mem blank
  simp

theorem blank_wellFormed : WellFormed blank.sb blank.disk where
  working := rfl
  layout := ⟨by decide, by decide⟩
  dirOk :=
    ⟨fun k _ h => absurd h (blank_not_live k), fun j _ _ _ h => absurd h (blank_not_live j),
      fun k _ h => absurd h (blank_not_live k), fun j _ _ _ h => absurd h (blank_not_live j)⟩
  sizes := fun k _ h => absurd h (blank_not_live k)
  ends := fun k _ h => absurd h (blank_not_live k)

/-- A run of small calls from the empty file system fits. -/
lemma blank_fits {l : List Call} (hl : Along State.step (fun s c => c.Small s) blank l)
    (hlen : l.length ≤ 19000000) : Along State.step (fun s c => c.Fits s) blank l :=
  along_fits blank_wellFormed.layout le_rfl blank_wellFormed.sound
    (fun k _ h => absurd h (blank_not_live k)) hl (by
      have : blank.sb.dataLba = 2 := rfl
      omega)

/-! ### Every run -/

/-- **The directory stays well formed in every run**: from a well-formed directory whose files lie
below the sector number `2^32 - 1` and are at most `2^32 - 512` bytes long, every sequence of calls
that stay below these bounds leaves names that end inside their field and differ from each other,
and files that lie in the data area and do not overlap. -/
theorem run_dirOk {s : State} (hL : Layout s.sb) (hw : s.disk.Working)
    (hd : DirOk ceilSectors s.sb s.disk) (hz : SizesOk s.sb s.disk)
    (he : EndsBy ceilSectors s.sb s.disk 4294967295) {l : List Call}
    (hl : Along State.step (fun s c => c.Fits s) s l) :
    DirOk ceilSectors s.sb (run State.step s l).disk := by
  have hs : WellFormed s.sb s.disk := ⟨hw, hL, hd, hz, he⟩
  rw [← run_sb hs hl]
  exact (run_wellFormed hs hl).dirOk

theorem run_dirOk_blank :
    DirOk ceilSectors blank.sb (run State.step blank
      [.mkdir pathD, .write pathF fsFile (fun _ => 7) 700, .openFd pathF fsORdwr,
        .writeFd 3 (fun _ => 9) 1000, .close 3, .delete pathD]).disk :=
  run_dirOk blank_wellFormed.layout blank_wellFormed.working blank_wellFormed.dirOk
    blank_wellFormed.sizes blank_wellFormed.ends (blank_fits (by decide +kernel) (by decide))

end LunariaOS.Fs
