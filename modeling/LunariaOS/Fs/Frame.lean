import LunariaOS.Fs.Refine

/-!
Which files a write leaves alone.

A write under `name` rewrites, besides its own entry, the directories above it that take a line, and
stores each of them as a directory whatever it was before. So it keeps every other regular file
exactly when none of these is a regular file.
-/

namespace LunariaOS.Fs

open LunariaOS.Lib

variable {sb : Superblock} {d : Disk}

/-- The files lie among the `2^28` sectors that the disk driver can address. -/
structure Addressed (sb : Superblock) (d : Disk) : Prop where
  data_le : sb.dataLba ≤ 268435456
  ends : EndsBy ceilSectors sb d 268435456

/-- Every regular file other than `name` keeps its type, its size and its contents. -/
def KeepsFiles (sb : Superblock) (d d' : Disk) (name : CStr) : Prop :=
  ∀ n k, n ≠ name → slotOf sb d n = some k → (entry sb d k).type = fsFile →
    ∃ k', slotOf sb d' n = some k' ∧ (entry sb d' k').type = fsFile ∧
      (entry sb d' k').size = (entry sb d k).size ∧
      ∀ i < (entry sb d k).size,
        fileByte d' (entry sb d' k').lba i = fileByte d (entry sb d k).lba i

/-- In a directory without huge files, keeping the files is keeping them in the map. -/
lemma keepsFiles_iff {d' : Disk} (hz : SizesOk sb d) (name : CStr) :
    KeepsFiles sb d d' name ↔
      ∀ n f, n ≠ name → view sb d n = some f → f.type = fsFile → view sb d' n = some f := by
  have hview : ∀ {d : Disk} {n : CStr} {f : File},
      view sb d n = some f ↔ ∃ k, slotOf sb d n = some k ∧ fileAt sb d k = f := by
    intro d n f
    unfold view
    rw [Option.map_eq_some_iff]
  have hfile : ∀ {k k'}, (entry sb d k).size ≤ 4294966784 →
      (fileAt sb d' k' = fileAt sb d k ↔ (entry sb d' k').type = (entry sb d k).type ∧
        (entry sb d' k').size = (entry sb d k).size ∧
        ∀ i < (entry sb d k).size,
          fileByte d' (entry sb d' k').lba i = fileByte d (entry sb d k).lba i) := by
    intro k k' hs
    have hc : ∀ i < (entry sb d k).size, i / 512 < sectorsOf (entry sb d k).size := by
      intro i hi
      rw [sectorsOf_eq hs]
      omega
    unfold fileAt
    rw [File.mk.injEq]
    refine and_congr_right fun _ => ?_
    constructor
    · intro e
      have hlen : (entry sb d' k').size = (entry sb d k).size := by
        simpa using congrArg List.length e
      rw [hlen] at e
      refine ⟨hlen, fun i hi => ?_⟩
      have := List.map_inj_left.mp e i (List.mem_range.mpr hi)
      rwa [if_pos (hc i hi), if_pos (hc i hi)] at this
    · rintro ⟨hlen, hb⟩
      rw [hlen]
      refine List.map_congr_left fun i hi => ?_
      rw [hb i (List.mem_range.mp hi)]
  have hsize : ∀ {n k}, slotOf sb d n = some k → (entry sb d k).size ≤ 4294966784 := by
    intro n k hk
    obtain ⟨hlt, hn⟩ := slotOf_some hk
    exact hz k hlt hn.1
  constructor
  · intro h n f hn hf ht
    obtain ⟨k, hk, rfl⟩ := hview.mp hf
    obtain ⟨k', hk', ht', hs, hb⟩ := h n k hn hk ht
    exact hview.mpr ⟨k', hk', (hfile (hsize hk)).mpr ⟨ht'.trans ht.symm, hs, hb⟩⟩
  · intro h n k hn hk ht
    obtain ⟨k', hk', e⟩ := hview.mp (h n _ hn (hview.mpr ⟨k, hk, rfl⟩) ht)
    obtain ⟨ht', hs, hb⟩ := (hfile (hsize hk)).mp e
    exact ⟨k', hk', ht'.trans ht, hs, hb⟩

/-- On a disk that the driver can address no write runs out of sector numbers. -/
lemma Addressed.fits (ha : Addressed sb d) (h : WellFormed sb d) (name : CStr) (type : UInt8)
    (data : Mem) {size : ℕ} (hs : size < 4294967296) : WriteFits sb name type data size d := by
  have hcnt := sectorsOf_le size
  refine (fsWrite_room h.layout ha.data_le h.sound (fun k hk hl => ?_) name type data hs
    (by omega)).1
  rw [ceilSectors_eq (h.sizes k hk hl)]
  exact ha.ends k hk hl

/-- **When a write keeps every other regular file**: exactly when it fails before it stores
anything, or none of the directories above `name` that take a line is a regular file. -/
theorem fsWrite_keepsFiles_iff (h : WellFormed sb d) (ha : Addressed sb d) (name : CStr)
    (type : UInt8) (data : Mem) {size : ℕ} (hs : size < 4294967296) :
    KeepsFiles sb d (fsWrite sb name type data size d).2 name ↔
      (CanWrite sb d name → ∀ a f, (view sb d).Updated a name → view sb d a = some f →
        f.type ≠ fsFile) := by
  have hsec : sb.dirSectors ≤ 2147483648 := by
    have := h.layout.dir_le
    have := ha.data_le
    omega
  rw [keepsFiles_iff h.sizes]
  rcases fsWrite_refines h.layout hsec h.sound type data hs (ha.fits h name type data hs) with
    ⟨hc, -, hv⟩ | ⟨hc, hv⟩
  · rw [hv]
    constructor
    · intro hk _ a f hu hf ht
      have e := hk a f hu.ancestor.ne hf ht
      rcases FileMap.write_apply (view sb d) name a ⟨type, storedBytes data size⟩ with
        ⟨-, hno⟩ | ⟨-, g, hg, hg'⟩
      · exact hno hu
      · rw [hg] at e
        obtain rfl := Option.some.inj e
        rw [hg'] at ht
        exact absurd ht (by decide)
    · intro hk n f hn hf ht
      rcases FileMap.write_apply (view sb d) name n ⟨type, storedBytes data size⟩ with
        ⟨e, -⟩ | ⟨hu, -⟩
      · rw [e, FileMap.store_ne _ hn, hf]
      · exact absurd ht (hk hc n f hu hf)
  · rw [hv]
    exact ⟨fun _ hc' => absurd hc' hc, fun _ n f _ hf _ => hf⟩

theorem blank_addressed : Addressed blank.sb blank.disk :=
  ⟨by decide, fun k _ h => absurd h (blank_not_live k)⟩

/-- The blank disk with one regular file, `f`, of three bytes. -/
def withF : State := blank.step (.write pathF fsFile (fun _ => 1) 3)

theorem withF_sound : WellFormed withF.sb withF.disk ∧ Addressed withF.sb withF.disk :=
  ⟨step_wellFormed (s := blank) blank_wellFormed
    (blank_fits (l := [.write pathF fsFile (fun _ => 1) 3]) (by decide +kernel) (by decide)).1,
    by decide, show ∀ k < 16, _ by decide +kernel⟩

/-- The file `f` and the directory `d`. -/
def withFD : State := withF.step (.mkdir pathD)

lemma withFD_sound : WellFormed withFD.sb withFD.disk ∧ Addressed withFD.sb withFD.disk :=
  ⟨run_wellFormed (s := blank) blank_wellFormed
    (blank_fits (l := [.write pathF fsFile (fun _ => 1) 3, .mkdir pathD]) (by decide +kernel) (by decide)),
    by decide, show ∀ k < 16, _ by decide +kernel⟩

/-- A write of `d/f` keeps the file `f`: the directory above it is no regular file. -/
theorem fsWrite_keepsFiles_iff_withFD :
    slotOf withFD.sb withFD.disk pathF = some 0 ∧ (entry withFD.sb withFD.disk 0).type = fsFile ∧
      KeepsFiles withFD.sb withFD.disk
        (fsWrite withFD.sb pathDF fsFile (fun _ => 2) 5 withFD.disk).2 pathDF := by
  refine ⟨by decide +kernel, by decide +kernel, (fsWrite_keepsFiles_iff withFD_sound.1 withFD_sound.2
    pathDF fsFile (fun _ => 2) (by decide)).mpr fun _ a f hu hf => ?_⟩
  have hparent : parentDir pathDF = some pathD := by decide
  have htop : parentDir pathD = none := by decide
  have hslot : slotOf withFD.sb withFD.disk pathD = some 1 := by decide +kernel
  have htype : (entry withFD.sb withFD.disk 1).type = fsDir := by decide +kernel
  have ha : a = pathD := by
    cases hu with
    | parent hp _ => exact Option.some.inj (hp.symm.trans hparent)
    | up hp _ hup =>
      obtain rfl := Option.some.inj (hp.symm.trans hparent)
      cases hup with
      | parent hq _ => cases htop.symm.trans hq
      | up hq _ _ => cases htop.symm.trans hq
  subst ha
  have hfile : f = fileAt withFD.sb withFD.disk 1 := by
    unfold view at hf
    rw [hslot] at hf
    exact (Option.some.inj hf).symm
  rw [hfile]
  exact fun h => absurd (htype.symm.trans h) (by decide)

/-- **A write of `f/x` below the regular file `f` succeeds and turns `f` into a directory.** -/
theorem write_below_file :
    WellFormed withF.sb withF.disk ∧ Addressed withF.sb withF.disk ∧
      (fsWrite withF.sb pathFX fsFile (fun _ => 0) 0 withF.disk).1 = 0 ∧
      ¬ KeepsFiles withF.sb withF.disk (fsWrite withF.sb pathFX fsFile (fun _ => 0) 0 withF.disk).2
        pathFX := by
  refine ⟨withF_sound.1, withF_sound.2, by decide +kernel, fun h => ?_⟩
  obtain ⟨k, hk, ht, -⟩ := h pathF 0 (by decide) (by decide +kernel) (by decide +kernel)
  have h0 : slotOf withF.sb (fsWrite withF.sb pathFX fsFile (fun _ => 0) 0 withF.disk).2 pathF =
      some 0 := by decide +kernel
  rw [h0] at hk
  obtain rfl := Option.some.inj hk
  have htype : (entry withF.sb (fsWrite withF.sb pathFX fsFile (fun _ => 0) 0 withF.disk).2 0).type =
      fsDir := by decide +kernel
  rw [htype] at ht
  exact absurd ht (by decide)

end LunariaOS.Fs
