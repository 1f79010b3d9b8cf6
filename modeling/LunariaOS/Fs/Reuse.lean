import LunariaOS.Fs.Faults
import LunariaOS.Fs.ReadFaults
import LunariaOS.Fs.Spare

/-!
A read handle whose file is deleted or moved.

The handle keeps the first sector and the size of the file, while `fs_write` takes every sector for
free that no live entry covers. So the sectors of the handle stay as they were as long as no data is
placed on them: not in the old place of a file, and not past the last file (`Clear`).
-/

namespace LunariaOS.Fs

open LunariaOS.Lib

variable {sb : Superblock} {d d' : Disk} {X : Set ℕ}

/-! ### Where a write puts its data -/

/-- The first sector of the data area that is past every file. -/
structure Top (sb : Superblock) (d : Disk) (t : ℕ) : Prop where
  data_le : sb.dataLba ≤ t
  last_le : ∀ k < slotCount sb, Live sb d k → lastOf sb d k ≤ t
  least : t = sb.dataLba ∨ ∃ k < slotCount sb, Live sb d k ∧ t = lastOf sb d k

/-- A write puts its data in the old place of its file, when that is large enough, and else past
every file. -/
def Place (sb : Superblock) (d : Disk) (name : CStr) (size lba : ℕ) : Prop :=
  (∃ k, slotOf sb d name = some k ∧ sectorsOf size ≤ sectorsOf (entry sb d k).size ∧
    lba = (entry sb d k).lba) ∨
  (∀ k, slotOf sb d name = some k → sectorsOf (entry sb d k).size < sectorsOf size) ∧ Top sb d lba

/-- The data of a write does not come to lie in `X`. -/
def Clear (X : Set ℕ) (sb : Superblock) (d : Disk) (name : CStr) (size : ℕ) : Prop :=
  ∀ lba, Place sb d name size lba → Disjoint (extent lba (sectorsOf size)) X

lemma writeLba_place (hL : Layout sb) (hd : DirOk sectorsOf sb d) (name : CStr) (size : ℕ) :
    Place sb d name size (writeLba sb d name size) := by
  have hok := scan_ok (d := d) hL.sectors_lt name
  have htop : Top sb d (scan sb d name).nextFree :=
    ⟨hok.data_le, hok.last_le, hok.next_eq⟩
  cases hk : slotOf sb d name with
  | none =>
    refine Or.inr ⟨fun k hk' => (by rw [hk] at hk'; cases hk'), ?_⟩
    unfold writeLba Scan.writeLba
    cases hf : (scan sb d name).found with
    | false => exact htop
    | true =>
      obtain ⟨j, hj, hn, -⟩ := hok.hit hf
      exact absurd hn (slotOf_none hk hj)
  | some k =>
    rw [writeLba_found hL hd hk]
    by_cases hle : sectorsOf size ≤ sectorsOf (entry sb d k).size
    · exact Or.inl ⟨k, hk, hle, if_pos hle⟩
    · rw [if_neg hle]
      refine Or.inr ⟨fun j hj => ?_, htop⟩
      obtain rfl := Option.some.inj (hk.symm.trans hj)
      exact not_le.mp hle

mutual

/-- No write of the call `fs_write`, for its own entry or for the directories above it, puts data in
`X`. -/
def WriteClear (X : Set ℕ) (sb : Superblock) (name : CStr) (type : UInt8) (data : Mem) (size : ℕ)
    (d : Disk) : Prop :=
  CanWrite sb d name → Clear X sb d name size ∧
    ∀ p, (_h : parentDir name = some p) →
      AppendClear X sb p name (writeDisk sb d name type data size)
termination_by 2 * name.length
decreasing_by
  have := parentDir_length _h
  omega

/-- No write of the call `fs_append` puts data in `X`. -/
def AppendClear (X : Set ℕ) (sb : Superblock) (dir path : CStr) (d : Disk) : Prop :=
  ∀ k, slotOf sb d dir = some k → (entry sb d k).size + path.length + 1 < dirBufSize →
    WriteClear X sb dir fsDir (appendText d (entry sb d k) path)
      ((entry sb d k).size + path.length + 1) d
termination_by 2 * dir.length + 1

end

/-! ### The sectors stay -/

/-- The sectors of `X` are as on the disk `d₀`, and no file of another name lies in them. -/
structure Kept (X : Set ℕ) (sb : Superblock) (d₀ : Disk) (name : CStr) (d : Disk) : Prop where
  same : ∀ l ∈ X, d.sectors l = d₀.sectors l
  apart : ∀ k < slotCount sb, Live sb d k → nameOf sb d k ≠ name.bytes →
    Disjoint (extentOf sectorsOf sb d k) X

section Kept

variable {d₀ : Disk} {name : CStr} (hX : ∀ l ∈ X, sb.dataLba ≤ l)

include hX

lemma Written.kept {n : CStr} {type : UInt8} {data : Mem} {size k lba : ℕ}
    (h : Written sb d d' n type data size k lba) (hk : Kept X sb d₀ name d)
    (hc : Disjoint (extent lba (sectorsOf size)) X) : Kept X sb d₀ name d' where
  same l hl := (h.old l (hX l hl) (Set.disjoint_right.mp hc hl)).trans (hk.same l hl)
  apart j hj hl hn := by
    by_cases hjk : j = k
    · subst hjk
      unfold extentOf
      rw [h.entry_eq]
      exact hc
    · have hent := h.entry_ne j hj hjk
      rw [h.nameOf_ne hj hjk] at hn
      unfold extentOf
      rw [hent]
      exact hk.apart j hj ((h.live_ne hj hjk).mp hl) hn

lemma Deleted.kept {k : ℕ} (h : Deleted sb d d' k) (hk : Kept X sb d₀ name d) :
    Kept X sb d₀ name d' where
  same l hl := (h.old l (hX l hl)).trans (hk.same l hl)
  apart j hj hl hn := by
    obtain ⟨hl', hjk⟩ := (h.live hj).mp hl
    have hent := h.entry_ne j hj hjk
    unfold nameOf at hn
    rw [hent] at hn
    unfold extentOf
    rw [hent]
    exact hk.apart j hj hl' hn

/-- **Writes and appends that are clear of the sectors keep them.** -/
theorem write_append_kept (hL : Layout sb) :
    (∀ n type data size d, size ≤ 4294966784 → Sound sb d → WriteFits sb n type data size d →
      WriteClear X sb n type data size d → Kept X sb d₀ name d →
      Kept X sb d₀ name (fsWrite sb n type data size d).2) ∧
    (∀ dir path d, Sound sb d → AppendFits sb dir path d → AppendClear X sb dir path d →
      Kept X sb d₀ name d → Kept X sb d₀ name (fsAppend sb dir path d).2) := by
  -- the induction is on the length of the path, a write counting less than the append into it
  have key : ∀ m : ℕ,
      (∀ n type data size d, 2 * n.length = m → size ≤ 4294966784 → Sound sb d →
        WriteFits sb n type data size d → WriteClear X sb n type data size d →
        Kept X sb d₀ name d → Kept X sb d₀ name (fsWrite sb n type data size d).2) ∧
      (∀ dir path d, 2 * dir.length + 1 = m → Sound sb d → AppendFits sb dir path d →
        AppendClear X sb dir path d → Kept X sb d₀ name d →
        Kept X sb d₀ name (fsAppend sb dir path d).2) := by
    intro m
    induction m using Nat.strong_induction_on with
    | _ m ih =>
      refine ⟨fun n type data size d hm hs hd hfit hclear hk => ?_,
        fun dir path d hm hd hfit hclear hk => ?_⟩
      · rw [fsWrite_working hd.working hL.sectors_lt]
        split_ifs with hc
        · rw [WriteFits] at hfit
          rw [WriteClear] at hclear
          obtain ⟨hend, hup⟩ := hfit hc
          obtain ⟨hown, hclear'⟩ := hclear hc
          have hwr := writeDisk_written hd.working hL hd.dirOk type data hc (by omega) hend
          have hk' := hwr.kept hX hk (hown _ (writeLba_place hL hd.dirOk n size))
          split
          · exact hk'
          · rename_i p hp
            have hlt := parentDir_length hp
            exact (ih (2 * p.length + 1) (by omega)).2 p n _ rfl (hwr.sound hd) (hup p hp)
              (hclear' p hp) hk'
        · exact hk
      · rw [fsAppend_working hd.working]
        rw [AppendFits] at hfit
        rw [AppendClear] at hclear
        split
        · exact hk
        · rename_i k hslot
          split_ifs with hroom
          · have hsmall : (entry sb d k).size + path.length + 1 ≤ 4294966784 :=
              hroom.le.trans (by decide)
            exact (ih (2 * dir.length) (by omega)).1 dir _ _ _ d rfl hsmall hd
              (hfit k hslot hroom) (hclear k hslot hroom) hk
          · exact hk
  exact ⟨fun n type data size d => (key _).1 n type data size d rfl,
    fun dir path d => (key _).2 dir path d rfl⟩

end Kept

/-! ### Calls -/

/-- No write of the call puts data in `X`. -/
def Call.Clear (X : Set ℕ) (s : State) (c : Call) : Prop :=
  (∀ name type data size, c.writes s = some (name, type, data, size) →
    WriteClear X s.sb name type data size s.disk) ∧
  ∀ dir path, c = .append dir path → AppendClear X s.sb dir path s.disk

theorem step_kept {s : State} {d₀ : Disk} {name : CStr} (hX : ∀ l ∈ X, s.sb.dataLba ≤ l)
    (hs : WellFormed s.sb s.disk) {c : Call} (hfit : c.Fits s) (hc : c.Clear X s)
    (hk : Kept X s.sb d₀ name s.disk) : Kept X s.sb d₀ name (s.step c).disk := by
  have hd := hs.sound
  rw [step_disk s hd.working]
  split
  · rename_i n
    rw [fsDelete_working hd.working]
    split
    · exact hk
    · rename_i j hj
      exact (clearSlot_deleted hd.working hs.layout (slotOf_some hj).1).kept hX hk
  · rename_i dir path
    exact (write_append_kept hX hs.layout).2 dir path _ hd (hfit.2 dir path rfl)
      (hc.2 dir path rfl) hk
  · split
    · exact hk
    · rename_i n type data size hwr
      obtain ⟨hsz, hfits⟩ := hfit.1 n type data size hwr
      exact (write_append_kept hX hs.layout).1 n type data size _ hsz hd hfits
        (hc.1 n type data size hwr) hk

/-- A call other than its close leaves a read handle on its sectors. -/
lemma Reads.step {s : State} {i : Fin 8} {lba size o : ℕ} (h : Reads s i lba size o)
    (hw : s.disk.Working) {c : Call} (hc : c ≠ .close (fdOf i)) :
    ∃ o', Reads (s.step c) i lba size o' := by
  have keep : (s.step c).handles i = s.handles i → ∃ o', Reads (s.step c) i lba size o' := by
    obtain ⟨hu, hwr, hl, hs, ho⟩ := h
    intro e
    exact ⟨o, by rw [e, hu], by rw [e, hwr], by rw [e, hl], by rw [e, hs], by rw [e, ho]⟩
  have moved : ∀ o', s.step c = s.setHandle i ((s.handles i).moveTo o') →
      ∃ o', Reads (s.step c) i lba size o' := by
    obtain ⟨hu, hwr, hl, hs, -⟩ := h
    intro o' e
    rw [e]
    exact ⟨o', by simpa using hu, by simpa using hwr, by simpa using hl, by simpa using hs, by simp⟩
  have hlook : fdLookup s (fdOf i) = some i := by rw [fdLookup_fdOf, if_pos h.used]
  by_cases helse : c.Elsewhere (fdOf i)
  · exact keep (helse.handle h.used)
  · cases c with
    | write | mkdir | delete | append | openFd => exact absurd trivial helse
    | readFd fd n =>
      obtain rfl := not_not.mp helse
      rcases fsReadFd_moves hw hlook h.reads (fun _ => 0) n with e | ⟨o', e⟩
      · exact keep (congrArg (fun t : State => t.handles i) e)
      · exact moved o' e
    | writeFd fd buf n =>
      obtain rfl := not_not.mp helse
      refine keep (congrArg (fun t : State => t.handles i) (show (fsWriteFd s (fdOf i) buf n).2 = s from ?_))
      unfold fsWriteFd
      rw [hlook]
      simp [h.reads]
    | seek fd off whence =>
      obtain rfl := not_not.mp helse
      rcases fsSeek_moved s (fdOf i) off whence with e | ⟨j, pos, hj, e⟩
      · exact keep (congrArg (fun t : State => t.handles i) e)
      · obtain rfl := Option.some.inj (hlook.symm.trans hj)
        exact moved pos e
    | close fd => exact absurd (congrArg Call.close (not_not.mp helse)) hc

/-- **When a read handle keeps to its file.** After any calls that put no data in the sectors of the
handle (and do not close it), also after deletes of the file itself, a read delivers the bytes that
the file had, and no file of another name lies in these sectors. -/
theorem reader_keeps {s : State} (hs : WellFormed s.sb s.disk) {name : CStr} {k : ℕ}
    (hk : slotOf s.sb s.disk name = some k) {i : Fin 8} {p : ℕ}
    (hr : Reads s i (entry s.sb s.disk k).lba (entry s.sb s.disk k).size p) {l : List Call}
    (hl : Along State.step (fun s' c => c.Fits s' ∧
      c.Clear (extentOf sectorsOf s.sb s.disk k) s' ∧ c ≠ .close (fdOf i)) s l) :
    let s' := run State.step s l
    (∀ buf n, (fsReadFd s' (fdOf i) buf n).2.1 =
      buf.blit 0 (reach (s'.handles i).offset (entry s.sb s.disk k).size n) fun j =>
        (fileAt s.sb s.disk k).bytes.getD ((s'.handles i).offset + j) 0) ∧
    ∀ j < slotCount s'.sb, Live s'.sb s'.disk j → nameOf s'.sb s'.disk j ≠ name.bytes →
      Disjoint (extentOf sectorsOf s'.sb s'.disk j) (extentOf sectorsOf s.sb s.disk k) := by
  obtain ⟨hlt, hn⟩ := slotOf_some hk
  have hsize : (entry s.sb s.disk k).size ≤ 4294966784 := hs.sizes k hlt hn.1
  have hX : ∀ l ∈ extentOf sectorsOf s.sb s.disk k, s.sb.dataLba ≤ l := by
    intro l hl
    have hpos : 0 < sectorsOf (entry s.sb s.disk k).size := by
      obtain ⟨h1, h2⟩ := hl
      omega
    exact (hs.sound.dirOk.above k hlt hn.1 hpos).trans hl.1
  have hstart : Kept (extentOf sectorsOf s.sb s.disk k) s.sb s.disk name s.disk := by
    refine ⟨fun l _ => rfl, fun j hj hlive hname => ?_⟩
    refine hs.sound.dirOk.disj j hj k hlt hlive hn.1 ?_
    rintro rfl
    exact hname ((hs.sound.dirOk.named_iff hlt).mp hn).2
  have hinv := run_inv (P := fun s' => WellFormed s'.sb s'.disk ∧ s'.sb = s.sb ∧
      (∃ o, Reads s' i (entry s.sb s.disk k).lba (entry s.sb s.disk k).size o) ∧
      Kept (extentOf sectorsOf s.sb s.disk k) s.sb s.disk name s'.disk)
    (fun s' c h hc => by
      obtain ⟨hwf, hsb, ⟨o, ho⟩, hkept⟩ := h
      refine ⟨step_wellFormed hwf hc.1, (step_sb s' hwf.working c).trans hsb,
        ho.step hwf.working hc.2.2, ?_⟩
      have hX' : ∀ l ∈ extentOf sectorsOf s.sb s.disk k, s'.sb.dataLba ≤ l := by
        rw [hsb]
        exact hX
      have hkept' : Kept (extentOf sectorsOf s.sb s.disk k) s'.sb s.disk name s'.disk := by
        rw [hsb]
        exact hkept
      have hnext := step_kept hX' hwf hc.1 hc.2.1 hkept'
      rwa [hsb] at hnext) ⟨hs, rfl, ⟨p, hr⟩, hstart⟩ hl
  intro s'
  obtain ⟨hwf, hsb, ⟨o, ho⟩, hkept⟩ : WellFormed s'.sb s'.disk ∧ s'.sb = s.sb ∧
    (∃ o, Reads s' i (entry s.sb s.disk k).lba (entry s.sb s.disk k).size o) ∧
    Kept (extentOf sectorsOf s.sb s.disk k) s.sb s.disk name s'.disk := hinv
  refine ⟨fun buf n => ?_, fun j hj hlive hname => ?_⟩
  · obtain ⟨got, ok, d', hres⟩ := fsReadFd_faults ho (by omega) buf n
    have hfault : ∀ j, s'.disk.fault j = false := fun j => by
      have := hwf.working
      unfold Disk.Working at this
      rw [this]
    have hgot := hres.all.mp (hres.serves.mpr fun j _ => hfault j)
    rw [hres.result, hgot, ho.offset_eq]
    dsimp only
    refine Mem.blit_congr buf fun j hj => ?_
    have hin : o + j < (entry s.sb s.disk k).size := by
      unfold reach at hj
      omega
    have hmem : (entry s.sb s.disk k).lba + (o + j) / 512 ∈ extentOf sectorsOf s.sb s.disk k := by
      refine ⟨by omega, ?_⟩
      rw [sectorsOf_eq hsize]
      omega
    have hend := hs.sound.ends k hlt hn.1
    rw [List.getD_eq_getElem _ _ (by simpa using hin)]
    unfold fileAt
    rw [List.getElem_map, List.getElem_range, if_pos (by rw [sectorsOf_eq hsize]; omega)]
    unfold fileByte
    rw [u32_of_lt (by have := hmem.2; omega), hkept.same _ hmem]
  · rw [hsb] at hj hlive hname ⊢
    exact hkept.apart j hj hlive hname

/-- The file `f` of three bytes, open for reading. -/
def heldF : State := (fsOpen withF pathF fsORdonly).2

lemma heldF_disk : heldF.disk = withF.disk ∧ heldF.sb = withF.sb :=
  fsOpen_disk withF withF_sound.1.working pathF fsORdonly

lemma heldF_wellFormed : WellFormed heldF.sb heldF.disk := by
  rw [heldF_disk.1, heldF_disk.2]
  exact withF_sound.1

lemma heldF_entry : slotOf heldF.sb heldF.disk pathF = some 0 ∧
    (entry heldF.sb heldF.disk 0).lba = 2 ∧ (entry heldF.sb heldF.disk 0).size = 3 := by
  rw [heldF_disk.1, heldF_disk.2]
  decide +kernel

lemma heldF_reads :
    Reads heldF 0 (entry heldF.sb heldF.disk 0).lba (entry heldF.sb heldF.disk 0).size 0 := by
  have hfree : freeHandle withF = some 0 := by decide +kernel
  have htype : (entry withF.sb withF.disk 0).type = fsFile := by decide +kernel
  have hslot := heldF_entry.1
  rw [heldF_disk.1, heldF_disk.2] at hslot
  have h := (fsOpen_fresh withF_sound.1.working
    (show flagSet fsORdonly (fsOWronly ||| fsORdwr) = false from rfl) (by decide) hslot
    (by rw [htype]; decide) hfree).2
  rw [heldF_disk.1, heldF_disk.2]
  exact h

/-- A write of another file, a read, the delete of the file, and another read. -/
def unlinkCalls : List Call :=
  [.write pathD fsFile (fun _ => 2) 3, .readFd 3 2, .delete pathF, .readFd 3 1]

/-- The new file goes behind `f`. -/
lemma heldF_clear : WriteClear (extentOf sectorsOf heldF.sb heldF.disk 0) heldF.sb pathD fsFile (fun _ => 2) 3
    heldF.disk := by
  have hnew : slotOf heldF.sb heldF.disk pathD = none := by
    rw [heldF_disk.1, heldF_disk.2]
    decide +kernel
  have htop : parentDir pathD = none := by decide
  unfold WriteClear
  refine fun _ => ⟨fun lba hplace => ?_, fun p hp => by cases htop.symm.trans hp⟩
  rcases hplace with ⟨k, hk, -, -⟩ | ⟨-, htop⟩
  · cases hnew.symm.trans hk
  · obtain ⟨hlt, hlive, -⟩ := slotOf_some heldF_entry.1
    have hlast := htop.last_le 0 hlt hlive
    unfold lastOf at hlast
    unfold extentOf extent
    rw [heldF_entry.2.1, heldF_entry.2.2] at hlast ⊢
    have h3 : u32 (2 + sectorsOf 3) = 3 := by decide
    have h1 : 2 + sectorsOf 3 = 3 := by decide
    rw [h3] at hlast
    rw [h1, Set.disjoint_left]
    rintro x ⟨hx, -⟩ ⟨-, hx'⟩
    omega

theorem reader_keeps_heldF :
    let s' := run State.step heldF unlinkCalls
    (∀ buf n, (fsReadFd s' (fdOf 0) buf n).2.1 =
      buf.blit 0 (reach (s'.handles 0).offset (entry heldF.sb heldF.disk 0).size n) fun j =>
        (fileAt heldF.sb heldF.disk 0).bytes.getD ((s'.handles 0).offset + j) 0) ∧
    ∀ j < slotCount s'.sb, Live s'.sb s'.disk j → nameOf s'.sb s'.disk j ≠ pathF.bytes →
      Disjoint (extentOf sectorsOf s'.sb s'.disk j) (extentOf sectorsOf heldF.sb heldF.disk 0) := by
  have quiet : ∀ {s : State} {c : Call}, c.writes s = none → (∀ dir path, c ≠ .append dir path) →
      (∀ fd, c ≠ .close fd) → c.Fits s ∧
        c.Clear (extentOf sectorsOf heldF.sb heldF.disk 0) s ∧ c ≠ .close (fdOf 0) := by
    intro s c hw ha hc
    exact ⟨⟨fun _ _ _ _ e => (by rw [hw] at e; cases e), fun dir path e => absurd e (ha dir path)⟩,
      ⟨fun _ _ _ _ e => (by rw [hw] at e; cases e), fun dir path e => absurd e (ha dir path)⟩,
      hc _⟩
  have hfit : (Call.write pathD fsFile (fun _ => 2) 3).Fits heldF := by
    have h := (blank_fits (l := [.write pathF fsFile (fun _ => 1) 3, .write pathD fsFile (fun _ => 2) 3])
      (by decide +kernel) (by decide)).2.1
    refine ⟨fun name type data size e => ?_, fun dir path e => by cases e⟩
    rw [heldF_disk.1, heldF_disk.2]
    exact h.1 name type data size e
  refine reader_keeps heldF_wellFormed heldF_entry.1 heldF_reads
    ⟨⟨hfit, ⟨fun _ _ _ _ e => ?_, fun _ _ e => by cases e⟩, fun e => by cases e⟩, ?_, ?_, ?_, trivial⟩
  · cases e
    exact heldF_clear
  all_goals exact quiet rfl (fun _ _ e => by cases e) fun _ e => by cases e

/-- The delete of the file and a write of another one. -/
def reuseCalls : List Call := [.delete pathF, .write pathD fsFile (fun _ => 2) 3]

/-- **The sectors of a deleted file go to the next one**, and the handle reads that. -/
theorem reader_sees_other :
    WellFormed heldF.sb heldF.disk ∧ slotOf heldF.sb heldF.disk pathF = some 0 ∧
      Reads heldF 0 2 3 0 ∧ fileByte heldF.disk 2 0 = 1 ∧
      (fsReadFd (run State.step heldF reuseCalls) (fdOf 0) (fun _ => 0) 3).2.1 0 = 2 ∧
      (fsFind heldF.sb pathD (run State.step heldF reuseCalls).disk).1.map FileEntry.lba =
        some 2 := by
  have h : Reads heldF 0 2 3 0 := by
    have h := heldF_reads
    rwa [heldF_entry.2.1, heldF_entry.2.2] at h
  have hdisk : (run State.step heldF reuseCalls).disk =
      (run State.step withF reuseCalls).disk := by
    change (fsWrite heldF.sb pathD fsFile (fun _ => 2) 3 (fsDelete heldF.sb pathF heldF.disk).2).2 = _
    rw [heldF_disk.1, heldF_disk.2]
    rfl
  have hread : Reads (run State.step heldF reuseCalls) 0 2 3 0 :=
    ⟨h.used, h.reads, h.lba_eq, h.size_eq, h.offset_eq⟩
  have hfit := blank_fits (l := .write pathF fsFile (fun _ => 1) 3 :: reuseCalls)
    (by decide +kernel) (by decide)
  have hw : (run State.step heldF reuseCalls).disk.Working := by
    rw [hdisk]
    exact (run_wellFormed withF_sound.1 hfit.2).working
  refine ⟨heldF_wellFormed, heldF_entry.1, h, ?_, ?_, ?_⟩
  · rw [heldF_disk.1]
    decide +kernel
  · rw [fsReadFd_reads hw hread (by decide), hdisk]
    dsimp only
    rw [Mem.blit_of_in _ _ (by decide) (by decide)]
    decide +kernel
  · rw [hdisk, heldF_disk.2]
    decide +kernel

end LunariaOS.Fs
