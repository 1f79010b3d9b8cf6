import LunariaOS.Fs.Frame

/-!
A write that fails part way.

`fs_write` writes the data first and the directory slot last, so a call that fails has changed
sectors of the data area only. They lie past every file, unless the data fits into the old sectors
of the file: then it is written over the old contents, and what a failure leaves there is the new
data up to some sector and the old data from there on.
-/

namespace LunariaOS.Fs

open LunariaOS.Lib

variable {sb : Superblock} {d : Disk}

/-- The disk with every fault mended. -/
def Disk.calm (d : Disk) : Disk := { d with fault := fun _ => false }

lemma Disk.calm_working (d : Disk) : d.calm.Working := rfl

lemma Disk.calm_eq {d d' : Disk} (h : d'.sectors = d.sectors) : d'.calm = d.calm := by
  unfold Disk.calm
  rw [h]

lemma Disk.Working.calm_eq {d : Disk} (h : d.Working) : d.calm = d := by
  obtain ⟨s, f⟩ := d
  unfold Disk.Working at h
  simp only at h
  subst h
  rfl

/-- How many of the next `n` transfers come before the first one that fails. -/
def landed : ℕ → (ℕ → Bool) → ℕ
  | 0, _ => 0
  | n + 1, fault => if fault 0 then 0 else landed n (fun k => fault (k + 1)) + 1

lemma landed_le (n : ℕ) (fault : ℕ → Bool) : landed n fault ≤ n := by
  induction n generalizing fault with
  | zero => exact le_rfl
  | succ n ih =>
    unfold landed
    split_ifs
    · omega
    · have := ih fun k => fault (k + 1)
      omega

/-! ### Reading under faults -/

/-- A transfer that reads changes no sector, and delivers what a working disk would, or nothing. -/
lemma read_faults (d : Disk) (lba : ℕ) :
    (ataReadSectors d lba).2.sectors = d.sectors ∧
      ∀ m, (ataReadSectors d lba).1 = some m → (ataReadSectors d.calm lba).1 = some m := by
  refine ⟨rfl, fun m hm => ?_⟩
  rw [d.calm_working.read]
  unfold ataReadSectors at hm
  simp only at hm
  split_ifs at hm
  exact hm

lemma lookup_faults (name : CStr) (n sec : ℕ) (d : Disk) :
    (lookup sb name n sec d).2.sectors = d.sectors ∧
      ∀ r, (lookup sb name n sec d).1 = some r → (lookup sb name n sec d.calm).1 = some r := by
  induction n generalizing sec d with
  | zero => exact ⟨rfl, fun r hr => by cases hr⟩
  | succ n ih =>
    obtain ⟨hs, hm⟩ := read_faults d (u32 (sb.dirLba + sec))
    unfold lookup
    rw [d.calm_working.read] at hm ⊢
    generalize ataReadSectors d (u32 (sb.dirLba + sec)) = x at *
    obtain ⟨m, d₁⟩ := x
    cases m with
    | none => exact ⟨hs, fun r hr => by cases hr⟩
    | some m =>
      obtain rfl := Option.some.inj (hm m rfl)
      simp only at hs ⊢
      cases matchIn (d.calm.sectors (u32 (sb.dirLba + sec))).mem name with
      | none =>
        obtain ⟨h1, h2⟩ := ih (sec + 1) d₁
        rw [Disk.calm_eq hs] at h2
        exact ⟨h1.trans hs, h2⟩
      | some i => exact ⟨hs, fun r hr => hr⟩

lemma scanDir_faults (name : CStr) (n sec : ℕ) (sc : Scan) (d : Disk) :
    (scanDir sb name n sec sc d).2.sectors = d.sectors ∧
      ∀ r, (scanDir sb name n sec sc d).1 = some r →
        (scanDir sb name n sec sc d.calm).1 = some r := by
  induction n generalizing sec sc d with
  | zero => exact ⟨rfl, fun r hr => hr⟩
  | succ n ih =>
    obtain ⟨hs, hm⟩ := read_faults d (u32 (sb.dirLba + sec))
    unfold scanDir
    rw [d.calm_working.read] at hm ⊢
    generalize ataReadSectors d (u32 (sb.dirLba + sec)) = x at *
    obtain ⟨m, d₁⟩ := x
    cases m with
    | none => exact ⟨hs, fun r hr => by cases hr⟩
    | some m =>
      obtain rfl := Option.some.inj (hm m rfl)
      simp only at hs ⊢
      obtain ⟨h1, h2⟩ := ih (sec + 1) ((List.range fsEntriesPerSector).foldl
        (scanEntry name (d.calm.sectors (u32 (sb.dirLba + sec))).mem sec) sc) d₁
      rw [Disk.calm_eq hs] at h2
      exact ⟨h1.trans hs, h2⟩

lemma parentExists_faults (name : CStr) (d : Disk) :
    (parentExists sb name d).2.sectors = d.sectors ∧
      ((parentExists sb name d).1 = true → ParentFound sb d name) := by
  unfold parentExists
  cases hp : parentDir name with
  | none =>
    refine ⟨rfl, fun _ p hp' => ?_⟩
    rw [hp] at hp'
    cases hp'
  | some p =>
    obtain ⟨hs, hm⟩ := @lookup_faults sb p sb.dirSectors 0 d
    rw [lookup_eq_slotOf d.calm_working] at hm
    unfold fsFind
    simp only
    generalize lookup sb p sb.dirSectors 0 d = x at *
    obtain ⟨r, d₁⟩ := x
    cases r with
    | none => exact ⟨hs, fun h => by cases h⟩
    | some r =>
      refine ⟨hs, fun _ q hq hnone => ?_⟩
      rw [hp] at hq
      obtain rfl := Option.some.inj hq
      have hnone' : slotOf sb d.calm p = none := hnone
      have hr := hm r rfl
      rw [hnone'] at hr
      cases hr

/-! ### Writing under faults -/

lemma putData_congr (lba : ℕ) (data : Mem) (size n k : ℕ) {d d' : Disk}
    (h : d'.sectors = d.sectors) :
    (Disk.putData lba data size n k d').sectors = (Disk.putData lba data size n k d).sectors := by
  induction n generalizing k d d' with
  | zero => exact h
  | succ n ih =>
    apply ih
    unfold Disk.put
    simp only [h]

/-- The data loop stores the sectors before the first transfer that fails. -/
lemma writeLoop_faults (lba : ℕ) (data : Mem) (size n k : ℕ) (d : Disk) :
    (writeLoop lba data size n k d).2.sectors =
      (Disk.putData lba data size (landed n d.fault) k d).sectors := by
  induction n generalizing k d with
  | zero => rfl
  | succ n ih =>
    unfold writeLoop ataWriteSectors landed
    by_cases hf : d.fault 0 = true
    · simp only [if_pos hf]
      rfl
    · simp only [if_neg hf]
      rw [ih]
      exact putData_congr lba data size _ _ rfl

/-- The scan and the disk with which `fs_write` starts to write its data, if it gets there. -/
def dataStart (sb : Superblock) (name : CStr) (d : Disk) : Option (Scan × Disk) :=
  if name.length ≥ fsMaxName then none
  else
    match parentExists sb name d with
    | (false, _) => none
    | (true, d) =>
      match scanDir sb name sb.dirSectors 0 (Scan.init sb) d with
      | (none, _) => none
      | (some sc, d) => if sc.slotSec < 0 then none else some (sc, d)

/-- How many sectors of its data a call of `fs_write` gets to the disk. -/
def dataLanded (sb : Superblock) (name : CStr) (size : ℕ) (d : Disk) : ℕ :=
  match dataStart sb name d with
  | none => 0
  | some (_, d) => landed (sectorsOf size) d.fault

/-- **A write that fails before its directory slot is stored** has stored some of its data, where a
working disk would have it. -/
lemma writeEntry_failed {name : CStr} {type : UInt8} {data : Mem} {size : ℕ}
    (h : (writeEntry sb name type data size d).1 = false) :
    (writeEntry sb name type data size d).2.sectors =
        (Disk.putData (writeLba sb d name size) data size (dataLanded sb name size d) 0 d).sectors ∧
      dataLanded sb name size d ≤ sectorsOf size ∧
      (0 < dataLanded sb name size d → CanWrite sb d name) := by
  unfold dataLanded dataStart
  unfold writeEntry at h ⊢
  by_cases hlen : name.length ≥ fsMaxName
  · simp only [if_pos hlen]
    exact ⟨rfl, Nat.zero_le _, fun h => absurd h (by omega)⟩
  simp only [if_neg hlen] at h ⊢
  obtain ⟨hs, hp⟩ := @parentExists_faults sb name d
  generalize parentExists sb name d = x at *
  obtain ⟨ok, d₁⟩ := x
  simp only at hs hp
  cases ok with
  | false => exact ⟨hs, Nat.zero_le _, fun h => absurd h (by simp)⟩
  | true =>
    simp only at h ⊢
    obtain ⟨hs', hm⟩ := @scanDir_faults sb name sb.dirSectors 0 (Scan.init sb) d₁
    rw [Disk.calm_eq hs, scanDir_eq_scan d.calm_working] at hm
    generalize scanDir sb name sb.dirSectors 0 (Scan.init sb) d₁ = x at *
    obtain ⟨r, d₂⟩ := x
    simp only at hs' hm
    have hd₂ : d₂.sectors = d.sectors := hs'.trans hs
    cases r with
    | none => exact ⟨hd₂, Nat.zero_le _, fun h => absurd h (by simp)⟩
    | some sc =>
      have hsc : scan sb d name = sc := Option.some.inj (hm sc rfl)
      simp only at h ⊢
      by_cases hslot : sc.slotSec < 0
      · simp only [if_pos hslot]
        exact ⟨hd₂, Nat.zero_le _, fun h => absurd h (by simp)⟩
      · simp only [if_neg hslot] at h ⊢
        have hcan : CanWrite sb d name := ⟨by omega, hp rfl, by rw [hsc]; omega⟩
        have hlba : sc.writeLba (sectorsOf size) = writeLba sb d name size := by
          unfold writeLba
          rw [hsc]
        rw [hlba] at h ⊢
        have hw := writeLoop_faults (writeLba sb d name size) data size (sectorsOf size) 0 d₂
        have hput : (Disk.putData (writeLba sb d name size) data size
            (landed (sectorsOf size) d₂.fault) 0 d₂).sectors =
            (Disk.putData (writeLba sb d name size) data size
              (landed (sectorsOf size) d₂.fault) 0 d).sectors := putData_congr _ _ _ _ _ hd₂
        rw [hput] at hw
        refine ⟨?_, landed_le _ _, fun _ => hcan⟩
        generalize writeLoop (writeLba sb d name size) data size (sectorsOf size) 0 d₂ = x at *
        obtain ⟨ok, d₃⟩ := x
        cases ok with
        | false => exact hw
        | true =>
          simp only at h hw ⊢
          have hread := (read_faults d₃ (u32 (sb.dirLba + sc.slotSec.toNat))).1
          generalize ataReadSectors d₃ (u32 (sb.dirLba + sc.slotSec.toNat)) = x at *
          obtain ⟨m, d₄⟩ := x
          cases m with
          | none => exact hread.trans hw
          | some m =>
            simp only at h hread ⊢
            unfold ataWriteSectors at h ⊢
            simp only at h ⊢
            split_ifs at h ⊢
            exact hread.trans hw

/-- A write to a file that is there goes over its old sectors when the data fits into them. -/
lemma writeLba_found (hL : Layout sb) (hd : DirOk sectorsOf sb d) {name : CStr} {k : ℕ}
    (hk : slotOf sb d name = some k) (size : ℕ) :
    writeLba sb d name size =
      if sectorsOf size ≤ sectorsOf (entry sb d k).size then (entry sb d k).lba
      else (scan sb d name).nextFree := by
  have hok := scan_ok (d := d) hL.sectors_lt name
  obtain ⟨hlt, hn⟩ := slotOf_some hk
  unfold writeLba Scan.writeLba
  cases hf : (scan sb d name).found with
  | false => exact absurd hn (hok.miss hf k hlt)
  | true =>
    obtain ⟨j, hj, hnj, hlba, hcap, -⟩ := hok.hit hf
    obtain rfl := hd.named_unique hj hlt hnj hn
    rw [hlba, hcap]
    by_cases hle : sectorsOf size ≤ sectorsOf (entry sb d j).size
    · rw [if_pos hle, decide_eq_true hle]
      rfl
    · rw [if_neg hle, decide_eq_false hle]
      rfl

/-- What holds of a directory holds of it under any faults. -/
lemma WellFormed.dirOk_calm (h : WellFormed sb d.calm) : DirOk sectorsOf sb d :=
  ⟨h.sound.dirOk.term, h.sound.dirOk.uniq, h.sound.dirOk.above, h.sound.dirOk.disj⟩

section Failed

variable (h : WellFormed sb d.calm) {name : CStr} {data : Mem} {size j : ℕ}
  (hroom : CanWrite sb d name → endSector sb d name size ≤ 4294967295) (hj : j ≤ sectorsOf size)
  (hc : 0 < j → CanWrite sb d name) {d' : Disk}
  (hd' : d'.sectors = (Disk.putData (writeLba sb d name size) data size j 0 d).sectors)

include h hroom hj hc in
lemma failed_top : 0 < j → sb.dataLba ≤ writeLba sb d name size ∧
    writeLba sb d name size + j ≤ 4294967296 := by
  intro hpos
  have hcan : CanWrite sb d.calm name := hc hpos
  have hfit := hroom hcan
  unfold endSector at hfit
  have habove : sb.dataLba ≤ writeLba sb d name size :=
    (target_of_canWrite h.layout size hcan).above h.sound.dirOk (by omega)
  exact ⟨habove, by omega⟩

include h hroom hj hc hd'

/-- The directory is as it was. -/
lemma failed_slot {k : ℕ} (hk : k < slotCount sb) : slotMem sb d' k = slotMem sb d k := by
  have hsame : slotMem sb d' k =
      slotMem sb (Disk.putData (writeLba sb d name size) data size j 0 d) k := by
    unfold slotMem
    rw [hd']
  rw [hsame]
  rcases Nat.eq_zero_or_pos j with rfl | hpos
  · rfl
  · obtain ⟨h1, h2⟩ := failed_top h hroom hj hc hpos
    exact slotMem_putData h.layout data size (fun _ => h1) h2 hk

lemma failed_entry {k : ℕ} (hk : k < slotCount sb) : entry sb d' k = entry sb d k := by
  unfold entry
  rw [failed_slot h hroom hj hc hd' hk]

lemma failed_slotOf (n : CStr) : slotOf sb d' n = slotOf sb d n := by
  refine List.find?_congr fun k hk => ?_
  have hslot := failed_slot h hroom hj hc hd' (List.mem_range.mp hk)
  have hiff : Named sb d' n k ↔ Named sb d n k := by
    unfold Named Live
    rw [hslot]
  simp only [hiff]

/-- The bytes of a file that is there. -/
lemma failed_byte {n : CStr} {k : ℕ} (hk : slotOf sb d n = some k) {i : ℕ}
    (hi : i < (entry sb d k).size) :
    fileByte d' (entry sb d k).lba i =
      if n = name ∧ sectorsOf size ≤ sectorsOf (entry sb d k).size ∧ i / 512 < j then
        (Sector.ofMem (padSector data size (i / 512))).mem (i % 512)
      else fileByte d (entry sb d k).lba i := by
  obtain ⟨hlt, hn⟩ := slotOf_some hk
  have hd := h.dirOk_calm
  have he : EndsBy sectorsOf sb d 4294967295 := h.sound.ends
  have hend := he k hlt hn.1
  have hcount : i / 512 < sectorsOf (entry sb d k).size := by
    have hsize : (entry sb d k).size ≤ 4294966784 := h.sizes k hlt hn.1
    rw [sectorsOf_eq hsize]
    omega
  unfold fileByte
  rw [hd', u32_of_lt (by omega)]
  rcases Nat.eq_zero_or_pos j with rfl | hpos
  · rw [if_neg (by omega)]
    rfl
  obtain ⟨h1, h2⟩ := failed_top h hroom hj hc hpos
  rw [putData_sectors data size d (by omega)]
  by_cases hname : n = name
  · subst hname
    rw [writeLba_found h.layout hd hk] at *
    by_cases hle : sectorsOf size ≤ sectorsOf (entry sb d k).size
    · simp only [if_pos hle, Nat.add_zero]
      by_cases hij : i / 512 < j
      · rw [if_pos (by omega), if_pos ⟨trivial, hle, hij⟩, Nat.add_sub_cancel_left]
      · rw [if_neg (by omega), if_neg fun hx => hij hx.2.2]
    · have hlast := (scan_ok (d := d) h.layout.sectors_lt n).last_le k hlt hn.1
      rw [lastOf_eq he hlt hn.1] at hlast
      simp only [if_neg hle, Nat.add_zero]
      rw [if_neg (by omega), if_neg fun hx => hle hx.2.1]
  · have ht := target_of_canWrite h.layout size (hc hpos)
    have hkw : k ≠ writeSlot sb d name := by
      rintro rfl
      rcases ht.slot with hnamed | ⟨hfree, -⟩
      · exact hname (CStr.ext (hn.2.symm.trans hnamed.2))
      · exact hfree hn.1
    have hout := notMem_of_disjoint (ht.fresh hd he hlt hn.1 hkw)
      (show (entry sb d k).lba + i / 512 ∈ extentOf sectorsOf sb d k from ⟨by omega, by omega⟩)
    rw [mem_extent] at hout
    rw [if_neg (by omega), if_neg fun hx => hname hx.1]

end Failed

/-- The data of a write under `name` fits into the sectors that the file has. -/
def Rewrites (sb : Superblock) (d : Disk) (name : CStr) (size : ℕ) : Prop :=
  ∃ k, slotOf sb d name = some k ∧ sectorsOf size ≤ sectorsOf (entry sb d k).size

/-- `fs_write` returns -1 when it fails before its directory slot is stored, and in no other case. -/
lemma fsWrite_failed {name : CStr} {type : UInt8} {data : Mem} {size : ℕ}
    (h : (fsWrite sb name type data size d).1 = -1) :
    (writeEntry sb name type data size d).1 = false ∧
      (fsWrite sb name type data size d).2 = (writeEntry sb name type data size d).2 := by
  rw [fsWrite] at h ⊢
  generalize writeEntry sb name type data size d = x at *
  obtain ⟨ok, d₁⟩ := x
  cases ok with
  | false => exact ⟨rfl, rfl⟩
  | true =>
    simp only at h
    split at h <;> cases h

/-- **What a failed write leaves.** Whichever transfers fail, if `fs_write` returns -1 then every
other file reads as before, and the file that was to be written keeps its entry. It also keeps its
contents, unless the data fits into its old sectors: then the sectors of data that got to the disk
before the failure stand in place of the old ones. -/
theorem failed_write (h : WellFormed sb d.calm) (ha : Addressed sb d.calm) (name : CStr)
    (type : UInt8) (data : Mem) {size : ℕ} (hs : size < 4294967296)
    (hrc : (fsWrite sb name type data size d).1 = -1) :
    let d' := (fsWrite sb name type data size d).2
    (∀ n buf max, (n = name → ¬ Rewrites sb d name size ∨ dataLanded sb name size d = 0) →
      fsRead sb n buf max d'.calm =
        ((fsRead sb n buf max d.calm).1, (fsRead sb n buf max d.calm).2.1, d'.calm)) ∧
    ∀ k, slotOf sb d name = some k →
      slotOf sb d' name = some k ∧ entry sb d' k = entry sb d k ∧
      ∀ i < (entry sb d k).size, fileByte d' (entry sb d k).lba i =
        if sectorsOf size ≤ sectorsOf (entry sb d k).size ∧ i / 512 < dataLanded sb name size d then
          (Sector.ofMem (padSector data size (i / 512))).mem (i % 512)
        else fileByte d (entry sb d k).lba i := by
  intro d'
  obtain ⟨hfail, hdisk⟩ := fsWrite_failed hrc
  obtain ⟨hd', hj, hc⟩ := writeEntry_failed hfail
  rw [← hdisk] at hd'
  have hroom : CanWrite sb d name → endSector sb d name size ≤ 4294967295 := fun hcan => by
    have hfit := ha.fits h name fsFile (fun _ => 0) hs
    rw [WriteFits] at hfit
    exact (hfit hcan).1
  have hslot := failed_slotOf h hroom hj hc hd'
  have hentry := fun {k} => failed_entry h hroom hj hc hd' (k := k)
  have hbyte := fun {n k} => failed_byte h hroom hj hc hd' (n := n) (k := k)
  refine ⟨fun n buf max hn => ?_, fun k hk => ⟨(hslot name).trans hk, hentry (slotOf_some hk).1,
    fun i hi => ?_⟩⟩
  · have hslot' : slotOf sb d'.calm n = slotOf sb d n := hslot n
    rw [fsRead_working d'.calm_working, fsRead_working d.calm_working, hslot']
    cases hk : slotOf sb d n with
    | none =>
      have hk' : slotOf sb d.calm n = none := hk
      simp only [hk']
    | some k =>
      have hk' : slotOf sb d.calm n = some k := hk
      have he : entry sb d'.calm k = entry sb d.calm k := hentry (slotOf_some hk).1
      simp only [hk', he]
      split_ifs with hmax
      · refine Prod.ext rfl (Prod.ext (Mem.blit_congr _ fun i hi => ?_) rfl)
        refine (hbyte hk hi).trans (if_neg ?_)
        rintro ⟨rfl, hle, hij⟩
        rcases hn rfl with hno | h0
        · exact hno ⟨k, hk, hle⟩
        · omega
      · rfl
  · rw [hbyte hk hi]
    simp only [true_and]

/-- The disk with the file `f`, of which the third transfer from now on fails. -/
def faultyF : Disk := { withF.disk with fault := fun n => n == 2 }

lemma faultyF_calm : faultyF.calm = withF.disk :=
  (Disk.calm_eq (d := withF.disk) rfl).trans withF_sound.1.working.calm_eq

lemma faultyF_wellFormed : WellFormed withF.sb faultyF.calm := by
  rw [faultyF_calm]
  exact withF_sound.1

lemma faultyF_addressed : Addressed withF.sb faultyF.calm := by
  rw [faultyF_calm]
  exact withF_sound.2

theorem failed_write_faultyF :
    let d' := (fsWrite withF.sb pathF fsFile (fun _ => 2) 3 faultyF).2
    (∀ n buf max, (n = pathF → ¬ Rewrites withF.sb faultyF pathF 3 ∨
        dataLanded withF.sb pathF 3 faultyF = 0) →
      fsRead withF.sb n buf max d'.calm = ((fsRead withF.sb n buf max faultyF.calm).1,
        (fsRead withF.sb n buf max faultyF.calm).2.1, d'.calm)) ∧
    ∀ k, slotOf withF.sb faultyF pathF = some k →
      slotOf withF.sb d' pathF = some k ∧ entry withF.sb d' k = entry withF.sb faultyF k ∧
      ∀ i < (entry withF.sb faultyF k).size, fileByte d' (entry withF.sb faultyF k).lba i =
        if sectorsOf 3 ≤ sectorsOf (entry withF.sb faultyF k).size ∧
            i / 512 < dataLanded withF.sb pathF 3 faultyF then
          (Sector.ofMem (padSector (fun _ => 2) 3 (i / 512))).mem (i % 512)
        else fileByte faultyF (entry withF.sb faultyF k).lba i :=
  failed_write faultyF_wellFormed faultyF_addressed pathF fsFile (fun _ => 2) (by decide)
    (by decide +kernel)

/-- **A rewrite of `f` that fails at its directory slot has already replaced the contents.** -/
theorem failed_rewrite :
    WellFormed withF.sb faultyF.calm ∧ Addressed withF.sb faultyF.calm ∧
      (fsWrite withF.sb pathF fsFile (fun _ => 2) 3 faultyF).1 = -1 ∧
      (fsRead withF.sb pathF (fun _ => 0) 3 faultyF.calm).2.1 0 = 1 ∧
      (fsRead withF.sb pathF (fun _ => 0) 3
        (fsWrite withF.sb pathF fsFile (fun _ => 2) 3 faultyF).2.calm).2.1 0 = 2 := by
  refine ⟨faultyF_wellFormed, faultyF_addressed, by decide +kernel, ?_, ?_⟩
  · rw [fsRead_working faultyF.calm_working]
    decide +kernel
  · rw [fsRead_working (Disk.calm_working _)]
    decide +kernel

end LunariaOS.Fs
