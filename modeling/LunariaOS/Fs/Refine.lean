import Mathlib.Data.List.GetD
import LunariaOS.Fs.Map
import LunariaOS.Fs.WellFormed

/-!
The directory and the data sectors refine the map from paths to files.

`view` reads the map off the disk. A single write replaces one file of the map and a delete takes
one away (`Written.view_eq`, `Deleted.view_eq`); a whole call of `fs_write` is `FileMap.write`
(`fsWrite_refines`).
-/

namespace LunariaOS.Fs

open LunariaOS.Lib

/-- The file in the slot number `k`. A byte past the sectors that the code counts for the file is
not kept anywhere and stands as zero; there is none in a file of at most `2^32 - 512` bytes. -/
def fileAt (sb : Superblock) (d : Disk) (k : ℕ) : File where
  type := (entry sb d k).type
  bytes := (List.range (entry sb d k).size).map fun i =>
    if i / 512 < sectorsOf (entry sb d k).size then fileByte d (entry sb d k).lba i else 0

/-- **The map from paths to files that the disk holds.** -/
def view (sb : Superblock) (d : Disk) : FileMap := fun name => (slotOf sb d name).map (fileAt sb d)

/-- The bytes of a file after `size` bytes of `data` are written to it. -/
def storedBytes (data : Mem) (size : ℕ) : List UInt8 :=
  (List.range size).map fun i => if i / 512 < sectorsOf size then data i else 0

lemma storedBytes_eq (data : Mem) {size : ℕ} (h : size ≤ 4294966784) :
    storedBytes data size = (List.range size).map data := by
  refine List.map_congr_left fun i hi => ?_
  have := List.mem_range.mp hi
  rw [if_pos (by rw [sectorsOf_eq h]; omega)]

@[simp] lemma storedBytes_length (data : Mem) (size : ℕ) :
    (storedBytes data size).length = size := by simp [storedBytes]

variable {sb : Superblock} {d d' : Disk}

@[simp] lemma fileAt_length (k : ℕ) : (fileAt sb d k).bytes.length = (entry sb d k).size := by
  simp [fileAt]

lemma view_eq_none {name : CStr} : view sb d name = none ↔ slotOf sb d name = none := by
  simp [view]

lemma hasParent_view {name : CStr} : (view sb d).HasParent name ↔ ParentFound sb d name :=
  forall₂_congr fun _ _ => not_congr view_eq_none

/-- Where the names, entries and data of a path agree, so does the map. -/
lemma view_congr {name : CStr}
    (hn : ∀ k < slotCount sb, (Named sb d' name k ↔ Named sb d name k))
    (hf : ∀ k < slotCount sb, Named sb d name k → fileAt sb d' k = fileAt sb d k) :
    view sb d' name = view sb d name := by
  have hs : slotOf sb d' name = slotOf sb d name :=
    List.find?_congr fun k hk => by simp [hn k (List.mem_range.mp hk)]
  unfold view
  rw [hs]
  cases h : slotOf sb d name with
  | none => rfl
  | some k =>
    obtain ⟨hk, hk'⟩ := slotOf_some h
    simp [hf k hk hk']

/-! ### One write and one delete -/

/-- A write leaves every other file alone. -/
lemma Written.fileAt_ne {name : CStr} {type : UInt8} {data : Mem} {size k lba : ℕ}
    (h : Written sb d d' name type data size k lba) (hd : Sound sb d) {j : ℕ}
    (hj : j < slotCount sb) (hl : Live sb d j) (hjk : j ≠ k) :
    fileAt sb d' j = fileAt sb d j := by
  unfold fileAt
  rw [h.entry_ne j hj hjk]
  congr 1
  refine List.map_congr_left fun i _ => ?_
  split_ifs with hc
  · exact h.fileByte_ne hd.dirOk hd.ends hj hl hjk hc
  · rfl

/-- **A write replaces one file.** -/
theorem Written.view_eq {name : CStr} {type : UInt8} {data : Mem} {size k lba : ℕ}
    (h : Written sb d d' name type data size k lba) (hd : Sound sb d) :
    view sb d' = (view sb d).store name ⟨type, storedBytes data size⟩ := by
  have hk := h.target.slot_lt
  have hd' := (h.sound hd).dirOk
  funext n
  by_cases hn : n = name
  · subst hn
    by_cases he : n.bytes = []
    · -- no entry has the empty name
      have hno : ∀ {d : Disk}, DirOk sectorsOf sb d → ∀ j < slotCount sb, ¬ Named sb d n j := by
        intro d hd j hj hnj
        obtain ⟨hl, e⟩ := (hd.named_iff hj).mp hnj
        exact nameOf_ne_nil hl (e.trans he)
      unfold FileMap.store
      rw [if_pos he, view_eq_none.mpr (slotOf_eq_none_iff.mpr (hno hd.dirOk)),
        view_eq_none.mpr (slotOf_eq_none_iff.mpr (hno hd'))]
    · have hnk : Named sb d' n k := (hd'.named_iff hk).mpr ⟨h.live_iff.mpr he, h.nameOf_eq⟩
      rw [FileMap.store_same he]
      unfold view
      rw [(hd'.slotOf_eq hk).mpr hnk]
      simp only [Option.map_some, Option.some.injEq]
      unfold fileAt storedBytes
      rw [h.entry_eq]
      change File.mk type ((List.range size).map fun i =>
        if i / 512 < sectorsOf size then fileByte d' lba i else 0) = _
      congr 1
      refine List.map_congr_left fun i hi => ?_
      split_ifs with hc
      · exact h.fileByte_eq (List.mem_range.mp hi) hc
      · rfl
  · rw [FileMap.store_ne _ hn]
    refine view_congr (fun j hj => ?_) fun j hj hnj => ?_
    · rw [hd'.named_iff hj, hd.dirOk.named_iff hj]
      by_cases hjk : j = k
      · subst hjk
        -- the slot holds `name` after the write, and held `name` or nothing before
        constructor
        · rintro ⟨-, e⟩
          exact absurd (CStr.ext (e.symm.trans h.nameOf_eq)) hn
        · rintro ⟨hl, e⟩
          rcases h.target.slot with hs | ⟨hs, -⟩
          · have e' := ((hd.dirOk.named_iff hj).mp hs).2
            exact absurd (CStr.ext (e.symm.trans e')) hn
          · exact absurd hl hs
      · rw [h.live_ne hj hjk, h.nameOf_ne hj hjk]
    · obtain ⟨hl, e⟩ := (hd.dirOk.named_iff hj).mp hnj
      refine h.fileAt_ne hd hj hl ?_
      rintro rfl
      rcases h.target.slot with hs | ⟨hs, -⟩
      · have e' := ((hd.dirOk.named_iff hj).mp hs).2
        exact hn (CStr.ext (e.symm.trans e'))
      · exact hs hl

/-- A delete leaves every other file alone. -/
lemma Deleted.fileAt_ne {k : ℕ} (h : Deleted sb d d' k) (hd : Sound sb d) {j : ℕ}
    (hj : j < slotCount sb) (hl : Live sb d j) (hjk : j ≠ k) : fileAt sb d' j = fileAt sb d j := by
  unfold fileAt
  rw [h.entry_ne j hj hjk]
  congr 1
  refine List.map_congr_left fun i _ => ?_
  split_ifs with hc
  · -- the sectors of a file lie in the data area
    have h1 := hd.ends j hj hl
    have h2 := hd.dirOk.above j hj hl (by omega)
    unfold fileByte
    rw [u32_of_lt (by omega), h.old _ (by omega)]
  · rfl

/-- **A delete takes one file away.** -/
theorem Deleted.view_eq {name : CStr} {k : ℕ} (h : Deleted sb d d' k) (hd : Sound sb d)
    (hn : Named sb d name k) : view sb d' = (view sb d).erase name := by
  have hk := h.slot_lt
  have hd' := (h.sound hd).dirOk
  have hnamed : ∀ n, ∀ j < slotCount sb, Named sb d' n j ↔ Named sb d n j ∧ j ≠ k := by
    intro n j hj
    rw [hd'.named_iff hj, hd.dirOk.named_iff hj, h.live hj]
    by_cases hjk : j = k
    · simp [hjk]
    · unfold nameOf
      rw [h.entry_ne j hj hjk]
      simp [hjk]
  funext n
  by_cases hnn : n = name
  · subst hnn
    rw [FileMap.erase_same, view_eq_none, slotOf_eq_none_iff]
    intro j hj hnj
    obtain ⟨hnj', hjk⟩ := (hnamed n j hj).mp hnj
    exact hjk (hd.dirOk.named_unique hj hk hnj' hn)
  · rw [FileMap.erase_ne hnn]
    have hne : ∀ {j}, j < slotCount sb → Named sb d n j → j ≠ k := by
      rintro j hj hnj rfl
      have e := ((hd.dirOk.named_iff hj).mp hnj).2
      exact hnn (CStr.ext (e.symm.trans ((hd.dirOk.named_iff hj).mp hn).2))
    refine view_congr (fun j hj => ?_) fun j hj hnj => ?_
    · rw [hnamed n j hj]
      exact ⟨And.left, fun hnj => ⟨hnj, hne hj hnj⟩⟩
    · exact h.fileAt_ne hd hj hnj.1 (hne hj hnj)

/-! ### Whole calls -/

/-- The bytes of a directory text after a line is added. -/
lemma storedBytes_appendText {k : ℕ} {path : CStr}
    (h : (entry sb d k).size + path.length + 1 < dirBufSize) :
    storedBytes (appendText d (entry sb d k) path) ((entry sb d k).size + path.length + 1) =
      (fileAt sb d k).bytes ++ line path := by
  unfold dirBufSize at h
  rw [storedBytes_eq _ (by omega)]
  refine List.ext_getElem (by simp [line_length]; omega) fun i h1 h2 => ?_
  rw [List.getElem_map, List.getElem_range]
  simp only [List.length_map, List.length_range] at h1
  unfold appendText appendLine
  by_cases hi : i < (entry sb d k).size
  · rw [Mem.blit_of_out _ _ (by omega), Mem.blit_of_in _ _ (by omega) (by omega),
      List.getElem_append_left (by simpa using hi)]
    have hc : i / 512 < sectorsOf (entry sb d k).size := by
      rw [sectorsOf_eq (by omega)]
      omega
    simp [fileAt, hc]
  · rw [Mem.blit_of_in _ _ (by omega) (by omega), List.getElem_append_right (by simpa using hi)]
    simp only [fileAt_length]
    unfold line
    by_cases hp : i - (entry sb d k).size < path.bytes.length
    · rw [List.getElem_append_left hp, List.getD_eq_getElem _ _ hp]
    · rw [List.getElem_append_right (by omega), List.getD_eq_default _ _ (by omega)]
      simp

/-- A name that is in the directory ends inside its field. -/
lemma slotOf_length (hd : DirOk sectorsOf sb d) {name : CStr} {k : ℕ}
    (h : slotOf sb d name = some k) : name.length < fsMaxName := by
  obtain ⟨hk, hn⟩ := slotOf_some h
  obtain ⟨hl, e⟩ := (hd.named_iff hk).mp hn
  have hm : nameOf sb d k ≠ (entry sb d k).name := fun e' => by
    have := hd.term k hk hl
    rw [← e'] at this
    exact zero_notMem_cstr _ this
  have hpre : (nameOf sb d k).length ≤ (entry sb d k).name.length :=
    (List.takeWhile_prefix _).length_le
  have hne : (nameOf sb d k).length ≠ (entry sb d k).name.length := fun e' =>
    hm ((List.takeWhile_prefix _).eq_of_length e')
  have h23 : (entry sb d k).name.length = fsMaxName := by simp [entry, entryAt]
  rw [e] at hpre hne
  unfold CStr.length
  omega

section Whole

variable (hL : Layout sb) (hsec : sb.dirSectors ≤ 2147483648)

include hL hsec

/-- A path that is in the directory can be rewritten as soon as its parent is there. -/
lemma canWrite_of_slotOf (hd : DirOk sectorsOf sb d) {name : CStr} {k : ℕ}
    (h : slotOf sb d name = some k) : CanWrite sb d name ↔ ParentFound sb d name := by
  obtain ⟨hk, hn⟩ := slotOf_some h
  have hslot : 0 ≤ (scan sb d name).slotSec := by
    have hok := scan_ok (d := d) hL.sectors_lt name
    cases hf : (scan sb d name).found with
    | false => exact absurd hn (hok.miss hf k hk)
    | true =>
      obtain ⟨j, hj, -, -, -, -, hneg⟩ := hok.hit hf
      by_contra hlt
      have := hneg (not_le.mp hlt)
      unfold slotCount at hj
      omega
  exact ⟨fun h => h.2.1, fun hp => ⟨slotOf_length hd h, hp, hslot⟩⟩

/-- **`fs_write` and `fs_append` refine the writes and appends of the map.** -/
theorem write_append_refines (n : ℕ) :
    (∀ name type data size d, 2 * name.length = n → Sound sb d → size < 4294967296 →
      WriteFits sb name type data size d → CanWrite sb d name →
      view sb (fsWrite sb name type data size d).2 =
        (view sb d).write name ⟨type, storedBytes data size⟩) ∧
    (∀ dir path d, 2 * dir.length + 1 = n → Sound sb d → AppendFits sb dir path d →
      view sb (fsAppend sb dir path d).2 = (view sb d).append dir path) := by
  induction n using Nat.strong_induction_on with
  | _ n ih =>
    refine ⟨fun name type data size d hn hd hs hfit hc => ?_, fun dir path d hn hd hfit => ?_⟩
    · rw [WriteFits] at hfit
      obtain ⟨hend, hup⟩ := hfit hc
      have hwr := writeDisk_written hd.working hL hd.dirOk type data hc hs hend
      rw [fsWrite_working hd.working hL.sectors_lt, if_pos hc, FileMap.write, ← hwr.view_eq hd]
      cases hp : parentDir name with
      | none => rfl
      | some p =>
        have hlt := parentDir_length hp
        exact (ih (2 * p.length + 1) (by omega)).2 p name _ rfl (hwr.sound hd) (hup p hp)
    · rw [AppendFits] at hfit
      rw [fsAppend_working hd.working]
      cases hk : slotOf sb d dir with
      | none =>
        rw [FileMap.append_of_not_takes]
        rintro ⟨f, hf, -⟩
        rw [view_eq_none.mpr hk] at hf
        cases hf
      | some k =>
        have hv : view sb d dir = some (fileAt sb d k) := by
          unfold view
          rw [hk]
          rfl
        have htakes : (view sb d).Takes dir path ↔
            (entry sb d k).size + path.length + 1 < dirBufSize ∧ CanWrite sb d dir := by
          rw [canWrite_of_slotOf hL hsec hd.dirOk hk, ← hasParent_view]
          unfold FileMap.Takes
          rw [hv]
          simp
        by_cases hroom : (entry sb d k).size + path.length + 1 < dirBufSize
        · simp only [if_pos hroom]
          have hfit' := hfit k hk hroom
          by_cases hc : CanWrite sb d dir
          · have ht := htakes.mpr ⟨hroom, hc⟩
            rw [(ih (2 * dir.length) (by omega)).1 dir _ _ _ d rfl hd
              (by unfold dirBufSize at hroom; omega) hfit' hc, storedBytes_appendText hroom]
            have hline : (view sb d).withLine dir path = ⟨fsDir, (fileAt sb d k).bytes ++ line path⟩ := by
              unfold FileMap.withLine
              rw [hv]
              rfl
            rw [FileMap.write, ← hline]
            cases hp : parentDir dir with
            | none => exact (FileMap.append_top ht hp).symm
            | some p => exact (FileMap.append_up ht hp).symm
          · rw [fsWrite_working hd.working hL.sectors_lt, if_neg hc,
              FileMap.append_of_not_takes fun h => hc (htakes.mp h).2]
        · simp only [if_neg hroom]
          rw [FileMap.append_of_not_takes fun h => hroom (htakes.mp h).1]

/-- **`fs_write` refines the write of one file of the map.** -/
theorem fsWrite_refines (hd : Sound sb d) {name : CStr} (type : UInt8) (data : Mem) {size : ℕ}
    (hs : size < 4294967296) (hfit : WriteFits sb name type data size d) :
    CanWrite sb d name ∧ (fsWrite sb name type data size d).1 = 0 ∧
        view sb (fsWrite sb name type data size d).2 =
          (view sb d).write name ⟨type, storedBytes data size⟩ ∨
      ¬ CanWrite sb d name ∧ fsWrite sb name type data size d = (-1, d) := by
  by_cases hc : CanWrite sb d name
  · refine Or.inl ⟨hc, ?_, ?_⟩
    · rw [fsWrite_working hd.working hL.sectors_lt, if_pos hc]
    · exact (write_append_refines hL hsec _).1 name type data size d rfl hd hs hfit hc
  · refine Or.inr ⟨hc, ?_⟩
    rw [fsWrite_working hd.working hL.sectors_lt, if_neg hc]

end Whole

/-! ### Reading -/

/-- **`fs_read` delivers the file of the map.** -/
theorem fsRead_view (hw : d.Working) {name : CStr} {f : File} (h : view sb d name = some f)
    (hs : f.bytes.length ≤ 4294966784) (buf : Mem) (max : ℕ) (hmax : f.bytes.length ≤ max) :
    fsRead sb name buf max d =
      (i32 f.bytes.length, buf.blit 0 f.bytes.length fun i => f.bytes.getD i 0, d) := by
  rw [fsRead_working hw]
  unfold view at h
  cases hk : slotOf sb d name with
  | none => rw [hk] at h; cases h
  | some k =>
    rw [hk] at h
    obtain rfl := Option.some.inj h
    simp only [fileAt_length] at hs hmax ⊢
    rw [if_pos hmax]
    congr 2
    refine Mem.blit_congr _ fun i hi => ?_
    have hc : i / 512 < sectorsOf (entry sb d k).size := by
      rw [sectorsOf_eq hs]
      omega
    rw [List.getD_eq_getElem _ _ (by simpa using hi)]
    simp [fileAt, hc]

end LunariaOS.Fs
