import LunariaOS.Lib.Extent
import LunariaOS.Fs.Write

/-!
The invariant of the directory, and what one write does to it.

`DirOk` is the well-formedness of a directory: names end inside their field, names are distinct,
files lie in the data area and do not overlap. It is stated for any way `cnt` of counting the
sectors of a file, because the code's count, `sectorsOf`, wraps around for sizes past `2^32 - 512`,
and agrees with the exact one, `ceilSectors`, below. `Written` is all that a write does to the
directory and to the data, and everything later is derived from it.
-/

namespace LunariaOS.Fs

open LunariaOS.Lib

/-- The directory lies before the data, inside the 32-bit sector numbers. -/
structure Layout (sb : Superblock) : Prop where
  dir_le : sb.dirLba + sb.dirSectors ≤ sb.dataLba
  data_lt : sb.dataLba < 4294967296

lemma Layout.sectors_lt {sb : Superblock} (h : Layout sb) : sb.dirSectors < 4294967296 := by
  have := h.dir_le
  have := h.data_lt
  omega

/-- The number of sectors that hold `size` bytes. -/
def ceilSectors (size : ℕ) : ℕ := (size + 511) / 512

/-- The name in the slot number `k`. -/
def nameOf (sb : Superblock) (d : Disk) (k : ℕ) : List UInt8 := cstr (entry sb d k).name

/-- The sectors of the file in the slot number `k`. -/
def extentOf (cnt : ℕ → ℕ) (sb : Superblock) (d : Disk) (k : ℕ) : Set ℕ :=
  extent (entry sb d k).lba (cnt (entry sb d k).size)

/-- **The directory is well formed.** -/
structure DirOk (cnt : ℕ → ℕ) (sb : Superblock) (d : Disk) : Prop where
  /-- Every name is NUL-terminated inside its 23 bytes. -/
  term : ∀ k < slotCount sb, Live sb d k → 0 ∈ (entry sb d k).name
  /-- No two live entries have the same name. -/
  uniq : ∀ j < slotCount sb, ∀ k < slotCount sb, Live sb d j → Live sb d k →
    nameOf sb d j = nameOf sb d k → j = k
  /-- A file that takes up sectors lies in the data area. -/
  above : ∀ k < slotCount sb, Live sb d k → 0 < cnt (entry sb d k).size →
    sb.dataLba ≤ (entry sb d k).lba
  /-- Distinct files do not overlap. -/
  disj : ∀ j < slotCount sb, ∀ k < slotCount sb, Live sb d j → Live sb d k → j ≠ k →
    Disjoint (extentOf cnt sb d j) (extentOf cnt sb d k)

/-- Every file ends, as `cnt` counts its sectors, at most at the sector number `top`. -/
def EndsBy (cnt : ℕ → ℕ) (sb : Superblock) (d : Disk) (top : ℕ) : Prop :=
  ∀ k < slotCount sb, Live sb d k → (entry sb d k).lba + cnt (entry sb d k).size ≤ top

/-- Every size is one for which the code's count of sectors does not wrap around. -/
def SizesOk (sb : Superblock) (d : Disk) : Prop :=
  ∀ k < slotCount sb, Live sb d k → (entry sb d k).size ≤ 4294966784

variable {sb : Superblock} {d d' : Disk}

/-! ### Names in the directory -/

lemma nameFrom_eq (buf : Mem) {i : ℕ} (hi : i < 16) :
    nameFrom buf i = (entryAt buf i).name ++
      (List.range (489 - 32 * i)).map fun k => buf (32 * i + (23 + k)) := by
  unfold nameFrom entryAt fsMaxName
  rw [show 512 - 32 * i = 23 + (489 - 32 * i) by omega, List.range_add, List.map_append,
    List.map_map]
  rfl

lemma named_iff_of_term {name : CStr} {k : ℕ} (ht : Live sb d k → 0 ∈ (entry sb d k).name) :
    Named sb d name k ↔ Live sb d k ∧ nameOf sb d k = name.bytes := by
  unfold Named
  refine and_congr_right fun hl => ?_
  have ht' : 0 ∈ (entryAt (slotMem sb d k) (k % 16)).name := ht hl
  rw [nameFrom_eq _ (Nat.mod_lt _ (by omega)), cstr_append_of_mem ht']
  rfl

lemma DirOk.named_iff {cnt : ℕ → ℕ} (h : DirOk cnt sb d) {name : CStr} {k : ℕ}
    (hk : k < slotCount sb) : Named sb d name k ↔ Live sb d k ∧ nameOf sb d k = name.bytes :=
  named_iff_of_term (h.term k hk)

lemma DirOk.named_unique {cnt : ℕ → ℕ} (h : DirOk cnt sb d) {name : CStr} {j k : ℕ}
    (hj : j < slotCount sb) (hk : k < slotCount sb) (nj : Named sb d name j)
    (nk : Named sb d name k) : j = k := by
  obtain ⟨lj, ej⟩ := (h.named_iff hj).mp nj
  obtain ⟨lk, ek⟩ := (h.named_iff hk).mp nk
  exact h.uniq j hj k hk lj lk (ej.trans ek.symm)

lemma DirOk.slotOf_eq {cnt : ℕ → ℕ} (h : DirOk cnt sb d) {name : CStr} {k : ℕ}
    (hk : k < slotCount sb) : slotOf sb d name = some k ↔ Named sb d name k := by
  constructor
  · exact fun e => (slotOf_some e).2
  · intro hn
    cases hs : slotOf sb d name with
    | none => exact absurd hn (slotOf_none hs hk)
    | some j =>
      obtain ⟨hj, hnj⟩ := slotOf_some hs
      rw [h.named_unique hj hk hnj hn]

lemma slotOf_eq_none_iff {name : CStr} :
    slotOf sb d name = none ↔ ∀ k < slotCount sb, ¬ Named sb d name k := by
  constructor
  · exact fun h k hk => slotOf_none h hk
  · intro h
    cases hs : slotOf sb d name with
    | none => rfl
    | some k => exact absurd (slotOf_some hs).2 (h k (slotOf_some hs).1)

/-- The first byte of the name says whether a slot is live. -/
lemma live_iff_name : Live sb d k ↔ (entry sb d k).name.head? ≠ some 0 := by
  unfold Live entry entryAt fsMaxName
  simp [List.range_succ_eq_map]

lemma nameOf_ne_nil (h : Live sb d k) : nameOf sb d k ≠ [] := by
  rw [live_iff_name] at h
  have hl : (entry sb d k).name.length = 23 := by simp [entry, entryAt, fsMaxName]
  unfold nameOf
  cases hn : (entry sb d k).name with
  | nil => rw [hn] at hl; simp at hl
  | cons b l =>
    rw [hn] at h
    simp only [List.head?_cons, ne_eq, Option.some.injEq] at h
    simp [cstr, h]

/-! ### What a new entry reads back as -/

lemma newEntry_name_length {name : CStr} (type : UInt8) (lba size : ℕ)
    (h : name.length < fsMaxName) : (newEntry name type lba size).name.length = 23 := by
  unfold newEntry fsMaxName CStr.length at *
  simp
  omega

lemma cstr_newEntry {name : CStr} (type : UInt8) (lba size : ℕ) (h : name.length < fsMaxName) :
    cstr (newEntry name type lba size).name = name.bytes := by
  unfold newEntry
  rw [show fsMaxName - name.length = (fsMaxName - name.length - 1) + 1 by omega,
    List.replicate_succ]
  exact cstr_append_zero name.noNul _

lemma zero_mem_newEntry {name : CStr} (type : UInt8) (lba size : ℕ)
    (h : name.length < fsMaxName) : 0 ∈ (newEntry name type lba size).name := by
  unfold newEntry
  rw [show fsMaxName - name.length = (fsMaxName - name.length - 1) + 1 by omega,
    List.replicate_succ]
  simp

lemma newEntry_live {name : CStr} (type : UInt8) (lba size : ℕ) (h : name.length < fsMaxName) :
    (newEntry name type lba size).name.head? ≠ some 0 ↔ name.bytes ≠ [] := by
  obtain ⟨l, hl⟩ := name
  unfold newEntry
  cases l with
  | nil =>
    simp [CStr.length, fsMaxName, List.replicate_succ]
  | cons b l =>
    have : b ≠ 0 := fun e => hl (by simp [e])
    simp [this]

/-! ### The directory after a slot is stored -/

lemma mem_eq_zero (s : Sector) {x : ℕ} (h : 512 ≤ x) : s.mem x = 0 := by
  unfold Sector.mem
  rw [dif_neg (by omega)]

section PutSlot

variable (hL : Layout sb) {k : ℕ} (hk : k < slotCount sb)

include hL hk

lemma slotMem_putSector {m : Mem} (hm : ∀ x, 512 ≤ x → m x = 0) {j : ℕ} (hj : j < slotCount sb) :
    slotMem sb (Disk.putSector sb d k m) j = if j / 16 = k / 16 then m else slotMem sb d j := by
  have h1 := hL.dir_le
  have h2 := hL.data_lt
  unfold slotCount at hj hk
  unfold slotMem Disk.putSector
  rw [Disk.put_sectors, u32_of_lt (by omega), u32_of_lt (by omega)]
  by_cases h : j / 16 = k / 16
  · rw [if_pos (by omega), if_pos h]
    funext x
    by_cases hx : x < 512
    · exact Sector.ofMem_mem _ hx
    · rw [mem_eq_zero _ (by omega), hm x (by omega)]
  · rw [if_neg (by omega), if_neg h]

/-- A sector that changes only inside one slot changes no other entry. -/
lemma entry_putSector_ne {m : Mem} (hm : ∀ x, 512 ≤ x → m x = 0)
    (hout : ∀ x, x < 32 * (k % 16) ∨ 32 * (k % 16) + 32 ≤ x → m x = slotMem sb d k x) {j : ℕ}
    (hj : j < slotCount sb) (h : j ≠ k) :
    entry sb (Disk.putSector sb d k m) j = entry sb d j := by
  unfold entry
  rw [slotMem_putSector hL hk hm hj]
  split_ifs with hs
  · refine entryAt_congr fun x _ _ => ?_
    rw [hout x (by omega)]
    unfold slotMem
    rw [hs]
  · rfl

lemma putSector_sectors (m : Mem) {l : ℕ} (hl : sb.dataLba ≤ l) :
    (Disk.putSector sb d k m).sectors l = d.sectors l := by
  have h1 := hL.dir_le
  have h2 := hL.data_lt
  unfold slotCount at hk
  unfold Disk.putSector
  rw [Disk.put_sectors, u32_of_lt (by omega), if_neg (by omega)]

omit hL hk in
/-- A change inside a sector leaves nothing past its end. -/
lemma blit_slot_zero {n : ℕ} (hn : n ≤ 32) (f : ℕ → UInt8) (x : ℕ) (hx : 512 ≤ x) :
    (slotMem sb d k).blit (32 * (k % 16)) n f x = 0 := by
  rw [Mem.blit_of_out _ _ (by omega)]
  exact mem_eq_zero _ hx

lemma entry_putSlot_ne (e : FileEntry) {j : ℕ} (hj : j < slotCount sb) (h : j ≠ k) :
    entry sb (Disk.putSlot sb d k e) j = entry sb d j :=
  entry_putSector_ne hL hk (blit_slot_zero le_rfl _) (fun _ _ => Mem.blit_of_out _ _ (by omega)) hj h

lemma entry_putSlot (e : FileEntry) (hn : e.name.length = 23) (hl : e.lba < 4294967296)
    (hs : e.size < 4294967296) : entry sb (Disk.putSlot sb d k e) k = e := by
  unfold entry Disk.putSlot
  rw [slotMem_putSector hL hk (m := putEntry (slotMem sb d k) (k % 16) e)
    (blit_slot_zero le_rfl _) hk, if_pos rfl]
  exact entryAt_putEntry _ _ hn hl hs

end PutSlot

/-- Sectors stored in the data area leave every slot as it is. -/
lemma slotMem_putData (hL : Layout sb) {lba n : ℕ} (data : Mem) (size : ℕ)
    (hlba : 0 < n → sb.dataLba ≤ lba) (htop : lba + n ≤ 4294967296) {j : ℕ}
    (hj : j < slotCount sb) :
    slotMem sb (Disk.putData lba data size n 0 d) j = slotMem sb d j := by
  have h1 := hL.dir_le
  have h2 := hL.data_lt
  unfold slotCount at hj
  unfold slotMem
  rw [putData_sectors data size d (by omega), u32_of_lt (by omega), if_neg (by omega)]

/-! ### Where a write goes -/

/-- The slot `k` and the first sector `lba` of a write of `size` bytes under `name`: the slot of the
name or a free one, and the old sectors of the file or ones past every file. -/
structure Target (sb : Superblock) (d : Disk) (name : CStr) (size k lba : ℕ) : Prop where
  slot_lt : k < slotCount sb
  slot : Named sb d name k ∨ (¬ Live sb d k ∧ ∀ j < slotCount sb, ¬ Named sb d name j)
  place : (Named sb d name k ∧ sectorsOf size ≤ sectorsOf (entry sb d k).size ∧
      lba = (entry sb d k).lba) ∨
    (sb.dataLba ≤ lba ∧ ∀ j < slotCount sb, Live sb d j → lastOf sb d j ≤ lba)

theorem target_of_canWrite (hL : Layout sb) {name : CStr} (size : ℕ) (hc : CanWrite sb d name) :
    Target sb d name size (writeSlot sb d name) (writeLba sb d name size) := by
  have hok := scan_ok (d := d) hL.sectors_lt name
  have past : sb.dataLba ≤ (scan sb d name).nextFree ∧
      ∀ j < slotCount sb, Live sb d j → lastOf sb d j ≤ (scan sb d name).nextFree :=
    ⟨hok.data_le, hok.last_le⟩
  cases hf : (scan sb d name).found with
  | true =>
    obtain ⟨k, hk, hn, hlba, hcap, hslot, -⟩ := hok.hit hf
    obtain ⟨h1, h2⟩ := hslot hc.2.2
    have hs : writeSlot sb d name = k := by
      unfold writeSlot
      omega
    rw [hs]
    refine ⟨hk, Or.inl hn, ?_⟩
    unfold writeLba Scan.writeLba
    rw [hf, hcap, hlba]
    by_cases hle : sectorsOf size ≤ sectorsOf (entry sb d k).size
    · exact Or.inl ⟨hn, hle, by simp [hle]⟩
    · exact Or.inr (by simpa [hle] using past)
  | false =>
    obtain ⟨k, hk, hl, h1, h2⟩ := hok.slot hf hc.2.2
    have hs : writeSlot sb d name = k := by
      unfold writeSlot
      omega
    rw [hs]
    refine ⟨hk, Or.inr ⟨hl, hok.miss hf⟩, Or.inr ?_⟩
    unfold writeLba Scan.writeLba
    rw [hf]
    simpa using past

section Target

variable {name : CStr} {size k lba : ℕ} (ht : Target sb d name size k lba)
  (hd : DirOk sectorsOf sb d) (he : EndsBy sectorsOf sb d 4294967295)

include he in
lemma lastOf_eq {j : ℕ} (hj : j < slotCount sb) (hl : Live sb d j) :
    lastOf sb d j = (entry sb d j).lba + sectorsOf (entry sb d j).size := by
  have := he j hj hl
  unfold lastOf
  rw [u32_of_lt (by omega)]

include ht hd he

/-- The sectors of a write belong to no other file. -/
lemma Target.fresh {j : ℕ} (hj : j < slotCount sb) (hl : Live sb d j) (hjk : j ≠ k) :
    Disjoint (extentOf sectorsOf sb d j) (extent lba (sectorsOf size)) := by
  rcases ht.place with ⟨hn, hle, rfl⟩ | ⟨-, hpast⟩
  · exact (hd.disj j hj k ht.slot_lt hl hn.1 hjk).mono_right (extent_mono hle)
  · have := hpast j hj hl
    rw [lastOf_eq he hj hl] at this
    exact disjoint_extent.mpr (by omega)

omit he in
lemma Target.above (h : 0 < sectorsOf size) : sb.dataLba ≤ lba := by
  rcases ht.place with ⟨hn, hle, rfl⟩ | ⟨h1, -⟩
  · exact hd.above k ht.slot_lt hn.1 (by omega)
  · exact h1

end Target

/-! ### All that a write does -/

/-- What a write of `size` bytes of `data` under `name` does to the disk, before the update of the
parent: it fills the slot `k` and the sectors from `lba` on. -/
structure Written (sb : Superblock) (d d' : Disk) (name : CStr) (type : UInt8) (data : Mem)
    (size k lba : ℕ) : Prop where
  working : d'.Working
  target : Target sb d name size k lba
  name_lt : name.length < fsMaxName
  parent : ParentFound sb d name
  fits : lba + sectorsOf size ≤ 4294967295
  entry_eq : entry sb d' k = newEntry name type lba size
  entry_ne : ∀ j < slotCount sb, j ≠ k → entry sb d' j = entry sb d j
  new : ∀ i < sectorsOf size, d'.sectors (lba + i) = Sector.ofMem (padSector data size i)
  old : ∀ l, sb.dataLba ≤ l → l ∉ extent lba (sectorsOf size) → d'.sectors l = d.sectors l

/-- The sector after the last one that a write of `size` bytes under `name` uses. -/
def endSector (sb : Superblock) (d : Disk) (name : CStr) (size : ℕ) : ℕ :=
  writeLba sb d name size + sectorsOf size

theorem writeDisk_written (hw : d.Working) (hL : Layout sb) (hd : DirOk sectorsOf sb d)
    {name : CStr} (type : UInt8) (data : Mem) {size : ℕ} (hc : CanWrite sb d name)
    (hs : size < 4294967296) (hfit : endSector sb d name size ≤ 4294967295) :
    Written sb d (writeDisk sb d name type data size) name type data size
      (writeSlot sb d name) (writeLba sb d name size) := by
  have ht := target_of_canWrite hL size hc
  have hk := ht.slot_lt
  unfold endSector at hfit
  set k := writeSlot sb d name with hkdef
  set lba := writeLba sb d name size with hlbadef
  set d1 := Disk.putData lba data size (sectorsOf size) 0 d with hd1
  have hwd : writeDisk sb d name type data size =
      Disk.putSlot sb d1 k (newEntry name type lba size) := rfl
  have hsec : ∀ l, d1.sectors l =
      if lba + 0 ≤ l ∧ l < lba + 0 + sectorsOf size then Sector.ofMem (padSector data size (l - lba))
      else d.sectors l := putData_sectors data size d (by omega)
  have habove := ht.above hd
  rw [hwd]
  refine ⟨(hw.putData lba data size _ 0).putSlot k _, ht, hc.1, hc.2.1, hfit, ?_, fun j hj hjk => ?_,
    fun i hi => ?_, fun l hl hout => ?_⟩
  · exact entry_putSlot hL hk _ (newEntry_name_length _ _ _ hc.1)
      (show lba < 4294967296 by omega) hs
  · rw [entry_putSlot_ne hL hk _ hj hjk]
    unfold entry
    rw [slotMem_putData hL data size habove (by omega) hj]
  · rw [Disk.putSlot, putSector_sectors hL hk _ (by have := habove (by omega); omega), hsec,
      if_pos (by omega), Nat.add_sub_cancel_left]
  · rw [Disk.putSlot, putSector_sectors hL hk _ hl, hsec, if_neg fun h => hout ⟨by omega, by omega⟩]

section Written

variable {name : CStr} {type : UInt8} {data : Mem} {size k lba : ℕ}
  (h : Written sb d d' name type data size k lba)

include h

lemma Written.live_ne {j : ℕ} (hj : j < slotCount sb) (hjk : j ≠ k) :
    Live sb d' j ↔ Live sb d j := by
  rw [live_iff_name, live_iff_name, h.entry_ne j hj hjk]

lemma Written.live_iff : Live sb d' k ↔ name.bytes ≠ [] := by
  rw [live_iff_name, h.entry_eq]
  exact newEntry_live type lba size h.name_lt

lemma Written.nameOf_eq : nameOf sb d' k = name.bytes := by
  unfold nameOf
  rw [h.entry_eq]
  exact cstr_newEntry type lba size h.name_lt

lemma Written.nameOf_ne {j : ℕ} (hj : j < slotCount sb) (hjk : j ≠ k) :
    nameOf sb d' j = nameOf sb d j := by
  unfold nameOf
  rw [h.entry_ne j hj hjk]

/-- No other live entry has the name that is written. -/
lemma Written.other_name (hd : DirOk sectorsOf sb d) {j : ℕ} (hj : j < slotCount sb)
    (hl : Live sb d j) (hjk : j ≠ k) : nameOf sb d j ≠ name.bytes := by
  intro e
  have hn : Named sb d name j := (hd.named_iff hj).mpr ⟨hl, e⟩
  rcases h.target.slot with hk | ⟨-, hno⟩
  · exact hjk (hd.named_unique hj h.target.slot_lt hn hk)
  · exact hno j hj hn

/-- **A write keeps the directory well formed.** -/
theorem Written.dirOk (hd : DirOk sectorsOf sb d) (he : EndsBy sectorsOf sb d 4294967295) :
    DirOk sectorsOf sb d' := by
  have fresh : ∀ j < slotCount sb, Live sb d j → j ≠ k →
      Disjoint (extentOf sectorsOf sb d j) (extent lba (sectorsOf size)) :=
    fun j hj hl hjk => h.target.fresh hd he hj hl hjk
  have ext_k : extentOf sectorsOf sb d' k = extent lba (sectorsOf size) := by
    unfold extentOf
    rw [h.entry_eq]
    rfl
  have ext_ne : ∀ {j}, j < slotCount sb → j ≠ k →
      extentOf sectorsOf sb d' j = extentOf sectorsOf sb d j := by
    intro j hj hjk
    unfold extentOf
    rw [h.entry_ne j hj hjk]
  refine ⟨fun j hj hl => ?_, fun i hi j hj li lj e => ?_, fun j hj hl hpos => ?_,
    fun i hi j hj li lj hij => ?_⟩
  · by_cases hjk : j = k
    · subst hjk
      rw [h.entry_eq]
      exact zero_mem_newEntry _ _ _ h.name_lt
    · rw [h.entry_ne j hj hjk]
      exact hd.term j hj ((h.live_ne hj hjk).mp hl)
  · by_cases hik : i = k
    · by_cases hjk : j = k
      · rw [hik, hjk]
      · rw [hik, h.nameOf_eq, h.nameOf_ne hj hjk] at e
        exact absurd e.symm (h.other_name hd hj ((h.live_ne hj hjk).mp lj) hjk)
    · by_cases hjk : j = k
      · rw [hjk, h.nameOf_eq, h.nameOf_ne hi hik] at e
        exact absurd e (h.other_name hd hi ((h.live_ne hi hik).mp li) hik)
      · rw [h.nameOf_ne hi hik, h.nameOf_ne hj hjk] at e
        exact hd.uniq i hi j hj ((h.live_ne hi hik).mp li) ((h.live_ne hj hjk).mp lj) e
  · by_cases hjk : j = k
    · subst hjk
      rw [h.entry_eq] at hpos ⊢
      exact h.target.above hd hpos
    · rw [h.entry_ne j hj hjk] at hpos ⊢
      exact hd.above j hj ((h.live_ne hj hjk).mp hl) hpos
  · by_cases hik : i = k
    · have hjk : j ≠ k := fun e => hij (hik.trans e.symm)
      rw [hik, ext_k, ext_ne hj hjk]
      exact (fresh j hj ((h.live_ne hj hjk).mp lj) hjk).symm
    · by_cases hjk : j = k
      · rw [hjk, ext_k, ext_ne hi hik]
        exact fresh i hi ((h.live_ne hi hik).mp li) hik
      · rw [ext_ne hi hik, ext_ne hj hjk]
        exact hd.disj i hi j hj ((h.live_ne hi hik).mp li) ((h.live_ne hj hjk).mp lj) hij

lemma Written.endsBy {top : ℕ} (he : EndsBy sectorsOf sb d top)
    (hle : lba + sectorsOf size ≤ top) : EndsBy sectorsOf sb d' top := by
  intro j hj hl
  by_cases hjk : j = k
  · subst hjk
    rw [h.entry_eq]
    exact hle
  · rw [h.entry_ne j hj hjk]
    exact he j hj ((h.live_ne hj hjk).mp hl)

lemma Written.sizesOk (hz : SizesOk sb d) (hs : size ≤ 4294966784) : SizesOk sb d' := by
  intro j hj hl
  by_cases hjk : j = k
  · subst hjk
    rw [h.entry_eq]
    exact hs
  · rw [h.entry_ne j hj hjk]
    exact hz j hj ((h.live_ne hj hjk).mp hl)

/-- A write leaves the bytes of every other file alone. -/
lemma Written.fileByte_ne (hd : DirOk sectorsOf sb d) (he : EndsBy sectorsOf sb d 4294967295)
    {j i : ℕ} (hj : j < slotCount sb) (hl : Live sb d j) (hjk : j ≠ k)
    (hi : i / 512 < sectorsOf (entry sb d j).size) :
    fileByte d' (entry sb d j).lba i = fileByte d (entry sb d j).lba i := by
  have h1 := he j hj hl
  have h2 := hd.above j hj hl (by omega)
  have hmem : (entry sb d j).lba + i / 512 ∈ extentOf sectorsOf sb d j := ⟨by omega, by omega⟩
  unfold fileByte
  rw [u32_of_lt (by omega),
    h.old _ (by omega) (notMem_of_disjoint (h.target.fresh hd he hj hl hjk) hmem)]

/-- A write stores its data, as far as its sectors go. -/
lemma Written.fileByte_eq {i : ℕ} (hi : i < size) (hc : i / 512 < sectorsOf size) :
    fileByte d' lba i = data i := by
  have h1 := h.fits
  unfold fileByte
  rw [u32_of_lt (by omega), h.new _ hc, Sector.ofMem_mem _ (Nat.mod_lt _ (by omega))]
  unfold padSector
  rw [Mem.blit_of_in _ _ (by omega) (by split_ifs <;> omega)]
  congr 1
  omega

end Written

end LunariaOS.Fs
