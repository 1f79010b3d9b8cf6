import Mathlib.Data.Set.Card
import LunariaOS.Fs.Ls
import LunariaOS.Fs.Success

/-!
The file system as a store with a bound.

A disk has room for as many files as the directory has slots. So whether a write succeeds is read off
the map that the disk holds (`canWrite_view`), and each call on a disk with a little room left is a
step on the map (`Backed`).
-/

namespace LunariaOS.Fs

open LunariaOS.Lib

/-! ### Slots and paths -/

namespace FileMap

variable (m : FileMap) (n : ℕ)

/-- The map has `n` files or more. -/
def Full : Prop := n ≤ {name | m name ≠ none}.ncard

/-- A map with room for `n` files takes a file under `name`. -/
def Storable (name : CStr) : Prop :=
  name.length < fsMaxName ∧ m.HasParent name ∧ (m name ≠ none ∨ ¬ m.Full n)

end FileMap

section Slots

variable {sb : Superblock} {d : Disk}

open Classical in
/-- The slots in use. -/
noncomputable def liveSlots (sb : Superblock) (d : Disk) : Finset ℕ :=
  (Finset.range (slotCount sb)).filter (Live sb d)

/-- The path in a slot. -/
def pathOf (sb : Superblock) (d : Disk) (k : ℕ) : CStr := ⟨nameOf sb d k, zero_notMem_cstr _⟩

/-- The paths of the map are those in the slots in use. -/
lemma support_view (hd : DirOk sectorsOf sb d) :
    {name | view sb d name ≠ none} = pathOf sb d '' liveSlots sb d := by
  ext name
  rw [Set.mem_ofPred_eq, ne_eq, view_eq_none, slotOf_eq_none_iff, Set.mem_image]
  push Not
  refine exists_congr fun k => ?_
  unfold liveSlots
  rw [Finset.mem_coe, Finset.mem_filter, Finset.mem_range, and_assoc]
  refine and_congr_right fun hk => ?_
  rw [hd.named_iff hk]
  refine and_congr_right fun _ => ?_
  constructor
  · rintro h
    exact CStr.ext h
  · rintro rfl
    rfl

lemma pathOf_injOn (hd : DirOk sectorsOf sb d) : Set.InjOn (pathOf sb d) (liveSlots sb d) := by
  intro j hj k hk h
  unfold liveSlots at hj hk
  rw [Finset.mem_coe, Finset.mem_filter, Finset.mem_range] at hj hk
  exact hd.uniq j hj.1 k hk.1 hj.2 hk.2 (congrArg CStr.bytes h)

/-- The map is full when every slot is in use. -/
lemma full_view (hd : DirOk sectorsOf sb d) :
    (view sb d).Full (slotCount sb) ↔ ∀ k < slotCount sb, Live sb d k := by
  unfold FileMap.Full
  rw [support_view hd, (pathOf_injOn hd).ncard_image, Set.ncard_coe_finset]
  have hle : (liveSlots sb d).card ≤ (Finset.range (slotCount sb)).card := Finset.card_filter_le _ _
  rw [Finset.card_range] at hle
  rw [hle.ge_iff_eq]
  have hiff : (liveSlots sb d).card = (Finset.range (slotCount sb)).card ↔
      ∀ k ∈ Finset.range (slotCount sb), Live sb d k := Finset.card_filter_eq_iff
  rw [Finset.card_range] at hiff
  rw [hiff]
  simp only [Finset.mem_range]

/-- **Whether a write gets as far as its data is read off the map.** -/
theorem canWrite_view (hd : DirOk sectorsOf sb d) (hL : Layout sb)
    (hsec : sb.dirSectors ≤ 2147483648) (name : CStr) :
    CanWrite sb d name ↔ (view sb d).Storable (slotCount sb) name := by
  unfold FileMap.Storable
  rw [canWrite_iff hL hsec, hasParent_view, full_view hd, ne_eq, view_eq_none, slotOf_eq_none_iff]
  push Not
  refine and_congr_right fun _ => and_congr_right fun _ => ?_
  constructor
  · rintro ⟨k, hk, h | h⟩
    · exact Or.inr ⟨k, hk, h⟩
    · exact Or.inl ⟨k, hk, h⟩
  · rintro (⟨k, hk, h⟩ | ⟨k, hk, h⟩)
    · exact ⟨k, hk, Or.inr h⟩
    · exact ⟨k, hk, Or.inl h⟩

end Slots

/-! ### Calls -/

/-- The disk holds the map `m` and is well formed, and there is room for `k` writes of a sector. -/
structure Backed (sb : Superblock) (k : ℕ) (d : Disk) (m : FileMap) : Prop where
  ok : WellFormed sb d
  view_eq : view sb d = m
  slots : sb.dirSectors ≤ 2147483648
  room : ∃ t, sb.dataLba ≤ t ∧ EndsBy sectorsOf sb d t ∧ t + 89 * k ≤ 4294967295

section Calls

variable {sb : Superblock} {k : ℕ} {d d' : Disk} {m : FileMap} {name : CStr}

lemma Backed.mono {j : ℕ} (h : Backed sb k d m) (hj : j ≤ k) : Backed sb j d m := by
  obtain ⟨t, ht, he, hroom⟩ := h.room
  exact ⟨h.ok, h.view_eq, h.slots, t, ht, he, by omega⟩

lemma fsWrite_wellFormed (h : WellFormed sb d) {type : UInt8} {data : Mem} {size : ℕ}
    (hs : size ≤ 4294966784) (hfit : WriteFits sb name type data size d) :
    WellFormed sb (fsWrite sb name type data size d).2 := by
  have hroom : dirBufSize ≤ max size dirBufSize := le_max_right _ _
  have hle : max size dirBufSize ≤ 4294966784 := max_le hs (by decide)
  obtain ⟨hd, hz⟩ := (write_append_rule h.layout (S := Set.univ) (fun _ _ _ _ => trivial) hroom
    (by omega) (P := SizesOk sb) (fun _ hsize _ hz hwr => hwr.sizesOk hz (hsize.trans hle))).1
    name type data size d trivial (le_max_left _ _) h.sound h.sizes hfit
  exact hd.wellFormed h.layout hz

/-- **`fs_write` is a write of the map**, or it fails and changes nothing. -/
theorem Backed.write (h : Backed sb (k + 1) d m) (name : CStr) (type : UInt8) (data : Mem) {size : ℕ}
    (hs : size ≤ 512) :
    m.Storable (slotCount sb) name ∧ (fsWrite sb name type data size d).1 = 0 ∧
        Backed sb k (fsWrite sb name type data size d).2
          (m.write name ⟨type, (List.range size).map data⟩) ∨
      ¬ m.Storable (slotCount sb) name ∧ fsWrite sb name type data size d = (-1, d) := by
  obtain ⟨t, ht, he, hroom⟩ := h.room
  have hd := h.ok.sound
  have hsec : sectorsOf size ≤ 1 := by
    rw [sectorsOf_eq (by omega)]
    omega
  have hlt : size < 4294967296 := by omega
  obtain ⟨hfit, he'⟩ := fsWrite_room h.ok.layout ht hd he name type data hlt (by omega)
  have hcan := canWrite_view hd.dirOk h.ok.layout h.slots name
  rw [h.view_eq] at hcan
  rcases fsWrite_refines h.ok.layout h.slots hd type data hlt hfit with
    ⟨hc, hrc, hv⟩ | ⟨hc, hrc⟩
  · rw [h.view_eq, storedBytes_eq data (by omega)] at hv
    exact Or.inl ⟨hcan.mp hc, hrc, fsWrite_wellFormed h.ok (by omega) hfit, hv, h.slots,
      t + sectorsOf size + 88, by omega, he', by omega⟩
  · exact Or.inr ⟨fun hst => hc (hcan.mpr hst), hrc⟩

lemma Deleted.endsBy {j t : ℕ} (h : Deleted sb d d' j) (he : EndsBy sectorsOf sb d t) :
    EndsBy sectorsOf sb d' t := by
  intro i hi hl
  obtain ⟨hl', hij⟩ := (h.live hi).mp hl
  rw [h.entry_ne i hi hij]
  exact he i hi hl'

/-- **`fs_delete` takes a path out of the map**, or it fails and changes nothing. -/
theorem Backed.delete (h : Backed sb k d m) (name : CStr) :
    m name ≠ none ∧ (fsDelete sb name d).1 = 0 ∧ Backed sb k (fsDelete sb name d).2 (m.erase name) ∨
      m name = none ∧ fsDelete sb name d = (-1, d) := by
  have hd := h.ok.sound
  rw [fsDelete_working h.ok.working, ← h.view_eq, ne_eq, view_eq_none]
  cases hk : slotOf sb d name with
  | none => exact Or.inr ⟨rfl, rfl⟩
  | some j =>
    obtain ⟨hj, hn⟩ := slotOf_some hk
    have hdel := clearSlot_deleted h.ok.working h.ok.layout hj
    obtain ⟨t, ht, he, hroom⟩ := h.room
    exact Or.inl ⟨fun e => (by cases e), rfl,
      (hdel.sound hd).wellFormed h.ok.layout (hdel.sizesOk h.ok.sizes), hdel.view_eq hd hn, h.slots,
      t, ht, hdel.endsBy he, hroom⟩

end Calls

/-! ### Printing -/

/-- The first `n` bytes of the file that starts at the sector `lba`. -/
def fileBytes (d : Disk) (lba n : ℕ) : List UInt8 := (List.range n).map (fileByte d lba)

/-- What `cat` shows of a file: every sector up to its first NUL. -/
def catText (l : List UInt8) : List UInt8 :=
  if l = [] then [] else cstr (l.take 512) ++ catText (l.drop 512)
termination_by l.length
decreasing_by
  rename_i h
  have := List.length_pos_iff.mpr h
  rw [List.length_drop]
  omega

/-- What `ls` shows of the file of the directory `name`: every line without the first bytes, as many as
`name` and a slash have. -/
def lsText (name : CStr) (l : List UInt8) : List UInt8 :=
  (l.foldl (lsByte (fun t c => t ++ [c]) (u32 (name.length + 1))) ([], u32 (name.length + 1))).1

section Printing

variable {sb : Superblock} {d : Disk} {name : CStr} {lba : ℕ}

@[simp] lemma fileBytes_length (d : Disk) (lba n : ℕ) : (fileBytes d lba n).length = n := by
  simp [fileBytes]

/-- A file is its first sector, or the part of it that there is, and the rest. -/
lemma fileBytes_sector (d : Disk) (hlba : lba < 4294967296) (n : ℕ) :
    fileBytes d lba n =
      (List.range (if n < 512 then n else 512)).map (d.sectors lba).mem ++
        fileBytes d (u32 (lba + 1)) (n - if n < 512 then n else 512) := by
  have hhead : ∀ p ≤ 512, (List.range p).map (fileByte d lba) = (List.range p).map (d.sectors lba).mem := by
    intro p hp
    refine List.map_congr_left fun i hi => ?_
    have := List.mem_range.mp hi
    unfold fileByte
    rw [Nat.div_eq_of_lt (by omega), Nat.mod_eq_of_lt (by omega), Nat.add_zero, u32_of_lt hlba]
  unfold fileBytes
  split_ifs with h
  · rw [Nat.sub_self, List.range_zero, List.map_nil, List.append_nil, hhead n h.le]
  · obtain ⟨r, rfl⟩ := Nat.exists_eq_add_of_le (not_lt.mp h)
    rw [List.range_add, List.map_append, List.map_map, hhead 512 le_rfl, Nat.add_sub_cancel_left]
    congr 1
    refine List.map_congr_left fun i _ => ?_
    unfold fileByte u32
    dsimp only [Function.comp]
    rw [show (512 + i) / 512 = 1 + i / 512 by omega, show (512 + i) % 512 = i % 512 by omega,
      Nat.mod_add_mod, Nat.add_assoc]

lemma cstr_concat_zero (l : List UInt8) : cstr (l ++ [0]) = cstr l := by
  unfold cstr
  induction l with
  | nil => rfl
  | cons a l ih => simp only [List.cons_append, List.takeWhile_cons, ih]

/-- A NUL stored behind a text does not show. -/
lemma cstr_closed (buf : Mem) (n : ℕ) :
    cstr ((List.range (n + 1)).map (Function.update buf n 0)) = cstr ((List.range n).map buf) := by
  have htext : (List.range n).map (Function.update buf n 0) = (List.range n).map buf := by
    refine List.map_congr_left fun i hi => Function.update_of_ne ?_ _ _
    have := List.mem_range.mp hi
    omega
  rw [List.range_succ, List.map_append, List.map_singleton, Function.update_self, htext,
    cstr_concat_zero]

lemma catText_append {l r : List UInt8} (hl : l ≠ []) (h : l.length ≤ 512)
    (hr : r = [] ∨ l.length = 512) : catText (l ++ r) = cstr l ++ catText r := by
  rw [catText, if_neg (List.append_ne_nil_of_left_ne_nil hl r)]
  rcases hr with rfl | hr
  · rw [List.append_nil, List.take_of_length_le h, List.drop_eq_nil_of_le h]
  · rw [List.take_left' hr, List.drop_left' hr]

/-- **The loop of `fs_cat`.** -/
lemma catLoop_text (hw : d.Working) (n : ℕ) (hlba : lba < 4294967296) :
    ∃ stores, catLoop lba n d = (true, catText (fileBytes d lba n), stores, d) := by
  induction n using Nat.strong_induction_on generalizing lba with
  | _ n ih =>
    by_cases h0 : n = 0
    · subst h0
      rw [catLoop_zero]
      exact ⟨[], by simp [fileBytes, catText]⟩
    · have hp := sector_part h0
      have hrest : n - (if n < 512 then n else 512) = 0 ∨ (if n < 512 then n else 512) = 512 := by
        split_ifs <;> omega
      have hle : (if n < 512 then n else 512) ≤ 512 := by split_ifs <;> omega
      have hnext : u32 (lba + 1) < 4294967296 := Nat.mod_lt _ (by omega)
      obtain ⟨stores, hih⟩ := ih (n - if n < 512 then n else 512) (by omega) hnext
      rw [catLoop, if_neg h0, hw.read, fileBytes_sector d hlba n]
      dsimp only
      rw [hih, cstr_closed]
      generalize (if n < 512 then n else 512) = p at hp hrest hle ⊢
      refine ⟨p :: stores, ?_⟩
      rw [catText_append]
      · simpa using hp.2.ne'
      · simpa using hle
      · rcases hrest with h | h
        · exact Or.inl (by simp [fileBytes, h])
        · exact Or.inr (by simpa using h)

/-- **The loop of `fs_ls` over the file of a directory.** -/
lemma lsLoop_text {σ : Type} (hw : d.Working) (emit : σ → UInt8 → σ) (skip n : ℕ) (st : σ × ℕ)
    (hlba : lba < 4294967296) :
    lsLoop emit skip lba n st d = (true, ((fileBytes d lba n).foldl (lsByte emit skip) st).1, d) := by
  induction n using Nat.strong_induction_on generalizing lba st with
  | _ n ih =>
    by_cases h0 : n = 0
    · subst h0
      exact lsLoop_zero _ _ _ _ _
    · have hp := sector_part h0
      rw [lsLoop_step _ _ _ h0 _ (hw.read lba), fileBytes_sector d hlba n, List.foldl_append]
      exact ih _ (by omega) _ (Nat.mod_lt _ (by omega))

/-- A file of the map is its bytes on the disk. -/
lemma fileAt_bytes {k : ℕ} (h : (entry sb d k).size ≤ 4294966784) :
    (fileAt sb d k).bytes = fileBytes d (entry sb d k).lba (entry sb d k).size := by
  refine List.map_congr_left fun i hi => ?_
  have := List.mem_range.mp hi
  rw [if_pos (by rw [sectorsOf_eq h]; omega)]

/-- **`fs_cat` shows the file of the map.** -/
theorem fsCat_view (h : WellFormed sb d) (name : CStr) :
    match view sb d name with
    | none => (fsCat sb name d).rc = -1 ∧ (fsCat sb name d).out = [] ∧ (fsCat sb name d).disk = d
    | some f => (fsCat sb name d).rc = 0 ∧ (fsCat sb name d).out = catText f.bytes ++ [10] ∧
        (fsCat sb name d).disk = d := by
  unfold fsCat view
  rw [fsFind_working h.working]
  cases hk : slotOf sb d name with
  | none => exact ⟨rfl, rfl, rfl⟩
  | some k =>
    obtain ⟨hlt, hn⟩ := slotOf_some hk
    have hlba : (entry sb d k).lba < 4294967296 := Mem.ld32_lt _ _
    obtain ⟨stores, hloop⟩ := catLoop_text h.working (entry sb d k).size hlba
    dsimp only [Option.map_some]
    rw [hloop, fileAt_bytes (h.sizes k hlt hn.1)]
    exact ⟨rfl, rfl, rfl⟩

/-- **`fs_ls` shows the file of a directory of the map.** -/
theorem fsLs_view (h : WellFormed sb d) {name : CStr} (hname : name.bytes ≠ []) :
    fsLs sb (some name) d =
      match view sb d name with
      | none => (-1, [], d)
      | some f => (0, lsText name f.bytes, d) := by
  have hnamed : named (some name) = some name := by
    unfold named
    rw [Option.filter_some, if_pos (by simpa using hname)]
  unfold fsLs view
  rw [hnamed]
  dsimp only
  rw [fsFind_working h.working]
  cases hk : slotOf sb d name with
  | none => rfl
  | some k =>
    obtain ⟨hlt, hn⟩ := slotOf_some hk
    have hlba : (entry sb d k).lba < 4294967296 := Mem.ld32_lt _ _
    dsimp only [Option.map_some]
    rw [lsLoop_text h.working _ _ _ _ hlba, fileAt_bytes (h.sizes k hlt hn.1)]
    rfl

end Printing

end LunariaOS.Fs
