import LunariaOS.Fs.Durable
import LunariaOS.Fs.Table
import LunariaOS.Fs.Frame

/-!
What a success code is worth.

A call that returns 0 should have left a file that `fs_find` finds, with its data in its sectors.
Two kinds of calls break this. An entry with an empty name is taken for a free slot, and a size of
more than `2^32 - 512` bytes makes the count of sectors wrap around to nothing.
-/

namespace LunariaOS.Fs

open LunariaOS.Lib

variable {sb : Superblock} {d : Disk}

/-- `fs_find` finds `name`, with `size` bytes in `⌈size/512⌉` sectors that hold the data. -/
def Stored (sb : Superblock) (d : Disk) (name : CStr) (data : Mem) (size : ℕ) : Prop :=
  ∃ e, (fsFind sb name d).1 = some e ∧ e.size = size ∧
    ∀ k < ceilSectors size, ∀ i < 512, 512 * k + i < size →
      (d.sectors (e.lba + k)).mem i = data (512 * k + i)

lemma stored_of_view (hd : Sound sb d) {name : CStr} {type : UInt8} {data : Mem} {size : ℕ}
    (hs : size ≤ 4294966784) (hv : view sb d name = some ⟨type, (List.range size).map data⟩) :
    Stored sb d name data size := by
  unfold view at hv
  obtain ⟨j, hj, hfile⟩ := Option.map_eq_some_iff.mp hv
  obtain ⟨hlt, hn⟩ := slotOf_some hj
  have hsize : (entry sb d j).size = size := by
    have := congrArg (List.length ∘ File.bytes) hfile
    simpa using this
  refine ⟨entry sb d j, by rw [fsFind_working hd.working, hj]; rfl, hsize, fun k hk i hi hin => ?_⟩
  have hcount : sectorsOf size = ceilSectors size := ceilSectors_eq hs
  have hend := hd.ends j hlt hn.1
  rw [hsize, hcount] at hend
  have hbytes := congrArg File.bytes hfile
  unfold fileAt at hbytes
  simp only [hsize] at hbytes
  have hbyte := List.map_inj_left.mp hbytes (512 * k + i) (List.mem_range.mpr hin)
  have hdiv : (512 * k + i) / 512 = k := by omega
  have hmod : (512 * k + i) % 512 = i := by omega
  rw [hdiv, if_pos (by omega)] at hbyte
  unfold fileByte at hbyte
  rwa [hdiv, hmod, u32_of_lt (by omega)] at hbyte

/-- No slot goes by the empty name: an entry without a name is a free slot. -/
lemma slotOf_empty {name : CStr} (h : name.bytes = []) : slotOf sb d name = none := by
  cases hk : slotOf sb d name with
  | none => rfl
  | some k =>
    obtain ⟨-, hl, hname⟩ := slotOf_some hk
    rw [h] at hname
    have hpos : 512 - 32 * (k % 16) = 511 - 32 * (k % 16) + 1 := by omega
    unfold nameFrom at hname
    rw [hpos, List.range_succ_eq_map] at hname
    simp only [List.map_cons, cstr, Nat.add_zero] at hname
    unfold Live at hl
    rw [List.takeWhile_cons_of_pos (by simpa using hl)] at hname
    cases hname

/-- A write whose count of sectors is zero does not look at the data. -/
lemma fsWrite_no_sectors {size : ℕ} (h : sectorsOf size = 0) (name : CStr) (type : UInt8)
    (data data' : Mem) :
    fsWrite sb name type data' size d = fsWrite sb name type data size d := by
  have hentry : writeEntry sb name type data' size d = writeEntry sb name type data size d := by
    unfold writeEntry
    simp only [h, writeLoop]
  rw [fsWrite, fsWrite, hentry]

/-- The count of sectors wraps around for the sizes above `2^32 - 512`. -/
lemma sectorsOf_wrap {size : ℕ} (h : 4294966784 < size) (hs : size < 4294967296) :
    sectorsOf size = 0 := by
  unfold sectorsOf u32
  omega

/-- A write gets as far as its data when its name is short enough, its parent is there and the
directory has a slot for it, its own or a free one. -/
lemma canWrite_iff (hL : Layout sb) (hsec : sb.dirSectors ≤ 2147483648) (name : CStr) :
    CanWrite sb d name ↔ name.length < fsMaxName ∧ ParentFound sb d name ∧
      ∃ k < slotCount sb, ¬ Live sb d k ∨ Named sb d name k := by
  unfold CanWrite
  refine and_congr_right fun _ => and_congr_right fun _ => ?_
  have hok := scan_ok (d := d) hL.sectors_lt name
  have hdiv : ∀ k < slotCount sb, k / 16 < 2147483648 := by
    intro k hk
    unfold slotCount at hk
    omega
  cases hf : (scan sb d name).found with
  | true =>
    obtain ⟨k, hk, hn, -, -, -, hneg⟩ := hok.hit hf
    refine iff_of_true ?_ ⟨k, hk, Or.inr hn⟩
    by_contra hlt
    have := hneg (not_le.mp hlt)
    have := hdiv k hk
    omega
  | false =>
    constructor
    · intro hs
      obtain ⟨k, hk, hl, -⟩ := hok.slot hf hs
      exact ⟨k, hk, Or.inl hl⟩
    · rintro ⟨k, hk, hl | hn⟩
      · by_contra hlt
        exact hl (hok.free hf (not_le.mp hlt) k hk (hdiv k hk))
      · exact absurd hn (hok.miss hf k hk)

/-- On a working disk `fs_write` returns 0 exactly when it gets as far as its data. -/
lemma fsWrite_rc (hw : d.Working) (hN : sb.dirSectors < 4294967296) (name : CStr) (type : UInt8)
    (data : Mem) (size : ℕ) :
    (fsWrite sb name type data size d).1 = 0 ↔ CanWrite sb d name := by
  rw [fsWrite_working hw hN]
  split_ifs with h
  · refine iff_of_true ?_ h
    split <;> rfl
  · exact iff_of_false (by simp) h

lemma fsWrite_sound (h : WellFormed sb d) {name : CStr} {type : UInt8} {data : Mem} {size : ℕ}
    (hs : size < 4294967296) (hfit : WriteFits sb name type data size d) :
    Sound sb (fsWrite sb name type data size d).2 := by
  have hroom : dirBufSize ≤ max size dirBufSize := le_max_right _ _
  have hlt : max size dirBufSize < 4294967296 := max_lt hs (by decide)
  exact ((write_append_rule h.layout (S := Set.univ) (fun _ _ _ _ => trivial) hroom hlt
    (P := fun _ => True) (fun _ _ _ _ _ => trivial)).1 name type data size d trivial
    (le_max_left _ _) h.sound trivial hfit).1

/-- A stored file lies in the sectors that were written, whatever the data: exactly when it has a
name and its size does not make the count of sectors wrap around. -/
lemma stored_iff (h : WellFormed sb d) (ha : Addressed sb d) (name : CStr) (type : UInt8) {size : ℕ}
    (hs : size < 4294967296) (hc : CanWrite sb d name) :
    (∀ data, Stored sb (fsWrite sb name type data size d).2 name data size) ↔
      name.bytes ≠ [] ∧ size ≤ 4294966784 := by
  have hfit := fun data => ha.fits h name type data hs
  have hsound := fun data => fsWrite_sound h hs (hfit data)
  constructor
  · intro hall
    by_contra hno
    by_cases hname : name.bytes = []
    · obtain ⟨e, he, -⟩ := hall fun _ => 0
      rw [fsFind_working (hsound _).working, slotOf_empty hname] at he
      cases he
    · have hbig : 4294966784 < size := by
        by_contra hle
        exact hno ⟨hname, by omega⟩
      have hnone := sectorsOf_wrap hbig hs
      -- the file found does not depend on the data, so it is not the one with another first byte
      obtain ⟨e, he, hsize, -⟩ := hall fun _ => 0
      have hd' := fun data => congrArg Prod.snd
        (@fsWrite_no_sectors sb d _ hnone name type (fun _ => 0) data)
      obtain ⟨e', he', -, hbyte⟩ := hall fun _ =>
        ((fsWrite sb name type (fun _ => 0) size d).2.sectors e.lba).mem 0 + 1
      rw [hd'] at he' hbyte
      obtain rfl := Option.some.inj (he'.symm.trans he)
      have h0 := hbyte 0 (by unfold ceilSectors; omega) 0 (by omega) (by omega)
      rw [Nat.add_zero] at h0
      generalize ((fsWrite sb name type (fun _ => 0) size d).2.sectors e'.lba).mem 0 = b at h0
      exact absurd h0 (by simp)
  · rintro ⟨hname, hle⟩ data
    have hrc := (fsWrite_rc h.working h.layout.sectors_lt name type data size).mpr hc
    exact stored_of_view (hsound data) hle (fsWrite_view h hname type data hle (hfit data) hrc)

/-- **When a success code means that the file is there.** For `fs_write` with any name, type, size
and data on a working disk, and for an `fs_close` after any calls on handles: exactly when the call
fails, or the name is not empty and the size is at most `2^32 - 512`. -/
theorem success_stored {s : State} (hs : ∀ i, (s.handles i).used = false) (l : List Op) :
    let s' := (run Table.step (Table.start s) l).state
    WellFormed s'.sb s'.disk → Addressed s'.sb s'.disk →
    (∀ name type size, size < 4294967296 →
      ((∀ data, (fsWrite s'.sb name type data size s'.disk).1 = 0 →
          Stored s'.sb (fsWrite s'.sb name type data size s'.disk).2 name data size) ↔
        (CanWrite s'.sb s'.disk name → name.bytes ≠ [] ∧ size ≤ 4294966784))) ∧
    ∀ i, s'.Writer i →
      (((fsClose s' (fdOf i)).1 = 0 → Stored s'.sb (fsClose s' (fdOf i)).2.disk
          (s'.handles i).name s'.wbuf (s'.handles i).wlen) ↔
        (CanWrite s'.sb s'.disk (s'.handles i).name → (s'.handles i).name.bytes ≠ [])) := by
  intro s' hwf ha
  have hN := hwf.layout.sectors_lt
  refine ⟨fun name type size hsize => ?_, fun i hi => ?_⟩
  · simp only [fsWrite_rc hwf.working hN]
    constructor
    · exact fun h hc => (stored_iff hwf ha name type hsize hc).mp fun data => h data hc
    · exact fun h data hc => (stored_iff hwf ha name type hsize hc).mpr (h hc) data
  · have hlen := (run_table_ok hs l).oneWriter.wlen_le i hi
    have hlt : (s'.handles i).wlen < 4294967296 := lt_of_le_of_lt hlen (by decide)
    have hle : (s'.handles i).wlen ≤ 4294966784 := hlen.trans (by decide)
    rw [(fsClose_writer hi.1 hi.2).1, (fsClose_writer hi.1 hi.2).2, fsWrite_rc hwf.working hN]
    refine forall_congr' fun hc => ?_
    constructor
    · rintro ⟨e, he, -⟩ hname
      have hfit := ha.fits hwf (s'.handles i).name (s'.handles i).type s'.wbuf hlt
      have hd := fsWrite_sound hwf hlt hfit
      rw [fsFind_working hd.working, slotOf_empty hname] at he
      cases he
    · exact fun hname => (stored_iff hwf ha _ _ hlt hc).mpr ⟨hname, hle⟩ _

theorem success_stored_blank :
    let s' := (run Table.step (Table.start blank) tableCalls).state
    WellFormed s'.sb s'.disk ∧ Addressed s'.sb s'.disk ∧
    ∀ name type size, size < 4294967296 →
      ((∀ data, (fsWrite s'.sb name type data size s'.disk).1 = 0 →
          Stored s'.sb (fsWrite s'.sb name type data size s'.disk).2 name data size) ↔
        (CanWrite s'.sb s'.disk name → name.bytes ≠ [] ∧ size ≤ 4294966784)) :=
  ⟨blank_wellFormed, blank_addressed,
    (success_stored (s := blank) (fun _ => rfl) tableCalls blank_wellFormed blank_addressed).1⟩

/-- **A write under the empty name succeeds, and the file is not there.** -/
theorem empty_name_lost :
    WellFormed blank.sb blank.disk ∧ Addressed blank.sb blank.disk ∧
      (fsWrite blank.sb CStr.empty fsFile (fun _ => 7) 1 blank.disk).1 = 0 ∧
      ¬ Stored blank.sb (fsWrite blank.sb CStr.empty fsFile (fun _ => 7) 1 blank.disk).2 CStr.empty
        (fun _ => 7) 1 := by
  refine ⟨blank_wellFormed, blank_addressed, by decide +kernel, fun h => ?_⟩
  obtain ⟨e, he, -⟩ := h
  have hnone : (fsFind blank.sb CStr.empty
      (fsWrite blank.sb CStr.empty fsFile (fun _ => 7) 1 blank.disk).2).1.isNone := by
    decide +kernel
  rw [he] at hnone
  cases hnone

end LunariaOS.Fs
