import LunariaOS.Fs.Faults
import LunariaOS.Fs.ReadFaults
import LunariaOS.Fs.Success

/-!
Opening a file for writing, and closing it again, under failing transfers.

`fs_find` returns -1 for a name that is not there and for a transfer that fails. `fs_open` with
`O_CREAT` takes both for an absent file, and then gives an empty handle for a file that is there;
the close writes the empty contents back. In every other case the handle holds the contents, and
what the close writes, however much of it gets to the disk, is what was there.
-/

namespace LunariaOS.Fs

open LunariaOS.Lib

variable {sb : Superblock} {d : Disk}

/-! ### Transfers that all succeed -/

lemma write_faults (lba : ℕ) (buf : Mem) (d : Disk) (h : (ataWriteSectors d lba buf).1 = true) :
    (ataWriteSectors d lba buf).2.calm = d.calm.put lba (Sector.ofMem buf) := by
  unfold ataWriteSectors at h ⊢
  simp only at h ⊢
  split_ifs at h ⊢
  rfl

/-- The data loop, when it ends well, has stored every sector. -/
lemma writeLoop_ok (lba : ℕ) (data : Mem) (size n k : ℕ) (d : Disk)
    (h : (writeLoop lba data size n k d).1 = true) :
    (writeLoop lba data size n k d).2.calm = Disk.putData lba data size n k d.calm := by
  induction n generalizing k d with
  | zero => rfl
  | succ n ih =>
    have hw := write_faults (u32 (lba + k)) (padSector data size k) d
    unfold writeLoop at h ⊢
    generalize ataWriteSectors d (u32 (lba + k)) (padSector data size k) = x at *
    obtain ⟨ok, d₁⟩ := x
    cases ok with
    | false => cases h
    | true =>
      simp only at h hw ⊢
      rw [ih _ _ h, hw trivial]
      rfl

/-- **A write that stores its directory slot** has done what it does on a working disk. -/
lemma writeEntry_ok (hN : sb.dirSectors < 4294967296) {name : CStr} {type : UInt8} {data : Mem}
    {size : ℕ} (h : (writeEntry sb name type data size d).1 = true) :
    CanWrite sb d.calm name ∧
      (writeEntry sb name type data size d).2.calm = writeDisk sb d.calm name type data size := by
  have key : writeEntry sb name type data size d.calm =
      (true, (writeEntry sb name type data size d).2.calm) := by
    unfold writeEntry at h ⊢
    by_cases hlen : name.length ≥ fsMaxName
    · simp only [if_pos hlen] at h
      cases h
    simp only [if_neg hlen] at h ⊢
    obtain ⟨hs, hp⟩ := @parentExists_faults sb name d
    rw [parentExists_working d.calm_working]
    generalize parentExists sb name d = x at *
    obtain ⟨ok, d₁⟩ := x
    cases ok with
    | false => cases h
    | true =>
      have hpf : ParentFound sb d.calm name := hp rfl
      simp only [hpf, decide_true] at h ⊢
      obtain ⟨hs', hm⟩ := @scanDir_faults sb name sb.dirSectors 0 (Scan.init sb) d₁
      rw [Disk.calm_eq hs, scanDir_eq_scan d.calm_working] at hm
      rw [scanDir_eq_scan d.calm_working]
      generalize scanDir sb name sb.dirSectors 0 (Scan.init sb) d₁ = x at *
      obtain ⟨r, d₂⟩ := x
      cases r with
      | none => cases h
      | some sc =>
        obtain rfl : scan sb d.calm name = sc := Option.some.inj (hm sc rfl)
        have hd₂ : d₂.calm = d.calm := Disk.calm_eq (hs'.trans hs)
        simp only at h ⊢
        split_ifs at h ⊢ with hslot
        have hw := @writeLoop_ok ((scan sb d.calm name).writeLba (sectorsOf size)) data size
          (sectorsOf size) 0 d₂
        rw [hd₂] at hw
        rw [writeLoop_working d.calm_working]
        generalize writeLoop ((scan sb d.calm name).writeLba (sectorsOf size)) data size
          (sectorsOf size) 0 d₂ = x at *
        obtain ⟨ok, d₃⟩ := x
        cases ok with
        | false => cases h
        | true =>
          simp only at h hw ⊢
          rw [← hw trivial]
          obtain ⟨hs₃, hr⟩ := read_faults d₃
            (u32 (sb.dirLba + (scan sb d.calm name).slotSec.toNat))
          generalize hx : ataReadSectors d₃
            (u32 (sb.dirLba + (scan sb d.calm name).slotSec.toNat)) = x at *
          obtain ⟨m, d₄⟩ := x
          cases m with
          | none => cases h
          | some m =>
            have hread := hr m rfl
            rw [d₃.calm_working.read] at hread ⊢
            obtain rfl := Option.some.inj hread
            simp only at h ⊢
            rw [d₃.calm_working.write, write_faults _ _ _ h, Disk.calm_eq hs₃]
  rw [writeEntry_working d.calm_working hN] at key
  split_ifs at key with hc
  · exact ⟨hc, (congrArg Prod.snd key).symm⟩
  · cases key

/-- A byte of the data in its sector. -/
lemma padSector_byte (data : Mem) {size i : ℕ} (hi : i < size) :
    (Sector.ofMem (padSector data size (i / 512))).mem (i % 512) = data i := by
  rw [Sector.ofMem_mem _ (Nat.mod_lt _ (by omega))]
  unfold padSector
  rw [Mem.blit_of_in _ _ (by omega) (by split_ifs <;> omega)]
  congr 1
  omega

/-- **A write that fails leaves the file map as it is**, apart from the file that it was to write; and
that one, too, when the data is what the file holds. -/
lemma view_of_failed {name : CStr} {type : UInt8} {data : Mem} {size : ℕ}
    (hfail : (writeEntry sb name type data size d).1 = false) (h : WellFormed sb d.calm)
    (hroom : CanWrite sb d name → endSector sb d name size ≤ 4294967295) {n : CStr}
    (hsame : n = name → ∀ k, slotOf sb d name = some k →
      (entry sb d k).size = size ∧ ∀ i < size, data i = fileByte d (entry sb d k).lba i) :
    view sb (writeEntry sb name type data size d).2 n = view sb d n := by
  obtain ⟨hd', hj, hc⟩ := writeEntry_failed hfail
  generalize (writeEntry sb name type data size d).2 = d' at hd' ⊢
  have hbyte := fun {n k} => failed_byte h hroom hj hc hd' (n := n) (k := k)
  unfold view
  rw [failed_slotOf h hroom hj hc hd']
  cases hk : slotOf sb d n with
  | none => rfl
  | some k =>
    have hentry := failed_entry h hroom hj hc hd' (slotOf_some hk).1
    simp only [Option.map_some]
    congr 1
    unfold fileAt
    rw [hentry]
    congr 1
    refine List.map_congr_left fun i hi => ?_
    have hi' := List.mem_range.mp hi
    rw [hbyte hk hi']
    by_cases hx : n = name ∧ sectorsOf size ≤ sectorsOf (entry sb d k).size ∧
        i / 512 < dataLanded sb name size d
    · rw [if_pos hx]
      obtain ⟨rfl, -, -⟩ := hx
      obtain ⟨hsize, hdata⟩ := hsame rfl k hk
      rw [padSector_byte data (by omega), hdata i (by omega)]
    · rw [if_neg hx]

/-! ### Reading -/

lemma lookup_ok {name : CStr} {r : Mem × ℕ × ℕ} (h : (lookup sb name sb.dirSectors 0 d).1 = some r) :
    ∃ k, slotOf sb d name = some k ∧ r = (slotMem sb d k, k / 16, k % 16) := by
  have hm := (@lookup_faults sb name sb.dirSectors 0 d).2 r h
  rw [lookup_eq_slotOf d.calm_working] at hm
  obtain ⟨k, hk, hr⟩ := Option.map_eq_some_iff.mp hm
  exact ⟨k, hk, hr.symm⟩

lemma fsFind_faults (name : CStr) (d : Disk) :
    (fsFind sb name d).2.sectors = d.sectors ∧
      ∀ e, (fsFind sb name d).1 = some e → ∃ k, slotOf sb d name = some k ∧ e = entry sb d k := by
  have hs := (@lookup_faults sb name sb.dirSectors 0 d).1
  have hok := @lookup_ok sb d name
  unfold fsFind
  generalize lookup sb name sb.dirSectors 0 d = x at *
  obtain ⟨r, d₁⟩ := x
  cases r with
  | none => exact ⟨hs, fun e he => by cases he⟩
  | some r =>
    obtain ⟨k, hk, rfl⟩ := hok rfl
    exact ⟨hs, fun e he => ⟨k, hk, (Option.some.inj he).symm⟩⟩

/-- The loop of `fs_read`: it changes no sector, and when it ends well the buffer holds the file. -/
lemma readLoop_faults (lba off remaining : ℕ) (buf : Mem) (d : Disk) :
    (readLoop lba off remaining buf d).2.2.sectors = d.sectors ∧
      ((readLoop lba off remaining buf d).1 = true →
        (readLoop lba off remaining buf d).2.1 = (readLoop lba off remaining buf d.calm).2.1) := by
  induction remaining using Nat.strong_induction_on generalizing off buf d with
  | _ n ih =>
    rw [readLoop, readLoop]
    by_cases h0 : n = 0
    · simp only [if_pos h0]
      exact ⟨trivial, fun _ => trivial⟩
    · simp only [if_neg h0]
      obtain ⟨hs, hm⟩ := read_faults d (u32 (lba + off / 512))
      rw [d.calm_working.read] at hm ⊢
      generalize ataReadSectors d (u32 (lba + off / 512)) = x at *
      obtain ⟨m, d₁⟩ := x
      cases m with
      | none => exact ⟨hs, fun h => by cases h⟩
      | some m =>
        obtain rfl := Option.some.inj (hm m rfl)
        simp only at hs ⊢
        have hlt : n - (if n < 512 then n else 512) < n := by split_ifs <;> omega
        obtain ⟨h1, h2⟩ := ih _ hlt (off + if n < 512 then n else 512)
          (buf.blit off (if n < 512 then n else 512)
            (d.calm.sectors (u32 (lba + off / 512))).mem) d₁
        rw [Disk.calm_eq hs] at h2
        exact ⟨h1.trans hs, h2⟩

/-- `fs_read`, when it does not return -1, delivers the file. -/
lemma fsRead_faults (name : CStr) (buf : Mem) (max : ℕ) (d : Disk) :
    (fsRead sb name buf max d).2.2.sectors = d.sectors ∧
      (0 ≤ (fsRead sb name buf max d).1 → ∃ k, slotOf sb d name = some k ∧
        (fsRead sb name buf max d).2.1 =
          buf.blit 0 (entry sb d k).size fun i => fileByte d (entry sb d k).lba i) := by
  obtain ⟨hs, hfind⟩ := @fsFind_faults sb name d
  unfold fsRead
  generalize fsFind sb name d = x at *
  obtain ⟨e, d₁⟩ := x
  cases e with
  | none => exact ⟨hs, fun h => by simp at h⟩
  | some e =>
    obtain ⟨k, hk, rfl⟩ := hfind e rfl
    simp only at hs ⊢
    split_ifs
    · exact ⟨hs, fun h => by simp at h⟩
    obtain ⟨h1, h2⟩ := readLoop_faults (entry sb d k).lba 0 (entry sb d k).size buf d₁
    rw [Disk.calm_eq hs, readLoop_working d.calm_working _ _ _ _ (dvd_zero _)] at h2
    generalize readLoop (entry sb d k).lba 0 (entry sb d k).size buf d₁ = x at *
    obtain ⟨ok, buf', d₂⟩ := x
    cases ok with
    | false => exact ⟨h1.trans hs, fun h => by simp at h⟩
    | true =>
      refine ⟨h1.trans hs, fun _ => ⟨k, hk, (h2 rfl).trans ?_⟩⟩
      simp only [Nat.zero_add]
      rfl

/-- A lookup gives a sector from the first one it looks at on. -/
lemma lookup_sec {name : CStr} {n sec : ℕ} {d : Disk} {r : Mem × ℕ × ℕ}
    (h : (lookup sb name n sec d).1 = some r) : sec ≤ r.2.1 := by
  induction n generalizing sec d with
  | zero => cases h
  | succ n ih =>
    unfold lookup at h
    generalize ataReadSectors d (u32 (sb.dirLba + sec)) = x at h
    obtain ⟨m, d₁⟩ := x
    cases m with
    | none => cases h
    | some m =>
      simp only at h
      cases hm : matchIn m name with
      | some i =>
        rw [hm] at h
        obtain rfl := Option.some.inj h
        exact le_rfl
      | none =>
        rw [hm] at h
        exact (Nat.le_succ sec).trans (ih h)

/-- **When a lookup gets through**: a name in the slot number `k` is found exactly when the transfers
of the directory sectors up to the one of the slot succeed. -/
lemma lookup_serves (name : CStr) (n sec : ℕ) (d : Disk) {r : Mem × ℕ × ℕ}
    (h : (lookup sb name n sec d.calm).1 = some r) :
    (lookup sb name n sec d).1 = some r ↔ d.Serves (r.2.1 - sec + 1) := by
  induction n generalizing sec d with
  | zero => cases h
  | succ n ih =>
    rw [serves_succ]
    unfold lookup at h ⊢
    rw [d.calm_working.read] at h
    unfold ataReadSectors
    cases hf : d.fault 0 with
    | true => simp
    | false =>
      simp only [Bool.false_eq_true, if_false, true_and] at h ⊢
      have hcalm : d.calm.sectors = d.sectors := rfl
      rw [hcalm] at h
      cases hm : matchIn (d.sectors (u32 (sb.dirLba + sec))).mem name with
      | some i =>
        rw [hm] at h
        obtain rfl := Option.some.inj h
        simp
      | none =>
        rw [hm] at h
        simp only at h ⊢
        have hnext := ih (sec + 1) { d with fault := fun k => d.fault (k + 1) } h
        rw [hnext]
        have hsec := lookup_sec h
        rw [show r.2.1 - sec = r.2.1 - (sec + 1) + 1 by omega]
        exact Iff.rfl

/-! ### Writing next to a file -/

lemma slotOf_sectors {d' : Disk} (h : d'.sectors = d.sectors) : slotOf sb d' = slotOf sb d := by
  obtain ⟨s, f⟩ := d
  obtain ⟨s', f'⟩ := d'
  cases h
  rfl

lemma entry_sectors {d' : Disk} (h : d'.sectors = d.sectors) : entry sb d' = entry sb d := by
  obtain ⟨s, f⟩ := d
  obtain ⟨s', f'⟩ := d'
  cases h
  rfl

lemma fileAt_sectors {d' : Disk} (h : d'.sectors = d.sectors) : fileAt sb d' = fileAt sb d := by
  obtain ⟨s, f⟩ := d
  obtain ⟨s', f'⟩ := d'
  cases h
  rfl

lemma view_sectors {d' : Disk} (h : d'.sectors = d.sectors) : view sb d' = view sb d := by
  obtain ⟨s, f⟩ := d
  obtain ⟨s', f'⟩ := d'
  cases h
  rfl

/-- **Writes that aim at no path from `name` on keep the file of that name**, whichever transfers
fail. -/
theorem write_append_keeps (hL : Layout sb) {name : CStr} {f : File} :
    (∀ n type data size d, n ∈ apart name → size ≤ 4294966784 → WellFormed sb d.calm →
      WriteFits sb n type data size d.calm → view sb d name = some f →
      view sb (fsWrite sb n type data size d).2 name = some f) ∧
    (∀ dir path d, dir ∈ apart name → WellFormed sb d.calm → AppendFits sb dir path d.calm →
      view sb d name = some f → view sb (fsAppend sb dir path d).2 name = some f) := by
  -- the induction is on the length of the path, a write counting less than the append into it
  have key : ∀ m : ℕ,
      (∀ n type data size d, 2 * n.length = m → n ∈ apart name → size ≤ 4294966784 →
        WellFormed sb d.calm → WriteFits sb n type data size d.calm → view sb d name = some f →
        view sb (fsWrite sb n type data size d).2 name = some f) ∧
      (∀ dir path d, 2 * dir.length + 1 = m → dir ∈ apart name → WellFormed sb d.calm →
        AppendFits sb dir path d.calm → view sb d name = some f →
        view sb (fsAppend sb dir path d).2 name = some f) := by
    intro m
    induction m using Nat.strong_induction_on with
    | _ m ih =>
      refine ⟨fun n type data size d hm hn hs h hfit hf => ?_,
        fun dir path d hm hdir h hfit hf => ?_⟩
      · rw [WriteFits] at hfit
        have hfailed := fun hx => @view_of_failed sb d n type data size hx h (fun hc => (hfit hc).1)
          name (fun e => absurd e.symm hn.1)
        have hok := @writeEntry_ok sb d hL.sectors_lt n type data size
        rw [fsWrite]
        generalize writeEntry sb n type data size d = x at *
        obtain ⟨ok, d₁⟩ := x
        cases ok with
        | false => exact (hfailed rfl).trans hf
        | true =>
          obtain ⟨hc, hd₁⟩ := hok rfl
          obtain ⟨hend, hup⟩ := hfit hc
          simp only at hd₁
          have hwr := writeDisk_written h.working hL h.sound.dirOk type data hc (by omega) hend
          rw [← hd₁] at hwr hup
          have h₁ : WellFormed sb d₁.calm :=
            (hwr.sound h.sound).wellFormed hL (hwr.sizesOk h.sizes hs)
          have hf₁ : view sb d₁ name = some f := hwr.keeps h.sound hn hf
          simp only
          split
          · exact hf₁
          · rename_i p hp
            have hlt := parentDir_length hp
            exact (ih (2 * p.length + 1) (by omega)).2 p n d₁ rfl (upward_apart name n hn p hp) h₁
              (hup p hp) hf₁
      · rw [AppendFits] at hfit
        rw [fsAppend]
        obtain ⟨hs, hfind⟩ := @fsFind_faults sb dir d
        generalize fsFind sb dir d = x at *
        obtain ⟨e, d₁⟩ := x
        have hf₁ : view sb d₁ name = some f := (congrFun (view_sectors hs) name).trans hf
        cases e with
        | none => exact hf₁
        | some e =>
          obtain ⟨k, hk, rfl⟩ := hfind e rfl
          simp only at hs ⊢
          by_cases hbig : (entry sb d k).size ≥ dirBufSize
          · rw [if_pos hbig]
            exact hf₁
          rw [if_neg hbig]
          obtain ⟨hs', hread⟩ := readLoop_faults (entry sb d k).lba 0 (entry sb d k).size
            (fun _ => 0) d₁
          rw [Disk.calm_eq hs, readLoop_working d.calm_working _ _ _ _ (dvd_zero _)] at hread
          generalize readLoop (entry sb d k).lba 0 (entry sb d k).size (fun _ => 0) d₁ = x at *
          obtain ⟨ok, buf, d₂⟩ := x
          simp only at hs' hread
          have hd₂ : d₂.sectors = d.sectors := hs'.trans hs
          have hf₂ : view sb d₂ name = some f := (congrFun (view_sectors hd₂) name).trans hf
          cases ok with
          | false => exact hf₂
          | true =>
            simp only
            split_ifs with hroom
            · exact hf₂
            · have htext : WriteFits sb dir fsDir (appendText d (entry sb d k) path)
                  ((entry sb d k).size + path.length + 1) d₂.calm := by
                rw [Disk.calm_eq hd₂]
                exact hfit k hk (not_le.mp hroom)
              rw [← Disk.calm_eq hd₂] at h
              have hbuf : buf = Mem.blit (fun _ => 0) 0 (entry sb d k).size fun i =>
                  fileByte d (entry sb d k).lba i := by
                rw [hread rfl]
                simp only [Nat.zero_add]
                rfl
              have hsmall : (entry sb d k).size + path.length + 1 ≤ 4294966784 :=
                (not_le.mp hroom).le.trans (by decide)
              rw [hbuf]
              exact (ih (2 * dir.length) (by omega)).1 dir fsDir
                (appendText d (entry sb d k) path) _ d₂ rfl hdir hsmall h htext hf₂
  exact ⟨fun n type data size d => (key _).1 n type data size d rfl,
    fun dir path d => (key _).2 dir path d rfl⟩

/-! ### Opening and closing -/

/-- The handle number `i` is the writable handle of `name`, and the buffer holds these bytes. -/
structure HoldsFile (s : State) (i : Fin 8) (name : CStr) (bytes : List UInt8) : Prop where
  used : (s.handles i).used = true
  writable : (s.handles i).writable = true
  name_eq : (s.handles i).name = name
  wlen_eq : (s.handles i).wlen = bytes.length
  bytes_eq : (List.range bytes.length).map s.wbuf = bytes

/-- The call returns -1, or it gives a handle that holds the contents, and closing this handle
leaves the contents of the file as they were. -/
def OpensWhole (s : State) (name : CStr) (flags : ℕ) (bytes : List UInt8) : Prop :=
  let r := fsOpen s name flags
  r.1 = -1 ∨ ∃ i, r.1 = fdOf i ∧ HoldsFile r.2 i name bytes ∧
    (view r.2.sb (fsClose r.2 r.1).2.disk name).map File.bytes = some bytes

/-- An absent file is not created, or the transfers of the directory up to the slot number `k`
succeed, or there is no handle to be had, or the file is empty. -/
def Sees (s : State) (k flags : ℕ) (bytes : List UInt8) : Prop :=
  flagSet flags fsOCreat = false ∨ s.disk.Serves (k / 16 + 1) ∨
    (∀ i, freeHandle s = some i → otherWriter s i = true) ∨ bytes = []

/-- Closing a handle that holds the contents of its file keeps them. -/
lemma fsClose_keeps {s : State} (h : WellFormed s.sb s.disk.calm) (ha : Addressed s.sb s.disk.calm)
    {name : CStr} {k : ℕ} (hk : slotOf s.sb s.disk name = some k) {i : Fin 8}
    (hh : HoldsFile s i name (fileAt s.sb s.disk k).bytes) :
    (view s.sb (fsClose s (fdOf i)).2.disk name).map File.bytes =
      some (fileAt s.sb s.disk k).bytes := by
  obtain ⟨hu, hw, hname, hlen, hbytes⟩ := hh
  have hsize : (entry s.sb s.disk k).size ≤ 4294966784 :=
    h.sizes k (slotOf_some hk).1 (slotOf_some hk).2.1
  rw [fileAt_length] at hlen hbytes
  rw [(fsClose_writer hu hw).2, hname, hlen]
  generalize (s.handles i).type = type
  set size := (entry s.sb s.disk k).size with hsz
  have hdata : ∀ j < size, s.wbuf j = fileByte s.disk (entry s.sb s.disk k).lba j := by
    intro j hj
    have hb := List.map_inj_left.mp (hbytes.trans rfl) j (List.mem_range.mpr hj)
    rwa [if_pos (by rw [sectorsOf_eq hsize]; omega)] at hb
  have hsame : ∀ k', slotOf s.sb s.disk name = some k' → (entry s.sb s.disk k').size = size ∧
      ∀ j < size, s.wbuf j = fileByte s.disk (entry s.sb s.disk k').lba j := by
    intro k' hk'
    obtain rfl : k = k' := Option.some.inj (hk.symm.trans hk')
    exact ⟨rfl, hdata⟩
  have hfit := ha.fits h name type s.wbuf (show size < 4294967296 by omega)
  rw [WriteFits] at hfit
  have hfailed := fun hx => @view_of_failed s.sb s.disk name type s.wbuf size hx h
    (fun hc => (hfit hc).1) name fun _ => hsame
  have hok := @writeEntry_ok s.sb s.disk h.layout.sectors_lt name type s.wbuf size
  rw [fsWrite]
  generalize writeEntry s.sb name type s.wbuf size s.disk = x at *
  obtain ⟨ok, d₁⟩ := x
  cases ok with
  | false =>
    simp only at hfailed ⊢
    rw [hfailed trivial]
    unfold view
    rw [hk]
    rfl
  | true =>
    obtain ⟨hc, hd₁⟩ := hok rfl
    obtain ⟨hend, hup⟩ := hfit hc
    simp only at hd₁
    have hwr := writeDisk_written h.working h.layout h.sound.dirOk type s.wbuf hc (by omega) hend
    rw [← hd₁] at hwr hup
    have h₁ : WellFormed s.sb d₁.calm :=
      (hwr.sound h.sound).wellFormed h.layout (hwr.sizesOk h.sizes hsize)
    have hne : name.bytes ≠ [] := fun he => by rw [slotOf_empty he] at hk; cases hk
    have hv : view s.sb d₁ name = some ⟨type, (fileAt s.sb s.disk k).bytes⟩ := by
      have hview : view s.sb d₁.calm name = some ⟨type, storedBytes s.wbuf size⟩ := by
        rw [hwr.view_eq h.sound, FileMap.store_same hne]
      rw [storedBytes_eq _ hsize, hbytes] at hview
      exact hview
    simp only
    split
    · rw [hv]
      rfl
    · rename_i p hp
      rw [(write_append_keeps h.layout).2 p name d₁ (parent_apart hp) h₁ (hup p hp) hv]
      rfl

/-- The same from a state whose disk has had transfers that only read. -/
lemma fsClose_keeps_of {s s' : State} (h : WellFormed s.sb s.disk.calm)
    (ha : Addressed s.sb s.disk.calm) {name : CStr} {k : ℕ}
    (hk : slotOf s.sb s.disk name = some k) (hsb : s'.sb = s.sb)
    (hd : s'.disk.sectors = s.disk.sectors) {i : Fin 8}
    (hh : HoldsFile s' i name (fileAt s.sb s.disk k).bytes) :
    (view s'.sb (fsClose s' (fdOf i)).2.disk name).map File.bytes =
      some (fileAt s.sb s.disk k).bytes := by
  rw [← hsb, ← Disk.calm_eq hd] at h ha
  rw [← hsb, ← slotOf_sectors hd] at hk
  rw [← hsb, ← fileAt_sectors hd] at hh ⊢
  exact fsClose_keeps h ha hk hh

/-- `fs_find` for a name in the slot number `k`: the entry, or nothing when a transfer on the way
fails. -/
lemma fsFind_serves {name : CStr} {k : ℕ} (hk : slotOf sb d name = some k) :
    (d.Serves (k / 16 + 1) ∧ (fsFind sb name d).1 = some (entry sb d k)) ∨
      ¬ d.Serves (k / 16 + 1) ∧ (fsFind sb name d).1 = none := by
  have hcalm : (lookup sb name sb.dirSectors 0 d.calm).1 = some (slotMem sb d k, k / 16, k % 16) := by
    have hk' : slotOf sb d.calm name = some k := hk
    rw [lookup_eq_slotOf d.calm_working, hk']
    rfl
  have hserve := lookup_serves name sb.dirSectors 0 d hcalm
  have hok := @lookup_ok sb d name
  simp only [Nat.sub_zero] at hserve
  unfold fsFind
  generalize lookup sb name sb.dirSectors 0 d = x at *
  obtain ⟨r, d₁⟩ := x
  cases r with
  | none => exact Or.inr ⟨fun hx => absurd (hserve.mpr hx) (by simp), rfl⟩
  | some r =>
    obtain ⟨k', hk', rfl⟩ := hok rfl
    obtain rfl : k = k' := Option.some.inj (hk.symm.trans hk')
    exact Or.inl ⟨hserve.mp rfl, rfl⟩

/-- Filling the buffer of a writable handle: the call fails, or the handle holds the file. -/
lemma openWriter_holds {s : State} {i : Fin 8} {name : CStr} {flags k : ℕ}
    (htrunc : flagSet flags fsOTrunc = false) (hk : slotOf s.sb s.disk name = some k)
    (hsize : (entry s.sb s.disk k).size ≤ fdBufSize) :
    (openWriter s i name flags (some (entry s.sb s.disk k))).1 = -1 ∨
      ∃ d' wbuf h', d'.sectors = s.disk.sectors ∧
        openWriter s i name flags (some (entry s.sb s.disk k)) =
          (fdOf i, { s with disk := d', wbuf := wbuf }.setHandle i h') ∧
        HoldsFile ({ s with disk := d', wbuf := wbuf }.setHandle i h') i name
          (fileAt s.sb s.disk k).bytes := by
  unfold openWriter
  by_cases ho : otherWriter s i = true
  · exact Or.inl (by simp only [if_pos ho])
  simp only [if_neg ho, htrunc, Bool.false_eq_true, if_false, if_neg (not_lt.mpr hsize)]
  obtain ⟨hs, hread⟩ := @fsRead_faults s.sb name s.wbuf fdBufSize s.disk
  generalize fsRead s.sb name s.wbuf fdBufSize s.disk = x at *
  obtain ⟨rc, wbuf, d'⟩ := x
  by_cases hrc : rc < 0
  · exact Or.inl (by simp only [if_pos hrc])
  obtain ⟨k', hk', hbuf⟩ := hread (not_lt.mp hrc)
  obtain rfl : k = k' := Option.some.inj (hk.symm.trans hk')
  simp only at hbuf hs
  simp only [if_neg hrc]
  refine Or.inr ⟨d', wbuf, _, hs, rfl, ⟨by simp, by simp, by simp, by simp, ?_⟩⟩
  rw [fileAt_length]
  refine List.map_congr_left fun j hj => ?_
  have hj' := List.mem_range.mp hj
  unfold fdBufSize at hsize
  rw [State.setHandle_wbuf]
  simp only
  rw [hbuf, Mem.blit_of_in _ _ (Nat.zero_le j) (by omega), Nat.sub_zero,
    if_pos (by rw [sectorsOf_eq (by omega)]; omega)]

lemma fdOf_ne (i : Fin 8) : fdOf i ≠ -1 := by
  unfold fdOf fsFdBase
  omega

/-- **When opening a file for writing is safe under failing transfers.** A call without `O_TRUNC` on
an existing file of at most 64K returns -1, or gives a handle that holds the contents and that leaves
them alone when it is closed, exactly when it does not take a failed lookup for an absent file. -/
theorem open_whole {s : State} (h : WellFormed s.sb s.disk.calm) (ha : Addressed s.sb s.disk.calm)
    {name : CStr} {k flags : ℕ} (hk : slotOf s.sb s.disk name = some k)
    (hsize : (entry s.sb s.disk k).size ≤ fdBufSize)
    (hflags : flagSet flags (fsOWronly ||| fsORdwr) = true)
    (htrunc : flagSet flags fsOTrunc = false) :
    OpensWhole s name flags (fileAt s.sb s.disk k).bytes ↔
      Sees s k flags (fileAt s.sb s.disk k).bytes := by
  have hlen : name.length < fsMaxName := slotOf_length h.dirOk_calm hk
  obtain ⟨hs₁, -⟩ := @fsFind_faults s.sb name s.disk
  have hserve := fsFind_serves hk
  have hclose := fun {s'} {i} => @fsClose_keeps_of s s' h ha name k hk (i := i)
  unfold OpensWhole fsOpen
  rw [if_neg (not_le.mpr hlen)]
  generalize fsFind s.sb name s.disk = x at *
  obtain ⟨e, d₁⟩ := x
  simp only at hs₁ hserve ⊢
  rcases hserve with ⟨hserve, rfl⟩ | ⟨hserve, rfl⟩
  · -- the lookup gets through: the call fails or fills the buffer from the file
    refine iff_of_true ?_ (Or.inr (Or.inl hserve))
    simp only [Option.isNone_some, Bool.false_and, Bool.false_eq_true, if_false, hflags, if_true]
    by_cases hdir : Option.map FileEntry.type (some (entry s.sb s.disk k)) = some fsDir
    · exact Or.inl (by rw [if_pos hdir])
    rw [if_neg hdir]
    cases freeHandle { s with disk := d₁ } with
    | none => exact Or.inl rfl
    | some i =>
      simp only
      have hk₁ : slotOf s.sb d₁ name = some k := by rw [slotOf_sectors hs₁]; exact hk
      have hopen := @openWriter_holds { s with disk := d₁ } i name flags k htrunc hk₁
        (by rw [entry_sectors hs₁]; exact hsize)
      simp only [entry_sectors hs₁, fileAt_sectors hs₁] at hopen
      rcases hopen with hfail | ⟨d', wbuf, h', hd', hres, hh⟩
      · exact Or.inl hfail
      · rw [hres]
        exact Or.inr ⟨i, rfl, hh, hclose rfl (hd'.trans hs₁) hh⟩
  · -- the lookup fails: the file counts as absent
    have hfree : freeHandle { s with disk := d₁ } = freeHandle s := rfl
    simp only [Option.isNone_none, Bool.true_and, Option.map_none, hfree, hflags, if_true]
    by_cases hcreat : flagSet flags fsOCreat = true
    · rw [if_neg (by simpa using hcreat), if_neg (by simp)]
      cases hi : freeHandle s with
      | none => exact iff_of_true (Or.inl rfl) (Or.inr (Or.inr (Or.inl (by simp [hi]))))
      | some i =>
        simp only
        unfold openWriter
        have hother : otherWriter { s with disk := d₁ } i = otherWriter s i := rfl
        rw [hother]
        by_cases ho : otherWriter s i = true
        · refine iff_of_true (Or.inl ?_) (Or.inr (Or.inr (Or.inl fun j hj => ?_)))
          · rw [if_pos ho]
          · obtain rfl := Option.some.inj (hi.symm.trans hj)
            exact ho
        · rw [if_neg ho]
          simp only [ite_self]
          -- the handle is empty, whatever the file holds
          refine ⟨fun hx => Or.inr (Or.inr (Or.inr ?_)), fun hx => Or.inr ⟨i, rfl, ?_⟩⟩
          · rcases hx with hx | ⟨j, hj, hh, -⟩
            · exact absurd hx (fdOf_ne i)
            · obtain rfl := fdOf_inj hj
              have hlen := hh.wlen_eq
              rw [State.setHandle_same] at hlen
              exact List.eq_nil_of_length_eq_zero hlen.symm
          · have hnil : (fileAt s.sb s.disk k).bytes = [] := by
              rcases hx with hx | hx | hx | hx
              · rw [hx] at hcreat
                cases hcreat
              · exact absurd hx hserve
              · exact absurd (hx i hi) ho
              · exact hx
            have hh : HoldsFile ({ s with disk := d₁ }.setHandle i { Handle.zero with
                used := true, writable := true, name := name, type := fsFile }) i name
                (fileAt s.sb s.disk k).bytes := by
              rw [hnil]
              exact ⟨by simp, by simp, by simp, by simp [Handle.zero], rfl⟩
            exact ⟨hh, hclose rfl hs₁ hh⟩
    · refine iff_of_true (Or.inl ?_) (Or.inl (by simpa using hcreat))
      rw [if_pos (by simpa using hcreat)]

/-- The file `f`, where the next transfer fails. -/
def unreadF : State := { withF with disk := { withF.disk with fault := fun n => n == 0 } }

lemma unreadF_calm : unreadF.disk.calm = withF.disk :=
  (Disk.calm_eq (d := withF.disk) rfl).trans withF_sound.1.working.calm_eq

lemma unreadF_wellFormed : WellFormed unreadF.sb unreadF.disk.calm := by
  rw [unreadF_calm]
  exact withF_sound.1

lemma unreadF_addressed : Addressed unreadF.sb unreadF.disk.calm := by
  rw [unreadF_calm]
  exact withF_sound.2

theorem open_whole_unreadF :
    OpensWhole unreadF pathF (fsORdwr ||| fsOCreat) (fileAt unreadF.sb unreadF.disk 0).bytes ↔
      Sees unreadF 0 (fsORdwr ||| fsOCreat) (fileAt unreadF.sb unreadF.disk 0).bytes :=
  open_whole unreadF_wellFormed unreadF_addressed (by decide +kernel) (by decide +kernel)
    (by decide) (by decide)

/-- **A transfer that fails while `f` is looked up makes `fs_open` with `O_CREAT` take `f` for absent**:
the handle is empty, and the close writes that back. -/
theorem open_creates_empty :
    WellFormed unreadF.sb unreadF.disk.calm ∧ Addressed unreadF.sb unreadF.disk.calm ∧
      slotOf unreadF.sb unreadF.disk pathF = some 0 ∧
      (entry unreadF.sb unreadF.disk 0).size = 3 ∧
      (fsOpen unreadF pathF (fsORdwr ||| fsOCreat)).1 = 3 ∧
      ((fsOpen unreadF pathF (fsORdwr ||| fsOCreat)).2.handles 0).wlen = 0 ∧
      ¬ OpensWhole unreadF pathF (fsORdwr ||| fsOCreat) (fileAt unreadF.sb unreadF.disk 0).bytes := by
  have hrc : (fsOpen unreadF pathF (fsORdwr ||| fsOCreat)).1 = 3 := by decide +kernel
  have hwlen : ((fsOpen unreadF pathF (fsORdwr ||| fsOCreat)).2.handles 0).wlen = 0 := by
    decide +kernel
  have hsize : (entry unreadF.sb unreadF.disk 0).size = 3 := by decide +kernel
  refine ⟨unreadF_wellFormed, unreadF_addressed, by decide +kernel, hsize, hrc, hwlen, ?_⟩
  rintro (hx | ⟨i, hi, hh, -⟩)
  · rw [hrc] at hx
    cases hx
  · obtain rfl : 0 = i := fdOf_inj (show fdOf 0 = fdOf i from hrc.symm.trans hi)
    have hlen := hh.wlen_eq
    rw [hwlen, fileAt_length, hsize] at hlen
    cases hlen

end LunariaOS.Fs
