import LunariaOS.Fs.Success
import LunariaOS.Paint.Screen
import LunariaOS.Wm.Screen

/-!
The picture file of the drawing program.

`bitFile` lists the bytes that `save_bit` stores: a header and the colours of the canvas. What passes
the three tests of `load_bit` is such a list (`inspect_true`), and the colours behind the header are
those of the canvas they were taken from (`colours_pixel`, `colours_of_length`).
-/

namespace LunariaOS.Paint.State

open LunariaOS.Lib LunariaOS.Fs LunariaOS.Wm
open LunariaOS.Wm.State (text)

variable {sb : Superblock} {d : Disk} {s : State}

/-! ### The bytes of a picture -/

/-- The magic, the width and the height of the canvas. -/
def header : List UInt8 := text "BIT" ++ [1, 80, 0, 24, 0]

/-- The colours of the canvas, row by row. -/
def colours (px : ℕ → ℕ → UInt8) : List UInt8 :=
  (List.range canvH).flatMap fun y => (List.range canvW).map fun x => px y x

lemma bitFile_eq (s : State) : s.bitFile = header ++ colours s.pix := rfl

lemma colours_length (px : ℕ → ℕ → UInt8) : (colours px).length = 1920 := by
  unfold colours
  rw [rows_length]
  rfl

lemma bitFile_length (s : State) : s.bitFile.length = 1928 := by
  rw [bitFile_eq, List.length_append, colours_length]
  rfl

lemma colours_pixel (px : ℕ → ℕ → UInt8) {y x : ℕ} (hy : y < canvH) (hx : x < canvW) :
    (colours px).getD (y * canvW + x) 0 = px y x := by
  rw [List.getD_eq_getElem?_getD]
  unfold colours
  rw [rows_getElem? px hy hx]
  rfl

/-- A colour is found at its place behind the header. -/
lemma header_getD (px : List UInt8) (k : ℕ) : (header ++ px).getD (8 + k) 0 = px.getD k 0 := by
  have hlen : header.length = 8 := rfl
  rw [List.getD_eq_getElem?_getD, List.getElem?_append_right (by omega), hlen, Nat.add_sub_cancel_left,
    List.getD_eq_getElem?_getD]

lemma colours_congr {px px' : ℕ → ℕ → UInt8} (h : ∀ y < canvH, ∀ x < canvW, px y x = px' y x) :
    colours px = colours px' :=
  List.flatMap_congr fun y hy => List.map_congr_left fun x hx =>
    h y (List.mem_range.mp hy) x (List.mem_range.mp hx)

/-- A list of 1920 bytes is that of the colours read from it. -/
lemma colours_of_length {l : List UInt8} (h : l.length = 1920) :
    colours (fun y x => l.getD (y * canvW + x) 0) = l := by
  refine List.ext_getElem (by rw [colours_length, h]) fun i hi hl => ?_
  have hdiv : i / canvW < canvH := by
    show i / 80 < 24
    omega
  have hmod : i % canvW < canvW := Nat.mod_lt _ (by decide)
  have hp := colours_pixel (fun y x => l.getD (y * canvW + x) 0) hdiv hmod
  rw [Nat.div_add_mod' i canvW] at hp
  rw [List.getD_eq_getElem _ _ hi, List.getD_eq_getElem _ _ hl] at hp
  exact hp

/-- The bytes of a picture of the canvas' size. -/
def IsPicture (bytes : List UInt8) : Prop := ∃ px, px.length = 1920 ∧ bytes = header ++ px

/-! ### The tests of `load_bit` -/

/-- A chain of tests `buf[i] == b`, and the places it looks at up to the first one that fails. -/
def looks (buf : Mem) : List (ℕ × UInt8) → Bool × List ℕ
  | [] => (true, [])
  | (i, b) :: l => if buf i ≠ b then (false, [i]) else ((looks buf l).1, i :: (looks buf l).2)

/-- `load_bit` behind the read, which has returned `n`: whether the picture is taken, and the places
of `buf` that are looked at. -/
def inspect (n : ℤ) (buf : Mem) : Bool × List ℕ :=
  if n < 8 then (false, [])
  else
    let (magic, seen) := looks buf [(0, 66), (1, 73), (2, 84), (3, 1)]
    if magic = false then (false, seen)
    else
      let w := (buf 4).toNat ||| ((buf 5).toNat <<< 8)
      let h := (buf 6).toNat ||| ((buf 7).toNat <<< 8)
      let seen := seen ++ [4, 5, 6, 7]
      if w ≠ canvW ∨ h ≠ canvH ∨ n < 8 + canvW * canvH then (false, seen)
      else
        (true, seen ++
          (List.range canvH).flatMap fun y => (List.range canvW).map fun x => 8 + y * canvW + x)

lemma looks_true (buf : Mem) (l : List (ℕ × UInt8)) :
    (looks buf l).1 = true ↔ ∀ p ∈ l, buf p.1 = p.2 := by
  induction l with
  | nil => simp [looks]
  | cons p l ih =>
    obtain ⟨i, b⟩ := p
    unfold looks
    split_ifs with h
    · simp [h]
    · rw [List.forall_mem_cons, ih]
      exact (and_iff_right (not_not.mp h)).symm

lemma looks_mem (buf : Mem) (l : List (ℕ × UInt8)) : ∀ i ∈ (looks buf l).2, i ∈ l.map Prod.fst := by
  induction l with
  | nil => simp [looks]
  | cons p l ih =>
    obtain ⟨j, b⟩ := p
    unfold looks
    split_ifs with h
    · simp
    · intro i hi
      rcases List.mem_cons.mp hi with rfl | hi
      · exact List.mem_cons_self
      · exact List.mem_cons_of_mem _ (ih i hi)

/-- A little-endian number of two bytes. -/
lemma pair_eq (a b : UInt8) : a.toNat ||| (b.toNat <<< 8) = a.toNat + 256 * b.toNat := by
  have ha : a.toNat < 2 ^ 8 := a.toNat_lt
  rw [Nat.or_comm, ← Nat.shiftLeft_add_eq_or_of_lt ha, Nat.shiftLeft_eq]
  omega

/-- **What `load_bit` takes**: 1928 bytes that begin with the header. -/
lemma inspect_true (n : ℤ) (buf : Mem) :
    (inspect n buf).1 = true ↔ 1928 ≤ n ∧ ∀ i < 8, buf i = header.getD i 0 := by
  have hmagic := looks_true buf [(0, 66), (1, 73), (2, 84), (3, 1)]
  simp only [List.forall_mem_cons, List.not_mem_nil, false_implies, implies_true, and_true] at hmagic
  have hbytes : (∀ i < 8, buf i = header.getD i 0) ↔
      (buf 0 = 66 ∧ buf 1 = 73 ∧ buf 2 = 84 ∧ buf 3 = 1) ∧
        (buf 4 = 80 ∧ buf 5 = 0) ∧ buf 6 = 24 ∧ buf 7 = 0 := by
    constructor
    · intro h
      exact ⟨⟨h 0 (by decide), h 1 (by decide), h 2 (by decide), h 3 (by decide)⟩,
        ⟨h 4 (by decide), h 5 (by decide)⟩, h 6 (by decide), h 7 (by decide)⟩
    · rintro ⟨⟨h0, h1, h2, h3⟩, ⟨h4, h5⟩, h6, h7⟩ i hi
      interval_cases i <;> assumption
  have hpair : ∀ a b : UInt8, ∀ m < 256, a.toNat ||| (b.toNat <<< 8) = m ↔
      a = UInt8.ofNat m ∧ b = 0 := by
    intro a b m hm
    have ha := a.toNat_lt
    rw [pair_eq, ← UInt8.toNat_inj, ← UInt8.toNat_inj, UInt8.toNat_ofNat']
    have h0 : (0 : UInt8).toNat = 0 := rfl
    omega
  have hw := hpair (buf 4) (buf 5) canvW (by decide)
  have hh := hpair (buf 6) (buf 7) canvH (by decide)
  rw [hbytes, ← hmagic]
  change _ ↔ 1928 ≤ n ∧ _ ∧ (buf 4 = UInt8.ofNat canvW ∧ buf 5 = 0) ∧ buf 6 = UInt8.ofNat canvH ∧ buf 7 = 0
  rw [← hw, ← hh]
  have hsize : (8 + canvW * canvH : ℤ) = 1928 := rfl
  unfold inspect
  generalize looks buf [(0, 66), (1, 73), (2, 84), (3, 1)] = r
  obtain ⟨magic, seen⟩ := r
  dsimp only
  rw [hsize]
  split_ifs with h8 hm h
  · exact iff_of_false not_false fun hn => by omega
  · exact iff_of_false not_false fun hn => Bool.false_ne_true (hm.symm.trans hn.2.1)
  · refine iff_of_false not_false fun hn => ?_
    rcases h with h | h | h
    · exact h hn.2.2.1
    · exact h hn.2.2.2
    · omega
  · rw [not_or, not_or, not_not, not_not, not_lt] at h
    exact iff_of_true rfl ⟨h.2.2, Bool.eq_true_of_not_eq_false hm, h.1, h.2.1⟩

/-- **Nothing behind the `n` bytes that were read is looked at.** -/
lemma inspect_lt (n : ℤ) (buf : Mem) : ∀ i ∈ (inspect n buf).2, (i : ℤ) < n := by
  have hseen := looks_mem buf [(0, 66), (1, 73), (2, 84), (3, 1)]
  have hsize : (8 + canvW * canvH : ℤ) = 1928 := rfl
  unfold inspect
  generalize looks buf [(0, 66), (1, 73), (2, 84), (3, 1)] = r at hseen ⊢
  obtain ⟨magic, seen⟩ := r
  dsimp only at hseen ⊢
  have hlow : ∀ i ∈ seen, i < 4 := by
    intro i hi
    have := hseen i hi
    simp at this
    omega
  have hlow' : ∀ i ∈ seen ++ [4, 5, 6, 7], i < 8 := by
    intro i hi
    rcases List.mem_append.mp hi with hi | hi
    · exact (hlow i hi).trans (by decide)
    · simp at hi
      omega
  rw [hsize]
  split_ifs with h8 hm h
  · exact fun i hi => absurd hi List.not_mem_nil
  · intro i hi
    have := hlow i hi
    omega
  · intro i hi
    have := hlow' i hi
    omega
  · intro i hi
    rcases List.mem_append.mp hi with hi | hi
    · have := hlow' i hi
      omega
    · obtain ⟨y, hy, hi⟩ := List.mem_flatMap.mp hi
      obtain ⟨x, hx, rfl⟩ := List.mem_map.mp hi
      have hy : y < 24 := List.mem_range.mp hy
      have hx : x < 80 := List.mem_range.mp hx
      have hplace : 8 + y * canvW + x < 1928 := by
        show 8 + y * 80 + x < 1928
        omega
      omega

/-- `inspect` is what `load_bit` does behind the read. -/
lemma readBit_eq (sb : Superblock) (d : Disk) :
    readBit sb d =
      match fsRead sb fileName (fun _ => 0) (8 + canvW * canvH) d with
      | (n, buf, d) => (if (inspect n buf).1 then some buf else none, d) := by
  unfold readBit
  generalize fsRead sb fileName (fun _ => 0) (8 + canvW * canvH) d = r
  obtain ⟨n, buf, d'⟩ := r
  dsimp only
  have hmagic := looks_true buf [(0, 66), (1, 73), (2, 84), (3, 1)]
  simp only [List.forall_mem_cons, List.not_mem_nil, false_implies, implies_true, and_true] at hmagic
  unfold inspect
  generalize looks buf [(0, 66), (1, 73), (2, 84), (3, 1)] = r at hmagic ⊢
  obtain ⟨magic, seen⟩ := r
  dsimp only at hmagic ⊢
  by_cases h8 : n < 8
  · rw [if_pos h8, if_pos h8]
    rfl
  rw [if_neg h8, if_neg h8]
  cases magic with
  | false =>
    have hno : buf 0 ≠ 66 ∨ buf 1 ≠ 73 ∨ buf 2 ≠ 84 ∨ buf 3 ≠ 1 := by
      by_contra hall
      rw [not_or, not_or, not_or, not_not, not_not, not_not, not_not] at hall
      exact Bool.false_ne_true (hmagic.mpr hall)
    rw [if_pos hno]
    rfl
  | true =>
    obtain ⟨h0, h1, h2, h3⟩ := hmagic.mp rfl
    have hyes : ¬ (buf 0 ≠ 66 ∨ buf 1 ≠ 73 ∨ buf 2 ≠ 84 ∨ buf 3 ≠ 1) := by
      rw [not_or, not_or, not_or, not_not, not_not, not_not, not_not]
      exact ⟨h0, h1, h2, h3⟩
    rw [if_neg hyes, if_neg (by decide : ¬ true = false)]
    by_cases hc : (buf 4).toNat ||| ((buf 5).toNat <<< 8) ≠ canvW ∨
        (buf 6).toNat ||| ((buf 7).toNat <<< 8) ≠ canvH ∨ n < 8 + canvW * canvH
    · rw [if_pos hc, if_pos hc]
      rfl
    · rw [if_neg hc, if_neg hc]
      rfl

/-! ### The picture on the disk -/

/-- The bytes of `paint.bit`. -/
def stored (sb : Superblock) (d : Disk) : Option (List UInt8) := (Fs.view sb d fileName).map File.bytes

/-- The read of `load_bit` puts the whole file at the beginning of the buffer, or nothing. -/
lemma fsRead_stored (hw : d.Working) (junk : Mem) :
    fsRead sb fileName junk (8 + canvW * canvH) d =
      match stored sb d with
      | none => (-1, junk, d)
      | some bytes =>
        if bytes.length ≤ 1928 then
          ((bytes.length : ℤ), junk.blit 0 bytes.length fun i => bytes.getD i 0, d)
        else (-1, junk, d) := by
  have hmax : 8 + canvW * canvH = 1928 := rfl
  rw [hmax]
  unfold stored
  cases hv : Fs.view sb d fileName with
  | none =>
    rw [fsRead_working hw, view_eq_none.mp hv]
    rfl
  | some f =>
    rw [Option.map_some]
    dsimp only
    split_ifs with hle
    · rw [fsRead_view hw hv (by omega) junk 1928 hle, i32_of_lt (by omega)]
    · rw [fsRead_working hw]
      unfold Fs.view at hv
      obtain ⟨k, hk, rfl⟩ := Option.map_eq_some_iff.mp hv
      rw [fileAt_length] at hle
      rw [hk]
      exact if_neg hle

lemma isPicture_iff (bytes : List UInt8) :
    IsPicture bytes ↔ bytes.length = 1928 ∧ ∀ i < 8, bytes.getD i 0 = header.getD i 0 := by
  have hlen : header.length = 8 := rfl
  constructor
  · rintro ⟨px, hpx, rfl⟩
    refine ⟨by rw [List.length_append, hpx, hlen], fun i hi => ?_⟩
    rw [List.getD_eq_getElem?_getD, List.getElem?_append_left (by omega), ← List.getD_eq_getElem?_getD]
  · rintro ⟨hb, hhead⟩
    refine ⟨bytes.drop 8, by rw [List.length_drop, hb], ?_⟩
    have htake : bytes.take 8 = header := by
      refine List.ext_getElem (by rw [List.length_take, hb, hlen]; rfl) fun i hi hi' => ?_
      have h := hhead i (by omega)
      rw [List.getD_eq_getElem _ _ (by omega), List.getD_eq_getElem _ _ hi'] at h
      rw [List.getElem_take]
      exact h
    rw [← htake, List.take_append_drop]

/-- **What `load_bit` takes and what it looks at.** -/
lemma inspect_stored (hw : d.Working) (junk : Mem) :
    let r := fsRead sb fileName junk (8 + canvW * canvH) d
    ((inspect r.1 r.2.1).1 = true ↔ ∃ bytes, stored sb d = some bytes ∧ IsPicture bytes) ∧
      ∀ i ∈ (inspect r.1 r.2.1).2, (stored sb d).bind (fun bytes => bytes[i]?) = some (r.2.1 i) := by
  intro r
  have hr : r = _ := fsRead_stored hw junk
  rw [inspect_true]
  have hlt := inspect_lt r.1 r.2.1
  cases hs : stored sb d with
  | none =>
    rw [hs] at hr
    rw [hr] at hlt ⊢
    refine ⟨⟨fun h => ?_, by rintro ⟨b, hb, -⟩; cases hb⟩, fun i hi => ?_⟩
    · have := h.1
      dsimp only at this
      omega
    · have := hlt i hi
      dsimp only at this
      omega
  | some bytes =>
    rw [hs] at hr
    dsimp only at hr
    split_ifs at hr with hle
    · rw [hr] at hlt ⊢
      dsimp only at hlt ⊢
      refine ⟨?_, fun i hi => ?_⟩
      · have hhead : 1928 ≤ bytes.length →
            ∀ i < 8, (junk.blit 0 bytes.length fun i => bytes.getD i 0) i = bytes.getD i 0 := by
          intro h i hi
          rw [Mem.blit_of_in _ _ (by omega) (by omega), Nat.sub_zero]
        constructor
        · rintro ⟨hn, hbuf⟩
          have hn : 1928 ≤ bytes.length := by omega
          refine ⟨bytes, rfl, (isPicture_iff bytes).mpr ⟨by omega, fun i hi => ?_⟩⟩
          rw [← hbuf i hi, hhead hn i hi]
        · rintro ⟨b, hb, hpic⟩
          obtain rfl := Option.some.inj hb
          obtain ⟨hn, hbuf⟩ := (isPicture_iff bytes).mp hpic
          exact ⟨by omega, fun i hi => (hhead hn.ge i hi).trans (hbuf i hi)⟩
      · have hin : i < bytes.length := by
          have := hlt i hi
          omega
        rw [Option.bind_some, Mem.blit_of_in _ _ (by omega) (by omega), Nat.sub_zero,
          List.getD_eq_getElem _ _ hin, List.getElem?_eq_getElem hin]
    · rw [hr] at hlt ⊢
      refine ⟨⟨fun h => ?_, ?_⟩, fun i hi => ?_⟩
      · have := h.1
        dsimp only at this
        omega
      · rintro ⟨b, hb, hpic⟩
        obtain rfl := Option.some.inj hb
        exact absurd ((isPicture_iff bytes).mp hpic).1 (by omega)
      · have := hlt i hi
        dsimp only at this
        omega

/-- A picture is taken, and the cursor goes to the corner. -/
lemma loadBit_takes (hw : s.disk.Working) {px : List UInt8} (hpx : px.length = 1920)
    (hs : stored sb s.disk = some (header ++ px)) :
    (loadBit sb s).disk = s.disk ∧ colours (loadBit sb s).pix = px ∧
      (loadBit sb s).cx = 0 ∧ (loadBit sb s).cy = 0 := by
  have hlen : (header ++ px).length = 1928 := by
    rw [List.length_append, hpx]
    rfl
  have htrue := (@inspect_stored sb s.disk hw fun _ => 0).1.mpr ⟨_, hs, px, hpx, rfl⟩
  have hr := @fsRead_stored sb s.disk hw fun _ => 0
  rw [hs] at hr
  dsimp only at hr
  rw [if_pos hlen.le] at hr
  have hread := readBit_eq sb s.disk
  rw [hr] at hread htrue
  dsimp only at hread htrue
  rw [if_pos htrue] at hread
  unfold loadBit
  rw [hread]
  dsimp only
  obtain ⟨v, w, e⟩ := redrawAll_draws
    { s with
      pix := fun y x => (Mem.blit (fun _ => 0) 0 (header ++ px).length fun i =>
        (header ++ px).getD i 0) (8 + y * canvW + x)
      cx := 0
      cy := 0 }
  rw [e]
  refine ⟨rfl, ?_, rfl, rfl⟩
  refine (colours_congr fun y hy x hx => ?_).trans (colours_of_length hpx)
  have hlt : y * canvW + x < 1920 := by
    have hy : y < 24 := hy
    have hx : x < 80 := hx
    show y * 80 + x < 1920
    omega
  dsimp only
  rw [Mem.blit_of_in _ _ (by omega) (by omega), Nat.sub_zero, Nat.add_assoc, header_getD]

/-- Whatever is not a picture is left alone. -/
lemma loadBit_leaves (hw : s.disk.Working)
    (hno : ∀ bytes, stored sb s.disk = some bytes → ¬ IsPicture bytes) : loadBit sb s = s := by
  have hfalse : ¬ (inspect (fsRead sb fileName (fun _ => 0) (8 + canvW * canvH) s.disk).1
      (fsRead sb fileName (fun _ => 0) (8 + canvW * canvH) s.disk).2.1).1 = true := fun h => by
    obtain ⟨bytes, hs, hpic⟩ := (inspect_stored hw fun _ => 0).1.mp h
    exact hno bytes hs hpic
  have hdisk := @fsRead_disk sb s.disk hw fileName (fun _ => 0) (8 + canvW * canvH)
  have hread := readBit_eq sb s.disk
  generalize fsRead sb fileName (fun _ => 0) (8 + canvW * canvH) s.disk = r at hread hdisk hfalse
  obtain ⟨n, buf, d⟩ := r
  dsimp only at hread hdisk hfalse
  rw [if_neg hfalse, hdisk] at hread
  unfold loadBit
  rw [hread]

/-- The directory has a slot for `paint.bit`: its own or a free one. -/
def Room (sb : Superblock) (d : Disk) : Prop :=
  ∃ k < slotCount sb, ¬ Live sb d k ∨ Named sb d fileName k

lemma canWrite_room (h : WellFormed sb d) (ha : Addressed sb d) :
    CanWrite sb d fileName ↔ Room sb d := by
  have hsec : sb.dirSectors ≤ 2147483648 := by
    have := h.layout.dir_le
    have := ha.data_le
    omega
  have hparent : ParentFound sb d fileName := fun p hp => absurd hp (by
    rw [show parentDir fileName = none by decide]
    exact (Option.some_ne_none p).symm)
  rw [canWrite_iff h.layout hsec]
  exact ⟨fun hc => hc.2.2, fun hr => ⟨by decide, hparent, hr⟩⟩

/-- With room for it, the picture is stored. -/
lemma saveBit_stored (h : WellFormed sb s.disk) (ha : Addressed sb s.disk) (hroom : Room sb s.disk) :
    (saveBit sb s).disk.Working ∧ stored sb (saveBit sb s).disk = some s.bitFile := by
  have hlen := bitFile_length s
  unfold saveBit
  dsimp only
  rw [hlen]
  have hfit := ha.fits h fileName fsFile (fun i => s.bitFile.getD i 0)
    (show 1928 < 4294967296 by decide)
  have hrc := (fsWrite_rc h.working h.layout.sectors_lt fileName fsFile
    (fun i => s.bitFile.getD i 0) 1928).mpr ((canWrite_room h ha).mpr hroom)
  refine ⟨(fsWrite_sound h (by decide) hfit).working, ?_⟩
  unfold stored
  rw [fsWrite_view h (by decide) fsFile _ (by decide) hfit hrc, Option.map_some]
  refine congrArg some (List.ext_getElem (by simp [hlen]) fun i hi hi' => ?_)
  rw [List.getElem_map, List.getElem_range, List.getD_eq_getElem _ _ hi']

/-- Without room nothing is stored, and there is no `paint.bit`. -/
lemma saveBit_fails (h : WellFormed sb s.disk) (ha : Addressed sb s.disk)
    (hroom : ¬ Room sb s.disk) : saveBit sb s = s ∧ stored sb s.disk = none := by
  constructor
  · unfold saveBit
    dsimp only
    rw [fsWrite_working h.working h.layout.sectors_lt,
      if_neg fun hc => hroom ((canWrite_room h ha).mp hc)]
  · unfold stored
    rw [view_eq_none.mpr (slotOf_eq_none_iff.mpr fun k hk hn => hroom ⟨k, hk, Or.inr hn⟩)]
    rfl

/-! ### Saving and loading -/

/-- The canvas of `t` is that of `s`. -/
def SameCanvas (s t : State) : Prop := ∀ y < canvH, ∀ x < canvW, t.pix y x = s.pix y x

lemma sameCanvas_of_colours {t : State} (h : colours t.pix = colours s.pix) : SameCanvas s t := by
  intro y hy x hx
  rw [← colours_pixel t.pix hy hx, h, colours_pixel s.pix hy hx]

/-- A canvas that is saved is loaded again exactly when the directory has a slot for the file. -/
lemma saved_iff (s : State) (h : WellFormed sb s.disk) (ha : Addressed sb s.disk) :
    Room sb s.disk ↔ ∀ t : State, t.disk = (saveBit sb s).disk → SameCanvas s (loadBit sb t) := by
  constructor
  · intro hroom t ht
    obtain ⟨hw, hs⟩ := saveBit_stored h ha hroom
    rw [← ht] at hw hs
    exact sameCanvas_of_colours (loadBit_takes hw (colours_length s.pix) hs).2.1
  · intro hall
    by_contra hroom
    obtain ⟨hsave, hnone⟩ := saveBit_fails h ha hroom
    -- a canvas that differs in the corner stays
    have hload := @loadBit_leaves sb { s with pix := fun y x => s.pix y x + 1 } h.working
      fun bytes hs => by
        rw [hnone] at hs
        cases hs
    have hsame := hall { s with pix := fun y x => s.pix y x + 1 } (by rw [hsave]) 0 (by decide) 0
      (by decide)
    rw [hload] at hsame
    dsimp only at hsame
    generalize s.pix 0 0 = b at hsame
    exact absurd hsame (by simp)

/-- A picture that has been loaded is saved as it was. -/
lemma saved_again (h : WellFormed sb s.disk) (ha : Addressed sb s.disk) {px : List UInt8}
    (hpx : px.length = 1920) (hs : stored sb s.disk = some (header ++ px)) :
    stored sb (saveBit sb (loadBit sb s)).disk = stored sb s.disk := by
  obtain ⟨hd, hcol, -, -⟩ := loadBit_takes h.working hpx hs
  have hroom : Room sb s.disk := by
    by_contra hno
    have hnone := (saveBit_fails h ha hno).2
    rw [hs] at hnone
    cases hnone
  rw [← hd] at h ha hroom
  rw [(saveBit_stored h ha hroom).2, bitFile_eq, hcol, hs]

/-- Whether a picture is taken does not depend on what the buffer holds before. -/
lemma inspect_junk (hw : d.Working) (junk : Mem) :
    (inspect (fsRead sb fileName junk (8 + canvW * canvH) d).1
      (fsRead sb fileName junk (8 + canvW * canvH) d).2.1).1 = (readBit sb d).1.isSome := by
  have hthis := (@inspect_stored sb d hw junk).1
  have hzero := (@inspect_stored sb d hw fun _ => 0).1
  have hsome : (readBit sb d).1.isSome = true ↔
      (inspect (fsRead sb fileName (fun _ => 0) (8 + canvW * canvH) d).1
        (fsRead sb fileName (fun _ => 0) (8 + canvW * canvH) d).2.1).1 = true := by
    rw [readBit_eq]
    generalize fsRead sb fileName (fun _ => 0) (8 + canvW * canvH) d = r
    obtain ⟨n, buf, d⟩ := r
    dsimp only
    cases (inspect n buf).1 <;> simp
  exact Bool.eq_iff_iff.mpr (hthis.trans (hzero.symm.trans hsome.symm))

/-- **The picture file.** A canvas that is saved is loaded again as soon as the directory has a slot
for the file, and only then. Exactly the files of the format are taken, and saved again as they were;
any other leaves the canvas and the cursor alone. What is looked at in the buffer are bytes of the
file, whatever the buffer holds before. -/
theorem bit_round_trip (s : State) (h : WellFormed sb s.disk) (ha : Addressed sb s.disk) :
    (Room sb s.disk ↔ ∀ t : State, t.disk = (saveBit sb s).disk → SameCanvas s (loadBit sb t)) ∧
    ((∃ px, px.length = 1920 ∧ stored sb s.disk = some (header ++ px) ∧
        colours (loadBit sb s).pix = px ∧ (loadBit sb s).cx = 0 ∧ (loadBit sb s).cy = 0 ∧
        stored sb (saveBit sb (loadBit sb s)).disk = stored sb s.disk) ∨
      (∀ bytes, stored sb s.disk = some bytes → ¬ IsPicture bytes) ∧ loadBit sb s = s) ∧
    ∀ junk, let r := fsRead sb fileName junk (8 + canvW * canvH) s.disk
      (inspect r.1 r.2.1).1 = (readBit sb s.disk).1.isSome ∧
        ∀ i ∈ (inspect r.1 r.2.1).2,
          (stored sb s.disk).bind (fun bytes => bytes[i]?) = some (r.2.1 i) := by
  refine ⟨saved_iff s h ha, ?_, fun junk =>
    ⟨inspect_junk h.working junk, (inspect_stored h.working junk).2⟩⟩
  by_cases hpic : ∃ px, px.length = 1920 ∧ stored sb s.disk = some (header ++ px)
  · obtain ⟨px, hpx, hs⟩ := hpic
    obtain ⟨-, hcol, hcx, hcy⟩ := loadBit_takes h.working hpx hs
    exact Or.inl ⟨px, hpx, hs, hcol, hcx, hcy, saved_again h ha hpx hs⟩
  · have hno : ∀ bytes, stored sb s.disk = some bytes → ¬ IsPicture bytes := by
      rintro bytes hs ⟨px, hpx, rfl⟩
      exact hpic ⟨px, hpx, hs⟩
    exact Or.inr ⟨hno, loadBit_leaves h.working hno⟩

/-- The program before its first key, with the colour `c` in every pixel. -/
def plain (d : Disk) (c : UInt8) : State := { loaded d bareState with pix := fun _ _ => c }

theorem bit_round_trip_blank : SameCanvas (plain blank.disk 7)
    (loadBit blank.sb (plain (saveBit blank.sb (plain blank.disk 7)).disk 3)) :=
  (bit_round_trip (plain blank.disk 7) blank_wellFormed blank_addressed).1.mp
    ⟨0, by decide, Or.inl (blank_not_live 0)⟩ _ rfl

/-- The blank disk after sixteen empty files, which fill its directory of one sector. -/
def crowded : Fs.State :=
  run Fs.State.step blank ((List.range 16).map fun i =>
    .write ⟨cstr [97 + UInt8.ofNat i], zero_notMem_cstr _⟩ fsFile (fun _ => 0) 0)

lemma crowded_wellFormed : WellFormed crowded.sb crowded.disk :=
  run_wellFormed blank_wellFormed (blank_fits (by decide +kernel) (by decide))

lemma crowded_addressed : Addressed crowded.sb crowded.disk :=
  ⟨by decide +kernel, by unfold EndsBy; decide +kernel⟩

/-- **In a full directory the canvas is lost.** -/
theorem save_without_room :
    WellFormed crowded.sb crowded.disk ∧ Addressed crowded.sb crowded.disk ∧
      ¬ SameCanvas (plain crowded.disk 7)
        (loadBit crowded.sb (plain (saveBit crowded.sb (plain crowded.disk 7)).disk 3)) := by
  have hroom : ¬ Room crowded.sb crowded.disk := by
    unfold Room
    decide +kernel
  obtain ⟨hsave, hnone⟩ :=
    saveBit_fails (s := plain crowded.disk 7) crowded_wellFormed crowded_addressed hroom
  have hload : loadBit crowded.sb (plain crowded.disk 3) = plain crowded.disk 3 :=
    loadBit_leaves crowded_wellFormed.working fun bytes hs => by
      rw [show (plain crowded.disk 3).disk = (plain crowded.disk 7).disk from rfl, hnone] at hs
      cases hs
  refine ⟨crowded_wellFormed, crowded_addressed, fun hsame => ?_⟩
  rw [hsave, show (plain crowded.disk 7).disk = crowded.disk from rfl, hload] at hsame
  exact absurd (hsame 0 (by decide) 0 (by decide)) (by decide : ¬ (3 : UInt8) = 7)

end LunariaOS.Paint.State
