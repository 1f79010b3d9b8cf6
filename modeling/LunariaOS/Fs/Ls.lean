import LunariaOS.Paint.Code
import LunariaOS.Fs.OpenFaults
import LunariaOS.Fs.Cat

/-!
The listings `fs_ls` and `fs_ls_buf`: of a directory, whose file holds a path on each line, and of the
root, whose entries lie in the directory sectors.

The two functions go through a directory in the same way and differ in what they do with a character,
so the loops take that as a parameter. The buffer is described by the text that has been stored in it;
the place of the next byte is the length of that text, as long as it fits 32 bits.
-/

namespace LunariaOS.Fs

open LunariaOS.Lib
open LunariaOS.Paint.State (itoa itoa_length)

/-! ### The code -/

section Loops

variable {σ : Type}

/-- One byte of a directory file, with what `emit` does with a character that is shown; `st.2` is
`skip_left`. -/
def lsByte (emit : σ → UInt8 → σ) (skip : ℕ) (st : σ × ℕ) (c : UInt8) : σ × ℕ :=
  if st.2 > 0 then (st.1, st.2 - 1) else (emit st.1 c, if c = 10 then skip else 0)

/-- The loop over the sectors of a directory file; the flag is whether every transfer succeeded. -/
def lsLoop (emit : σ → UInt8 → σ) (skip lba remaining : ℕ) (st : σ × ℕ) (d : Disk) :
    Bool × σ × Disk :=
  if remaining = 0 then (true, st.1, d)
  else
    match ataReadSectors d lba with
    | (none, d) => (false, st.1, d)
    | (some sec, d) =>
      let n := if remaining < 512 then remaining else 512
      lsLoop emit skip (u32 (lba + 1)) (remaining - n)
        (((List.range n).map sec).foldl (lsByte emit skip) st) d
termination_by remaining
decreasing_by split <;> omega

/-- The entry number `i` of a directory sector is in use and has no slash in its name. -/
def shown (buf : Mem) (i : ℕ) : Bool :=
  buf (32 * i) != 0 && !(cstr (nameFrom buf i)).any (· == slash)

/-- One entry of a directory sector, with what `line` does with a name and a size; the flag is whether
the listing has ended. -/
def lsEntry (line : σ → List UInt8 → List UInt8 → σ × Bool) (buf : Mem) (st : σ × Bool) (i : ℕ) :
    σ × Bool :=
  if st.2 = false ∧ shown buf i then
    line st.1 (cstr (nameFrom buf i)) (itoa (i32 (entryAt buf i).size))
  else st

/-- The loop over the `n` directory sectors from number `sec` on. -/
def lsRoot (line : σ → List UInt8 → List UInt8 → σ × Bool) (sb : Superblock) :
    ℕ → ℕ → σ → Disk → Bool × σ × Disk
  | 0, _, st, d => (true, st, d)
  | n + 1, sec, st, d =>
    match ataReadSectors d (u32 (sb.dirLba + sec)) with
    | (none, d) => (false, st, d)
    | (some buf, d) =>
      let r := (List.range fsEntriesPerSector).foldl (lsEntry line buf) (st, false)
      if r.2 then (true, r.1, d) else lsRoot line sb n (sec + 1) r.1 d

end Loops

/-- The name of a directory; none for the root, which is a null pointer or the empty string. -/
def named (name : Option CStr) : Option CStr := name.filter fun s => s.bytes ≠ []

/-- `fs_ls`: the result and the characters that the terminal is sent. -/
def fsLs (sb : Superblock) (name : Option CStr) (d : Disk) : ℤ × List UInt8 × Disk :=
  match named name with
  | some name =>
    match fsFind sb name d with
    | (none, d) => (-1, [], d)
    | (some e, d) =>
      let skip := u32 (name.length + 1)
      let r := lsLoop (fun t c => t ++ [c]) skip e.lba e.size ([], skip) d
      (if r.1 then 0 else -1, r.2)
  | none =>
    let bytes : List UInt8 := [32, 98, 121, 116, 101, 115, 10]
    let r := lsRoot (fun t name size => (t ++ name ++ [32, 32] ++ size ++ bytes, false)) sb
      sb.dirSectors 0 [] d
    (if r.1 then 0 else -1, r.2)

/-- The buffer of `fs_ls_buf` and the place of the next byte. -/
structure LsBuf where
  buf : Mem
  o : ℕ

/-- `buf[o++] = c`. -/
def LsBuf.put (b : LsBuf) (c : UInt8) : LsBuf := ⟨Function.update b.buf b.o c, u32 (b.o + 1)⟩

/-- `buf[o] = 0` and the number of bytes before it. -/
def LsBuf.finish (b : LsBuf) : ℤ × Mem := (i32 b.o, Function.update b.buf b.o 0)

/-- A character of a directory file: stored, if there is room. -/
def LsBuf.emit (max : ℕ) (b : LsBuf) (c : UInt8) : LsBuf :=
  if b.o < u32 (max + 4294967295) then b.put c else b

/-- A line of the root: stored, unless there is no room for all of it. -/
def LsBuf.line (max : ℕ) (b : LsBuf) (name size : List UInt8) : LsBuf × Bool :=
  if u32 (b.o + name.length + size.length + 2) ≥ max then (b, true)
  else ((name ++ 32 :: (size ++ [10])).foldl LsBuf.put b, false)

/-- `fs_ls_buf`: the result and the buffer. -/
def fsLsBuf (sb : Superblock) (name : Option CStr) (buf : Mem) (max : ℕ) (d : Disk) :
    (ℤ × Mem) × Disk :=
  match named name with
  | some name =>
    match fsFind sb name d with
    | (none, d) => ((-1, buf), d)
    | (some e, d) =>
      let skip := u32 (name.length + 1)
      let r := lsLoop (LsBuf.emit max) skip e.lba e.size (⟨buf, 0⟩, skip) d
      (if r.1 then r.2.1.finish else (-1, r.2.1.buf), r.2.2)
  | none =>
    let r := lsRoot (LsBuf.line max) sb sb.dirSectors 0 ⟨buf, 0⟩ d
    (if r.1 then r.2.1.finish else (-1, r.2.1.buf), r.2.2)

/-! ### Stored texts -/

/-- The buffer after a text has been stored from its start on. -/
def LsBuf.after (buf : Mem) (t : List UInt8) : LsBuf := t.foldl LsBuf.put ⟨buf, 0⟩

namespace LsBuf

lemma after_append (buf : Mem) (t l : List UInt8) :
    after buf (t ++ l) = l.foldl put (after buf t) := List.foldl_append

lemma after_o (buf : Mem) (t : List UInt8) : (after buf t).o = u32 t.length := by
  induction t using List.reverseRecOn with
  | nil => rfl
  | append_singleton t c ih =>
    rw [after_append, List.foldl_cons, List.foldl_nil, put, ih, List.length_append,
      List.length_singleton]
    dsimp only
    unfold u32
    omega

lemma after_get (buf : Mem) {t : List UInt8} (ht : t.length < 4294967296) (x : ℕ) :
    (after buf t).buf x = if x < t.length then t.getD x 0 else buf x := by
  induction t using List.reverseRecOn with
  | nil => rfl
  | append_singleton t c ih =>
    rw [List.length_append, List.length_singleton] at ht ⊢
    rw [after_append, List.foldl_cons, List.foldl_nil, put, after_o, u32_of_lt (by omega)]
    dsimp only
    by_cases hx : x = t.length
    · subst hx
      rw [Function.update_self, if_pos (by omega)]
      simp
    · rw [Function.update_of_ne hx, ih (by omega)]
      by_cases hlt : x < t.length
      · rw [if_pos hlt, if_pos (by omega), List.getD_append _ _ _ _ hlt]
      · rw [if_neg hlt, if_neg (by omega)]

/-- What has been stored does not depend on what was there. -/
lemma after_stored (buf buf' : Mem) {t : List UInt8} {x : ℕ} (hx : x < t.length)
    (hx' : x < 4294967296) : (after buf t).buf x = (after buf' t).buf x := by
  induction t using List.reverseRecOn with
  | nil => cases hx
  | append_singleton t c ih =>
    rw [List.length_append, List.length_singleton] at hx
    rw [after_append, after_append, List.foldl_cons, List.foldl_nil, List.foldl_cons,
      List.foldl_nil, put, put, after_o, after_o]
    dsimp only
    by_cases he : x = u32 t.length
    · rw [he, Function.update_self, Function.update_self]
    · rw [Function.update_of_ne he, Function.update_of_ne he]
      refine ih ?_
      by_contra hge
      have e : x = t.length := by omega
      rw [e, u32_of_lt (by omega)] at he
      exact he rfl

end LsBuf

/-- What a call that fills a buffer of `max` bytes has to do, when `T` is the complete listing: it
writes nothing behind the buffer, and it reports a number of bytes that begin the listing and that a
NUL follows. -/
def LsRight (max : ℕ) (T : List UInt8) (run : Mem → ℤ × Mem) : Prop :=
  ∃ r : ℕ, r < 4294967296 ∧ ∀ buf, (run buf).1 = i32 r ∧ (∀ x, max ≤ x → (run buf).2 x = buf x) ∧
    (run buf).2 r = 0 ∧ (List.range r).map (run buf).2 <+: T

lemma LsRight.out {max : ℕ} {T : List UInt8} {run : Mem → ℤ × Mem} (h : LsRight max T run)
    (buf : Mem) {x : ℕ} (hx : max ≤ x) : (run buf).2 x = buf x := by
  obtain ⟨r, -, h⟩ := h
  exact (h buf).2.1 x hx

/-- The byte behind the buffer is written as soon as the text and its NUL do not fit. -/
lemma lsRight_iff {max : ℕ} (hmax : max < 4294967296) {t T : List UInt8} (hT : t <+: T) :
    LsRight max T (fun buf => (LsBuf.after buf t).finish) ↔ t.length < max := by
  constructor
  · intro h
    by_contra hge
    have hsame : ∀ buf buf', (LsBuf.after buf t).finish.2 max = (LsBuf.after buf' t).finish.2 max := by
      intro buf buf'
      unfold LsBuf.finish
      dsimp only
      rw [LsBuf.after_o, LsBuf.after_o]
      by_cases he : max = u32 t.length
      · rw [← he, Function.update_self, Function.update_self]
      · rw [Function.update_of_ne he, Function.update_of_ne he]
        refine LsBuf.after_stored buf buf' ?_ hmax
        by_contra hlt
        have e : max = t.length := by omega
        exact he (by rw [← e, u32_of_lt hmax])
    have h0 := h.out (fun _ => 0) le_rfl
    have h1 := h.out (fun _ => 1) le_rfl
    rw [hsame (fun _ => 0) fun _ => 1, h1] at h0
    exact absurd h0 (by decide)
  · intro hlt
    refine ⟨t.length, by omega, fun buf => ?_⟩
    have ho : (LsBuf.after buf t).o = t.length := by
      rw [LsBuf.after_o, u32_of_lt (by omega)]
    unfold LsBuf.finish
    dsimp only
    rw [ho]
    refine ⟨rfl, fun x hx => ?_, Function.update_self .., ?_⟩
    · rw [Function.update_of_ne (by omega), LsBuf.after_get buf (by omega), if_neg (by omega)]
    · have e : (List.range t.length).map (Function.update (LsBuf.after buf t).buf t.length 0) = t := by
        refine List.ext_getElem (by simp) fun i h1 h2 => ?_
        rw [List.getElem_map, List.getElem_range, Function.update_of_ne (by omega),
          LsBuf.after_get buf (by omega), if_pos h2, List.getD_eq_getElem?_getD,
          List.getElem?_eq_getElem h2, Option.getD_some]
      rw [e]
      exact hT

/-! ### A directory -/

/-- A character is stored when there is room for it and a NUL. -/
lemma emit_after (buf : Mem) {t : List UInt8} (ht : t.length < 4294967296) (max : ℕ) (c : UInt8) :
    LsBuf.emit max (LsBuf.after buf (t.take (u32 (max + 4294967295)))) c =
      LsBuf.after buf ((t ++ [c]).take (u32 (max + 4294967295))) := by
  generalize hm : u32 (max + 4294967295) = m
  have hlen : (t.take m).length < 4294967296 := by
    rw [List.length_take]
    omega
  unfold LsBuf.emit
  rw [hm, LsBuf.after_o, u32_of_lt hlen, List.length_take]
  by_cases h : t.length < m
  · rw [if_pos (by omega), List.take_of_length_le h.le, List.take_of_length_le (by simp; omega),
      LsBuf.after_append]
    rfl
  · rw [if_neg (by omega), List.take_append_of_le_length (by omega)]

lemma lsByte_fold (buf : Mem) (max skip : ℕ) (cs : List UInt8) {t : List UInt8} (k : ℕ)
    (ht : t.length + cs.length < 4294967296) :
    cs.foldl (lsByte (LsBuf.emit max) skip) (LsBuf.after buf (t.take (u32 (max + 4294967295))), k) =
      (LsBuf.after buf ((cs.foldl (lsByte (fun t c => t ++ [c]) skip) (t, k)).1.take
        (u32 (max + 4294967295))), (cs.foldl (lsByte (fun t c => t ++ [c]) skip) (t, k)).2) := by
  induction cs generalizing t k with
  | nil => rfl
  | cons c cs ih =>
    rw [List.length_cons] at ht
    rw [List.foldl_cons, List.foldl_cons]
    by_cases hk : k > 0
    · have e : ∀ (σ : Type) (emit : σ → UInt8 → σ) (st : σ),
          lsByte emit skip (st, k) c = (st, k - 1) := fun σ emit st => if_pos hk
      rw [e, e]
      exact ih (k - 1) (by omega)
    · have e : ∀ (σ : Type) (emit : σ → UInt8 → σ) (st : σ),
          lsByte emit skip (st, k) c = (emit st c, if c = 10 then skip else 0) :=
        fun σ emit st => if_neg hk
      rw [e, e, emit_after buf (by omega)]
      refine ih _ ?_
      rw [List.length_append, List.length_singleton]
      omega

lemma lsByte_length (skip : ℕ) (cs t : List UInt8) (k : ℕ) :
    (cs.foldl (lsByte (fun t c => t ++ [c]) skip) (t, k)).1.length ≤ t.length + cs.length := by
  induction cs generalizing t k with
  | nil => exact le_rfl
  | cons c cs ih =>
    rw [List.foldl_cons, List.length_cons]
    unfold lsByte
    split_ifs
    · exact (ih _ _).trans (by simp only; omega)
    · exact (ih _ _).trans (by simp only [List.length_append, List.length_singleton]; omega)
    · exact (ih _ _).trans (by simp only [List.length_append, List.length_singleton]; omega)

section Loop

variable {σ : Type} (emit : σ → UInt8 → σ) (skip lba : ℕ)

lemma lsLoop_zero (st : σ × ℕ) (d : Disk) : lsLoop emit skip lba 0 st d = (true, st.1, d) := by
  rw [lsLoop, if_pos rfl]

lemma lsLoop_fault {remaining : ℕ} (h : remaining ≠ 0) (st : σ × ℕ) {d d' : Disk}
    (hr : ataReadSectors d lba = (none, d')) :
    lsLoop emit skip lba remaining st d = (false, st.1, d') := by
  rw [lsLoop, if_neg h, hr]

lemma lsLoop_step {remaining : ℕ} (h : remaining ≠ 0) (st : σ × ℕ) {d d' : Disk} {sec : Mem}
    (hr : ataReadSectors d lba = (some sec, d')) :
    lsLoop emit skip lba remaining st d =
      lsLoop emit skip (u32 (lba + 1)) (remaining - if remaining < 512 then remaining else 512)
        (((List.range (if remaining < 512 then remaining else 512)).map sec).foldl
          (lsByte emit skip) st) d' := by
  rw [lsLoop, if_neg h, hr]

end Loop

lemma sector_part {remaining : ℕ} (h : remaining ≠ 0) :
    (if remaining < 512 then remaining else 512) ≤ remaining ∧
      0 < if remaining < 512 then remaining else 512 := by
  split_ifs <;> omega

/-- The text of a sector more. -/
lemma lsByte_sector (skip n : ℕ) (sec : Mem) (t : List UInt8) (k : ℕ) :
    (((List.range n).map sec).foldl (lsByte (fun t c => t ++ [c]) skip) (t, k)).1.length ≤
      t.length + n := by
  have h := lsByte_length skip ((List.range n).map sec) t k
  rwa [List.length_map, List.length_range] at h

/-- `fs_ls_buf` stores of a directory what `fs_ls` prints, up to the room that there is. -/
lemma lsLoop_buf (buf : Mem) (max skip lba remaining : ℕ) {t : List UInt8} (k : ℕ) (d : Disk)
    (ht : t.length + remaining < 4294967296) :
    lsLoop (LsBuf.emit max) skip lba remaining
        (LsBuf.after buf (t.take (u32 (max + 4294967295))), k) d =
      ((lsLoop (fun t c => t ++ [c]) skip lba remaining (t, k) d).1,
        LsBuf.after buf ((lsLoop (fun t c => t ++ [c]) skip lba remaining (t, k) d).2.1.take
          (u32 (max + 4294967295))),
        (lsLoop (fun t c => t ++ [c]) skip lba remaining (t, k) d).2.2) := by
  induction remaining using Nat.strong_induction_on generalizing t k lba d with
  | _ remaining ih =>
    by_cases h0 : remaining = 0
    · subst h0
      rw [lsLoop_zero, lsLoop_zero]
    · rcases hr : ataReadSectors d lba with ⟨_ | sec, d'⟩
      · rw [lsLoop_fault _ _ _ h0 _ hr, lsLoop_fault _ _ _ h0 _ hr]
      · have hn := sector_part h0
        rw [lsLoop_step _ _ _ h0 _ hr, lsLoop_step _ _ _ h0 _ hr]
        generalize (if remaining < 512 then remaining else 512) = n at hn ⊢
        have hlen := lsByte_sector skip n sec t k
        rw [lsByte_fold buf max skip _ k (by rw [List.length_map, List.length_range]; omega)]
        exact ih (remaining - n) (by omega) _ _ _ (by omega)

/-- No more is printed than the file has. -/
lemma lsLoop_length (skip lba remaining : ℕ) (t : List UInt8) (k : ℕ) (d : Disk) :
    (lsLoop (fun t c => t ++ [c]) skip lba remaining (t, k) d).2.1.length ≤ t.length + remaining := by
  induction remaining using Nat.strong_induction_on generalizing t k lba d with
  | _ remaining ih =>
    by_cases h0 : remaining = 0
    · subst h0
      rw [lsLoop_zero]
      exact le_rfl
    · rcases hr : ataReadSectors d lba with ⟨_ | sec, d'⟩
      · rw [lsLoop_fault _ _ _ h0 _ hr]
        exact Nat.le_add_right _ _
      · have hn := sector_part h0
        rw [lsLoop_step _ _ _ h0 _ hr]
        generalize (if remaining < 512 then remaining else 512) = n at hn ⊢
        have hlen := lsByte_sector skip n sec t k
        exact (ih (remaining - n) (by omega) _ _ _ _).trans (by omega)

/-! ### The root -/

/-- The lines of the listing of the root that come from one directory sector. -/
def sectorLines (buf : Mem) : List (List UInt8) :=
  ((List.range fsEntriesPerSector).filter (shown buf)).map fun i =>
    cstr (nameFrom buf i) ++ 32 :: (itoa (i32 (entryAt buf i).size) ++ [10])

/-- The lines that come from the `n` directory sectors from number `sec` on. -/
def linesFrom (sb : Superblock) (d : Disk) (sec n : ℕ) : List (List UInt8) :=
  (List.range' sec n).flatMap fun s => sectorLines (d.sectors (u32 (sb.dirLba + s))).mem

/-- All lines of the root. -/
def rootLines (sb : Superblock) (d : Disk) : List (List UInt8) := linesFrom sb d 0 sb.dirSectors

/-- Put lines behind a text, up to the first for which there is no room; whether there was one. -/
def pack (max : ℕ) : List UInt8 → List (List UInt8) → List UInt8 × Bool
  | t, [] => (t, false)
  | t, x :: l => if u32 (t.length + x.length) ≥ max then (t, true) else pack max (t ++ x) l

section Pack

variable {max : ℕ}

lemma pack_append (t : List UInt8) (l₁ l₂ : List (List UInt8)) :
    pack max t (l₁ ++ l₂) =
      if (pack max t l₁).2 then pack max t l₁ else pack max (pack max t l₁).1 l₂ := by
  induction l₁ generalizing t with
  | nil => rfl
  | cons x l ih =>
    rw [List.cons_append, pack, pack]
    split_ifs with h h1 h2
    · rfl
    · exact absurd rfl h1
    · rw [ih, if_pos h2]
    · rw [ih, if_neg h2]

lemma pack_keeps (t : List UInt8) (l : List (List UInt8)) : t <+: (pack max t l).1 := by
  induction l generalizing t with
  | nil => exact List.prefix_rfl
  | cons x l ih =>
    rw [pack]
    split_ifs
    · exact List.prefix_rfl
    · exact (List.prefix_append t x).trans (ih _)

lemma pack_prefix (t : List UInt8) (l : List (List UInt8)) :
    (pack max t l).1 <+: t ++ l.flatten := by
  induction l generalizing t with
  | nil =>
    rw [List.flatten_nil, List.append_nil]
    exact List.prefix_rfl
  | cons x l ih =>
    rw [pack]
    split_ifs
    · exact List.prefix_append _ _
    · rw [List.flatten_cons, ← List.append_assoc]
      exact ih _

/-- The sum that tells whether a line fits does not wrap: with `n` bytes before them, the lines are
shorter than 2^32 bytes together, or the first of them make up `max` bytes before they are that
long. -/
def Counted (max n : ℕ) (l : List (List UInt8)) : Prop :=
  n + l.flatten.length < 4294967296 ∨
    ∃ k, max ≤ n + (l.take k).flatten.length ∧ n + (l.take k).flatten.length < 4294967296

lemma counted_cons {n : ℕ} (hn : n < max) (x : List UInt8) (l : List (List UInt8)) :
    Counted max n (x :: l) ↔ n + x.length < 4294967296 ∧
      (max ≤ n + x.length ∨ Counted max (n + x.length) l) := by
  unfold Counted
  rw [List.flatten_cons, List.length_append, ← Nat.add_assoc]
  constructor
  · rintro (h | ⟨k, h1, h2⟩)
    · exact ⟨by omega, Or.inr (Or.inl h)⟩
    · cases k with
      | zero =>
        rw [List.take_zero, List.flatten_nil, List.length_nil] at h1
        omega
      | succ k =>
        rw [List.take_succ_cons, List.flatten_cons, List.length_append, ← Nat.add_assoc] at h1 h2
        exact ⟨by omega, Or.inr (Or.inr ⟨k, h1, h2⟩)⟩
  · rintro ⟨h0, h | h | ⟨k, h1, h2⟩⟩
    · exact Or.inr ⟨1, by simpa using h, by simpa using h0⟩
    · exact Or.inl h
    · refine Or.inr ⟨k + 1, ?_, ?_⟩
      · rw [List.take_succ_cons, List.flatten_cons, List.length_append, ← Nat.add_assoc]
        exact h1
      · rw [List.take_succ_cons, List.flatten_cons, List.length_append, ← Nat.add_assoc]
        exact h2

/-- The text stays below the size of the buffer unless the sum wraps. -/
lemma pack_lt_iff (hmax : max < 4294967296) {t : List UInt8} (ht : t.length < max)
    {l : List (List UInt8)} (hl : ∀ x ∈ l, x.length < 4294967296) :
    (pack max t l).1.length < max ↔ Counted max t.length l := by
  induction l generalizing t with
  | nil =>
    refine ⟨fun _ => Or.inl ?_, fun _ => ht⟩
    rw [List.flatten_nil, List.length_nil]
    omega
  | cons x l ih =>
    have hx := hl x List.mem_cons_self
    rw [counted_cons ht, pack]
    by_cases hwrap : t.length + x.length < 4294967296
    · rw [u32_of_lt hwrap]
      by_cases hstop : t.length + x.length ≥ max
      · rw [if_pos hstop]
        exact ⟨fun _ => ⟨hwrap, Or.inl hstop⟩, fun _ => ht⟩
      · have hlen : (t ++ x).length < max := by
          rw [List.length_append]
          omega
        rw [if_neg hstop, ih hlen fun y hy => hl y (List.mem_cons_of_mem _ hy), List.length_append]
        refine ⟨fun h => ⟨hwrap, Or.inr h⟩, ?_⟩
        rintro ⟨-, h | h⟩
        · exact absurd h hstop
        · exact h
    · -- the sum wraps, so that the line is taken to fit
      have hsmall : ¬ u32 (t.length + x.length) ≥ max := by
        unfold u32
        omega
      rw [if_neg hsmall]
      refine ⟨fun h => ?_, fun h => absurd h.1 hwrap⟩
      have := (@pack_keeps max (t ++ x) l).length_le
      rw [List.length_append] at this
      omega

end Pack

section Root

variable (buf : Mem) (max : ℕ)

lemma line_after (t name size : List UInt8) :
    LsBuf.line max (LsBuf.after buf t) name size =
      (LsBuf.after buf (pack max t [name ++ 32 :: (size ++ [10])]).1,
        (pack max t [name ++ 32 :: (size ++ [10])]).2) := by
  have hsum : u32 ((LsBuf.after buf t).o + name.length + size.length + 2) =
      u32 (t.length + (name ++ 32 :: (size ++ [10])).length) := by
    rw [LsBuf.after_o]
    simp only [List.length_append, List.length_cons, List.length_nil]
    unfold u32
    omega
  unfold LsBuf.line
  rw [hsum, pack, pack]
  split_ifs
  · rfl
  · rw [LsBuf.after_append]

lemma lsEntry_ended {σ : Type} (line : σ → List UInt8 → List UInt8 → σ × Bool) (sec : Mem) (b : σ)
    (l : List ℕ) : l.foldl (lsEntry line sec) (b, true) = (b, true) := by
  induction l with
  | nil => rfl
  | cons i l ih =>
    have e : lsEntry line sec (b, true) i = (b, true) := if_neg fun h => by cases h.1
    rw [List.foldl_cons, e, ih]

lemma lsEntry_fold (sec : Mem) (t : List UInt8) (l : List ℕ) :
    l.foldl (lsEntry (LsBuf.line max) sec) (LsBuf.after buf t, false) =
      (LsBuf.after buf (pack max t ((l.filter (shown sec)).map fun i =>
        cstr (nameFrom sec i) ++ 32 :: (itoa (i32 (entryAt sec i).size) ++ [10]))).1,
        (pack max t ((l.filter (shown sec)).map fun i =>
          cstr (nameFrom sec i) ++ 32 :: (itoa (i32 (entryAt sec i).size) ++ [10]))).2) := by
  induction l generalizing t with
  | nil => rfl
  | cons i l ih =>
    rw [List.foldl_cons]
    by_cases hi : shown sec i = true
    · have e : lsEntry (LsBuf.line max) sec (LsBuf.after buf t, false) i =
          LsBuf.line max (LsBuf.after buf t) (cstr (nameFrom sec i))
            (itoa (i32 (entryAt sec i).size)) := if_pos ⟨rfl, hi⟩
      rw [e, line_after, List.filter_cons_of_pos hi, List.map_cons]
      generalize cstr (nameFrom sec i) ++ 32 :: (itoa (i32 (entryAt sec i).size) ++ [10]) = x
      rw [pack, pack, pack]
      split_ifs
      · exact lsEntry_ended _ _ _ _
      · exact ih _
    · have e : lsEntry (LsBuf.line max) sec (LsBuf.after buf t, false) i =
          (LsBuf.after buf t, false) := if_neg fun h => hi h.2
      rw [e, List.filter_cons_of_neg hi]
      exact ih t

/-- `fs_ls_buf` stores the lines of the root that its test lets through. -/
lemma lsRoot_buf (sb : Superblock) (n sec : ℕ) (t : List UInt8) (d : Disk) :
    ∃ ok t' d', (∀ buf, lsRoot (LsBuf.line max) sb n sec (LsBuf.after buf t) d =
      (ok, LsBuf.after buf t', d')) ∧
      (ok = true → t' = (pack max t (linesFrom sb d sec n)).1) := by
  induction n generalizing sec t d with
  | zero => exact ⟨true, t, d, fun buf => rfl, fun _ => rfl⟩
  | succ n ih =>
    rcases hr : ataReadSectors d (u32 (sb.dirLba + sec)) with ⟨_ | buf₀, d₁⟩
    · refine ⟨false, t, d₁, fun buf => ?_, fun h => by cases h⟩
      rw [lsRoot, hr]
    · have hsec : buf₀ = (d.sectors (u32 (sb.dirLba + sec))).mem ∧ d₁.sectors = d.sectors := by
        unfold ataReadSectors at hr
        rw [Prod.mk.injEq] at hr
        obtain ⟨h1, rfl⟩ := hr
        split_ifs at h1
        exact ⟨(Option.some.inj h1).symm, rfl⟩
      obtain ⟨rfl, hsame⟩ := hsec
      have hlines : linesFrom sb d sec (n + 1) =
          sectorLines (d.sectors (u32 (sb.dirLba + sec))).mem ++ linesFrom sb d₁ (sec + 1) n := by
        unfold linesFrom
        rw [List.range'_succ, List.flatMap_cons, hsame]
      have hfold := fun buf => lsEntry_fold buf max (d.sectors (u32 (sb.dirLba + sec))).mem t
        (List.range fsEntriesPerSector)
      rw [hlines, pack_append]
      unfold sectorLines
      generalize pack max t ((List.filter (shown (d.sectors (u32 (sb.dirLba + sec))).mem)
        (List.range fsEntriesPerSector)).map fun i =>
          cstr (nameFrom (d.sectors (u32 (sb.dirLba + sec))).mem i) ++
            32 :: (itoa (i32 (entryAt (d.sectors (u32 (sb.dirLba + sec))).mem i).size) ++ [10])) = r
        at hfold ⊢
      obtain ⟨t₁, full⟩ := r
      cases full with
      | true =>
        refine ⟨true, t₁, d₁, fun buf => ?_, fun _ => rfl⟩
        rw [lsRoot, hr]
        dsimp only
        rw [hfold]
        rfl
      | false =>
        obtain ⟨ok, t', d', h1, h2⟩ := ih (sec + 1) t₁ d₁
        refine ⟨ok, t', d', fun buf => ?_, h2⟩
        rw [lsRoot, hr]
        dsimp only
        rw [hfold]
        exact h1 buf

end Root

/-! ### The listing -/

lemma rootLine_length (sec : Mem) (i : ℕ) (size : ℤ) :
    (cstr (nameFrom sec i) ++ 32 :: (itoa size ++ [10])).length < 4294967296 := by
  have h1 := itoa_length size
  have h2 : (cstr (nameFrom sec i)).length ≤ 512 := by
    refine (List.takeWhile_sublist _).length_le.trans ?_
    unfold nameFrom
    rw [List.length_map, List.length_range]
    exact Nat.sub_le _ _
  rw [List.length_append, List.length_cons, List.length_append, List.length_singleton]
  omega

lemma rootLines_length (sb : Superblock) (d : Disk) : ∀ x ∈ rootLines sb d, x.length < 4294967296 := by
  intro x hx
  unfold rootLines linesFrom at hx
  rw [List.mem_flatMap] at hx
  obtain ⟨s, -, hx⟩ := hx
  unfold sectorLines at hx
  rw [List.mem_map] at hx
  obtain ⟨i, -, rfl⟩ := hx
  exact rootLine_length _ i _

/-- The complete listing: what `fs_ls` prints of a directory, all lines of the root. -/
def complete (sb : Superblock) (name : Option CStr) (d : Disk) : List UInt8 :=
  if (named name).isSome then (fsLs sb name d).2.1 else (rootLines sb d).flatten

/-- A successful `fs_ls_buf` stays in its buffer and stores the beginning of the complete listing, with
its NUL and its length, exactly when the buffer is not empty and, for the root, the sum that tells
whether a line fits does not wrap. -/
theorem fsLsBuf_right_iff (sb : Superblock) (name : Option CStr) {max : ℕ} (hmax : max < 4294967296)
    {d : Disk} (hok : (fsLsBuf sb name (fun _ => 0) max d).1.1 ≠ -1) :
    LsRight max (complete sb name d) (fun buf => (fsLsBuf sb name buf max d).1) ∧
        ((named name).isSome → (fsLs sb name d).1 = 0) ↔
      0 < max ∧ (named name = none → Counted max 0 (rootLines sb d)) := by
  unfold complete
  cases hn : named name with
  | some dir =>
    have hfind := @fsFind_faults sb dir d
    rcases hf : fsFind sb dir d with ⟨_ | e, d₁⟩
    · refine absurd ?_ hok
      unfold fsLsBuf
      rw [hn]
      dsimp only
      rw [hf]
    · rw [hf] at hfind
      obtain ⟨k, -, he⟩ := hfind.2 e rfl
      have hsize : e.size < 4294967296 := by
        rw [he]
        exact Mem.ld32_lt _ _
      let skip := u32 (dir.length + 1)
      have hbuf := fun buf => lsLoop_buf buf max skip e.lba e.size (t := []) skip d₁
        (by rw [List.length_nil]; omega)
      have hlen := lsLoop_length skip e.lba e.size [] skip d₁
      have hls : fsLs sb name d =
          (if (lsLoop (fun t c => t ++ [c]) skip e.lba e.size ([], skip) d₁).1 then 0 else -1,
            (lsLoop (fun t c => t ++ [c]) skip e.lba e.size ([], skip) d₁).2) := by
        unfold fsLs
        rw [hn]
        dsimp only
        rw [hf]
      have hrun : ∀ buf, (fsLsBuf sb name buf max d).1 =
          if (lsLoop (LsBuf.emit max) skip e.lba e.size (LsBuf.after buf [], skip) d₁).1 then
            (lsLoop (LsBuf.emit max) skip e.lba e.size (LsBuf.after buf [], skip) d₁).2.1.finish
          else (-1, (lsLoop (LsBuf.emit max) skip e.lba e.size (LsBuf.after buf [], skip) d₁).2.1.buf) := by
        intro buf
        unfold fsLsBuf
        rw [hn]
        dsimp only
        rw [hf]
        rfl
      simp only [List.take_nil] at hbuf
      simp only [hbuf] at hrun
      rw [hls]
      generalize lsLoop (fun t c => t ++ [c]) skip e.lba e.size ([], skip) d₁ = r at *
      obtain ⟨ok, T, d'⟩ := r
      cases ok with
      | false =>
        refine absurd ?_ hok
        rw [hrun]
        rfl
      | true =>
        dsimp only at hrun
        simp only [if_true] at hrun
        have hright := lsRight_iff hmax (List.take_prefix (u32 (max + 4294967295)) T)
        simp only [Option.isSome_some, if_true, hrun]
        rw [hright, List.length_take]
        have hm : max = 0 ∨ u32 (max + 4294967295) = max - 1 := by
          unfold u32
          omega
        constructor
        · rintro ⟨h, -⟩
          exact ⟨by omega, fun h => by cases h⟩
        · rintro ⟨h, -⟩
          exact ⟨by omega, fun _ => trivial⟩
  | none =>
    obtain ⟨ok, t, d', hroot, ht⟩ := lsRoot_buf max sb sb.dirSectors 0 [] d
    have hrun : ∀ buf, (fsLsBuf sb name buf max d).1 =
        if ok then (LsBuf.after buf t).finish else (-1, (LsBuf.after buf t).buf) := by
      intro buf
      have h : lsRoot (LsBuf.line max) sb sb.dirSectors 0 ⟨buf, 0⟩ d =
          (ok, LsBuf.after buf t, d') := hroot buf
      unfold fsLsBuf
      rw [hn]
      dsimp only
      rw [h]
    cases ok with
    | false =>
      refine absurd ?_ hok
      rw [hrun]
      rfl
    | true =>
      simp only [if_true] at hrun
      have hp : t <+: (rootLines sb d).flatten := by
        rw [ht rfl]
        exact pack_prefix [] _
      simp only [Option.isSome_none, Bool.false_eq_true, if_false, hrun, false_implies, and_true,
        true_implies]
      rw [lsRight_iff hmax hp]
      by_cases h0 : 0 < max
      · have hiff := pack_lt_iff hmax (t := []) h0 (rootLines_length sb d)
        rw [ht rfl]
        exact hiff.trans ⟨fun h => ⟨h0, h⟩, fun h => h.2⟩
      · exact ⟨fun h => absurd h (by omega), fun h => absurd h.1 h0⟩

/-- A disk with the directory `A`, which lists the path `A/b`. -/
def dirA : Disk where
  sectors := fun l => if l = 200 then
      Sector.ofMem (putEntry (fun _ => 0) 0
        { name := 65 :: List.replicate 22 0, type := fsDir, lba := 300, size := 4 })
    else fun i => [65, 47, 98, 10].getD i 0
  fault := fun _ => false

theorem fsLsBuf_right_iff_dirA :
    LsRight 16 (complete oneDir (some nameA) dirA)
        (fun buf => (fsLsBuf oneDir (some nameA) buf 16 dirA).1) ∧
      ((named (some nameA)).isSome → (fsLs oneDir (some nameA) dirA).1 = 0) ↔
      0 < 16 ∧ (named (some nameA) = none → Counted 16 0 (rootLines oneDir dirA)) :=
  fsLsBuf_right_iff oneDir (some nameA) (by omega) (by decide +kernel)

/-- With a size of 0 the whole listing is stored. -/
theorem ls_no_room_overruns :
    (fsLsBuf oneDir (some nameA) (fun _ => 0) 0 dirA).1.1 = 2 ∧
      ¬ LsRight 0 (complete oneDir (some nameA) dirA)
        (fun buf => (fsLsBuf oneDir (some nameA) buf 0 dirA).1) := by
  have hbyte : (fsLsBuf oneDir (some nameA) (fun _ => 0) 0 dirA).1.2 0 = 98 := by decide +kernel
  refine ⟨by decide +kernel, fun h => ?_⟩
  exact absurd (hbyte.symm.trans (h.out (fun _ => 0) le_rfl)) (by decide)

end LunariaOS.Fs
