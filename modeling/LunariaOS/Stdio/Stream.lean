import LunariaOS.Lib.Pushback
import LunariaOS.Fs.Append
import LunariaOS.Fs.ReadFaults

/-!
Streams that read from a file, in `stdio.c`.

A stream is a handle of the kernel and one byte that was put back. It has no buffer: `fgetc` reads one
byte from the handle, and `fread` and `fgets` call `fgetc`. What such a stream stands for is an input
with push-back, the contents of the file from the offset of the handle on.
-/

namespace LunariaOS.Stdio

open LunariaOS.Lib LunariaOS.Fs

/-! ### The code -/

/-- `struct FILE` of a file. The streams of the console, whose `kind` is not 0, are left out. -/
structure Stream where
  fd : ℤ
  eof : Bool
  error : Bool
  ungot : ℤ

/-- A stream with the file system that it reads from. -/
structure Opened where
  file : Stream
  fs : Fs.State

/-- `EOF`. -/
def eofValue : ℤ := -1

/-- `fopen`, where `room` tells whether `malloc` finds room. -/
def fopen (s : Fs.State) (path : CStr) (mode : List UInt8) (room : Bool) : Option Stream × Fs.State :=
  match modeFlags mode with
  | none => (none, s)
  | some flags =>
    let (fd, s) := fsOpen s path flags
    if fd < 0 then (none, s)
    else if !room then (none, (fsClose s fd).2)
    else (some { fd := fd, eof := false, error := false, ungot := -1 }, s)

namespace Opened

variable (w : Opened)

def fgetc : ℤ × Opened :=
  if w.file.ungot ≥ 0 then (w.file.ungot, { w with file := { w.file with ungot := -1 } })
  else
    let (r, c, fs) := fsReadFd w.fs w.file.fd (fun _ => 0) 1
    if r ≤ 0 then
      if r = 0 then (eofValue, ⟨{ w.file with eof := true }, fs⟩)
      else (eofValue, ⟨{ w.file with error := true }, fs⟩)
    else ((c 0).toNat, ⟨w.file, fs⟩)

def ungetc (c : ℤ) : ℤ × Opened :=
  if c = eofValue then (eofValue, w)
  else (c % 256, { w with file := { w.file with ungot := c % 256, eof := false } })

/-- The loops of `fread` and `fgets`, with at most `n` turns to come and `got` bytes in the buffer. -/
def getLoop (stop : ℤ → Bool) : ℕ → ℕ → Mem → Opened → ℕ × Mem × Opened
  | 0, got, p, w => (got, p, w)
  | n + 1, got, p, w =>
    let (c, w) := w.fgetc
    if c = eofValue then (got, p, w)
    else
      let p := Function.update p got (UInt8.ofNat c.toNat)
      if stop c then (got + 1, p, w) else getLoop stop n (got + 1) p w

/-- `fread`: the value returned, the bytes stored, and the buffer. -/
def fread (ptr : Mem) (size nmemb : ℕ) : ℕ × ℕ × Mem × Opened :=
  if size = 0 ∨ nmemb = 0 then (0, 0, ptr, w)
  else
    let total := u32 (size * nmemb)
    if total / size ≠ nmemb then (0, 0, ptr, { w with file := { w.file with error := true } })
    else
      let (got, p, w) := getLoop (fun _ => false) total 0 ptr w
      (got / size, got, p, w)

/-- `fgets`: whether the value returned is not null, the bytes stored, and the buffer. -/
def fgets (s : Mem) (n : ℤ) : Bool × ℕ × Mem × Opened :=
  if n ≤ 0 then (false, 0, s, w)
  else
    let (i, s, w) := getLoop (fun c => c == 10) (n - 1).toNat 0 s w
    (i != 0, i, Function.update s i 0, w)

def fseek (off whence : ℤ) : ℤ × Opened :=
  let (r, fs) := fsSeek w.fs w.file.fd off whence
  if r < 0 then (-1, ⟨{ w.file with error := true }, fs⟩)
  else (0, ⟨{ w.file with eof := false, ungot := -1 }, fs⟩)

def ftell : ℤ × Opened :=
  let (r, fs) := fsSeek w.fs w.file.fd 0 fsSeekCur
  (r, ⟨w.file, fs⟩)

end Opened

/-! ### The input of a stream -/

/-- The contents of a file on the disk. -/
def contents (d : Disk) (e : FileEntry) : List UInt8 := (List.range e.size).map (fileByte d e.lba)

/-- A byte that was read or put back, or none, as an `int`. -/
def intOf : Option UInt8 → ℤ
  | none => -1
  | some b => b.toNat

/-- The stream reads the file `e` through the handle number `i`, and `p` is what comes. -/
structure Plays (i : Fin 8) (e : FileEntry) (w : Opened) (p : Pushback UInt8) : Prop where
  working : w.fs.disk.Working
  fd_eq : w.file.fd = fdOf i
  size_lt : e.size < 4294967296
  reads : ∃ pos ≤ e.size, Reads w.fs i e.lba e.size pos ∧ p.rest = (contents w.fs.disk e).drop pos
  back : w.file.ungot = intOf p.back

section Plays

variable {i : Fin 8} {e : FileEntry} {w : Opened} {p : Pushback UInt8}

lemma intOf_some_nonneg (b : UInt8) : 0 ≤ intOf (some b) := Int.natCast_nonneg _

lemma ofNat_intOf (b : UInt8) : UInt8.ofNat (intOf (some b)).toNat = b := by
  show UInt8.ofNat (b.toNat : ℤ).toNat = b
  rw [Int.toNat_natCast, UInt8.ofNat_toNat]

lemma intOf_none {x : Option UInt8} : intOf x = eofValue ↔ x = none := by
  cases x with
  | none => exact iff_of_true rfl rfl
  | some b =>
    refine iff_of_false (fun hx => ?_) (Option.some_ne_none b)
    have hb := intOf_some_nonneg b
    rw [hx] at hb
    exact absurd hb (by decide)

lemma contents_length (d : Disk) (e : FileEntry) : (contents d e).length = e.size := by
  simp [contents]

lemma contents_drop {d : Disk} {pos : ℕ} (h : pos < e.size) :
    (contents d e).drop pos = fileByte d e.lba pos :: (contents d e).drop (pos + 1) := by
  rw [List.drop_eq_getElem_cons (by rwa [contents_length])]
  congr 1
  simp [contents]

/-- **`fs_read_fd` with one byte**, at any offset. -/
lemma fsReadFd_byte {s : Fs.State} {lba size pos : ℕ} (hw : s.disk.Working)
    (h : Reads s i lba size pos) (hsize : size < 4294967296) (buf : Mem) :
    fsReadFd s (fdOf i) buf 1 =
      if pos < size then
        (1, buf.blit 0 1 fun k => fileByte s.disk lba (pos + k),
          s.setHandle i ((s.handles i).moveTo (pos + 1)))
      else (0, buf, s) := by
  obtain ⟨hu, hwr, rfl, rfl, rfl⟩ := h
  unfold fsReadFd
  rw [fdLookup_fdOf, if_pos hu]
  simp only [available_eq]
  rw [if_neg (by simp [hwr])]
  by_cases hlt : (s.handles i).offset < (s.handles i).size
  · have hone : (if 1 > (s.handles i).size - (s.handles i).offset then
        (s.handles i).size - (s.handles i).offset else 1) = 1 := if_neg (by omega)
    rw [if_pos hlt, hone, if_neg one_ne_zero,
      readFdLoop_working hw _ _ _ _ _ (by omega) (Nat.zero_le _)]
    simp only [Nat.sub_zero, Nat.add_zero]
    rw [u32_of_lt (by omega), i32_of_lt (by omega)]
    rfl
  · have hzero : (if 1 > (s.handles i).size - (s.handles i).offset then
        (s.handles i).size - (s.handles i).offset else 1) = 0 := by
      rw [if_pos (by omega)]
      omega
    rw [if_neg hlt, hzero, if_pos rfl]

/-- **`fgetc` takes the next byte**, and sets the flag when there is none. -/
lemma Plays.fgetc (h : Plays i e w p) :
    w.fgetc.1 = intOf p.next.1 ∧ Plays i e w.fgetc.2 p.next.2 ∧
      w.fgetc.2.file.eof = (w.file.eof || p.next.1.isNone) := by
  obtain ⟨hw, hfd, hsize, ⟨pos, hle, hreads, hrest⟩, hback⟩ := h
  obtain ⟨rest, back⟩ := p
  dsimp only at hrest hback
  unfold Opened.fgetc
  cases back with
  | some b =>
    -- the byte that was put back
    rw [if_pos (hback ▸ intOf_some_nonneg b)]
    exact ⟨hback, ⟨hw, hfd, hsize, ⟨pos, hle, hreads, hrest⟩, rfl⟩, (Bool.or_false _).symm⟩
  | none =>
    have hneg : ¬ w.file.ungot ≥ 0 := by
      rw [hback]
      decide
    rw [if_neg hneg, hfd, fsReadFd_byte hw hreads hsize]
    by_cases hlt : pos < e.size
    · rw [contents_drop hlt] at hrest
      subst hrest
      rw [if_pos hlt]
      dsimp only
      rw [if_neg (by decide), Mem.blit_of_in _ _ le_rfl (by omega)]
      refine ⟨rfl, ⟨hw, hfd, hsize, ⟨pos + 1, hlt, ?_, rfl⟩, hback⟩, (Bool.or_false _).symm⟩
      obtain ⟨hu, hwr, hl, hs, -⟩ := hreads
      exact ⟨by simpa using hu, by simpa using hwr, by simpa using hl, by simpa using hs, by simp⟩
    · have hnil : rest = [] := by
        rw [hrest, List.drop_eq_nil_iff, contents_length]
        omega
      subst hnil
      rw [if_neg hlt]
      dsimp only
      rw [if_pos le_rfl, if_pos rfl]
      exact ⟨rfl, ⟨hw, hfd, hsize, ⟨pos, hle, hreads, hrest⟩, hback⟩, (Bool.or_true _).symm⟩

lemma Plays.back_none (h : Plays i e w p) (hback : w.file.ungot < 0) : p.back = none := by
  rw [h.back] at hback
  cases hp : p.back with
  | none => rfl
  | some b =>
    rw [hp] at hback
    exact absurd (intOf_some_nonneg b) (not_le.mpr hback)

/-- The low byte of an `int`. -/
lemma intOf_byte (c : ℤ) : intOf (some (UInt8.ofNat (c % 256).toNat)) = c % 256 := by
  show ((UInt8.ofNat (c % 256).toNat).toNat : ℤ) = c % 256
  rw [UInt8.toNat_ofNat']
  omega

/-- `ungetc` puts the low byte of its argument back, and clears the flag. -/
lemma Plays.ungetc (h : Plays i e w p) {c : ℤ} (hc : c ≠ eofValue) :
    (w.ungetc c).1 = c % 256 ∧ Plays i e (w.ungetc c).2 (p.put (UInt8.ofNat (c % 256).toNat)) ∧
      (w.ungetc c).2.file.eof = false := by
  obtain ⟨hw, hfd, hsize, hreads, -⟩ := h
  refine ⟨?_, ?_, ?_⟩ <;> unfold Opened.ungetc <;> rw [if_neg hc]
  exact ⟨hw, hfd, hsize, hreads, (intOf_byte c).symm⟩

/-- A byte stored in front of a row of bytes. -/
lemma update_blit (buf : Mem) (got : ℕ) (b : UInt8) (l : List UInt8) :
    Mem.blit (Function.update buf got b) (got + 1) l.length (fun k => l.getD k 0) =
      buf.blit got (b :: l).length (fun k => (b :: l).getD k 0) := by
  funext x
  rw [List.length_cons]
  by_cases hin : got + 1 ≤ x ∧ x < got + 1 + l.length
  · obtain ⟨k, rfl⟩ := Nat.exists_eq_add_of_le hin.1
    rw [Mem.blit_of_in _ _ hin.1 hin.2, Mem.blit_of_in _ _ (by omega) (by omega),
      Nat.add_sub_cancel_left, show got + 1 + k - got = k + 1 by omega, List.getD_cons_succ]
  · rw [Mem.blit_of_out _ _ (by omega)]
    by_cases hx : x = got
    · subst hx
      rw [Function.update_self, Mem.blit_of_in _ _ le_rfl (by omega), Nat.sub_self,
        List.getD_cons_zero]
    · rw [Function.update_of_ne hx, Mem.blit_of_out _ _ (by omega)]

/-- The loops take bytes from the input, and set the flag when they find too few. -/
lemma Plays.getLoop (h : Plays i e w p) (stop : ℤ → Bool) (n got : ℕ) (buf : Mem) :
    let out := Opened.getLoop stop n got buf w
    let l := p.take (fun b => stop b.toNat) n
    out.1 = got + l.1.length ∧ out.2.1 = buf.blit got l.1.length (fun k => l.1.getD k 0) ∧
      Plays i e out.2.2 l.2 ∧
      (out.2.2.file.eof = true ↔
        w.file.eof = true ∨ l.1.length < n ∧ ∀ b ∈ l.1, stop b.toNat = false) := by
  induction n generalizing w p got buf with
  | zero =>
    refine ⟨rfl, (buf.blit_zero got _).symm, h, ?_⟩
    simp [Opened.getLoop, Pushback.take]
  | succ n ih =>
    obtain ⟨hret, hplays, heof⟩ := h.fgetc
    rw [Opened.getLoop, Pushback.take]
    generalize w.fgetc = r at hret hplays heof ⊢
    obtain ⟨c, w'⟩ := r
    generalize p.next = q at hret hplays heof ⊢
    obtain ⟨x, p'⟩ := q
    dsimp only at hret hplays heof ⊢
    subst hret
    cases x with
    | none =>
      rw [if_pos (intOf_none.mpr rfl)]
      refine ⟨rfl, (buf.blit_zero got _).symm, hplays, ?_⟩
      simp [heof]
    | some b =>
      have heof' : w'.file.eof = w.file.eof := heof.trans (Bool.or_false _)
      rw [if_neg fun hx => Option.some_ne_none b (intOf_none.mp hx), ofNat_intOf]
      dsimp only
      have hstop : stop (intOf (some b)) = stop b.toNat := rfl
      rw [hstop]
      split_ifs with hs
      · refine ⟨rfl, ?_, hplays, ?_⟩
        · have hcell := update_blit buf got b []
          rwa [List.length_nil, Mem.blit_zero] at hcell
        · simp [heof', hs]
      · obtain ⟨h1, h2, h3, h4⟩ := ih hplays (got + 1) (Function.update buf got b)
        refine ⟨by rw [h1, List.length_cons]; omega, ?_, h3, ?_⟩
        · rw [h2]
          exact update_blit buf got b _
        · rw [h4, heof']
          simp [hs]

end Plays

/-! ### Sequences of calls -/

/-- A call that reads from the stream, or puts a byte back. -/
inductive ReadCall where
  | fgetc
  | ungetc (c : ℤ)
  | fread (ptr : Mem) (size nmemb : ℕ)
  | fgets (s : Mem) (n : ℤ)

/-- What a call gives: its value, where 1 stands for a pointer that is not null, the number of bytes
stored, and the buffer. -/
structure Got where
  value : ℤ
  stored : ℕ
  buf : Mem

namespace ReadCall

/-- A call in the code. -/
def exec (w : Opened) : ReadCall → Got × Opened
  | .fgetc => (⟨w.fgetc.1, 0, fun _ => 0⟩, w.fgetc.2)
  | .ungetc c => (⟨(w.ungetc c).1, 0, fun _ => 0⟩, (w.ungetc c).2)
  | .fread ptr size nmemb =>
    let (value, got, p, w) := w.fread ptr size nmemb
    (⟨value, got, p⟩, w)
  | .fgets s n =>
    let (value, i, s, w) := w.fgets s n
    (⟨if value then 1 else 0, i, s⟩, w)

/-- The bytes that a call has stored or returned, or that it was given to put back. -/
def moves (g : Got) : ReadCall → List (Move UInt8)
  | .fgetc => if g.value = eofValue then [] else [.out (UInt8.ofNat g.value.toNat)]
  | .ungetc c => if c = eofValue then [] else [.back (UInt8.ofNat (c % 256).toNat)]
  | .fread _ _ _ | .fgets _ _ => (List.range g.stored).map fun j => .out (g.buf j)

/-- The calls that are looked at: a byte is put back only when none is, `fgets` has room for a byte, and
the size that `fread` is asked for has 32 bits. -/
def Allowed (w : Opened) : ReadCall → Prop
  | .fgetc => True
  | .ungetc _ => w.file.ungot < 0
  | .fread _ size nmemb => size * nmemb < 4294967296
  | .fgets _ n => 2 ≤ n

/-- A call found fewer bytes than it was asked for. -/
def RanOut (g : Got) : ReadCall → Prop
  | .fgetc => g.value = eofValue
  | .ungetc _ => False
  | .fread _ size nmemb => g.stored < size * nmemb
  | .fgets _ n => (g.stored : ℤ) < n - 1 ∧ ∀ j < g.stored, g.buf j ≠ 10

/-- A call with the bytes that it moves. -/
def step (w : Opened) (c : ReadCall) : List (Move UInt8) × Opened :=
  (c.moves (c.exec w).1, (c.exec w).2)

variable {w w' : Opened} {k : ℕ} {buf : Mem}

lemma exec_ungetc {c r : ℤ} (h : w.ungetc c = (r, w')) :
    (ungetc c).exec w = (⟨r, 0, fun _ => 0⟩, w') :=
  congrArg (fun x => ((⟨x.1, 0, fun _ => 0⟩ : Got), x.2)) h

lemma exec_fread {ptr : Mem} {size nmemb r : ℕ} (h : w.fread ptr size nmemb = (r, k, buf, w')) :
    (fread ptr size nmemb).exec w = (⟨r, k, buf⟩, w') :=
  congrArg (fun x => ((⟨x.1, x.2.1, x.2.2.1⟩ : Got), x.2.2.2)) h

lemma exec_fgets {s : Mem} {n : ℤ} {r : Bool} (h : w.fgets s n = (r, k, buf, w')) :
    (fgets s n).exec w = (⟨if r then 1 else 0, k, buf⟩, w') :=
  congrArg (fun x => ((⟨if x.1 then 1 else 0, x.2.1, x.2.2.1⟩ : Got), x.2.2.2)) h

lemma ranOut_fread {g : Got} {ptr : Mem} {size nmemb : ℕ} :
    (fread ptr size nmemb).RanOut g ↔ g.stored < size * nmemb := Iff.rfl

lemma ranOut_fgets {g : Got} {s : Mem} {n : ℤ} :
    (fgets s n).RanOut g ↔ (g.stored : ℤ) < n - 1 ∧ ∀ j < g.stored, g.buf j ≠ 10 := Iff.rfl

end ReadCall

/-- The call took the moves from the input, and ran out of bytes as its outcome says. -/
structure Served (i : Fin 8) (e : FileEntry) (w : Opened) (p : Pushback UInt8) (c : ReadCall)
    (q : Pushback UInt8) : Prop where
  plays : Plays i e (c.exec w).2 q
  steps : p.Steps (c.moves (c.exec w).1) q
  eof : w.file.eof = false → ((c.exec w).2.file.eof = true ↔ c.RanOut (c.exec w).1)
  out : c.RanOut (c.exec w).1 → q.next.1 = none

/-- The bytes of a row in a buffer, as moves. -/
lemma row_moves (buf : Mem) (l : List UInt8) {m : Mem}
    (hm : ∀ j < l.length, m j = buf.blit 0 l.length (fun k => l.getD k 0) j) :
    ((List.range l.length).map fun j => Move.out (m j)) = l.map Move.out := by
  refine List.ext_getElem (by simp) fun j hj hj' => ?_
  have hlt : j < l.length := by simpa using hj
  rw [List.getElem_map, List.getElem_map, List.getElem_range, hm j hlt,
    Mem.blit_of_in _ _ (Nat.zero_le j) (by omega), Nat.sub_zero, List.getD_eq_getElem _ _ hlt]

/-- No byte of a row stops, in the buffer and in the row. -/
lemma row_all (buf : Mem) (l : List UInt8) {m : Mem} (stop : UInt8 → Prop)
    (hm : ∀ j < l.length, m j = buf.blit 0 l.length (fun k => l.getD k 0) j) :
    (∀ j < l.length, stop (m j)) ↔ ∀ b ∈ l, stop b := by
  rw [List.forall_mem_iff_getElem]
  refine forall_congr' fun j => forall_congr' fun hj => ?_
  rw [hm j hj, Mem.blit_of_in _ _ (Nat.zero_le j) (by omega), Nat.sub_zero,
    List.getD_eq_getElem _ _ hj]

lemma newline_iff (b : UInt8) : b ≠ 10 ↔ ((b.toNat : ℤ) == 10) = false := by
  rw [beq_eq_false_iff_ne, not_iff_not, ← UInt8.toNat_inj]
  show b.toNat = 10 ↔ (b.toNat : ℤ) = 10
  omega

/-- What `fgets` leaves in the buffer: a line, cut at `n - 1` bytes, with a NUL behind it. -/
structure Line (s : Mem) (n : ℤ) (g : Got) : Prop where
  fits : (g.stored : ℤ) ≤ n - 1
  null : g.value = 0 ↔ g.stored = 0
  newline : ∀ j, j + 1 < g.stored → g.buf j ≠ 10
  nul : g.buf g.stored = 0
  rest : ∀ j, g.stored < j → g.buf j = s j

section Calls

variable {i : Fin 8} {e : FileEntry} {w : Opened} {p : Pushback UInt8}

lemma Served.of {c : ReadCall} {g : Got} {w' : Opened} {q : Pushback UInt8}
    (hexec : c.exec w = (g, w')) (hplays : Plays i e w' q) (hsteps : p.Steps (c.moves g) q)
    (heof : w.file.eof = false → (w'.file.eof = true ↔ c.RanOut g))
    (hout : c.RanOut g → q.next.1 = none) : Served i e w p c q where
  plays := by rwa [hexec]
  steps := by rwa [hexec]
  eof := by rwa [hexec]
  out := by rwa [hexec]

variable (h : Plays i e w p)

include h

lemma served_fgetc : ∃ q, Served i e w p .fgetc q := by
  obtain ⟨hret, hplays, heof⟩ := h.fgetc
  have hran : ReadCall.RanOut ⟨w.fgetc.1, 0, fun _ => 0⟩ .fgetc ↔ p.next.1 = none := by
    unfold ReadCall.RanOut
    rw [hret]
    exact intOf_none
  refine ⟨p.next.2, Served.of rfl hplays ?_ (fun hclear => ?_) fun hx => ?_⟩
  · unfold ReadCall.moves
    dsimp only
    rw [hret]
    cases hx : p.next.1 with
    | none =>
      rw [if_pos (intOf_none.mpr rfl)]
      exact (Pushback.next_none hx).symm
    | some b =>
      rw [if_neg fun hn => Option.some_ne_none b (intOf_none.mp hn), ofNat_intOf]
      exact ⟨p.next.2, Prod.ext hx rfl, rfl⟩
  · rw [hran, heof, hclear, Bool.false_or, Option.isNone_iff_eq_none]
  · have hnone := hran.mp hx
    rwa [Pushback.next_none hnone]

lemma served_ungetc {c : ℤ} (hback : w.file.ungot < 0) :
    ∃ q, Served i e w p (.ungetc c) q := by
  have hnone := h.back_none hback
  by_cases hc : c = eofValue
  · -- nothing is put back
    have hexec : w.ungetc c = (eofValue, w) := if_pos hc
    have hmoves : (ReadCall.ungetc c).moves ⟨eofValue, 0, fun _ => 0⟩ = [] := if_pos hc
    refine ⟨p, Served.of (ReadCall.exec_ungetc hexec) h (by rw [hmoves]; rfl) (fun hclear => ?_)
      False.elim⟩
    rw [hclear]
    exact iff_of_false Bool.false_ne_true id
  · obtain ⟨-, hplays, heof⟩ := h.ungetc hc
    refine ⟨p.put (UInt8.ofNat (c % 256).toNat), Served.of rfl hplays ?_ (fun _ => ?_) False.elim⟩
    · unfold ReadCall.moves
      dsimp only
      rw [if_neg hc]
      exact ⟨hnone, rfl⟩
    · rw [heof]
      exact iff_of_false Bool.false_ne_true id

lemma served_fread (ptr : Mem) {size nmemb : ℕ} (hfits : size * nmemb < 4294967296) :
    ∃ q, Served i e w p (.fread ptr size nmemb) q := by
  by_cases h0 : size = 0 ∨ nmemb = 0
  · have hexec : w.fread ptr size nmemb = (0, 0, ptr, w) := if_pos h0
    have hran : ¬ ReadCall.RanOut ⟨0, 0, ptr⟩ (.fread ptr size nmemb) := by
      rw [ReadCall.ranOut_fread, Nat.mul_eq_zero.mpr h0]
      exact Nat.lt_irrefl 0
    refine ⟨p, Served.of (ReadCall.exec_fread hexec) h rfl (fun hclear => ?_)
      fun hx => absurd hx hran⟩
    rw [hclear]
    exact iff_of_false Bool.false_ne_true hran
  · obtain ⟨hgot, hbuf, hplays, heof⟩ := h.getLoop (fun _ => false) (size * nmemb) 0 ptr
    have hshort := Pushback.take_short (fun _ => false) (size * nmemb) p
    have hsteps := Pushback.steps_take (fun _ => false) (size * nmemb) p
    have hexec : w.fread ptr size nmemb =
        ((Opened.getLoop (fun _ => false) (size * nmemb) 0 ptr w).1 / size,
          Opened.getLoop (fun _ => false) (size * nmemb) 0 ptr w) := by
      have hdiv : size * nmemb / size = nmemb := Nat.mul_div_cancel_left _ (by omega)
      unfold Opened.fread
      rw [if_neg h0, u32_of_lt hfits]
      exact if_neg (not_not.mpr hdiv)
    generalize p.take (fun _ => false) (size * nmemb) = l at *
    obtain ⟨l, q⟩ := l
    generalize Opened.getLoop (fun _ => false) (size * nmemb) 0 ptr w = out at *
    obtain ⟨got, buf, w'⟩ := out
    dsimp only at *
    rw [Nat.zero_add] at hgot
    subst hgot
    refine ⟨q, Served.of (ReadCall.exec_fread hexec) hplays ?_ (fun hclear => ?_) fun hx => ?_⟩
    · unfold ReadCall.moves
      dsimp only
      rw [row_moves ptr l fun j _ => by rw [hbuf]]
      exact hsteps
    · rw [heof, hclear, ReadCall.ranOut_fread]
      simp
    · exact hshort hx fun _ _ => rfl

/-- **`fgets`** takes a line from the input. -/
lemma served_fgets (s : Mem) {n : ℤ} (hn : 2 ≤ n) :
    (∃ q, Served i e w p (.fgets s n) q) ∧ Line s n ((ReadCall.fgets s n).exec w).1 := by
  obtain ⟨hgot, hbuf, hplays, heof⟩ := h.getLoop (fun c => c == 10) (n - 1).toNat 0 s
  have hlen := Pushback.length_take_le (fun b => ((b.toNat : ℤ) == 10)) (n - 1).toNat p
  have hlast := Pushback.take_stop (fun b => ((b.toNat : ℤ) == 10)) (n - 1).toNat p
  have hshort := Pushback.take_short (fun b => ((b.toNat : ℤ) == 10)) (n - 1).toNat p
  have hsteps := Pushback.steps_take (fun b => ((b.toNat : ℤ) == 10)) (n - 1).toNat p
  have hexec : w.fgets s n = ((Opened.getLoop (fun c => c == 10) (n - 1).toNat 0 s w).1 != 0,
      (Opened.getLoop (fun c => c == 10) (n - 1).toNat 0 s w).1,
      Function.update (Opened.getLoop (fun c => c == 10) (n - 1).toNat 0 s w).2.1
        (Opened.getLoop (fun c => c == 10) (n - 1).toNat 0 s w).1 0,
      (Opened.getLoop (fun c => c == 10) (n - 1).toNat 0 s w).2.2) := if_neg (by omega)
  generalize p.take (fun b => ((b.toNat : ℤ) == 10)) (n - 1).toNat = l at *
  obtain ⟨l, q⟩ := l
  generalize Opened.getLoop (fun c => c == 10) (n - 1).toNat 0 s w = out at *
  obtain ⟨got, buf, w'⟩ := out
  dsimp only at *
  rw [Nat.zero_add] at hgot
  subst hgot
  have hrow : ∀ j < l.length, Function.update buf l.length 0 j =
      s.blit 0 l.length (fun k => l.getD k 0) j := fun j hj => by
    rw [Function.update_of_ne (Nat.ne_of_lt hj), hbuf]
  have hran : (ReadCall.fgets s n).RanOut
        ⟨if (l.length != 0) = true then 1 else 0, l.length, Function.update buf l.length 0⟩ ↔
      l.length < (n - 1).toNat ∧ ∀ b ∈ l, ((b.toNat : ℤ) == 10) = false := by
    rw [ReadCall.ranOut_fgets]
    dsimp only
    refine and_congr (by omega) ?_
    rw [row_all s l (fun b => b ≠ 10) hrow]
    exact forall_congr' fun b => forall_congr' fun _ => newline_iff b
  refine ⟨⟨q, Served.of (ReadCall.exec_fgets hexec) hplays ?_ (fun hclear => ?_) fun hx => ?_⟩, ?_⟩
  · unfold ReadCall.moves
    dsimp only
    rw [row_moves s l hrow]
    exact hsteps
  · rw [heof, hclear, hran]
    simp
  · obtain ⟨hlt, hall⟩ := hran.mp hx
    exact hshort hlt hall
  · rw [ReadCall.exec_fgets hexec]
    refine ⟨?_, ?_, fun j hj => ?_, Function.update_self .., fun j hj => ?_⟩ <;> dsimp only at *
    · omega
    · by_cases h0 : l.length = 0 <;> simp [h0]
    · rw [hrow j (by omega), Mem.blit_of_in _ _ (Nat.zero_le j) (by omega), Nat.sub_zero,
        List.getD_eq_getElem _ _ (by omega), newline_iff]
      refine hlast _ ?_
      rw [List.mem_iff_getElem]
      exact ⟨j, by rw [List.length_dropLast]; omega, List.getElem_dropLast _⟩
    · rw [Function.update_of_ne (Nat.ne_of_gt hj), hbuf, Mem.blit_of_out _ _ (by omega)]

/-- **The step lemma.** -/
theorem served {c : ReadCall} (hc : c.Allowed w) : ∃ q, Served i e w p c q := by
  cases c with
  | fgetc => exact served_fgetc h
  | ungetc c => exact served_ungetc h hc
  | fread ptr size nmemb => exact served_fread h ptr hc
  | fgets s n => exact (served_fgets h s hc).1

/-- **The run lemma.** -/
theorem plays_run {cs : List ReadCall} (hcs : Along (after ReadCall.step) (fun w c => c.Allowed w) w cs) :
    ∃ q, Plays i e (trace ReadCall.step w cs).2 q ∧
      p.Steps (trace ReadCall.step w cs).1.flatten q := by
  induction cs generalizing w p with
  | nil => exact ⟨p, h, rfl⟩
  | cons c cs ih =>
    obtain ⟨p', hserved⟩ := served h hcs.1
    obtain ⟨q, hplays, hsteps⟩ := ih hserved.plays hcs.2
    exact ⟨q, hplays, Pushback.steps_append hserved.steps hsteps⟩

end Calls

/-- A file that is opened for reading exists. -/
lemma slot_of_fsOpen {s : Fs.State} (hw : s.disk.Working) {path : CStr}
    (hfd : 0 ≤ (fsOpen s path fsORdonly).1) : ∃ k, slotOf s.sb s.disk path = some k := by
  rcases fsOpen_cases hw path fsORdonly with hx | ⟨-, -, -, hcreat, -, -⟩
  · rw [hx] at hfd
    simp at hfd
  · cases hk : slotOf s.sb s.disk path with
    | none => exact absurd (hcreat hk) (by decide)
    | some k => exact ⟨k, rfl⟩

/-- **Opening a file for reading.** -/
lemma fopen_plays {s : Fs.State} (hw : s.disk.Working) {path : CStr} {room : Bool} {w : Opened}
    (hopen : fopen s path [114] room = (some w.file, w.fs)) :
    ∃ k i, slotOf s.sb s.disk path = some k ∧
      Plays i (entry s.sb s.disk k) w ⟨contents s.disk (entry s.sb s.disk k), none⟩ := by
  have hmode : modeFlags [114] = some fsORdonly := rfl
  unfold fopen at hopen
  rw [hmode] at hopen
  dsimp only at hopen
  split_ifs at hopen with hfd hroom
  · exact absurd (congrArg Prod.fst hopen) (Option.some_ne_none _).symm
  · exact absurd (congrArg Prod.fst hopen) (Option.some_ne_none _).symm
  · obtain ⟨hfile, hfs⟩ := Prod.mk.inj hopen
    have hfile := Option.some.inj hfile
    obtain ⟨k, hk⟩ := slot_of_fsOpen hw (not_lt.mp hfd)
    obtain ⟨i, hi, hreads⟩ := fsOpen_reads hw (by decide) hk (not_lt.mp hfd)
    have hdisk : w.fs.disk = s.disk := by
      rw [← hfs]
      exact (fsOpen_disk s hw path fsORdonly).1
    refine ⟨k, i, hk, ?_, ?_, Mem.ld32_lt _ _, ⟨0, Nat.zero_le _, hfs ▸ hreads, ?_⟩, ?_⟩
    · rwa [hdisk]
    · rw [← hfile]
      exact hi
    · rw [hdisk]
      rfl
    · rw [← hfile]
      rfl

/-- **Reading from a stream.** From any file that was opened for reading, any calls of `fgetc`, `fgets`,
`fread` and `ungetc` deliver the contents of the file in order, and the byte that `ungetc` was given right
after it was. `ungetc` returns that byte. A call of `fgets` leaves a line in its buffer. A call sets the
flag for the end of the file exactly if it has found fewer bytes than it was asked for, and then all of
the file was delivered. -/
theorem stream_delivers {s : Fs.State} (hw : s.disk.Working) {path : CStr} {room : Bool} {w : Opened}
    (hopen : fopen s path [114] room = (some w.file, w.fs)) {cs : List ReadCall}
    (hcs : Along (after ReadCall.step) (fun w c => c.Allowed w) w cs) :
    let r := trace ReadCall.step w cs
    ∃ k, slotOf s.sb s.disk path = some k ∧
      (∃ pre, pre <+: contents s.disk (entry s.sb s.disk k) ∧ Woven pre r.1.flatten) ∧
      (∀ c, c ≠ eofValue → ((ReadCall.ungetc c).exec r.2).1.value = c % 256 ∧
        (ReadCall.fgetc.exec ((ReadCall.ungetc c).exec r.2).2).1.value = c % 256) ∧
      (∀ buf n, 2 ≤ n → Line buf n ((ReadCall.fgets buf n).exec r.2).1) ∧
      ∀ c : ReadCall, c.Allowed r.2 → r.2.file.eof = false →
        ((c.exec r.2).2.file.eof = true ↔ c.RanOut (c.exec r.2).1) ∧
        (c.RanOut (c.exec r.2).1 → Woven (contents s.disk (entry s.sb s.disk k))
          (r.1.flatten ++ c.moves (c.exec r.2).1)) := by
  intro r
  obtain ⟨k, i, hk, hplays⟩ := fopen_plays hw hopen
  obtain ⟨q, hq, hsteps⟩ := plays_run hplays hcs
  obtain ⟨pre, hpre, hwoven⟩ := Pushback.steps_woven hsteps
  refine ⟨k, hk, ⟨pre, ⟨q.rest, hpre.symm⟩, hwoven⟩, fun c hc => ⟨(hq.ungetc hc).1, ?_⟩,
    fun buf n hn => (served_fgets hq buf hn).2, fun c hc hclear => ?_⟩
  · exact (hq.ungetc hc).2.1.fgetc.1.trans (intOf_byte c)
  obtain ⟨q', hserved⟩ := served hq hc
  refine ⟨hserved.eof hclear, fun hran => ?_⟩
  obtain ⟨all, hall, hwoven'⟩ := Pushback.steps_woven (Pushback.steps_append hsteps hserved.steps)
  have hend := (Pushback.next_eq_none (hserved.out hran)).1
  rw [hend, List.append_nil] at hall
  dsimp only at hall
  rw [hall]
  exact hwoven'

/-- The stream on the file `f` of 700 bytes. -/
def readingStream : Opened := ⟨⟨fdOf 0, false, false, -1⟩, reading⟩

lemma fopen_reading :
    fopen longF pathF [114] true = (some readingStream.file, readingStream.fs) := by
  have hfree : freeHandle longF = some 0 := by decide +kernel
  have htype : (entry longF.sb longF.disk 0).type = fsFile := by decide +kernel
  have hfd := (fsOpen_fresh longF_wellFormed.working
    (show flagSet fsORdonly (fsOWronly ||| fsORdwr) = false from rfl) (by decide) longF_entry.1
    (by rw [htype]; decide) hfree).1
  have hmode : modeFlags [114] = some fsORdonly := rfl
  unfold fopen
  rw [hmode]
  dsimp only
  rw [hfd, if_neg (by decide)]
  rfl

/-- A byte that was put back, five elements of two bytes, a line and one more byte. -/
def readCalls : List ReadCall :=
  [.ungetc 65, .fread (fun _ => 0) 2 5, .fgets (fun _ => 0) 8, .fgetc]

theorem stream_delivers_reading :
    let r := trace ReadCall.step readingStream readCalls
    ∃ k, slotOf longF.sb longF.disk pathF = some k ∧
      (∃ pre, pre <+: contents longF.disk (entry longF.sb longF.disk k) ∧ Woven pre r.1.flatten) ∧
      (∀ c, c ≠ eofValue → ((ReadCall.ungetc c).exec r.2).1.value = c % 256 ∧
        (ReadCall.fgetc.exec ((ReadCall.ungetc c).exec r.2).2).1.value = c % 256) ∧
      (∀ buf n, 2 ≤ n → Line buf n ((ReadCall.fgets buf n).exec r.2).1) ∧
      ∀ c : ReadCall, c.Allowed r.2 → r.2.file.eof = false →
        ((c.exec r.2).2.file.eof = true ↔ c.RanOut (c.exec r.2).1) ∧
        (c.RanOut (c.exec r.2).1 → Woven (contents longF.disk (entry longF.sb longF.disk k))
          (r.1.flatten ++ c.moves (c.exec r.2).1)) :=
  stream_delivers longF_wellFormed.working fopen_reading
    ⟨show (-1 : ℤ) < 0 by decide, show 2 * 5 < 4294967296 by decide, show (2 : ℤ) ≤ 8 by decide,
      trivial, trivial⟩

end LunariaOS.Stdio
