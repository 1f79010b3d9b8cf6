import LunariaOS.Lib.Bytes
import LunariaOS.Lib.Run
import LunariaOS.Fs.Code
import LunariaOS.Shell.Block
import LunariaOS.Wm.Code

/-!
The command line of the shell.

`parse_line` cuts the line into words in place, and `execute` decodes the words before a redirection
into a buffer of its own. A load from behind the buffer of the line and a store behind the end of
`content` give `none`.
-/

namespace LunariaOS.Shell

open LunariaOS.Lib LunariaOS.Fs
open LunariaOS.Wm (vgaColor black green red)
open LunariaOS.Wm.State (text)

/-- `TERM_BUF_SIZE`. -/
def termBufSize : ℕ := 128

/-! ### Words -/

def isSpace (b : UInt8) : Bool := b == 32

def inWord (b : UInt8) : Bool := b != 0 && b != 32

/-- `*p`. -/
def load (line : Mem) (p : ℕ) : Option UInt8 := if p < termBufSize then some (line p) else none

/-- The loop `while (q(*p)) p++`. -/
def skip (q : UInt8 → Bool) (line : Mem) (p : ℕ) : Option ℕ :=
  if p < termBufSize then (if q (line p) then skip q line (p + 1) else some p) else none
termination_by termBufSize - p

/-- The loop of `parse_line` from `p` on, with room for `n` more words: where the words begin, and
the line. -/
def parseWords : ℕ → ℕ → Mem → Option (List ℕ × Mem)
  | 0, p, line => (load line p).map fun _ => ([], line)
  | n + 1, p, line =>
    (load line p).bind fun c =>
      if c = 0 then some ([], line)
      else
        (skip isSpace line p).bind fun s =>
          if line s = 0 then some ([], line)
          else
            (skip inWord line s).bind fun e =>
              let (p, line) := if line e ≠ 0 then (e + 1, Function.update line e 0) else (e, line)
              (parseWords n p line).map fun (argv, line) => (s :: argv, line)

/-- `parse_line`: `argv` and the line. -/
def parseLine (line : Mem) : Option (List ℕ × Mem) := parseWords maxArgs 0 line

/-! ### Redirection -/

/-- The buffer `content`, up to `len`. -/
structure Content where
  mem : Mem
  len : ℕ

/-- `content[len++] = b`. -/
def Content.push (t : Content) (b : UInt8) : Option Content :=
  if t.len < cmdBufSize then some ⟨Function.update t.mem t.len b, t.len + 1⟩ else none

/-- The loop over the bytes of a word. A pointer into the line is what stands from it on. -/
def decode : List UInt8 → Content → Option Content
  | [], _ => none
  | b :: l, t =>
    if b = 0 then some t
    else if b = 92 then
      match l with
      | [] => none
      | c :: l' =>
        if c ≠ 0 then
          (if c = 110 then t.push 10
            else if c = 116 then t.push 9
            else if c = 92 then t.push 92
            else (t.push 92).bind fun t => t.push c).bind fun t => decode l' t
        else (t.push b).bind fun t => decode (c :: l') t
    else (t.push b).bind fun t => decode l t

/-- What stands in the buffer of the line from `p` on. -/
def rest (line : Mem) (p : ℕ) : List UInt8 := bytes line p (termBufSize - p)

/-- The loop over the words, from the `j`-th one on. -/
def joinArgs (line : Mem) : ℕ → List ℕ → Content → Option Content
  | _, [], t => some t
  | j, p :: l, t =>
    (if j > 1 then t.push 32 else some t).bind fun t =>
      (decode (rest line p) t).bind fun t => joinArgs line (j + 1) l t

/-- What `execute` has done: the disk, the texts it has printed with their colours and, when it has
come to the table of commands, the words that it looks up there. -/
structure Ran where
  disk : Disk
  printed : List (List UInt8 × UInt8)
  command : Option (List ℕ × Mem)

/-- The end of a redirection to `name`, for the result of `fs_write`. -/
def Ran.wrote (name : CStr) (r : ℤ × Disk) : Ran :=
  ⟨r.2, if r.1 = 0 then [(text "wrote ", vgaColor black green), (name.bytes, vgaColor black green),
      (text "\n", vgaColor black green)]
    else [(text "write failed\n", vgaColor black red)], none⟩

/-- The string that a word of the line is. -/
def wordAt (line : Mem) (p : ℕ) : CStr := ⟨cstr (rest line p), zero_notMem_cstr _⟩

/-- `execute` up to the table of commands. What `content` holds before is `junk`. -/
def execute (sb : Superblock) (junk line : Mem) (d : Disk) : Option Ran :=
  (parseLine line).bind fun (argv, line) =>
    if argv.length = 0 then some ⟨d, [], none⟩
    else
      let isRedirect i := strcmp (rest line (argv.getD i 0)) [62] = 0
      match (List.range' 1 (argv.length - 1)).find? fun i => isRedirect i with
      | none => some ⟨d, [], some (argv, line)⟩
      | some i =>
        if i + 1 ≥ argv.length then
          some ⟨d, [(text "usage: <cmd> ... > <file>\n", vgaColor black red)], none⟩
        else
          (joinArgs line 1 ((argv.drop 1).take (i - 1)) ⟨junk, 0⟩).bind fun t =>
            (t.push 0).map fun content =>
              let name := wordAt line (argv.getD (i + 1) 0)
              .wrote name (fsWrite sb name fsFile content.mem t.len d)

/-! ### Typing -/

/-- The input line of a terminal. -/
structure Input where
  buf : Mem
  len : ℕ

/-- A key that `shell_run` takes for the line. -/
def Input.key (t : Input) (c : ℤ) : Input :=
  if c = 8 then (if t.len > 0 then { t with len := t.len - 1 } else t)
  else if 32 ≤ c ∧ c ≤ 126 then
    (if t.len < termBufSize - 1 then
      ⟨Function.update t.buf t.len (UInt8.ofNat c.toNat), t.len + 1⟩
    else t)
  else t

/-- The line that is executed when enter is pressed. -/
def Input.line (t : Input) : Mem := Function.update t.buf t.len 0

/-! ### The words of a line -/

/-- The line of `n` bytes that stands in the buffer. -/
structure Typed (line : Mem) (n : ℕ) : Prop where
  short : n < termBufSize
  noNul : ∀ i < n, line i ≠ 0
  ends : line n = 0

/-- The bytes that are typed are not NUL, and there is room for a NUL behind them. -/
structure Input.Ok (t : Input) : Prop where
  short : t.len < termBufSize
  noNul : ∀ i < t.len, t.buf i ≠ 0

lemma Input.Ok.key {t : Input} (h : t.Ok) (c : ℤ) : (t.key c).Ok := by
  obtain ⟨hshort, hno⟩ := h
  unfold Input.key
  split_ifs with h8 hpos hchar hroom
  · exact ⟨by dsimp only; omega, fun i hi => hno i (by dsimp only at hi; omega)⟩
  · exact ⟨hshort, hno⟩
  · refine ⟨by dsimp only; omega, fun i hi => ?_⟩
    dsimp only at hi ⊢
    by_cases he : i = t.len
    · subst he
      rw [Function.update_self]
      intro h0
      have h0 := congrArg UInt8.toNat h0
      rw [UInt8.toNat_ofNat'] at h0
      have hz : (0 : UInt8).toNat = 0 := rfl
      omega
    · rw [Function.update_of_ne he]
      exact hno i (by omega)
  · exact ⟨hshort, hno⟩
  · exact ⟨hshort, hno⟩

/-- Whatever is typed, enter finds a line in the buffer. -/
lemma input_typed (buf : Mem) (keys : List ℤ) :
    Typed (run Input.key ⟨buf, 0⟩ keys).line (run Input.key ⟨buf, 0⟩ keys).len := by
  have h := run_inv_all (P := Input.Ok) (fun t c ht => ht.key c) keys
    (s := ⟨buf, 0⟩) ⟨(by decide : 0 < termBufSize), fun i hi => absurd hi (Nat.not_lt_zero i)⟩
  refine ⟨h.short, fun i hi => ?_, Function.update_self _ _ _⟩
  unfold Input.line
  rw [Function.update_of_ne (by omega)]
  exact h.noNul i hi

/-- A longest run of bytes that are not spaces, from `w.1` up to `w.2`. -/
structure Word (line : Mem) (n : ℕ) (w : ℕ × ℕ) : Prop where
  nonempty : w.1 < w.2
  inside : w.2 ≤ n
  run : ∀ k, w.1 ≤ k → k < w.2 → line k ≠ 32
  left : w.1 = 0 ∨ line (w.1 - 1) = 32
  right : w.2 = n ∨ line w.2 = 32

/-- The words from `p` on, in the order of the line. -/
structure Words (line : Mem) (n p : ℕ) (l : List (ℕ × ℕ)) : Prop where
  mem : ∀ w, w ∈ l ↔ Word line n w ∧ p ≤ w.1
  sorted : l.Pairwise fun v w => v.2 < w.1

/-- The line with a NUL at every place of `ends`. -/
def cut (ends : List ℕ) (line : Mem) : Mem := fun x => if x ∈ ends then 0 else line x

/-- Where a loop over bytes stops at the latest, it stops. -/
lemma exists_stop {q : UInt8 → Bool} {line : Mem} {p m : ℕ} (hp : p ≤ m) (hstop : q (line m) = false) :
    ∃ e, p ≤ e ∧ e ≤ m ∧ (∀ k, p ≤ k → k < e → q (line k)) ∧ q (line e) = false := by
  obtain ⟨j, rfl⟩ := Nat.exists_eq_add_of_le hp
  induction j generalizing p with
  | zero => exact ⟨p, le_rfl, le_rfl, fun k hk hk' => by omega, hstop⟩
  | succ j ih =>
    by_cases hq : q (line p) = true
    · obtain ⟨e, h1, h2, h3, h4⟩ := @ih (p + 1) (by omega) (by rwa [show p + 1 + j = p + (j + 1) by omega])
      refine ⟨e, by omega, by omega, fun k hk hk' => ?_, h4⟩
      rcases hk.lt_or_eq with hlt | rfl
      · exact h3 k hlt hk'
      · exact hq
    · exact ⟨p, le_rfl, by omega, fun k hk hk' => by omega, by simpa using hq⟩

section Words

variable {line : Mem} {n : ℕ}

/-- Two words that begin in the same place end in the same place. -/
lemma Word.end_unique {v w : ℕ × ℕ} (hv : Word line n v) (hw : Word line n w) (h : v.1 = w.1) :
    v = w := by
  have hle : ∀ {v w : ℕ × ℕ}, Word line n v → Word line n w → v.1 = w.1 → v.2 ≤ w.2 := by
    intro v w hv hw h
    by_contra hlt
    rcases hw.right with hr | hr
    · have := hv.inside
      omega
    · have := hw.nonempty
      exact hv.run w.2 (by omega) (by omega) hr
  exact Prod.ext h (le_antisymm (hle hv hw h) (hle hw hv h.symm))

/-- The first word of a list of words. -/
lemma Words.cons {p : ℕ} {l : List (ℕ × ℕ)} (h : Words line n p l) {w : ℕ × ℕ}
    (hw : Word line n w) (hp : p ≤ w.1) (hgap : ∀ k, p ≤ k → k < w.1 → line k = 32) :
    ∃ l', l = w :: l' ∧ Words line n (w.2 + 1) l' := by
  have hin : w ∈ l := (h.mem w).mpr ⟨hw, hp⟩
  cases l with
  | nil => exact absurd hin List.not_mem_nil
  | cons v l =>
    obtain ⟨hv, hpv⟩ := (h.mem v).mp List.mem_cons_self
    obtain ⟨hlt, hsorted⟩ := List.pairwise_cons.mp h.sorted
    have hle : v.1 ≤ w.1 := by
      rcases List.mem_cons.mp hin with rfl | hin
      · exact le_rfl
      · have := hlt w hin
        have := hv.nonempty
        omega
    have hfirst : v.1 = w.1 := by
      by_contra hne
      exact hv.run v.1 le_rfl hv.nonempty (hgap v.1 hpv (by omega))
    obtain rfl := hv.end_unique hw hfirst
    refine ⟨l, rfl, fun u => ⟨fun hu => ?_, fun ⟨hu, hvu⟩ => ?_⟩, hsorted⟩
    · exact ⟨((h.mem u).mp (List.mem_cons_of_mem _ hu)).1, hlt u hu⟩
    · rcases List.mem_cons.mp ((h.mem u).mpr ⟨hu, by have := hv.nonempty; omega⟩) with rfl | hu
      · have := hv.nonempty
        omega
      · exact hu

/-- Behind the last byte that is not a space there is no word. -/
lemma Words.nil {p : ℕ} {l : List (ℕ × ℕ)} (h : Words line n p l)
    (hgap : ∀ k, p ≤ k → k < n → line k = 32) : l = [] := by
  refine List.eq_nil_iff_forall_not_mem.mpr fun w hw => ?_
  obtain ⟨hword, hp⟩ := (h.mem w).mp hw
  have := hword.nonempty
  have := hword.inside
  exact hword.run w.1 le_rfl (by omega) (hgap w.1 hp (by omega))

lemma Words.of_cons {p : ℕ} {l : List (ℕ × ℕ)} {w : ℕ × ℕ} (hw : Word line n w) (hp : p ≤ w.1)
    (hgap : ∀ k, p ≤ k → k < w.1 → line k = 32) (h : Words line n (w.2 + 1) l) :
    Words line n p (w :: l) := by
  have hpos := hw.nonempty
  refine ⟨fun u => ⟨fun hu => ?_, fun ⟨hu, hpu⟩ => ?_⟩,
    List.pairwise_cons.mpr ⟨fun u hu => ((h.mem u).mp hu).2, h.sorted⟩⟩
  · rcases List.mem_cons.mp hu with rfl | hu
    · exact ⟨hw, hp⟩
    · obtain ⟨hword, hlt⟩ := (h.mem u).mp hu
      exact ⟨hword, by omega⟩
  · by_cases hlt : w.2 < u.1
    · exact List.mem_cons_of_mem _ ((h.mem u).mpr ⟨hu, hlt⟩)
    · -- a word that begins inside `w` has no space before it
      have hfirst : u.1 = w.1 := by
        rcases lt_trichotomy u.1 w.1 with hlt | heq | hgt
        · exact absurd (hgap u.1 hpu hlt) (hu.run u.1 le_rfl hu.nonempty)
        · exact heq
        · rcases hu.left with h0 | h0
          · omega
          · exact absurd h0 (hw.run (u.1 - 1) (by omega) (by omega))
      rw [hu.end_unique hw hfirst]
      exact List.mem_cons_self

/-- From a place behind a space on, there are spaces only, or spaces before a word. -/
lemma next_word (h : Typed line n) {p : ℕ} (hp : p ≤ n) (hleft : p = 0 ∨ line (p - 1) = 32) :
    (∀ k, p ≤ k → k < n → line k = 32) ∨
      ∃ w, Word line n w ∧ p ≤ w.1 ∧ ∀ k, p ≤ k → k < w.1 → line k = 32 := by
  have hspace : ∀ {b : UInt8}, isSpace b = true ↔ b = 32 := fun {b} => beq_iff_eq
  have hword : ∀ {b : UInt8}, inWord b = true ↔ b ≠ 0 ∧ b ≠ 32 := fun {b} => by simp [inWord]
  obtain ⟨s, hps, hsn, hgap, hs⟩ := @exists_stop isSpace line p n hp (by rw [h.ends]; rfl)
  obtain ⟨e, hse, hen, hrun, he⟩ := @exists_stop inWord line s n hsn (by rw [h.ends]; rfl)
  have hgap : ∀ k, p ≤ k → k < s → line k = 32 := fun k hk hk' => hspace.mp (hgap k hk hk')
  rcases hsn.lt_or_eq with hlt | rfl
  · right
    have hs : line s ≠ 32 := fun h' => by rw [hspace.mpr h'] at hs; cases hs
    have hpos : s < e := by
      by_contra hle
      obtain rfl : e = s := by omega
      rw [hword.mpr ⟨h.noNul e hlt, hs⟩] at he
      cases he
    refine ⟨(s, e), ⟨hpos, hen, fun k hk hk' => (hword.mp (hrun k hk hk')).2, ?_, ?_⟩, hps, hgap⟩
    · rcases hps.lt_or_eq with hlt' | rfl
      · exact Or.inr (hgap (s - 1) (by omega) (by omega))
      · exact hleft
    · rcases hen.lt_or_eq with hlt' | rfl
      · right
        by_contra hne
        rw [hword.mpr ⟨h.noNul e hlt', hne⟩] at he
        cases he
      · exact Or.inl rfl
  · exact Or.inl hgap

/-- Every line has its words. -/
lemma words_exist (h : Typed line n) : ∃ l, Words line n 0 l := by
  have key : ∀ m p, n + 1 - p ≤ m → (p ≤ n → p = 0 ∨ line (p - 1) = 32) → ∃ l, Words line n p l := by
    intro m
    induction m with
    | zero =>
      refine fun p hm _ => ⟨[], fun w => ⟨fun hw => absurd hw List.not_mem_nil, fun ⟨hw, hp⟩ => ?_⟩,
        List.Pairwise.nil⟩
      have := hw.nonempty
      have := hw.inside
      omega
    | succ m ih =>
      intro p hm hleft
      by_cases hp : p ≤ n
      · rcases next_word h hp (hleft hp) with hall | ⟨w, hw, hpw, hgap⟩
        · refine ⟨[], fun w => ⟨fun hw => absurd hw List.not_mem_nil, fun ⟨hw, hpw⟩ => ?_⟩,
            List.Pairwise.nil⟩
          have := hw.nonempty
          have := hw.inside
          exact absurd (hall w.1 hpw (by omega)) (hw.run w.1 le_rfl hw.nonempty)
        · have := hw.nonempty
          obtain ⟨l, hl⟩ := ih (w.2 + 1) (by omega) fun hle => Or.inr (hw.right.resolve_left (by omega))
          exact ⟨w :: l, .of_cons hw hpw hgap hl⟩
      · exact ih p (by omega) hleft
  exact key (n + 1) 0 (by omega) fun _ => Or.inl rfl

end Words

/-! ### `parse_line` -/

/-- The loop over a run of bytes stops behind it. -/
lemma skip_eq {q : UInt8 → Bool} {line : Mem} {p e : ℕ} (hp : p ≤ e) (he : e < termBufSize)
    (hrun : ∀ k, p ≤ k → k < e → q (line k)) (hstop : q (line e) = false) :
    skip q line p = some e := by
  obtain ⟨j, rfl⟩ := Nat.exists_eq_add_of_le hp
  induction j generalizing p with
  | zero =>
    rw [Nat.add_zero] at he hstop ⊢
    rw [skip, if_pos he, if_neg (by simpa using hstop)]
  | succ j ih =>
    rw [skip, if_pos (by omega), if_pos (hrun p le_rfl (by omega))]
    have hsum : p + (j + 1) = p + 1 + j := by omega
    rw [hsum] at he hrun hstop ⊢
    exact ih (by omega) he (fun k hk => hrun k (by omega)) hstop

/-- A NUL that is stored first. -/
lemma cut_cons {line line' : Mem} {e : ℕ} (ends : List ℕ) (he : line' e = 0)
    (hne : ∀ x, x ≠ e → line' x = line x) : cut ends line' = cut (e :: ends) line := by
  funext x
  unfold cut
  by_cases hx : x = e
  · subst hx
    rw [he, ite_self, if_pos List.mem_cons_self]
  · rw [hne x hx]
    simp only [List.mem_cons, hx, false_or]

/-- **`parse_line` from `p` on**: it finds the words that are left, up to its bound, and ends each of
them in place. -/
lemma parseWords_eq {line : Mem} {n : ℕ} (h : Typed line n) (k : ℕ) {p : ℕ} {l : List (ℕ × ℕ)}
    {line' : Mem} (hp : p ≤ n) (hleft : p < n → p = 0 ∨ line (p - 1) = 32) (hl : Words line n p l)
    (hsame : ∀ x, p ≤ x → line' x = line x) :
    parseWords k p line' =
      some ((l.take k).map Prod.fst, cut ((l.take k).map Prod.snd) line') := by
  have hn : n < termBufSize := h.short
  induction k generalizing p l line' with
  | zero =>
    unfold parseWords load
    rw [if_pos (by omega)]
    rfl
  | succ k ih =>
    unfold parseWords load
    rw [if_pos (by omega), Option.bind_some]
    rcases hp.lt_or_eq with hlt | rfl
    · rw [if_neg (by rw [hsame p le_rfl]; exact h.noNul p hlt)]
      rcases next_word h hp (hleft hlt) with hall | ⟨w, hw, hpw, hgap⟩
      · have hskip : skip isSpace line' p = some n := by
          refine skip_eq hp hn (fun k hk hk' => ?_) (by rw [hsame n hp, h.ends]; rfl)
          rw [hsame k hk, hall k hk hk']
          rfl
        rw [hskip, Option.bind_some, if_pos (by rw [hsame n hp, h.ends]), hl.nil hall]
        rfl
      · have hpos := hw.nonempty
        have hin := hw.inside
        have hskip : skip isSpace line' p = some w.1 := by
          refine skip_eq hpw (by omega) (fun k hk hk' => ?_) ?_
          · rw [hsame k hk, hgap k hk hk']
            rfl
          · rw [hsame w.1 hpw]
            exact beq_eq_false_iff_ne.mpr (hw.run w.1 le_rfl hpos)
        have hword : skip inWord line' w.1 = some w.2 := by
          refine skip_eq hpos.le (by omega) (fun k hk hk' => ?_) ?_
          · rw [hsame k (by omega)]
            have h0 := h.noNul k (by omega)
            have h32 := hw.run k hk hk'
            simp [inWord, h0, h32]
          · rw [hsame w.2 (by omega)]
            rcases hw.right with hr | hr
            · rw [hr, h.ends]
              rfl
            · rw [hr]
              rfl
        obtain ⟨l', rfl, hl'⟩ := hl.cons hw hpw hgap
        rw [hskip, Option.bind_some, if_neg (by rw [hsame w.1 hpw]; exact h.noNul w.1 (by omega)),
          hword, Option.bind_some]
        by_cases h0 : line' w.2 = 0
        · -- the word ends the line
          have hend : w.2 = n := by
            by_contra hne
            rw [hsame w.2 (by omega)] at h0
            exact h.noNul w.2 (by omega) h0
          have hnone : Words line n w.2 l' := ⟨fun u => (hl'.mem u).trans (and_congr_right fun hu => by
            have := hu.nonempty
            have := hu.inside
            omega), hl'.sorted⟩
          rw [if_neg (not_not.mpr h0)]
          dsimp only
          rw [ih hin (fun hlt => by omega) hnone fun x hx => hsame x (by omega)]
          rw [@cut_cons line' line' w.2 _ h0 fun _ _ => rfl]
          rfl
        · have hr : line w.2 = 32 := by
            refine hw.right.resolve_left fun hend => h0 ?_
            rw [hsame w.2 (by omega), hend, h.ends]
          have hlt' : w.2 < n := by
            rcases hin.lt_or_eq with hlt' | heq
            · exact hlt'
            · rw [heq, h.ends] at hr
              cases hr
          rw [if_pos h0]
          dsimp only
          rw [ih hlt' (fun _ => Or.inr hr) hl' fun x hx => by
            rw [Function.update_of_ne (by omega)]
            exact hsame x (by omega)]
          rw [@cut_cons line' _ w.2 _ (Function.update_self _ _ _) fun x hx =>
            Function.update_of_ne hx _ _]
          rfl
    · have hnone : l = [] := hl.nil fun k hk hk' => by omega
      rw [if_pos (by rw [hsame p le_rfl, h.ends]), hnone]
      rfl

/-- The bytes of a word. -/
def spell (line : Mem) (w : ℕ × ℕ) : List UInt8 := bytes line w.1 (w.2 - w.1)

section Spell

variable {line : Mem} {n : ℕ}

lemma Word.noNul {w : ℕ × ℕ} (hw : Word line n w) (h : Typed line n) : 0 ∉ spell line w := by
  intro h0
  obtain ⟨i, hi, hb⟩ := mem_bytes.mp h0
  have := hw.inside
  exact h.noNul (w.1 + i) (by omega) hb

/-- In the line that has been cut, a word stands where it was, with a NUL behind it. -/
lemma rest_word (h : Typed line n) {l : List (ℕ × ℕ)} (hl : ∀ v ∈ l, Word line n v) {w : ℕ × ℕ}
    (hw : w ∈ l) : ∃ r, rest (cut (l.map Prod.snd) line) w.1 = spell line w ++ 0 :: r := by
  have hword := hl w hw
  have hpos := hword.nonempty
  have hin := hword.inside
  have hn : n < 128 := h.short
  have hsame : bytes (cut (l.map Prod.snd) line) w.1 (w.2 - w.1) = spell line w := by
    refine bytes_congr fun i hi => ?_
    unfold cut
    rw [if_neg]
    intro hmem
    obtain ⟨v, hv, he⟩ := List.mem_map.mp hmem
    rcases (hl v hv).right with hr | hr
    · omega
    · rw [he] at hr
      exact hword.run (w.1 + i) (by omega) (by omega) hr
  have hend : cut (l.map Prod.snd) line w.2 = 0 := if_pos (List.mem_map.mpr ⟨w, hw, rfl⟩)
  refine ⟨bytes (cut (l.map Prod.snd) line) (w.2 + 1) (127 - w.2), ?_⟩
  unfold rest
  have hsum : termBufSize - w.1 = w.2 - w.1 + (127 - w.2 + 1) := by
    show 128 - w.1 = _
    omega
  rw [hsum, bytes_add, hsame, show w.1 + (w.2 - w.1) = w.2 by omega, bytes_cons, hend]

lemma wordAt_word (h : Typed line n) {l : List (ℕ × ℕ)} (hl : ∀ v ∈ l, Word line n v) {w : ℕ × ℕ}
    (hw : w ∈ l) : (wordAt (cut (l.map Prod.snd) line) w.1).bytes = spell line w := by
  obtain ⟨r, hr⟩ := rest_word h hl hw
  unfold wordAt
  dsimp only
  rw [hr, cstr_append_zero ((hl w hw).noNul h)]

end Spell

/-! ### Decoding -/

/-- The text with its escapes decoded: `\n`, `\t` and `\\`. Every other backslash stands for itself. -/
def unescape : List UInt8 → List UInt8
  | [] => []
  | [b] => [b]
  | b :: c :: l =>
    if b = 92 ∧ c = 110 then 10 :: unescape l
    else if b = 92 ∧ c = 116 then 9 :: unescape l
    else if b = 92 ∧ c = 92 then 92 :: unescape l
    else b :: unescape (c :: l)

lemma unescape_plain {b : UInt8} (h : b ≠ 92) (l : List UInt8) :
    unescape (b :: l) = b :: unescape l := by
  cases l with
  | nil => rfl
  | cons c l => simp only [unescape, h, false_and, if_false]

/-- A backslash before a byte that makes no escape with it. -/
lemma unescape_other {c : UInt8} (h1 : c ≠ 110) (h2 : c ≠ 116) (h3 : c ≠ 92) (l : List UInt8) :
    unescape (92 :: c :: l) = 92 :: c :: unescape l := by
  simp only [unescape, h1, h2, h3, and_false, if_false, unescape_plain h3]

/-- An escape does not reach over a space. -/
lemma unescape_space : ∀ u v : List UInt8, unescape (u ++ 32 :: v) = unescape u ++ 32 :: unescape v
  | [], v => unescape_plain (by decide) v
  | [b], v => by
    by_cases hb : b = 92
    · subst hb
      exact unescape_other (by decide) (by decide) (by decide) v
    · rw [List.singleton_append, unescape_plain hb, unescape_plain (by decide)]
      rfl
  | b :: c :: u, v => by
    have ih := unescape_space u v
    have ih' := unescape_space (c :: u) v
    rw [List.cons_append] at ih'
    simp only [List.cons_append, unescape]
    split_ifs
    · rw [ih, List.cons_append]
    · rw [ih, List.cons_append]
    · rw [ih, List.cons_append]
    · rw [ih', List.cons_append]

lemma unescape_length_le : ∀ l : List UInt8, (unescape l).length ≤ l.length
  | [] => le_rfl
  | [_] => le_rfl
  | b :: c :: l => by
    have ih := unescape_length_le l
    have ih' := unescape_length_le (c :: l)
    rw [List.length_cons] at ih'
    simp only [unescape]
    split_ifs <;> simp only [List.length_cons] <;> omega

/-- What the buffer holds. -/
def Content.text (t : Content) : List UInt8 := bytes t.mem 0 t.len

lemma Content.text_length (t : Content) : t.text.length = t.len := bytes_length _ _ _

lemma Content.push_text {t : Content} (h : t.len < cmdBufSize) (b : UInt8) :
    ∃ t', t.push b = some t' ∧ t'.text = t.text ++ [b] := by
  refine ⟨⟨Function.update t.mem t.len b, t.len + 1⟩, if_pos h, ?_⟩
  unfold Content.text
  dsimp only
  rw [bytes_succ, Nat.zero_add, Function.update_self]
  refine congrArg (· ++ [b]) (bytes_congr fun i hi => ?_)
  rw [Function.update_of_ne (by omega)]

/-- A byte is stored, and then `l`. -/
lemma Content.push_bind {t : Content} (h : t.len < cmdBufSize) (b : UInt8)
    {o : Content → Option Content} {l : List UInt8}
    (ho : ∀ t' : Content, t'.len = t.len + 1 → ∃ t'', o t' = some t'' ∧ t''.text = t'.text ++ l) :
    ∃ t', (t.push b).bind o = some t' ∧ t'.text = t.text ++ b :: l := by
  obtain ⟨t', ht', htext⟩ := Content.push_text h b
  have hlen : t'.len = t.len + 1 := by
    rw [← t'.text_length, htext, List.length_append, t.text_length]
    rfl
  obtain ⟨t'', ht'', htext'⟩ := ho t' hlen
  refine ⟨t'', by rw [ht', Option.bind_some, ht''], ?_⟩
  rw [htext', htext, List.append_assoc]
  rfl

lemma decode_zero (r : List UInt8) (t : Content) : decode (0 :: r) t = some t := by
  cases r <;> rfl

/-- **The loop over a word decodes it**, when there is room for the result. -/
lemma decode_text : ∀ (u r : List UInt8) (t : Content), 0 ∉ u →
    t.len + (unescape u).length ≤ cmdBufSize →
      ∃ t', decode (u ++ 0 :: r) t = some t' ∧ t'.text = t.text ++ unescape u
  | [], r, t, _, _ => ⟨t, decode_zero r t, by simp [unescape]⟩
  | [b], r, t, h0, hroom => by
    have hb : b ≠ 0 := fun e => h0 (by simp [e])
    have hdone : ∀ t' : Content, t'.len = t.len + 1 →
        ∃ t'', decode (0 :: r) t' = some t'' ∧ t''.text = t'.text ++ [] :=
      fun t' _ => ⟨t', decode_zero r t', by simp⟩
    have hlt : t.len < cmdBufSize := by
      simp only [unescape, List.length_singleton] at hroom
      omega
    have hpush := Content.push_bind hlt b hdone
    rw [List.singleton_append, decode, if_neg hb]
    by_cases hs : b = 92
    · rw [if_pos hs]
      exact hpush
    · rw [if_neg hs]
      exact hpush
  | b :: c :: u, r, t, h0, hroom => by
    have hb : b ≠ 0 := fun e => h0 (by simp [e])
    have hc : c ≠ 0 := fun e => h0 (by simp [e])
    have hu : 0 ∉ u := fun e => h0 (by simp [e])
    have ih := decode_text u r
    have ih' := decode_text (c :: u) r
    rw [List.cons_append, List.cons_append, decode, if_neg hb]
    by_cases hs : b = 92
    · subst hs
      rw [if_pos rfl, if_pos hc]
      have hone : ∀ v : UInt8, unescape (92 :: c :: u) = v :: unescape u →
          ∃ t', ((t.push v).bind fun t => decode (u ++ 0 :: r) t) = some t' ∧
            t'.text = t.text ++ unescape (92 :: c :: u) := by
        intro v hv
        rw [hv, List.length_cons] at hroom
        rw [hv]
        exact Content.push_bind (by omega) v fun t' ht' => ih t' hu (by omega)
      by_cases hn : c = 110
      · rw [if_pos hn]
        exact hone 10 (by simp [unescape, hn])
      rw [if_neg hn]
      by_cases ht : c = 116
      · rw [if_pos ht]
        exact hone 9 (by simp [unescape, ht])
      rw [if_neg ht]
      by_cases hk : c = 92
      · rw [if_pos hk]
        exact hone 92 (by simp [unescape, hk])
      rw [if_neg hk, Option.bind_assoc]
      rw [unescape_other hn ht hk, List.length_cons, List.length_cons] at hroom
      rw [unescape_other hn ht hk]
      exact Content.push_bind (by omega) 92 fun t' ht' =>
        Content.push_bind (by omega) c fun t'' ht'' => ih t'' hu (by omega)
    · rw [if_neg hs]
      rw [unescape_plain hs, List.length_cons] at hroom
      rw [unescape_plain hs]
      exact Content.push_bind (by omega) b fun t' ht' =>
        ih' t' (fun e => h0 (List.mem_cons_of_mem _ e)) (by omega)

/-! ### The words before the redirection -/

/-- The words joined by single spaces. -/
lemma intercalate_cons (u : List UInt8) (us : List (List UInt8)) :
    [32].intercalate (u :: us) = u ++ us.flatMap fun v => 32 :: v := by
  induction us generalizing u with
  | nil => simp [List.intercalate]
  | cons v us ih =>
    have h := ih v
    unfold List.intercalate at h ⊢
    rw [List.intersperse_cons_cons, List.flatten_cons, List.flatten_cons, h]
    rfl

/-- The words may be decoded one by one. -/
lemma unescape_intercalate (u : List UInt8) (us : List (List UInt8)) :
    unescape ([32].intercalate (u :: us)) = unescape u ++ us.flatMap fun v => 32 :: unescape v := by
  rw [intercalate_cons]
  induction us generalizing u with
  | nil => simp
  | cons v us ih =>
    rw [List.flatMap_cons, List.flatMap_cons, List.cons_append, unescape_space, ih v]
    rfl

section Redirect

variable {line : Mem} {n : ℕ} {l : List (ℕ × ℕ)}

/-- The words of a line take no more room than the line. -/
lemma spell_length_le {w : ℕ × ℕ} {ws : List (ℕ × ℕ)} (hl : ∀ v ∈ w :: ws, Word line n v)
    (hs : (w :: ws).Pairwise fun v w => v.2 < w.1) :
    w.2 + (ws.flatMap fun v => 32 :: spell line v).length ≤ n := by
  induction ws generalizing w with
  | nil => exact (hl w List.mem_cons_self).inside
  | cons v ws ih =>
    obtain ⟨hlt, hs⟩ := List.pairwise_cons.mp hs
    have h1 := hlt v List.mem_cons_self
    have h2 := (hl v (by simp)).nonempty
    have h3 := ih (fun u hu => hl u (List.mem_cons_of_mem _ hu)) hs
    rw [List.flatMap_cons, List.length_append, List.length_cons]
    unfold spell at h3 ⊢
    rw [bytes_length]
    omega

/-- The loop over the words behind the first one. -/
lemma joinArgs_text (h : Typed line n) (hl : ∀ v ∈ l, Word line n v) {ws : List (ℕ × ℕ)}
    (hws : ∀ w ∈ ws, w ∈ l) {j : ℕ} (hj : 1 < j) (t : Content)
    (hroom : t.len + (ws.flatMap fun w => 32 :: unescape (spell line w)).length ≤ cmdBufSize) :
    ∃ t', joinArgs (cut (l.map Prod.snd) line) j (ws.map Prod.fst) t = some t' ∧
      t'.text = t.text ++ ws.flatMap fun w => 32 :: unescape (spell line w) := by
  induction ws generalizing j t with
  | nil => exact ⟨t, rfl, by simp⟩
  | cons w ws ih =>
    have hw := hws w List.mem_cons_self
    obtain ⟨r, hr⟩ := rest_word h hl hw
    rw [List.flatMap_cons, List.cons_append, List.length_cons, List.length_append] at hroom
    rw [List.map_cons, joinArgs, if_pos hj, List.flatMap_cons, List.cons_append]
    refine Content.push_bind (by omega) 32 fun t' ht' => ?_
    obtain ⟨t'', h1, h2⟩ := decode_text (spell line w) r t' ((hl w hw).noNul h) (by omega)
    have hlen := congrArg List.length h2
    rw [List.length_append, t'.text_length, t''.text_length] at hlen
    obtain ⟨t₃, h3, h4⟩ := ih (fun u hu => hws u (List.mem_cons_of_mem _ hu))
      (show 1 < j + 1 by omega) t'' (by omega)
    refine ⟨t₃, by rw [hr, h1, Option.bind_some, h3], ?_⟩
    rw [h4, h2, List.append_assoc]

/-- **The words up to the redirection**: they are decoded into the buffer, which has room for them and
for one byte more. -/
lemma joinArgs_words (h : Typed line n) (hl : ∀ v ∈ l, Word line n v) {ws : List (ℕ × ℕ)}
    (hws : ∀ w ∈ ws, w ∈ l) (hs : ws.Pairwise fun v w => v.2 < w.1) (junk : Mem) :
    ∃ t, joinArgs (cut (l.map Prod.snd) line) 1 (ws.map Prod.fst) ⟨junk, 0⟩ = some t ∧
      t.text = unescape ([32].intercalate (ws.map (spell line))) ∧ t.len < cmdBufSize := by
  cases ws with
  | nil => exact ⟨⟨junk, 0⟩, rfl, rfl, (by decide : 0 < cmdBufSize)⟩
  | cons w ws =>
    have hw := hws w List.mem_cons_self
    have hall := fun v hv => hl v (hws v hv)
    have hfits := spell_length_le hall hs
    have hn : n < cmdBufSize := h.short
    obtain ⟨r, hr⟩ := rest_word h hl hw
    have hjoin := unescape_intercalate (spell line w) (ws.map (spell line))
    rw [List.flatMap_map] at hjoin
    have hshort : (unescape (spell line w)).length +
        (ws.flatMap fun v => 32 :: unescape (spell line v)).length ≤ n := by
      have hle := unescape_length_le ([32].intercalate (spell line w :: ws.map (spell line)))
      rw [hjoin, intercalate_cons, List.flatMap_map, List.length_append, List.length_append] at hle
      have hspell : (spell line w).length = w.2 - w.1 := bytes_length _ _ _
      omega
    obtain ⟨t, h1, h2⟩ := decode_text (spell line w) r ⟨junk, 0⟩ ((hl w hw).noNul h) (by
      dsimp only
      omega)
    have hlen := congrArg List.length h2
    rw [List.length_append, Content.text_length, Content.text_length] at hlen
    dsimp only at hlen
    obtain ⟨t', h3, h4⟩ := joinArgs_text h hl (fun u hu => hws u (List.mem_cons_of_mem _ hu))
      (show 1 < 1 + 1 by omega) t (by omega)
    have hlen' := congrArg List.length h4
    rw [List.length_append, Content.text_length, Content.text_length] at hlen'
    refine ⟨t', ?_, ?_, by omega⟩
    · rw [List.map_cons, joinArgs, if_neg (by omega), Option.bind_some, hr, h1, Option.bind_some, h3]
    · rw [h4, h2, List.map_cons, hjoin]
      rfl

/-- The test of the loop of `execute` on the word `k`. -/
lemma redirect_iff (h : Typed line n) (hl : ∀ v ∈ l, Word line n v) {k : ℕ} (hk : k < l.length) :
    strcmp (rest (cut (l.map Prod.snd) line) ((l.map Prod.fst).getD k 0)) [62] = 0 ↔
      (l.map (spell line))[k]? = some [62] := by
  have hget : (l.map Prod.fst).getD k 0 = l[k].1 := by
    rw [List.getD_eq_getElem _ _ (by rwa [List.length_map]), List.getElem_map]
  have hspell : (l.map (spell line))[k]? = some (spell line l[k]) := by
    rw [List.getElem?_map, List.getElem?_eq_getElem hk]
    rfl
  obtain ⟨r, hr⟩ := rest_word h hl (List.getElem_mem hk)
  rw [strcmp_eq_zero_iff, hget, hr, hspell, cstr_append_zero ((hl _ (List.getElem_mem hk)).noNul h),
    Option.some_inj]
  rfl

/-- The loop stops at the first `>` behind the first word. -/
lemma find_redirect (h : Typed line n) (hl : ∀ v ∈ l, Word line n v) {i : ℕ} (hi : 1 ≤ i)
    (hlast : i < l.length) (hredir : (l.map (spell line))[i]? = some [62])
    (hfirst : ∀ k, 1 ≤ k → k < i → (l.map (spell line))[k]? ≠ some [62]) :
    (List.range' 1 ((l.map Prod.fst).length - 1)).find? (fun k =>
      strcmp (rest (cut (l.map Prod.snd) line) ((l.map Prod.fst).getD k 0)) [62] = 0) = some i := by
  rw [List.find?_range'_eq_some]
  refine ⟨decide_eq_true ((redirect_iff h hl hlast).mpr hredir), ?_, fun k hk hki => ?_⟩
  · rw [List.mem_range'_1, List.length_map]
    omega
  · rw [Bool.not_eq_true', decide_eq_false_iff_not, redirect_iff h hl (by omega)]
    exact hfirst k hk hki

/-- A redirection goes to the file of the name behind it. -/
lemma target_word (h : Typed line n) (hl : ∀ v ∈ l, Word line n v) {k : ℕ} (hk : k < l.length) :
    (l.map (spell line))[k]? =
      some (wordAt (cut (l.map Prod.snd) line) ((l.map Prod.fst).getD k 0)).bytes := by
  rw [List.getElem?_map, List.getElem?_eq_getElem hk,
    List.getD_eq_getElem _ _ (by rwa [List.length_map]), List.getElem_map,
    wordAt_word h hl (List.getElem_mem hk)]
  rfl

/-- **The words fit the argument block**: with their NULs they are no longer than the buffer of the
line, which is what `build_user_args` relies on. -/
theorem words_fit (h : Typed line n) (hl : ∀ v ∈ l, Word line n v)
    (hs : l.Pairwise fun v w => v.2 < w.1) :
    stringBytes (l.map fun w => wordAt (cut (l.map Prod.snd) line) w.1) ≤ cmdBufSize := by
  have hsum : stringBytes (l.map fun w => wordAt (cut (l.map Prod.snd) line) w.1) =
      (l.flatMap fun w => 32 :: spell line w).length := by
    unfold stringBytes
    rw [List.length_flatMap, List.map_map]
    refine congrArg List.sum (List.map_congr_left fun w hw => ?_)
    simp only [Function.comp_apply, CStr.length, wordAt_word h hl hw, List.length_cons]
  rw [hsum]
  have hn : n < 128 := h.short
  cases l with
  | nil => exact Nat.zero_le _
  | cons w l =>
    have hfits := spell_length_le hl hs
    have hlen : (spell line w).length = w.2 - w.1 := bytes_length _ _ _
    rw [List.flatMap_cons, List.length_append, List.length_cons, hlen]
    show _ ≤ 128
    omega

end Redirect

/-! ### `execute` -/

/-- **The command line.** `parse_line` finds the first 16 words and ends them in place. When a word
behind the first is `>` and has a word behind it, `execute` stores within `content` and writes the words
up to it, joined by single spaces and decoded, to the file of the name behind it. -/
theorem execute_redirects {line : Mem} {n : ℕ} (h : Typed line n) (sb : Superblock) (junk : Mem)
    (d : Disk) : ∃ all, Words line n 0 all ∧
      let found := all.take maxArgs
      let argv := found.map (spell line)
      parseLine line = some (found.map Prod.fst, cut (found.map Prod.snd) line) ∧
      (∀ w ∈ found, (wordAt (cut (found.map Prod.snd) line) w.1).bytes = spell line w) ∧
      ∀ i, 1 ≤ i → i + 1 < argv.length → argv[i]? = some [62] →
        (∀ k, 1 ≤ k → k < i → argv[k]? ≠ some [62]) →
          ∃ content : Mem, ∃ len, ∃ name : CStr,
            bytes content 0 len = unescape ([32].intercalate ((argv.drop 1).take (i - 1))) ∧
            argv[i + 1]? = some name.bytes ∧
            execute sb junk line d = some (.wrote name (fsWrite sb name fsFile content len d)) := by
  obtain ⟨all, hall⟩ := words_exist h
  refine ⟨all, hall, ?_⟩
  intro found argv
  have hl : ∀ v ∈ found, Word line n v := fun v hv =>
    ((hall.mem v).mp (List.mem_of_mem_take hv)).1
  have hs : found.Pairwise fun v w => v.2 < w.1 := hall.sorted.sublist (List.take_sublist _ _)
  have hparse : parseLine line = some (found.map Prod.fst, cut (found.map Prod.snd) line) :=
    parseWords_eq h maxArgs (Nat.zero_le n) (fun _ => Or.inl rfl) hall fun _ _ => rfl
  refine ⟨hparse, fun w hw => wordAt_word h hl hw, fun i hi hlast hredir hfirst => ?_⟩
  clear_value found
  have hlen : argv.length = found.length := List.length_map _
  have hfind := find_redirect h hl hi (by omega) hredir hfirst
  have hws : ∀ w ∈ (found.drop 1).take (i - 1), w ∈ found := fun w hw =>
    List.mem_of_mem_drop (List.mem_of_mem_take hw)
  obtain ⟨t, ht, htext, hroom⟩ := joinArgs_words h hl hws
    (hs.sublist ((List.take_sublist _ _).trans (List.drop_sublist _ _))) junk
  rw [List.map_take, List.map_drop] at ht
  refine ⟨Function.update t.mem t.len 0, t.len,
    wordAt (cut (found.map Prod.snd) line) ((found.map Prod.fst).getD (i + 1) 0), ?_, ?_, ?_⟩
  · rw [@bytes_congr t.mem _ 0 0 t.len fun k hk => Function.update_of_ne (by omega) _ _]
    refine htext.trans ?_
    rw [List.map_take, List.map_drop]
  · exact target_word h hl (by omega)
  · unfold execute
    rw [hparse, Option.bind_some]
    dsimp only
    rw [if_neg (by rw [List.length_map]; omega), hfind]
    dsimp only
    rw [if_neg (by rw [List.length_map]; omega), ht, Option.bind_some]
    unfold Content.push
    rw [if_pos hroom]
    rfl

/-- The line `echo a > f`. -/
def echoLine : Input :=
  run Input.key ⟨fun _ => 0, 0⟩ [101, 99, 104, 111, 32, 97, 32, 62, 32, 102]

theorem execute_redirects_echo : ∃ content : Mem, ∃ len, ∃ name : CStr,
    bytes content 0 len = [97] ∧ name.bytes = [102] ∧
      execute blank.sb (fun _ => 0) echoLine.line blank.disk =
        some (.wrote name (fsWrite blank.sb name fsFile content len blank.disk)) := by
  obtain ⟨all, -, hparse, hword, hredir⟩ := execute_redirects
    (input_typed (fun _ => 0) [101, 99, 104, 111, 32, 97, 32, 62, 32, 102]) blank.sb (fun _ => 0)
    blank.disk
  have hargv : (all.take maxArgs).map (spell echoLine.line) =
      [[101, 99, 104, 111], [97], [62], [102]] := by
    have hcut : (parseLine echoLine.line).map (fun r => r.1.map fun p => (wordAt r.2 p).bytes) =
        some [[101, 99, 104, 111], [97], [62], [102]] := by
      decide +kernel
    have hparse : parseLine echoLine.line = _ := hparse
    rw [hparse, Option.map_some, Option.some_inj, List.map_map] at hcut
    rw [← hcut]
    exact List.map_congr_left fun w hw => (hword w hw).symm
  have hredir := hredir 2 (by decide)
  unfold echoLine at hargv
  rw [hargv] at hredir
  obtain ⟨content, len, name, h1, h2, h3⟩ := hredir (by decide) rfl fun k hk hk' => by
    obtain rfl : k = 1 := by omega
    decide
  exact ⟨content, len, name, h1, (Option.some.inj h2).symm, h3⟩

end LunariaOS.Shell
