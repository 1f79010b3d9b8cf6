import Mathlib.Data.List.GetD
import LunariaOS.Lib.Sweep
import LunariaOS.Mirror.Code

/-!
The input field of `mirror.c`.

`Input` is the buffer with its length and its cursor, and the indices that were written to. `Line` is
what it stands for, the text before the cursor and the text after it, so that the cursor is in the text
by its type. Every key keeps `Holds`, which relates the two.
-/

namespace LunariaOS.Mirror

open LunariaOS.Lib LunariaOS.Wm

def keyLeft : ℤ := 0xE2
def keyRight : ℤ := 0xE3
def keyEsc : ℤ := 0x1B
def keyEnter : ℤ := 10
def keyBackspace : ℤ := 8

/-! ### The code -/

/-- The parameters of `mirror_input` besides the screen and the buffer. -/
structure Field where
  x : ℤ
  y : ℤ
  w : ℤ
  cap : ℤ
  attr : UInt8

/-- The buffer, `len` and `cur`, and the indices of `buf` that were written to. -/
structure Input where
  buf : ℤ → UInt8
  len : ℤ
  cur : ℤ
  writes : List ℤ

namespace Input

/-- `buf[i] = c`. -/
def store (s : Input) (i : ℤ) (c : UInt8) : Input :=
  { s with buf := Function.update s.buf i c, writes := s.writes ++ [i] }

/-- The first `n` turns of `for (int i = cur - 1; i < len - 1; i++) buf[i] = buf[i + 1];`. -/
def pullLoop (s : Input) (n : ℕ) : Input :=
  (List.range n).foldl (fun t (j : ℕ) => t.store (s.cur - 1 + j) (t.buf (s.cur - 1 + j + 1))) s

/-- The first `n` turns of `for (int i = len; i > cur; i--) buf[i] = buf[i - 1];`. -/
def pushLoop (s : Input) (n : ℕ) : Input :=
  (List.range n).foldl (fun t (j : ℕ) => t.store (s.len - j) (t.buf (s.len - j - 1))) s

/-- What a key does that does not end the input. -/
def key (s : Input) (cap k : ℤ) : Input :=
  if k = keyBackspace then
    if s.cur > 0 then
      let s := s.pullLoop (s.len - 1 - (s.cur - 1)).toNat
      let s := { s with cur := s.cur - 1, len := s.len - 1 }
      s.store s.len 0
    else s
  else if k = keyLeft then (if s.cur > 0 then { s with cur := s.cur - 1 } else s)
  else if k = keyRight then (if s.cur < s.len then { s with cur := s.cur + 1 } else s)
  else if 32 ≤ k ∧ k ≤ 126 ∧ s.len < cap - 1 then
    let s := s.pushLoop (s.len - s.cur).toNat
    let s := s.store s.cur (UInt8.ofNat k.toNat)
    let s := { s with cur := s.cur + 1, len := s.len + 1 }
    s.store s.len 0
  else s

end Input

namespace Field

variable (f : Field)

/-- `mirror_input` up to the loop, for a text of `n` bytes: the result of `strlen`. -/
def start (buf : ℤ → UInt8) (n : ℕ) : Input :=
  let len := if i32 n > f.cap - 1 then f.cap - 1 else i32 n
  ⟨buf, len, len, []⟩

/-- The first character that is shown. -/
def off (s : Input) : ℤ := if s.cur ≥ f.w then i32 (s.cur - f.w + 1) else 0

/-- `x + cur - off`. -/
def caret (s : Input) : ℤ := i32 (i32 (f.x + s.cur) - f.off s)

/-- The field drawn into the back buffer. -/
def draw (m : State) (s : Input) : State :=
  State.loop (f.off s) (if s.len < f.off s + f.w then s.len else f.off s + f.w)
    (fun m i => m.mirrorPutc (i32 (i32 (f.x + i) - f.off s)) f.y (s.buf i) f.attr)
    (m.mirrorFill f.x f.y f.w 1 32 f.attr)

/-- `mirror_cursor`. -/
def cursor (m : State) (x y : ℤ) : State :=
  { m with wm := m.wm.syscall (.gotoXy (x % 4294967296).toNat (y % 4294967296).toNat) }

/-- The field drawn, the caret set, and the screen flushed. -/
def redraw (m : State) (s : Input) : State := (cursor (f.draw m s) (f.caret s) f.y).mirrorFlush

/-- The loop of `mirror_input` on the keys to come: what it returns, or nothing while it waits for the
next key. -/
def loop (f : Field) : State → Input → List ℤ → Option ℤ × State × Input
  | m, s, [] => (none, f.redraw m s, s)
  | m, s, k :: ks =>
    let m := f.redraw m s
    if k = keyEnter then (some 0, cursor m (cols - 1) (rows - 1), s)
    else if k = keyEsc then (some (-1), cursor m (cols - 1) (rows - 1), s)
    else f.loop m (s.key f.cap k) ks

def mirrorInput (m : State) (buf : ℤ → UInt8) (n : ℕ) (ks : List ℤ) : Option ℤ × State × Input :=
  if f.cap ≤ 0 ∨ f.w ≤ 0 then (some (-1), m, ⟨buf, n, n, []⟩) else f.loop m (f.start buf n) ks

end Field

/-! ### The line editor -/

/-- A text with a cursor in it. -/
structure Line where
  before : List UInt8
  after : List UInt8

namespace Line

def text (l : Line) : List UInt8 := l.before ++ l.after

/-- Delete the character before the cursor. -/
def delete (l : Line) : Line := ⟨l.before.dropLast, l.after⟩

def left (l : Line) : Line := ⟨l.before.dropLast, (l.before.getLast?).toList ++ l.after⟩

def right (l : Line) : Line := ⟨l.before ++ l.after.head?.toList, l.after.tail⟩

/-- Insert a character at the cursor. -/
def type (l : Line) (c : UInt8) : Line := ⟨l.before ++ [c], l.after⟩

/-- A key, for a text of at most `room` characters. -/
def key (room : ℤ) (l : Line) (k : ℤ) : Line :=
  if k = keyBackspace then l.delete
  else if k = keyLeft then l.left
  else if k = keyRight then l.right
  else if 32 ≤ k ∧ k ≤ 126 ∧ l.text.length < room then l.type (UInt8.ofNat k.toNat)
  else l

/-- The keys up to the one that ends the input. -/
def typed (ks : List ℤ) : List ℤ := ks.takeWhile fun k => k ≠ keyEnter ∧ k ≠ keyEsc

end Line

/-! ### The buffer holds the line -/

/-- The buffer holds the text of the line, ended by a NUL, and only bytes of the buffer were written. -/
structure Holds (cap : ℤ) (s : Input) (l : Line) : Prop where
  len : s.len = l.text.length
  cur : s.cur = l.before.length
  room : s.len ≤ cap - 1
  buf : ∀ i ≤ l.text.length, s.buf i = l.text.getD i 0
  writes : ∀ i ∈ s.writes, 0 ≤ i ∧ i ≤ cap - 1

section Keys

variable {cap : ℤ} {s : Input} {l : Line} {k : ℤ}

/-- The bytes after the first `n` turns of the loop that closes the gap. -/
lemma pullLoop_buf (s : Input) (n : ℕ) (i : ℤ) :
    (s.pullLoop n).buf i =
      if s.cur - 1 ≤ i ∧ i < s.cur - 1 + n then s.buf (i + 1) else s.buf i := by
  unfold Input.pullLoop
  induction n generalizing i with
  | zero => rw [if_neg (by omega)]; rfl
  | succ n ih =>
    rw [List.range_succ, List.foldl_append]
    show Function.update _ _ _ i = _
    rw [Function.update_apply, ih, ih]
    grind

/-- The bytes after the first `n` turns of the loop that makes room. -/
lemma pushLoop_buf (s : Input) (n : ℕ) (i : ℤ) :
    (s.pushLoop n).buf i = if s.len - n < i ∧ i ≤ s.len then s.buf (i - 1) else s.buf i := by
  unfold Input.pushLoop
  induction n generalizing i with
  | zero => rw [if_neg (by omega)]; rfl
  | succ n ih =>
    rw [List.range_succ, List.foldl_append]
    show Function.update _ _ _ i = _
    rw [Function.update_apply, ih, ih]
    grind

lemma pullLoop_writes (s : Input) (n : ℕ) :
    ∀ i ∈ (s.pullLoop n).writes, i ∈ s.writes ∨ s.cur - 1 ≤ i ∧ i < s.cur - 1 + n := by
  unfold Input.pullLoop
  induction n with
  | zero => exact fun i hi => .inl hi
  | succ n ih =>
    rw [List.range_succ, List.foldl_append]
    intro i hi
    rcases List.mem_append.mp hi with hi | hi
    · rcases ih i hi with h | h
      · exact .inl h
      · exact .inr (by omega)
    · rw [List.mem_singleton.mp hi]
      exact .inr (by omega)

lemma pushLoop_writes (s : Input) (n : ℕ) :
    ∀ i ∈ (s.pushLoop n).writes, i ∈ s.writes ∨ s.len - n < i ∧ i ≤ s.len := by
  unfold Input.pushLoop
  induction n with
  | zero => exact fun i hi => .inl hi
  | succ n ih =>
    rw [List.range_succ, List.foldl_append]
    intro i hi
    rcases List.mem_append.mp hi with hi | hi
    · rcases ih i hi with h | h
      · exact .inl h
      · exact .inr (by omega)
    · rw [List.mem_singleton.mp hi]
      exact .inr (by omega)

lemma pullLoop_cur (s : Input) (n : ℕ) : (s.pullLoop n).cur = s.cur ∧ (s.pullLoop n).len = s.len := by
  unfold Input.pullLoop
  constructor
  · refine foldl_keep (g := Input.cur) ?_ s
    exact fun _ _ _ => rfl
  · refine foldl_keep (g := Input.len) ?_ s
    exact fun _ _ _ => rfl

lemma pushLoop_cur (s : Input) (n : ℕ) : (s.pushLoop n).cur = s.cur ∧ (s.pushLoop n).len = s.len := by
  unfold Input.pushLoop
  constructor
  · refine foldl_keep (g := Input.cur) ?_ s
    exact fun _ _ _ => rfl
  · refine foldl_keep (g := Input.len) ?_ s
    exact fun _ _ _ => rfl

/-! ### One key -/

/-- The text with a character deleted. -/
lemma getD_delete (b a : List UInt8) (c : UInt8) (i : ℕ) :
    (b ++ a).getD i 0 = (b ++ [c] ++ a).getD (if b.length ≤ i then i + 1 else i) 0 := by
  rw [List.append_assoc]
  by_cases h : b.length ≤ i
  · rw [if_pos h, List.getD_append_right _ _ _ _ h, List.getD_append_right _ _ _ _ (by omega),
      show i + 1 - b.length = i - b.length + 1 by omega]
    rfl
  · rw [if_neg h, List.getD_append _ _ _ _ (by omega), List.getD_append _ _ _ _ (by omega)]

/-- The text with a character typed. -/
lemma getD_type (b a : List UInt8) (c : UInt8) (i : ℕ) :
    (b ++ [c] ++ a).getD i 0 =
      if i = b.length then c else (b ++ a).getD (if b.length < i then i - 1 else i) 0 := by
  rcases lt_trichotomy i b.length with h | h | h
  · rw [if_neg h.ne, if_neg (by omega), List.append_assoc, List.getD_append _ _ _ _ h,
      List.getD_append _ _ _ _ h]
  · rw [if_pos h, h, List.append_assoc, List.getD_append_right _ _ _ _ le_rfl, Nat.sub_self]
    rfl
  · rw [if_neg h.ne', if_pos h, getD_delete b a c (i - 1), if_pos (by omega)]
    congr 1
    omega

/-- The key that deletes the character before the cursor. -/
lemma Holds.delete (h : Holds cap s l) : Holds cap (s.key cap keyBackspace) l.delete := by
  obtain ⟨b, a⟩ := l
  obtain ⟨hlen, hcur, hroom, hbuf, hw⟩ := id h
  unfold Input.key
  rw [if_pos rfl]
  rcases List.eq_nil_or_concat' b with rfl | ⟨b, c, rfl⟩
  · rw [if_neg (by rw [hcur]; simp)]
    exact h
  unfold Line.delete
  unfold Line.text at hlen hbuf
  dsimp only at hlen hcur hbuf ⊢
  rw [List.dropLast_concat]
  simp only [List.length_append, List.length_singleton] at hlen hcur hbuf
  obtain ⟨hcur', hlen'⟩ := pullLoop_cur s (s.len - 1 - (s.cur - 1)).toNat
  have hlength : ((Line.mk b a).text.length : ℤ) = s.len - 1 := by
    unfold Line.text
    rw [List.length_append]
    push_cast
    omega
  rw [if_pos (by omega)]
  refine ⟨?_, ?_, ?_, fun i hi => ?_, fun i hi => ?_⟩
  · show (s.pullLoop _).len - 1 = _
    omega
  · show (s.pullLoop _).cur - 1 = (b.length : ℤ)
    omega
  · show (s.pullLoop _).len - 1 ≤ _
    omega
  · show Function.update (s.pullLoop _).buf ((s.pullLoop _).len - 1) 0 i = _
    rw [Function.update_apply, hlen', pullLoop_buf]
    by_cases hlast : (i : ℤ) = s.len - 1
    · rw [if_pos hlast, List.getD_eq_default _ _ (by omega)]
    rw [if_neg hlast]
    unfold Line.text
    rw [getD_delete b a c]
    by_cases hpos : b.length ≤ i
    · rw [if_pos (by omega), if_pos hpos, ← hbuf _ (by omega)]
      push_cast
      rfl
    · rw [if_neg (by omega), if_neg hpos, ← hbuf _ (by omega)]
  · rcases List.mem_append.mp hi with hi | hi
    · rcases pullLoop_writes s _ i hi with hi | hi
      · exact hw i hi
      · omega
    · rw [List.mem_singleton.mp hi]
      show 0 ≤ (s.pullLoop _).len - 1 ∧ (s.pullLoop _).len - 1 ≤ cap - 1
      omega

/-- A key that types a character, where there is room for it. -/
lemma Holds.type (h : Holds cap s l) (hk : 32 ≤ k ∧ k ≤ 126) (hroom' : s.len < cap - 1) :
    Holds cap (s.key cap k) (l.type (UInt8.ofNat k.toNat)) := by
  obtain ⟨b, a⟩ := l
  obtain ⟨hlen, hcur, hroom, hbuf, hw⟩ := h
  unfold Line.text at hlen hbuf
  dsimp only at hlen hcur hbuf
  rw [List.length_append] at hlen hbuf
  unfold Input.key keyBackspace keyLeft keyRight
  rw [if_neg (by omega), if_neg (by omega), if_neg (by omega), if_pos ⟨hk.1, hk.2, hroom'⟩]
  dsimp only
  obtain ⟨hcur', hlen'⟩ := pushLoop_cur s (s.len - s.cur).toNat
  have hlength : (((Line.mk b a).type (UInt8.ofNat k.toNat)).text.length : ℤ) = s.len + 1 := by
    unfold Line.type Line.text
    simp only [List.length_append, List.length_singleton]
    push_cast
    omega
  refine ⟨?_, ?_, ?_, fun i hi => ?_, fun i hi => ?_⟩
  · show (s.pushLoop _).len + 1 = _
    omega
  · show (s.pushLoop _).cur + 1 = ((b ++ [UInt8.ofNat k.toNat]).length : ℤ)
    rw [List.length_append, List.length_singleton]
    push_cast
    omega
  · show (s.pushLoop _).len + 1 ≤ _
    omega
  · show Function.update (Function.update (s.pushLoop _).buf (s.pushLoop _).cur _)
      ((s.pushLoop _).len + 1) 0 i = _
    rw [Function.update_apply, Function.update_apply, hlen', hcur', pushLoop_buf]
    by_cases hlast : (i : ℤ) = s.len + 1
    · rw [if_pos hlast, List.getD_eq_default _ _ (by omega)]
    rw [if_neg hlast]
    unfold Line.type Line.text
    rw [getD_type b a]
    by_cases hpos : i = b.length
    · rw [if_pos (by omega), if_pos hpos]
    rw [if_neg (by omega), if_neg hpos]
    by_cases hafter : b.length < i
    · rw [if_pos (by omega), if_pos hafter, ← hbuf _ (by omega)]
      congr 1
      omega
    · rw [if_neg (by omega), if_neg hafter, ← hbuf _ (by omega)]
  · rcases List.mem_append.mp hi with hi | hi
    · rcases List.mem_append.mp hi with hi | hi
      · rcases pushLoop_writes s _ i hi with hi | hi
        · exact hw i hi
        · omega
      · rw [List.mem_singleton.mp hi]
        show 0 ≤ (s.pushLoop _).cur ∧ (s.pushLoop _).cur ≤ cap - 1
        omega
    · rw [List.mem_singleton.mp hi]
      show 0 ≤ (s.pushLoop _).len + 1 ∧ (s.pushLoop _).len + 1 ≤ cap - 1
      omega

/-- The cursor moved in the text. -/
lemma Holds.move (h : Holds cap s l) {l' : Line} (htext : l'.text = l.text) {c : ℤ}
    (hc : c = l'.before.length) : Holds cap { s with cur := c } l' :=
  ⟨h.len.trans (by rw [htext]), hc, h.room, fun i hi => by rw [htext] at hi ⊢; exact h.buf i hi, h.writes⟩

lemma Line.text_left (l : Line) : l.left.text = l.text := by
  obtain ⟨b, a⟩ := l
  unfold Line.left Line.text
  rcases List.eq_nil_or_concat' b with rfl | ⟨b, c, rfl⟩
  · rfl
  · simp

lemma Line.text_right (l : Line) : l.right.text = l.text := by
  obtain ⟨b, a⟩ := l
  unfold Line.right Line.text
  cases a with
  | nil => simp
  | cons c a => simp

lemma Holds.left (h : Holds cap s l) : Holds cap (s.key cap keyLeft) l.left := by
  have hcur := h.cur
  have hback : keyLeft ≠ keyBackspace := by decide
  unfold Input.key
  rw [if_neg hback, if_pos rfl]
  by_cases hpos : s.cur > 0
  · rw [if_pos hpos]
    refine h.move l.text_left ?_
    unfold Line.left
    rw [List.length_dropLast]
    omega
  · rw [if_neg hpos]
    refine h.move (c := s.cur) l.text_left ?_
    unfold Line.left
    rw [List.length_dropLast]
    omega

lemma Holds.right (h : Holds cap s l) : Holds cap (s.key cap keyRight) l.right := by
  have hcur := h.cur
  have hlen := h.len
  have hback : keyRight ≠ keyBackspace := by decide
  have hleft : keyRight ≠ keyLeft := by decide
  have hright : (l.right.before.length : ℤ) = if s.cur < s.len then s.cur + 1 else s.cur := by
    obtain ⟨b, a⟩ := l
    unfold Line.text at hlen
    rw [List.length_append] at hlen
    unfold Line.right
    cases a with
    | nil =>
      rw [if_neg (by simp at hlen hcur; omega), hcur]
      simp
    | cons c a =>
      rw [if_pos (by simp at hlen hcur; omega), hcur]
      simp
  unfold Input.key
  rw [if_neg hback, if_neg hleft, if_pos rfl]
  by_cases hpos : s.cur < s.len
  · rw [if_pos hpos] at hright ⊢
    exact h.move l.text_right hright.symm
  · rw [if_neg hpos] at hright ⊢
    exact h.move l.text_right hright.symm

/-- **One key.** -/
theorem Holds.key (h : Holds cap s l) (k : ℤ) : Holds cap (s.key cap k) (l.key (cap - 1) k) := by
  have hlen := h.len
  unfold Line.key
  split_ifs with h1 h2 h3 h4
  · rw [h1]
    exact h.delete
  · rw [h2]
    exact h.left
  · rw [h3]
    exact h.right
  · exact h.type ⟨h4.1, h4.2.1⟩ (by omega)
  · unfold Input.key
    rw [if_neg h1, if_neg h2, if_neg h3, if_neg (by omega)]
    exact h

/-! ### The run -/

variable {f : Field} {m : State} {n : ℕ} {buf : ℤ → UInt8}

lemma Holds.loop (h : Holds f.cap s l) (m : State) (ks : List ℤ) :
    Holds f.cap (f.loop m s ks).2.2 ((Line.typed ks).foldl (Line.key (f.cap - 1)) l) := by
  induction ks generalizing m s l with
  | nil => exact h
  | cons k ks ih =>
    unfold Field.loop Line.typed
    by_cases hent : k = keyEnter
    · rw [if_pos hent, List.takeWhile_cons_of_neg (by simp [hent])]
      exact h
    by_cases hesc : k = keyEsc
    · rw [if_neg hent, if_pos hesc, List.takeWhile_cons_of_neg (by simp [hesc])]
      exact h
    · rw [if_neg hent, if_neg hesc, List.takeWhile_cons_of_pos (by simp [hent, hesc])]
      exact ih (h.key k) _

/-- The field at the beginning: the cursor is at the end of the text. -/
lemma holds_start (hcap : f.cap ≤ 2147483647) (hnul : buf n = 0) (hn : n ≤ f.cap - 1) :
    Holds f.cap (f.start buf n) ⟨(List.range n).map fun (i : ℕ) => buf i, []⟩ := by
  have hlen : i32 n = n := i32_of_lt (by omega)
  unfold Field.start
  rw [hlen, if_neg (by omega)]
  have htext : (Line.mk ((List.range n).map fun (i : ℕ) => buf i) []).text =
      (List.range n).map fun (i : ℕ) => buf i := List.append_nil _
  refine ⟨?_, ?_, hn, fun i hi => ?_, fun i hi => absurd hi List.not_mem_nil⟩
  · rw [htext, List.length_map, List.length_range]
  · rw [List.length_map, List.length_range]
  · rw [htext] at hi ⊢
    rw [List.length_map, List.length_range] at hi
    rcases hi.lt_or_eq with hlt | rfl
    · rw [List.getD_eq_getElem _ _ (by simpa using hlt), List.getElem_map, List.getElem_range]
    · rw [List.getD_eq_default _ _ (by simp)]
      exact hnul

end Keys

end LunariaOS.Mirror
