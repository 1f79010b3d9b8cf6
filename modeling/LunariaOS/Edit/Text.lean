import Mathlib.Data.List.DropRight
import LunariaOS.Lib.Bytes
import LunariaOS.Fs.WellFormed
import LunariaOS.Edit.Code
import LunariaOS.Libc.Copy

/-!
The buffer of the editor as a text with a cursor in it.

The text is what stands before the cursor and what stands after it. A line is looked for in either
part from the cursor outwards, which is what `line_begin` and `line_end` do in the buffer, and a
column is the width of what stands before it in its line.
-/

namespace LunariaOS.Edit

open LunariaOS.Lib

/-- The end of a line. -/
def newline : UInt8 := 10

/-- A byte that belongs to a line. -/
def inLine (b : UInt8) : Bool := b ≠ newline

lemma inLine_iff (b : UInt8) : inLine b = true ↔ b ≠ 10 := decide_eq_true_iff

/-- The columns that a run of bytes takes at the beginning of a line. -/
def columns (l : List UInt8) : ℕ := l.foldl (fun c b => c + State.width b c) 0

/-- The largest offset of the line `l` whose column is not beyond `target`. -/
def reach (target : ℕ) (l : List UInt8) : ℕ :=
  Nat.findGreatest (fun k => columns (l.take k) ≤ target) l.length

lemma reach_le (target : ℕ) (l : List UInt8) : reach target l ≤ l.length := Nat.findGreatest_le _

/-- A text with a cursor. -/
structure Doc where
  before : List UInt8
  after : List UInt8
  deriving DecidableEq

namespace Doc

/-- The column of the cursor. -/
def column (d : Doc) : ℕ := columns (d.before.rtakeWhile inLine)

/-- `n` times `c` at the cursor, if there is room. -/
def insert (d : Doc) (c : UInt8) (n : ℕ) : Doc :=
  if d.before.length + d.after.length + n ≥ bufMax then d
  else ⟨d.before ++ List.replicate n c, d.after⟩

def backspace (d : Doc) : Doc := ⟨d.before.dropLast, d.after⟩

def left (d : Doc) : Doc := ⟨d.before.dropLast, d.before.getLast?.toList ++ d.after⟩

def right (d : Doc) : Doc := ⟨d.before ++ d.after.head?.toList, d.after.tail⟩

/-- To the line before the cursor's, if there is one. Its end is the last byte of `above`. -/
def up (d : Doc) : Doc :=
  let above := d.before.rdropWhile inLine
  let line := above.dropLast.rtakeWhile inLine
  let k := reach d.column line
  if above = [] then d
  else
    ⟨above.dropLast.rdropWhile inLine ++ line.take k,
      line.drop k ++ newline :: (d.before.rtakeWhile inLine ++ d.after)⟩

/-- To the line after the cursor's, if there is one. `below` begins with the end of the cursor's. -/
def down (d : Doc) : Doc :=
  let below := d.after.dropWhile inLine
  let line := below.tail.takeWhile inLine
  let k := reach d.column line
  if below = [] then d
  else
    ⟨d.before ++ d.after.takeWhile inLine ++ newline :: line.take k,
      line.drop k ++ below.tail.dropWhile inLine⟩

lemma up_first {d : Doc} (h : d.before.rdropWhile inLine = []) : d.up = d := if_pos h

lemma up_line {d : Doc} {above line : List UInt8} (h : d.before.rdropWhile inLine = above)
    (hne : above ≠ []) (hline : above.dropLast.rtakeWhile inLine = line) :
    d.up =
      ⟨above.dropLast.rdropWhile inLine ++ line.take (reach d.column line),
        line.drop (reach d.column line) ++ newline :: (d.before.rtakeWhile inLine ++ d.after)⟩ := by
  subst h hline
  exact if_neg hne

lemma down_last {d : Doc} (h : d.after.dropWhile inLine = []) : d.down = d := if_pos h

lemma down_line {d : Doc} {below line : List UInt8} (h : d.after.dropWhile inLine = below)
    (hne : below ≠ []) (hline : below.tail.takeWhile inLine = line) :
    d.down =
      ⟨d.before ++ d.after.takeWhile inLine ++ newline :: line.take (reach d.column line),
        line.drop (reach d.column line) ++ below.tail.dropWhile inLine⟩ := by
  subst h hline
  exact if_neg hne

/-- A key. -/
def key (d : Doc) (k : ℤ) : Doc :=
  if k = keyEsc then d
  else if k = keyLeft then d.left
  else if k = keyRight then d.right
  else if k = keyUp then d.up
  else if k = keyDown then d.down
  else if k = keyBackspace then d.backspace
  else if k = 9 then d.insert 32 (tabW - d.column % tabW)
  else if k = 10 then d.insert newline 1
  else if 32 ≤ k ∧ k ≤ 126 then d.insert (UInt8.ofNat k.toNat) 1
  else d

end Doc

namespace State

/-! ### Lines -/

section Lines

variable (buf : Mem)

/-- The line that `p` is in begins behind the last newline before `p`. -/
lemma lineBegin_spec (p : ℕ) :
    lineBegin buf p ≤ p ∧ (∀ i, lineBegin buf p ≤ i → i < p → buf i ≠ 10) ∧
      (0 < lineBegin buf p → buf (lineBegin buf p - 1) = 10) := by
  induction p with
  | zero => exact ⟨le_rfl, fun i _ hi => absurd hi (Nat.not_lt_zero i), fun h => absurd h (lt_irrefl _)⟩
  | succ p ih =>
    rw [lineBegin]
    split_ifs with h
    · refine ⟨ih.1.trans (Nat.le_succ p), fun i h1 h2 => ?_, ih.2.2⟩
      rcases (Nat.lt_succ_iff.mp h2).lt_or_eq with hlt | rfl
      · exact ih.2.1 i h1 hlt
      · exact h
    · exact ⟨le_rfl, fun i h1 h2 => by omega, fun _ => not_not.mp h⟩

/-- It ends at the first newline from `p` on, or at the end of the text. -/
lemma lineEnd_spec (len p : ℕ) :
    p ≤ lineEnd buf len p ∧ (∀ i, p ≤ i → i < lineEnd buf len p → buf i ≠ 10) ∧
      (p ≤ len → lineEnd buf len p ≤ len) ∧ (lineEnd buf len p < len → buf (lineEnd buf len p) = 10) := by
  induction h : len - p generalizing p with
  | zero =>
    rw [lineEnd, if_neg (by omega)]
    exact ⟨le_rfl, fun i h1 h2 => by omega, fun h => h, fun h => by omega⟩
  | succ n ih =>
    rw [lineEnd]
    split_ifs with hp
    · obtain ⟨h1, h2, h3, h4⟩ := ih (p + 1) (by omega)
      refine ⟨by omega, fun i hi hi' => ?_, fun _ => h3 (by omega), h4⟩
      rcases hi.eq_or_lt with rfl | hlt
      · exact hp.2
      · exact h2 i hlt hi'
    · refine ⟨le_rfl, fun i h1 h2 => by omega, fun h => h, fun h => ?_⟩
      by_contra hne
      exact hp ⟨h, hne⟩

/-- The bytes before `p` in its line. -/
lemma rtakeWhile_bytes (p : ℕ) :
    (bytes buf 0 p).rtakeWhile inLine = bytes buf (lineBegin buf p) (p - lineBegin buf p) ∧
      (bytes buf 0 p).rdropWhile inLine = bytes buf 0 (lineBegin buf p) := by
  induction p with
  | zero => exact ⟨rfl, rfl⟩
  | succ p ih =>
    have hle := (lineBegin_spec buf p).1
    rw [bytes_succ, Nat.zero_add, lineBegin]
    by_cases h : buf p ≠ 10
    · have hin := (inLine_iff (buf p)).mpr h
      rw [if_pos h, List.rtakeWhile_concat_pos _ _ _ hin, List.rdropWhile_concat_pos _ _ _ hin, ih.1,
        ih.2, Nat.succ_sub hle, bytes_succ, Nat.add_sub_cancel' hle]
      exact ⟨rfl, rfl⟩
    · have hin : ¬ inLine (buf p) = true := fun hx => h ((inLine_iff _).mp hx)
      rw [if_neg h, List.rtakeWhile_concat_neg _ _ _ hin, List.rdropWhile_concat_neg _ _ _ hin,
        Nat.sub_self, bytes_succ, Nat.zero_add]
      exact ⟨rfl, rfl⟩

/-- The bytes from `p` on in its line. -/
lemma takeWhile_bytes (len p : ℕ) (hp : p ≤ len) :
    (bytes buf p (len - p)).takeWhile inLine = bytes buf p (lineEnd buf len p - p) ∧
      (bytes buf p (len - p)).dropWhile inLine =
        bytes buf (lineEnd buf len p) (len - lineEnd buf len p) := by
  induction h : len - p generalizing p with
  | zero =>
    rw [lineEnd, if_neg (by omega), Nat.sub_self, h]
    exact ⟨rfl, rfl⟩
  | succ n ih =>
    have hle := (lineEnd_spec buf len (p + 1)).1
    rw [bytes_cons, lineEnd]
    by_cases hnl : buf p ≠ 10
    · have hin := (inLine_iff (buf p)).mpr hnl
      obtain ⟨h1, h2⟩ := ih (p + 1) (by omega) (by omega)
      rw [if_pos ⟨by omega, hnl⟩, List.takeWhile_cons_of_pos hin, List.dropWhile_cons_of_pos hin, h1,
        h2, show lineEnd buf len (p + 1) - p = lineEnd buf len (p + 1) - (p + 1) + 1 by omega,
        bytes_cons]
      exact ⟨rfl, rfl⟩
    · have hin : ¬ inLine (buf p) = true := fun hx => hnl ((inLine_iff _).mp hx)
      rw [if_neg fun hx => hnl hx.2, List.takeWhile_cons_of_neg hin, List.dropWhile_cons_of_neg hin,
        Nat.sub_self, h, bytes_cons]
      exact ⟨rfl, rfl⟩

end Lines

/-! ### Columns -/

lemma width_pos (b : UInt8) (c : ℕ) : 0 < width b c := by
  unfold width tabW
  split_ifs <;> omega

lemma columns_concat (l : List UInt8) (b : UInt8) :
    columns (l ++ [b]) = columns l + width b (columns l) := by
  unfold columns
  rw [List.foldl_append]
  rfl

lemma columns_take_succ (l : List UInt8) {k : ℕ} (h : k < l.length) :
    columns (l.take (k + 1)) = columns (l.take k) + width l[k] (columns (l.take k)) := by
  rw [List.take_succ_eq_append_getElem h, columns_concat]

lemma columns_take_mono (l : List UInt8) {j k : ℕ} (h : j ≤ k) (hk : k ≤ l.length) :
    columns (l.take j) ≤ columns (l.take k) := by
  induction k, h using Nat.le_induction with
  | base => exact le_rfl
  | succ k _ ih =>
    rw [columns_take_succ l (by omega)]
    exact (ih (by omega)).trans (Nat.le_add_right _ _)

/-- An offset is the largest one when the next byte goes beyond the target. -/
lemma reach_eq {target k : ℕ} {l : List UInt8} (hk : k ≤ l.length)
    (hle : columns (l.take k) ≤ target)
    (hnext : k = l.length ∨ target < columns (l.take (k + 1))) : reach target l = k := by
  unfold reach
  rw [Nat.findGreatest_eq_iff]
  refine ⟨hk, fun _ => hle, fun j hj hjl h => ?_⟩
  rcases hnext with rfl | hnext
  · omega
  · have := columns_take_mono l (show k + 1 ≤ j from hj) hjl
    omega

lemma colOf_eq (buf : Mem) (p : ℕ) :
    colOf buf p = columns (bytes buf (lineBegin buf p) (p - lineBegin buf p)) := by
  unfold colOf columns bytes
  rw [List.foldl_map, List.range'_eq_map_range, List.foldl_map]

/-- The loop of `pos_for_col` over the line `l`, of which `k` bytes, in `c` columns, have been
stepped over: it stops at the end or at the first byte that does not start before the target. -/
lemma seekCol_spec (buf : Mem) (target start n k : ℕ) (hk : k ≤ n)
    (hpre : 0 < k → columns (bytes buf start (k - 1)) < target) :
    ∃ j ≤ n, seekCol buf target (start + n) (start + k) (columns (bytes buf start k)) =
        (start + j, columns (bytes buf start j)) ∧
      (j = n ∨ target ≤ columns (bytes buf start j)) ∧
      (0 < j → columns (bytes buf start (j - 1)) < target) := by
  induction h : n - k generalizing k with
  | zero =>
    obtain rfl : k = n := by omega
    rw [seekCol, if_neg (by omega)]
    exact ⟨k, le_rfl, rfl, Or.inl rfl, hpre⟩
  | succ r ih =>
    rw [seekCol]
    by_cases hlt : columns (bytes buf start k) < target
    · have hstep : columns (bytes buf start k) + width (buf (start + k)) (columns (bytes buf start k)) =
          columns (bytes buf start (k + 1)) := by
        rw [bytes_succ, columns_concat]
      rw [if_pos ⟨by omega, hlt⟩, hstep]
      exact ih (k + 1) (by omega) (fun _ => hlt) (by omega)
    · rw [if_neg fun hx => hlt hx.2]
      exact ⟨k, hk, rfl, Or.inr (not_lt.mp hlt), hpre⟩

/-- `pos_for_col` finds the largest offset whose column is not beyond the target. -/
lemma posForCol_eq (buf : Mem) (len start target : ℕ) (hstart : start ≤ len) :
    posForCol buf len start target =
      start + reach target ((bytes buf start (len - start)).takeWhile inLine) := by
  have hle := (lineEnd_spec buf len start).1
  rw [(takeWhile_bytes buf len start hstart).1]
  obtain ⟨n, hn⟩ := Nat.exists_eq_add_of_le hle
  obtain ⟨j, hj, hseek, hstop, hpre⟩ := seekCol_spec buf target start n 0 (Nat.zero_le n)
    fun h => absurd h (lt_irrefl 0)
  have htake : ∀ {k}, k ≤ n → (bytes buf start n).take k = bytes buf start k := fun hk =>
    bytes_take buf start hk
  have hseek' : seekCol buf target (start + n) start 0 = (start + j, columns (bytes buf start j)) :=
    hseek
  unfold posForCol
  rw [hn, hseek', Nat.add_sub_cancel_left]
  dsimp only
  by_cases hover : columns (bytes buf start j) > target
  · -- a tab was stepped over
    obtain ⟨i, rfl⟩ : ∃ i, j = i + 1 := by
      cases j with
      | zero => exact absurd hover (Nat.not_lt_zero _)
      | succ i => exact ⟨i, rfl⟩
    have hlt := hpre (Nat.succ_pos i)
    rw [if_pos ⟨hover, by omega⟩, reach_eq (k := i) (by rw [bytes_length]; omega)
      (by rw [htake (by omega)]; exact hlt.le) (Or.inr (by rw [htake hj]; exact hover))]
    omega
  · rw [if_neg fun hx => hover hx.1, reach_eq (k := j) (by rw [bytes_length]; exact hj)
      (by rw [htake hj]; omega)]
    rw [bytes_length]
    rcases hstop with h | h
    · exact Or.inl h
    · rcases hj.eq_or_lt with h' | hlt
      · exact Or.inl h'
      · right
        rw [htake (by omega), bytes_succ, columns_concat]
        have := width_pos (buf (start + j)) (columns (bytes buf start j))
        omega

/-! ### The text of the buffer -/

/-- The text and the cursor that the buffer holds. -/
def doc (s : State) : Doc := ⟨bytes s.buf 0 s.pos, bytes s.buf s.pos (s.len - s.pos)⟩

/-- The cursor is in the text, and the text is in the buffer. -/
def Fits (s : State) : Prop := s.pos ≤ s.len ∧ s.len < bufMax

variable {s : State}

lemma column_doc (s : State) : s.doc.column = colOf s.buf s.pos := by
  unfold Doc.column doc
  rw [(rtakeWhile_bytes s.buf s.pos).1, colOf_eq]

/-- Another cursor in the same text. -/
lemma doc_move (s : State) {p : ℕ} :
    ({ s with pos := p } : State).doc = ⟨bytes s.buf 0 p, bytes s.buf p (s.len - p)⟩ := rfl

/-- The two loops of `do_insert`: what comes after the cursor goes up, from its end on, and then the
gap is filled. -/
lemma doInsert_loops (s : State) (c : UInt8) (n : ℕ) :
    s.doInsert c n =
      if s.len + n ≥ bufMax then s
      else
        { s with
          buf := memset (Libc.copyDown s.buf (s.pos + n) s.pos (s.len - s.pos)) s.pos c n
          pos := s.pos + n
          len := s.len + n
          dirty := true } := by
  rw [Libc.copyDown_above (Nat.le_add_right _ _) _ fun _ _ => rfl]
  rfl

/-- The loop of `do_backspace`: what comes after the cursor goes down by one. -/
lemma doBackspace_loop (s : State) :
    s.doBackspace =
      if s.pos ≤ 0 then s
      else
        { s with
          buf := memcpy s.buf (s.pos - 1) s.pos (s.len - s.pos)
          pos := s.pos - 1
          len := s.len - 1
          dirty := true } := by
  rw [Libc.memcpy_below (Nat.sub_le _ _)]
  rfl

lemma insert_refines (h : s.Fits) (c : UInt8) (n : ℕ) :
    (s.doInsert c n).Fits ∧ (s.doInsert c n).doc = s.doc.insert c n := by
  obtain ⟨hpos, hlen⟩ := h
  have hroom : s.doc.before.length + s.doc.after.length + n = s.len + n := by
    unfold doc
    rw [bytes_length, bytes_length]
    omega
  unfold doInsert Doc.insert
  rw [hroom]
  split_ifs with hfull
  · exact ⟨⟨hpos, hlen⟩, rfl⟩
  · refine ⟨⟨?_, ?_⟩, ?_⟩
    · dsimp only
      omega
    · dsimp only
      omega
    · unfold doc
      dsimp only
      rw [bytes_add, Nat.zero_add, show s.len + n - (s.pos + n) = s.len - s.pos by omega]
      congr 1
      · congr 1
        · refine bytes_congr fun i hi => ?_
          rw [Mem.blit_of_out _ _ (by omega), Mem.blit_of_out _ _ (by omega)]
        · refine List.eq_replicate_iff.mpr ⟨bytes_length _ _ _, fun b hb => ?_⟩
          obtain ⟨i, hi, rfl⟩ := mem_bytes.mp hb
          rw [Mem.blit_of_in _ _ (by omega) (by omega)]
      · refine bytes_congr fun i hi => ?_
        rw [Mem.blit_of_out _ _ (by omega), Mem.blit_of_in _ _ (by omega) (by omega)]
        congr 1
        omega

lemma backspace_refines (h : s.Fits) :
    s.doBackspace.Fits ∧ s.doBackspace.doc = s.doc.backspace := by
  obtain ⟨hpos, hlen⟩ := h
  unfold doBackspace
  split_ifs with h0
  · have hz : s.pos = 0 := by omega
    refine ⟨⟨hpos, hlen⟩, ?_⟩
    unfold doc Doc.backspace
    rw [hz]
    rfl
  · refine ⟨⟨?_, ?_⟩, ?_⟩
    · dsimp only
      omega
    · dsimp only
      omega
    · unfold doc Doc.backspace
      dsimp only
      rw [bytes_dropLast, show s.len - 1 - (s.pos - 1) = s.len - s.pos by omega]
      congr 1
      · exact bytes_congr fun i hi => Mem.blit_of_out _ _ (by omega)
      · refine bytes_congr fun i hi => ?_
        rw [Mem.blit_of_in _ _ (by omega) (by omega)]
        congr 1
        omega

lemma left_refines (h : s.Fits) :
    (if s.pos > 0 then { s with pos := s.pos - 1 } else s : State).Fits ∧
      (if s.pos > 0 then { s with pos := s.pos - 1 } else s : State).doc = s.doc.left := by
  obtain ⟨hpos, hlen⟩ := h
  unfold Doc.left doc
  split_ifs with h0
  · obtain ⟨p, hp⟩ : ∃ p, s.pos = p + 1 := ⟨s.pos - 1, by omega⟩
    refine ⟨⟨?_, hlen⟩, ?_⟩
    · dsimp only
      omega
    · dsimp only
      rw [hp, Nat.add_sub_cancel, bytes_succ, List.dropLast_concat, List.getLast?_concat,
        show s.len - p = s.len - (p + 1) + 1 by omega, bytes_cons, Nat.zero_add]
      rfl
  · have hz : s.pos = 0 := by omega
    rw [hz]
    exact ⟨⟨hpos, hlen⟩, rfl⟩

lemma right_refines (h : s.Fits) :
    (if s.pos < s.len then { s with pos := s.pos + 1 } else s : State).Fits ∧
      (if s.pos < s.len then { s with pos := s.pos + 1 } else s : State).doc = s.doc.right := by
  obtain ⟨hpos, hlen⟩ := h
  unfold Doc.right doc
  split_ifs with h0
  · refine ⟨⟨h0, hlen⟩, ?_⟩
    dsimp only
    have hafter : bytes s.buf s.pos (s.len - s.pos) =
        s.buf s.pos :: bytes s.buf (s.pos + 1) (s.len - (s.pos + 1)) := by
      rw [show s.len - s.pos = s.len - (s.pos + 1) + 1 by omega, bytes_cons]
    rw [hafter, bytes_succ, Nat.zero_add]
    rfl
  · have hz : s.len - s.pos = 0 := by omega
    rw [hz, bytes_zero]
    refine ⟨⟨hpos, hlen⟩, ?_⟩
    simp

/-- The end of a line is the newline that stops the search. -/
lemma lineEnd_eq (buf : Mem) (len : ℕ) {p e : ℕ} (hp : p ≤ e) (hne : ∀ i, p ≤ i → i < e → buf i ≠ 10)
    (he : e < len) (hnl : buf e = 10) : lineEnd buf len p = e := by
  obtain ⟨h1, h2, h3, h4⟩ := lineEnd_spec buf len p
  rcases lt_trichotomy (lineEnd buf len p) e with hlt | heq | hgt
  · exact absurd (h4 (by omega)) (hne _ h1 hlt)
  · exact heq
  · exact absurd hnl (h2 e hp hgt)

lemma up_refines (h : s.Fits) :
    (s.editKey keyUp).Fits ∧ (s.editKey keyUp).doc = s.doc.up := by
  obtain ⟨hpos, hlen⟩ := h
  obtain ⟨hlb, hline, hnl⟩ := lineBegin_spec s.buf s.pos
  have hkey : s.editKey keyUp =
      if lineBegin s.buf s.pos > 0 then
        { s with
          pos := posForCol s.buf s.len (lineBegin s.buf (lineBegin s.buf s.pos - 1)) (colOf s.buf s.pos) }
      else s := rfl
  obtain ⟨hcur, habove⟩ : s.doc.before.rtakeWhile inLine =
        bytes s.buf (lineBegin s.buf s.pos) (s.pos - lineBegin s.buf s.pos) ∧
      s.doc.before.rdropWhile inLine = bytes s.buf 0 (lineBegin s.buf s.pos) :=
    rtakeWhile_bytes s.buf s.pos
  have hcol := column_doc s
  rw [hkey]
  generalize lineBegin s.buf s.pos = lb at *
  rcases Nat.eq_zero_or_pos lb with rfl | h0
  · rw [if_neg (lt_irrefl 0), Doc.up_first habove]
    exact ⟨⟨hpos, hlen⟩, rfl⟩
  · obtain ⟨q, rfl⟩ : ∃ q, lb = q + 1 := ⟨lb - 1, by omega⟩
    obtain ⟨hb, hprev, -⟩ := lineBegin_spec s.buf q
    have hten : s.buf q = 10 := hnl (Nat.succ_pos q)
    have hq : (bytes s.buf 0 (q + 1)).dropLast = bytes s.buf 0 q := bytes_dropLast _ _ _
    obtain ⟨hl, hu⟩ := rtakeWhile_bytes s.buf q
    rw [← hq] at hl hu
    have hdoc := Doc.up_line habove (by rw [bytes_succ]; simp) hl
    rw [hu, hcol, hcur] at hdoc
    rw [if_pos h0, Nat.add_sub_cancel, hdoc]
    generalize lineBegin s.buf q = b at *
    have hend : lineEnd s.buf s.len b = q := lineEnd_eq s.buf s.len hb hprev (by omega) hten
    have hto := posForCol_eq s.buf s.len b (colOf s.buf s.pos) (by omega)
    rw [(takeWhile_bytes s.buf s.len b (by omega)).1, hend] at hto
    have hk := reach_le (colOf s.buf s.pos) (bytes s.buf b (q - b))
    rw [bytes_length] at hk
    rw [hto]
    generalize reach (colOf s.buf s.pos) (bytes s.buf b (q - b)) = k at *
    refine ⟨⟨show b + k ≤ s.len by omega, hlen⟩, ?_⟩
    have hafter : s.doc.after = bytes s.buf s.pos (s.len - s.pos) := rfl
    have hsplit : s.len - (b + k) =
        q - b - k + 1 + (s.pos - (q + 1) + (s.len - s.pos)) := by omega
    rw [doc_move, bytes_take _ _ hk, bytes_drop _ _ hk, bytes_add, Nat.zero_add, hsplit, bytes_add,
      bytes_succ, bytes_add, show b + k + (q - b - k) = q by omega,
      show b + k + (q - b - k + 1) = q + 1 by omega, show q + 1 + (s.pos - (q + 1)) = s.pos by omega,
      hten, hafter, List.append_assoc]
    rfl

lemma down_refines (h : s.Fits) :
    (s.editKey keyDown).Fits ∧ (s.editKey keyDown).doc = s.doc.down := by
  obtain ⟨hpos, hlen⟩ := h
  obtain ⟨hp, -, hle, hnl⟩ := lineEnd_spec s.buf s.len s.pos
  have hkey : s.editKey keyDown =
      if lineEnd s.buf s.len s.pos < s.len then
        { s with pos := posForCol s.buf s.len (lineEnd s.buf s.len s.pos + 1) (colOf s.buf s.pos) }
      else s := rfl
  obtain ⟨hcur, hbelow⟩ : s.doc.after.takeWhile inLine =
        bytes s.buf s.pos (lineEnd s.buf s.len s.pos - s.pos) ∧
      s.doc.after.dropWhile inLine =
        bytes s.buf (lineEnd s.buf s.len s.pos) (s.len - lineEnd s.buf s.len s.pos) :=
    takeWhile_bytes s.buf s.len s.pos hpos
  have hcol := column_doc s
  have hle := hle hpos
  rw [hkey]
  generalize lineEnd s.buf s.len s.pos = e at *
  rcases hle.lt_or_eq with hlt | rfl
  · have hten : s.buf e = 10 := hnl hlt
    have hcons : bytes s.buf e (s.len - e) = 10 :: bytes s.buf (e + 1) (s.len - (e + 1)) := by
      rw [show s.len - e = s.len - (e + 1) + 1 by omega, bytes_cons, hten]
    have htail : (bytes s.buf e (s.len - e)).tail = bytes s.buf (e + 1) (s.len - (e + 1)) := by
      rw [hcons, List.tail_cons]
    obtain ⟨hl, hu⟩ := takeWhile_bytes s.buf s.len (e + 1) hlt
    obtain ⟨hend, -, hend', -⟩ := lineEnd_spec s.buf s.len (e + 1)
    have hend' := hend' hlt
    have hto := posForCol_eq s.buf s.len (e + 1) (colOf s.buf s.pos) hlt
    rw [hl] at hto
    rw [← htail] at hl hu
    have hdoc := Doc.down_line hbelow (by rw [hcons]; simp) hl
    rw [hu, hcol, hcur] at hdoc
    rw [if_pos hlt, hdoc, hto]
    generalize lineEnd s.buf s.len (e + 1) = f at *
    have hk := reach_le (colOf s.buf s.pos) (bytes s.buf (e + 1) (f - (e + 1)))
    rw [bytes_length] at hk
    generalize reach (colOf s.buf s.pos) (bytes s.buf (e + 1) (f - (e + 1))) = k at *
    refine ⟨⟨show e + 1 + k ≤ s.len by omega, hlen⟩, ?_⟩
    have hbefore : s.doc.before = bytes s.buf 0 s.pos := rfl
    have hcur' : bytes s.buf 0 e = bytes s.buf 0 s.pos ++ bytes s.buf s.pos (e - s.pos) := by
      conv_lhs => rw [← Nat.add_sub_cancel' hp, bytes_add, Nat.zero_add]
    have hto' : bytes s.buf 0 (e + 1 + k) =
        bytes s.buf 0 s.pos ++ bytes s.buf s.pos (e - s.pos) ++ newline :: bytes s.buf (e + 1) k := by
      rw [bytes_add, bytes_succ, Nat.zero_add, Nat.zero_add, hten, hcur', List.append_assoc]
      rfl
    have hrest : bytes s.buf (e + 1 + k) (s.len - (e + 1 + k)) =
        bytes s.buf (e + 1 + k) (f - (e + 1) - k) ++ bytes s.buf f (s.len - f) := by
      rw [show s.len - (e + 1 + k) = f - (e + 1) - k + (s.len - f) by omega, bytes_add,
        show e + 1 + k + (f - (e + 1) - k) = f by omega]
    rw [doc_move, bytes_take _ _ hk, bytes_drop _ _ hk, hbefore, hto', hrest]
  · rw [if_neg (lt_irrefl _), Doc.down_last (by rw [hbelow, Nat.sub_self]; rfl)]
    exact ⟨⟨hpos, hlen⟩, rfl⟩

/-- **Every key does to the buffer what it does to the text.** -/
lemma key_refines (h : s.Fits) (k : ℤ) : (s.editKey k).Fits ∧ (s.editKey k).doc = s.doc.key k := by
  have hcol := column_doc s
  unfold Doc.key
  by_cases h1 : k = keyEsc
  · rw [if_pos h1, h1]
    exact ⟨h, rfl⟩
  by_cases h2 : k = keyLeft
  · rw [if_neg h1, if_pos h2, h2]
    exact left_refines h
  by_cases h3 : k = keyRight
  · rw [if_neg h1, if_neg h2, if_pos h3, h3]
    exact right_refines h
  by_cases h4 : k = keyUp
  · rw [if_neg h1, if_neg h2, if_neg h3, if_pos h4, h4]
    exact up_refines h
  by_cases h5 : k = keyDown
  · rw [if_neg h1, if_neg h2, if_neg h3, if_neg h4, if_pos h5, h5]
    exact down_refines h
  unfold editKey
  simp only [if_neg h1, if_neg h2, if_neg h3, if_neg h4, if_neg h5, hcol]
  split_ifs
  · exact backspace_refines h
  · exact insert_refines h _ _
  · exact insert_refines h _ _
  · exact insert_refines h _ _
  · exact ⟨h, rfl⟩

/-- **The buffer is the text.** Through every sequence of keys the cursor stays in the text, the text
in the buffer, and the two hold what the same keys make of the text with its cursor. -/
theorem edit_refines (h : s.Fits) (ks : List ℤ) :
    (run editKey s ks).Fits ∧ (run editKey s ks).doc = run Doc.key s.doc ks := by
  induction ks generalizing s with
  | nil => exact ⟨h, rfl⟩
  | cons k ks ih =>
    obtain ⟨h1, h2⟩ := key_refines h k
    rw [run_cons, run_cons, ← h2]
    exact ih h1

/-- An `a` and a tab are typed, then enter, and the cursor goes up again. -/
theorem edit_refines_typed :
    (run editKey (loaded Fs.blank.disk) [97, 9, 10, keyUp]).Fits ∧
      (run editKey (loaded Fs.blank.disk) [97, 9, 10, keyUp]).doc =
        run Doc.key (loaded Fs.blank.disk).doc [97, 9, 10, keyUp] :=
  edit_refines ⟨le_rfl, by decide⟩ _

end State

end LunariaOS.Edit
