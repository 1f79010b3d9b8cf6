import LunariaOS.Edit.Load
import LunariaOS.Edit.Text
import LunariaOS.Mirror.Caret

/-!
The cursor is on the screen, and under the caret.

`top` is the start of a line in every state that the keys lead to, unless an edit has just removed the
newline before it; then it is below the cursor's line, and `scroll_fix` moves it up. Where `draw` puts
the caret is computed from the buffer, and so is where it puts the byte; both count the same columns
and the same newlines.
-/

namespace LunariaOS.Edit

open LunariaOS.Lib LunariaOS.Fs

namespace View

open State (lineBegin lineEnd colOf width lineBegin_spec lineEnd_spec)

/-- A line starts at `p`. -/
def LineStart (buf : Mem) (p : ℕ) : Prop := p = 0 ∨ buf (p - 1) = 10

instance (buf : Mem) (p : ℕ) : Decidable (LineStart buf p) := by unfold LineStart; infer_instance

/-- The newlines in `[a, b)`. -/
def newlines (buf : Mem) (a b : ℕ) : ℕ := (List.range' a (b - a)).countP fun i => buf i = 10

/-- The view before `scroll_fix`. -/
structure Ready (v : View) : Prop where
  fits : v.s.Fits
  line : LineStart v.s.buf v.top ∨ lineBegin v.s.buf v.s.pos < v.top

/-- The view after it: the cursor is on the screen. -/
structure Placed (v : View) : Prop where
  fits : v.s.Fits
  line : LineStart v.s.buf v.top
  above : v.top ≤ lineBegin v.s.buf v.s.pos
  rows : newlines v.s.buf v.top v.s.pos ≤ textRows - 1
  cols : 0 ≤ (colOf v.s.buf v.s.pos : ℤ) - v.offx ∧ (colOf v.s.buf v.s.pos : ℤ) - v.offx < Mirror.cols

variable {buf : Mem} {len lb : ℕ}

/-! ### Newlines -/

lemma newlines_split {a b c : ℕ} (hab : a ≤ b) (hbc : b ≤ c) :
    newlines buf a c = newlines buf a b + newlines buf b c := by
  unfold newlines
  rw [← List.countP_append, show c - a = (b - a) + (c - b) by omega, ← List.range'_append_1,
    Nat.add_sub_cancel' hab]

lemma newlines_none {a b : ℕ} (h : ∀ i, a ≤ i → i < b → buf i ≠ 10) : newlines buf a b = 0 := by
  unfold newlines
  rw [List.countP_eq_zero]
  intro i hi
  have := List.mem_range'_1.mp hi
  simpa using h i (by omega) (by omega)

lemma newlines_eq_zero {a b : ℕ} : newlines buf a b = 0 ↔ ∀ i, a ≤ i → i < b → buf i ≠ 10 := by
  refine ⟨fun h i h1 h2 => ?_, newlines_none⟩
  unfold newlines at h
  have := List.countP_eq_zero.mp h i (List.mem_range'_1.mpr (by omega))
  simpa using this

lemma newlines_end {e c : ℕ} (hnl : buf e = 10) (hec : e < c) :
    newlines buf e c = newlines buf (e + 1) c + 1 := by
  unfold newlines
  rw [show c - e = c - (e + 1) + 1 by omega, List.range'_succ, List.countP_cons]
  simp [hnl]

/-! ### Scrolling -/

lemma lineBegin_line (buf : Mem) (p : ℕ) : LineStart buf (lineBegin buf p) := by
  rcases Nat.eq_zero_or_pos (lineBegin buf p) with h | h
  · exact Or.inl h
  · exact Or.inr ((lineBegin_spec buf p).2.2 h)

/-- The first loop ends, at the start of a line that is not below the cursor's. -/
lemma scrollUp_spec (top n : ℕ) (hn : top < n) (hline : LineStart buf top ∨ lb < top) :
    ∃ t ≤ lb, LineStart buf t ∧ scrollUp buf lb n top = some t := by
  induction n generalizing top with
  | zero => exact absurd hn (Nat.not_lt_zero _)
  | succ n ih =>
    rw [scrollUp]
    by_cases hlt : lb < top
    · have hle := (lineBegin_spec buf (top - 1)).1
      rw [if_pos hlt, if_pos (by omega)]
      exact ih _ (by omega) (Or.inl (lineBegin_line buf _))
    · rw [if_neg hlt]
      exact ⟨top, not_lt.mp hlt, hline.resolve_right hlt, rfl⟩

lemma lastShown_ge {n last : ℕ} (h : last ≤ len + 1) : last ≤ lastShown buf len n last := by
  induction n generalizing last with
  | zero => exact le_rfl
  | succ n ih =>
    have hle := (lineEnd_spec buf len last).1
    rw [lastShown]
    split_ifs with he
    · exact h
    · exact (by omega : last ≤ lineEnd buf len last + 1).trans (ih (by omega))

/-- Lines that are shown are that many rows below the first one at most. -/
lemma newlines_shown {n last : ℕ} (hlb : lb ≤ len) (hlast : last ≤ lb)
    (h : lb ≤ lastShown buf len n last) : newlines buf last lb ≤ n := by
  induction n generalizing last with
  | zero =>
    obtain rfl : last = lb := le_antisymm hlast h
    rw [newlines_none fun i h1 h2 => by omega]
  | succ n ih =>
    obtain ⟨hle, hnone, -, hnl⟩ := lineEnd_spec buf len last
    rw [lastShown] at h
    by_cases hin : lb ≤ lineEnd buf len last
    · rw [newlines_none fun i h1 h2 => hnone i h1 (by omega)]
      exact Nat.zero_le _
    · rw [if_neg (by omega)] at h
      rw [newlines_split hle (by omega : lineEnd buf len last ≤ lb),
        newlines_none fun i h1 h2 => hnone i h1 h2, newlines_end (hnl (by omega)) (by omega)]
      have := ih (by omega) h
      omega

/-- The second loop ends, at the start of a line from which the cursor's is shown. -/
lemma scrollDown_spec (top n : ℕ) (hn : lb < top + n) (hlb : lb ≤ len) (htop : top ≤ lb)
    (hline : LineStart buf top) :
    ∃ t ≤ lb, LineStart buf t ∧ lb ≤ lastShown buf len (textRows - 1) t ∧
      scrollDown buf len lb n top = some t := by
  induction n generalizing top with
  | zero => omega
  | succ n ih =>
    rw [scrollDown]
    by_cases hin : lb ≤ lastShown buf len (textRows - 1) top
    · rw [if_pos hin]
      exact ⟨top, htop, hline, hin, rfl⟩
    · have hstep : lineEnd buf len top < len ∧ lineEnd buf len top + 1 ≤ lb := by
        rw [show textRows - 1 = 21 + 1 from rfl, lastShown] at hin
        split_ifs at hin with he
        · omega
        · have := @lastShown_ge buf len 21 (lineEnd buf len top + 1) (by omega)
          omega
      obtain ⟨hle, -, -, hnl⟩ := lineEnd_spec buf len top
      rw [if_neg hin]
      exact ih _ (by omega) hstep.2 (Or.inr (hnl hstep.1))

lemma fixCol_spec (c : ℕ) (offx : ℤ) : 0 ≤ (c : ℤ) - fixCol c offx ∧ (c : ℤ) - fixCol c offx < Mirror.cols := by
  unfold fixCol Mirror.cols
  dsimp only
  split_ifs <;> omega

lemma scrollUp_steady (buf : Mem) (lb top : ℕ) : Steady fun n => scrollUp buf lb n top := by
  intro n
  induction n generalizing top with
  | zero => exact Below.none _
  | succ n ih => exact Below.ite (ih _) (Below.refl _)

lemma scrollDown_steady (buf : Mem) (len lb top : ℕ) :
    Steady fun n => scrollDown buf len lb n top := by
  intro n
  induction n generalizing top with
  | zero => exact Below.none _
  | succ n ih => exact Below.ite (Below.refl _) (ih _)

lemma scrollFix_steady (v : View) : Steady fun n => v.scrollFix n := fun n =>
  Below.bind (scrollUp_steady _ _ _ n) fun _ =>
    Below.bind (scrollDown_steady _ _ _ _ n) fun _ => Below.refl _

/-- **`scroll_fix` ends**, with the cursor on the screen. -/
theorem scrollFix_returns {v : View} (h : Ready v) :
    ∃ v', Returns (fun n => v.scrollFix n) v' ∧ v'.s = v.s ∧ Placed v' := by
  obtain ⟨hlb, hnone, -⟩ := lineBegin_spec v.s.buf v.s.pos
  have hlen : lineBegin v.s.buf v.s.pos ≤ v.s.len := hlb.trans h.fits.1
  obtain ⟨t, ht, hline, hup⟩ :=
    scrollUp_spec v.top (v.top + v.s.len + 1) (by omega) h.line
  obtain ⟨u, hu, huline, hshown, hdown⟩ :=
    scrollDown_spec t (v.top + v.s.len + 1) (by omega) hlen ht hline
  have hfix : v.scrollFix (v.top + v.s.len + 1) =
      some { v with top := u, offx := fixCol (colOf v.s.buf v.s.pos) v.offx } := by
    simp only [scrollFix, hup, hdown, Option.bind_eq_bind, Option.bind_some]
  have hrows : newlines v.s.buf u v.s.pos ≤ textRows - 1 := by
    rw [newlines_split hu hlb, newlines_none hnone, Nat.add_zero]
    exact newlines_shown hlen hu hshown
  exact ⟨_, (scrollFix_steady v).returns hfix, rfl, h.fits, huline, hu, hrows, fixCol_spec _ _⟩

/-! ### Drawing -/

section Draw

open Mirror (place putc_place loop_other)

variable {x y row : ℤ} {m : Mirror.State}

lemma put_place (hx : 0 ≤ x ∧ x < 80) (hy : 0 ≤ y ∧ y < 25) (m : Mirror.State) (row sx : ℤ)
    (c : UInt8) :
    (put m row sx c).back (place x y) =
      if sx = x ∧ row = y then ⟨c, attrText⟩ else m.back (place x y) := by
  unfold put Mirror.cols
  split_ifs with h h' h'
  · rw [putc_place hx hy, if_pos h']
  · rw [putc_place hx hy, if_neg h']
  · omega
  · rfl

/-- A fill of one row leaves the others alone. -/
lemma fill_other (hx : 0 ≤ x ∧ x < 80) (hy : 0 ≤ y ∧ y < 25) (hrow : 0 ≤ row ∧ row ≤ 24)
    (hne : row ≠ y) (m : Mirror.State) (ch attr : UInt8) :
    (m.mirrorFill 0 row Mirror.cols 1 ch attr).back (place x y) = m.back (place x y) := by
  have hy1 : i32 (row + 1) = row + 1 := by
    unfold i32
    omega
  unfold Mirror.State.mirrorFill Mirror.rows Mirror.cols
  rw [if_neg (by omega), hy1]
  dsimp only
  refine loop_other (fun m i h1 h2 => ?_) m
  refine loop_other (fun m j _ _ => ?_) m
  rw [putc_place hx hy, if_neg (by split_ifs at h1 h2 <;> omega)]

/-- A byte is drawn into its row and its columns. -/
lemma drawByte_other (hx : 0 ≤ x ∧ x < 80) (hy : 0 ≤ y ∧ y < 25) (m : Mirror.State) {offx : ℤ}
    {col w : ℕ} (c : UInt8) (h : row ≠ y ∨ x < col - offx) :
    (drawByte offx row col w c m).back (place x y) = m.back (place x y) := by
  unfold drawByte
  split_ifs
  · refine foldl_keep (g := fun m : Mirror.State => m.back (place x y)) (fun m j hj => ?_) m
    exact (put_place hx hy m _ _ _).trans (if_neg (by omega))
  · rw [put_place hx hy, if_neg (by omega)]

/-- The byte on the screen for `c`, a blank for a tab. -/
def shown (c : UInt8) : UInt8 := if c = 9 then 32 else glyph c

/-- It stands in the first of its columns. -/
lemma drawByte_at (hx : 0 ≤ x ∧ x < 80) (hy : 0 ≤ y ∧ y < 25) (m : Mirror.State) {offx : ℤ}
    {col w : ℕ} (c : UInt8) (h : x = col - offx) (hw : 0 < w) :
    (drawByte offx y col w c m).back (place x y) = ⟨shown c, attrText⟩ := by
  unfold drawByte shown
  split_ifs
  · obtain ⟨w, rfl⟩ : ∃ n, w = n + 1 := ⟨w - 1, by omega⟩
    rw [List.range_succ_eq_map, List.foldl_cons, List.foldl_map]
    -- the other blanks of a tab come behind the first one
    rw [foldl_keep (g := fun m : Mirror.State => m.back (place x y)) (fun m j hj => ?_)]
    · rw [put_place hx hy, if_pos ⟨by omega, rfl⟩]
    · exact (put_place hx hy m _ _ _).trans (if_neg (by push_cast; omega))
  · rw [put_place hx hy, if_pos ⟨h.symm, rfl⟩]

lemma drawBytes_lt (buf : Mem) (offx row : ℤ) {e i : ℕ} (col : ℕ) (m : Mirror.State) (h : i < e) :
    drawBytes buf offx row e i col m =
      if ((col + width (buf i) col : ℕ) : ℤ) - offx ≥ Mirror.cols then
        drawByte offx row col (width (buf i) col) (buf i) m
      else
        drawBytes buf offx row e (i + 1) (col + width (buf i) col)
          (drawByte offx row col (width (buf i) col) (buf i) m) := by
  rw [drawBytes, if_pos h]

/-- The bytes of a line leave the other rows and the columns before them alone. -/
lemma drawBytes_other (hx : 0 ≤ x ∧ x < 80) (hy : 0 ≤ y ∧ y < 25) (buf : Mem) (offx : ℤ)
    (e i col : ℕ) (m : Mirror.State) (h : row ≠ y ∨ x < col - offx) :
    (drawBytes buf offx row e i col m).back (place x y) = m.back (place x y) := by
  induction hn : e - i generalizing i col m with
  | zero => rw [drawBytes, if_neg (by omega)]
  | succ n ih =>
    rw [drawBytes_lt buf offx row col m (by omega)]
    split_ifs with hend
    · exact drawByte_other hx hy m (buf i) h
    · rw [ih (i + 1) _ _ (h.imp_right fun h => by push_cast; omega) (by omega)]
      exact drawByte_other hx hy m (buf i) h

/-- The byte at `p` is drawn where the columns before it end. -/
lemma drawBytes_at (hx : 0 ≤ x ∧ x < 80) (hy : 0 ≤ y ∧ y < 25) (buf : Mem) (offx : ℤ) {s e i p : ℕ}
    (m : Mirror.State) (hsi : s ≤ i) (hip : i ≤ p) (hpe : p < e)
    (hcol : x = columns (bytes buf s (p - s)) - offx) :
    (drawBytes buf offx y e i (columns (bytes buf s (i - s))) m).back (place x y) =
      ⟨shown (buf p), attrText⟩ := by
  induction hn : p - i generalizing i m with
  | zero =>
    obtain rfl : i = p := by omega
    have hw := State.width_pos (buf i) (columns (bytes buf s (i - s)))
    rw [drawBytes_lt _ _ _ _ _ hpe]
    split_ifs with hend
    · exact drawByte_at hx hy m _ hcol hw
    · -- what follows is drawn behind it
      rw [drawBytes_other hx hy _ _ _ _ _ _ (Or.inr (by push_cast; omega))]
      exact drawByte_at hx hy m _ hcol hw
  | succ n ih =>
    have hstep : columns (bytes buf s (i - s)) + width (buf i) (columns (bytes buf s (i - s))) =
        columns (bytes buf s (i + 1 - s)) := by
      rw [show i + 1 - s = i - s + 1 by omega, bytes_succ, State.columns_concat,
        Nat.add_sub_cancel' hsi]
    have hle : columns (bytes buf s (i + 1 - s)) ≤ columns (bytes buf s (p - s)) := by
      have := State.columns_take_mono (bytes buf s (p - s)) (show i + 1 - s ≤ p - s by omega)
        (by rw [bytes_length])
      rwa [bytes_take _ _ (by omega), bytes_take _ _ le_rfl] at this
    rw [drawBytes_lt _ _ _ _ _ (by omega), hstep, if_neg (by unfold Mirror.cols; omega)]
    exact ih _ (by omega) (by omega) (by omega)

/-! ### The rows -/

variable {v : View}

lemma drawLine_other (hx : 0 ≤ x ∧ x < 80) (hy : 0 ≤ y ∧ y < 25) (hrow : 0 ≤ row ∧ row ≤ 24)
    (hne : row ≠ y) (m : Mirror.State) (s : ℕ) :
    (v.drawLine m row s).back (place x y) = m.back (place x y) := by
  unfold drawLine
  split_ifs
  · exact fill_other hx hy hrow hne m _ _
  · rw [drawBytes_other hx hy _ _ _ _ _ _ (Or.inl hne)]
    exact fill_other hx hy hrow hne m _ _

/-- The rows below leave a row alone. -/
lemma drawRows_other (hx : 0 ≤ x ∧ x < 80) (hy : 0 ≤ y ∧ y < 25) (n : ℕ) {row : ℤ} (hrow : 0 ≤ row)
    (hn : row + n ≤ 25) (hlt : y < row) (s : ℕ) (m : Mirror.State) :
    (drawRows v n row s m).back (place x y) = m.back (place x y) := by
  induction n generalizing row s m with
  | zero => rfl
  | succ n ih =>
    rw [drawRows, ih (by omega) (by omega) (by omega)]
    exact drawLine_other hx hy (by omega) (by omega) m s

/-- **The byte at the cursor** is drawn into the row that is as far below the first one as there are
newlines between, and the column that is as far to the right. -/
lemma drawRows_at (hx : 0 ≤ x ∧ x < 80) (n : ℕ) {row : ℤ} (hrow : 0 ≤ row) (hn : row + n ≤ 25) {s : ℕ}
    (hline : LineStart v.s.buf s) (hs : s ≤ lineBegin v.s.buf v.s.pos) (hpos : v.s.pos < v.s.len)
    (hin : v.s.buf v.s.pos ≠ 10) (hshown : newlines v.s.buf s v.s.pos < n)
    (hcol : x = colOf v.s.buf v.s.pos - v.offx) (m : Mirror.State) :
    (drawRows v n row s m).back (place x (row + newlines v.s.buf s v.s.pos)) =
      ⟨shown (v.s.buf v.s.pos), attrText⟩ := by
  induction n generalizing row s m with
  | zero => omega
  | succ n ih =>
    obtain ⟨hb, hnone, -⟩ := lineBegin_spec v.s.buf v.s.pos
    obtain ⟨hle, hrest, -, hnl⟩ := lineEnd_spec v.s.buf v.s.len s
    rw [drawRows]
    by_cases hz : newlines v.s.buf s v.s.pos = 0
    · -- the cursor is in this line
      have hno : ∀ i, s ≤ i → i < v.s.pos → v.s.buf i ≠ 10 := newlines_eq_zero.mp hz
      have hbegin : lineBegin v.s.buf v.s.pos = s := by
        refine le_antisymm (not_lt.mp fun hlt => ?_) hs
        exact hno _ (by omega) (by omega) ((lineBegin_spec v.s.buf v.s.pos).2.2 (by omega))
      have hend : v.s.pos < lineEnd v.s.buf v.s.len s := by
        by_contra hge
        rcases (not_lt.mp hge).lt_or_eq with hlt | heq
        · exact hno _ hle hlt (hnl (by omega))
        · exact hin (heq ▸ hnl (by omega))
      have hcol' : x = columns (bytes v.s.buf s (v.s.pos - s)) - v.offx := by
        rw [hcol, State.colOf_eq, hbegin]
      have hy : 0 ≤ row ∧ row < 25 := by omega
      rw [hz, Nat.cast_zero, add_zero, drawRows_other hx hy n (by omega) (by omega) (by omega),
        drawLine, if_neg (by omega)]
      have := @drawBytes_at x row hx hy v.s.buf v.offx s (lineEnd v.s.buf v.s.len s) s v.s.pos
        (m.mirrorFill 0 row Mirror.cols 1 32 attrText) le_rfl (by omega) hend hcol'
      rwa [Nat.sub_self] at this
    · -- it is further down
      have hlt : lineEnd v.s.buf v.s.len s < v.s.pos := by
        by_contra hge
        exact hz (newlines_none fun i h1 h2 => hrest i h1 (by omega))
      have hten := hnl (by omega)
      have hcount : newlines v.s.buf s v.s.pos =
          newlines v.s.buf (lineEnd v.s.buf v.s.len s + 1) v.s.pos + 1 := by
        rw [newlines_split hle hlt.le, newlines_none hrest, newlines_end hten hlt, Nat.zero_add]
      have hbelow : lineEnd v.s.buf v.s.len s + 1 ≤ lineBegin v.s.buf v.s.pos := by
        by_contra hgt
        exact hnone _ (by omega) hlt hten
      rw [if_pos (by omega), if_pos (by omega), hcount]
      have := @ih (row + 1) (by omega) (by omega) (lineEnd v.s.buf v.s.len s + 1) (Or.inr hten) hbelow
        (by omega) (v.drawLine m row s)
      rwa [show row + ((newlines v.s.buf (lineEnd v.s.buf v.s.len s + 1) v.s.pos + 1 : ℕ) : ℤ) =
        row + 1 + (newlines v.s.buf (lineEnd v.s.buf v.s.len s + 1) v.s.pos : ℕ) by push_cast; ring]

/-- Texts that begin in a row below leave a row alone. -/
lemma putLoop_other (hx : 0 ≤ x ∧ x < 80) (hy : 0 ≤ y ∧ y < 25) (l : List UInt8) (attr : UInt8)
    (startx maxw : ℤ) (m : Mirror.State) (cx cy : ℤ) (hcy : y < cy)
    (hlen : cy + l.length < 2147483648) :
    (m.putLoop cx cy startx maxw l attr).back (place x y) = m.back (place x y) := by
  induction l generalizing m cx cy with
  | nil => rfl
  | cons c l ih =>
    rw [List.length_cons] at hlen
    push_cast at hlen
    have hnext : i32 (cy + 1) = cy + 1 := by
      unfold i32
      omega
    rw [Mirror.State.putLoop]
    split_ifs
    · rfl
    · unfold Mirror.State.emit
      split_ifs
      · rw [ih _ _ _ (by omega) (by omega)]
      · rw [ih _ _ _ hcy (by omega), putc_place hx hy, if_neg (by omega)]

/-- A status bar leaves the rows above it alone. -/
lemma status_other (hx : 0 ≤ x ∧ x < 80) (hy : 0 ≤ y ∧ y < 25) (hrow : 0 ≤ row ∧ row ≤ 24)
    (hlt : y < row) (m : Mirror.State) {left right : CStr} (hl : left.length < 1000)
    (hr : right.length < 1000) (attr : UInt8) :
    (m.mirrorStatus row left right attr).back (place x y) = m.back (place x y) := by
  have hput : ∀ (m : Mirror.State) (cx maxw : ℤ) {t : CStr}, t.length < 1000 →
      (m.putSn cx row cx maxw (some t) attr).back (place x y) = m.back (place x y) := by
    intro m cx maxw t ht
    refine putLoop_other hx hy _ _ _ _ _ _ _ hlt ?_
    unfold CStr.length at ht
    omega
  unfold Mirror.State.mirrorStatus
  rw [if_neg (by unfold Mirror.rows; omega)]
  dsimp only
  split_ifs
  · rw [hput _ _ _ hl, fill_other hx hy hrow (by omega)]
  · rw [hput _ _ _ hr, hput _ _ _ hl, fill_other hx hy hrow (by omega)]
  · rw [hput _ _ _ hr, hput _ _ _ hl, fill_other hx hy hrow (by omega)]

lemma strOf_length (l : List UInt8) : (strOf l).length ≤ l.length := by
  unfold strOf CStr.length cstr
  exact (List.takeWhile_sublist _).length_le

/-- **The caret.** `draw` puts the caret on the cell that shows the byte at the cursor. -/
lemma draw_caret (h : Placed v) (hcmd : v.s.cmdMode = false) (hpos : v.s.pos < v.s.len)
    (hin : v.s.buf v.s.pos ≠ 10) {msg : CStr} (hmsg : msg.length < 72) (m : Mirror.State) :
    (v.draw msg m) = (v.frame msg m).mirrorCursor v.caret.1.toNat v.caret.2.toNat ∧
      (v.frame msg m).back (place v.caret.1 v.caret.2) = ⟨shown (v.s.buf v.s.pos), attrText⟩ := by
  have hcaret : v.caret =
      ((colOf v.s.buf v.s.pos : ℤ) - v.offx, 1 + ((newlines v.s.buf v.top v.s.pos : ℕ) : ℤ)) := rfl
  have hx : 0 ≤ (colOf v.s.buf v.s.pos : ℤ) - v.offx ∧ (colOf v.s.buf v.s.pos : ℤ) - v.offx < 80 :=
    h.cols
  have hrows : newlines v.s.buf v.top v.s.pos ≤ 22 := h.rows
  have hy : 0 ≤ 1 + (newlines v.s.buf v.top v.s.pos : ℤ) ∧
      1 + (newlines v.s.buf v.top v.s.pos : ℤ) < 25 := by omega
  refine ⟨by unfold draw; rw [hcmd]; rfl, ?_⟩
  have hfirst : ((textTop : ℕ) : ℤ) = 1 := rfl
  have hcount : textRows = 23 := rfl
  have hdrawn := @drawRows_at _ v hx 23 1 (by norm_num) (by norm_num) v.top h.line h.above hpos hin
    (by omega) rfl
  rw [hcaret]
  unfold frame
  dsimp only
  rw [hcmd, if_neg (by decide), status_other hx hy (by omega) (by omega), hfirst, hcount]
  · exact hdrawn _
  · split_ifs
    · exact hmsg.trans (by norm_num)
    · exact (strOf_length _).trans_lt (by decide +kernel)
  · refine (strOf_length _).trans_lt ?_
    have h1 := Paint.State.itoa_length (lineOf v.s.buf v.s.pos)
    have h2 := Paint.State.itoa_length (colOf v.s.buf v.s.pos + 1)
    have h3 : (Wm.State.text "L").length = 1 := by decide +kernel
    have h4 : (Wm.State.text " C").length = 2 := by decide +kernel
    simp only [List.length_append, h3, h4]
    omega

end Draw

end View

end LunariaOS.Edit
