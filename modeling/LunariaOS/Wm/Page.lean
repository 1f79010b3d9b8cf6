import Mathlib.Data.List.DropRight
import Mathlib.Data.List.GetD
import LunariaOS.Wm.Cells

/-!
What a text looks like on a terminal.

A page of 80 columns has as many rows as the text needs. A terminal that is printed to from a clear
screen shows the last 25 of them: `Shows` says so, and every character that is printed keeps it.
-/

namespace LunariaOS.Wm

open LunariaOS.Lib

/-! ### The page -/

/-- A page of 80 columns: the rows that are left, and the row that is being written. -/
structure Page where
  above : List (List Cell)
  row : List Cell
  short : row.length < 80

namespace Page

def blank : Page := ⟨[], [], by decide⟩

/-- Leave the row. -/
def feed (p : Page) (row : List Cell) : Page := ⟨p.above ++ [row], [], by decide⟩

/-- Write a character: a newline starts a row, and a row is left when its last column is filled. -/
def put (p : Page) (c : Cell) : Page :=
  if c.ch = 10 then p.feed p.row
  else if h : p.row.length + 1 < 80 then ⟨p.above, p.row ++ [c], by simpa using h⟩
  else p.feed (p.row ++ [c])

def rows (p : Page) : List (List Cell) := p.above ++ [p.row]

/-- The last 25 rows. -/
def shown (p : Page) : List (List Cell) := p.rows.rtake 25

variable {p : Page}

lemma rows_length (p : Page) : p.rows.length = p.above.length + 1 := by
  unfold rows
  rw [List.length_append, List.length_singleton]

lemma shown_length (p : Page) : p.shown.length = min p.above.length 24 + 1 := by
  unfold shown List.rtake
  rw [List.length_drop, rows_length]
  omega

lemma shown_getD (p : Page) (y : ℕ) :
    p.shown.getD y [] = p.rows.getD (p.above.length - 24 + y) [] := by
  unfold shown List.rtake
  rw [List.getD_eq_getElem?_getD, List.getElem?_drop, rows_length, List.getD_eq_getElem?_getD]
  congr 3

lemma rows_feed (p : Page) (row : List Cell) : (p.feed row).rows = p.above ++ [row] ++ [[]] := rfl

lemma above_feed (p : Page) (row : List Cell) : (p.feed row).above.length = p.above.length + 1 := by
  unfold feed
  rw [List.length_append, List.length_singleton]

lemma rows_getD_last (p : Page) : p.rows.getD p.above.length [] = p.row := by
  unfold rows
  rw [List.getD_append_right _ _ _ _ le_rfl, Nat.sub_self]
  rfl

/-- A row on the page after the row that is written was replaced. -/
lemma getD_replaced (p : Page) (row : List Cell) (y : ℕ) :
    (p.above ++ [row]).getD y [] = if y = p.above.length then row else p.rows.getD y [] := by
  unfold rows
  rcases lt_trichotomy y p.above.length with h | h | h
  · rw [if_neg h.ne, List.getD_append _ _ _ _ h, List.getD_append _ _ _ _ h]
  · subst h
    rw [if_pos rfl, List.getD_append_right _ _ _ _ le_rfl, Nat.sub_self]
    rfl
  · rw [if_neg h.ne', List.getD_eq_default _ _ (by simpa using h),
      List.getD_eq_default _ _ (by simpa using h)]

/-- An empty row more at the end of a page changes nothing of what is on it. -/
lemma getD_empty_row (l : List (List Cell)) (y : ℕ) : (l ++ [[]]).getD y [] = l.getD y [] := by
  rcases lt_or_ge y l.length with h | h
  · rw [List.getD_append _ _ _ _ h]
  · rw [List.getD_append_right _ _ _ _ h, List.getD_eq_default _ _ h]
    rcases Nat.eq_zero_or_pos (y - l.length) with h0 | h0
    · rw [h0]
      rfl
    · exact List.getD_eq_default _ _ h0

end Page

/-- A text laid out on a page. -/
def layout (s : List Cell) : Page := s.foldl Page.put Page.blank

/-! ### The cells of a terminal -/

namespace Terminal

variable {t : Terminal} {p : Page} {x y x' y' : ℕ} {c : Cell}

/-- The cell of a place. -/
def cell (t : Terminal) (x y : ℕ) : Cell :=
  ⟨t.cells ((y * 80 + x) * 2), t.cells ((y * 80 + x) * 2 + 1)⟩

/-- The cell that `term_clear` writes. -/
def space (t : Terminal) : Cell := ⟨32, t.color⟩

lemma cell_setCell (hx : x < 80) (hx' : x' < 80) :
    (t.setCell (y * 80 + x) c.ch c.attr).cell x' y' = if x' = x ∧ y' = y then c else t.cell x' y' := by
  unfold cell setCell
  simp only [Function.update_apply]
  by_cases h : x' = x ∧ y' = y
  · obtain ⟨rfl, rfl⟩ := h
    rw [if_neg (by omega), if_pos rfl, if_pos rfl, if_pos ⟨rfl, rfl⟩]
  · rw [if_neg (by omega), if_neg (by omega), if_neg (by omega), if_neg (by omega), if_neg h]

lemma cell_termScroll (hx : x < 80) (hy : y < 25) :
    t.termScroll.cell x y = if y < 24 then t.cell x (y + 1) else t.space := by
  unfold cell termScroll space
  dsimp only
  by_cases h : y < 24
  · rw [if_pos (by omega), if_pos (by omega), if_pos h,
      show (y * 80 + x) * 2 + 80 * 2 = ((y + 1) * 80 + x) * 2 by ring,
      show (y * 80 + x) * 2 + 1 + 80 * 2 = ((y + 1) * 80 + x) * 2 + 1 by ring]
  · rw [if_neg (by omega), if_pos (by omega), if_pos (by omega), if_neg (by omega),
      if_pos (by omega), if_neg (by omega), if_neg h]

lemma cell_termClear (hx : x < 80) (hy : y < 25) : t.termClear.cell x y = t.space := by
  unfold cell termClear space
  dsimp only
  rw [if_pos (by omega), if_pos (by omega), if_pos (by omega), if_neg (by omega)]

/-! ### The terminal shows the end of the page -/

/-- The cells of the terminal are those of the rows that follow the first `first` ones. -/
def ShowsFrom (t : Terminal) (rows : List (List Cell)) (first : ℕ) : Prop :=
  ∀ x < 80, ∀ y < 25, t.cell x y = (rows.getD (first + y) []).getD x t.space

/-- **The terminal shows the last 25 rows of the page.** -/
structure Shows (t : Terminal) (p : Page) : Prop where
  column : t.cursorX = p.row.length
  line : t.cursorY = min p.above.length 24
  cells : t.ShowsFrom p.rows (p.above.length - 24)

lemma shows_blank (t : Terminal) : t.termClear.Shows Page.blank := by
  refine ⟨rfl, rfl, fun x hx y hy => ?_⟩
  rw [cell_termClear hx hy]
  show t.space = (([[]] : List (List Cell)).getD (0 + y) []).getD x t.space
  rw [show ([[]] : List (List Cell)) = [] ++ [[]] from rfl, Page.getD_empty_row]
  rfl

/-- Where the last row is left, the terminal scrolls if the screen has no row for the next. -/
lemma shows_feed {row : List Cell} (hx : t.cursorX = 0) (hy : t.cursorY = min p.above.length 24 + 1)
    (h : t.ShowsFrom (p.above ++ [row]) (p.above.length - 24)) :
    (if t.cursorY > 24 then t.termScroll else t).Shows (p.feed row) := by
  have hrows : ∀ i, (p.feed row).rows.getD i [] = (p.above ++ [row]).getD i [] := fun i => by
    rw [Page.rows_feed, Page.getD_empty_row]
  by_cases hlow : p.above.length < 24
  · rw [if_neg (by omega)]
    refine ⟨hx, ?_, fun x hx y hy => ?_⟩
    · rw [Page.above_feed]
      omega
    · rw [h x hx y hy, hrows, Page.above_feed]
      congr 2
      omega
  · rw [if_pos (by omega)]
    refine ⟨hx, ?_, fun x hx y hy => ?_⟩
    · rw [Page.above_feed]
      show 24 = _
      omega
    · rw [cell_termScroll hx hy, hrows, Page.above_feed, show t.termScroll.space = t.space from rfl]
      by_cases hlast : y < 24
      · rw [if_pos hlast, h x hx (y + 1) (by omega)]
        congr 2
        omega
      · -- the row below the last one is blank
        rw [if_neg hlast, List.getD_eq_default (p.above ++ [row]) _ (by simp; omega)]
        rfl

/-- **A character that is printed.** -/
lemma Shows.put (h : t.Shows p) (c : Cell) : (t.termPutchar c.ch c.attr).Shows (p.put c) := by
  have hshort := p.short
  have hcol := h.column
  have hline := h.line
  unfold termPutchar Page.put
  by_cases hc : c.ch = 10
  · rw [if_pos hc, if_pos hc]
    refine shows_feed rfl (by rw [← hline]) fun x hx y hy => ?_
    exact h.cells x hx y hy
  rw [if_neg hc, if_neg hc]
  dsimp only
  -- the cell at the cursor is the only one that changes
  have hset : ∀ t' : Terminal,
      t'.cells = (t.setCell (t.cursorY * 80 + t.cursorX) c.ch c.attr).cells → t'.color = t.color →
      t'.ShowsFrom (p.above ++ [p.row ++ [c]]) (p.above.length - 24) := by
    intro t' hcells hcolor x hx y hy
    have hcell : t'.cell x y = (t.setCell (t.cursorY * 80 + t.cursorX) c.ch c.attr).cell x y := by
      unfold cell
      rw [hcells]
    have hspace : t'.space = t.space := by
      unfold space
      rw [hcolor]
    rw [hcell, hspace, cell_setCell (by omega) hx, Page.getD_replaced, h.cells x hx y hy]
    by_cases hrow : p.above.length - 24 + y = p.above.length
    · rw [if_pos hrow, hrow, Page.rows_getD_last]
      rcases lt_trichotomy x p.row.length with hlt | heq | hgt
      · rw [if_neg (by omega), List.getD_append _ _ _ _ hlt]
      · rw [if_pos (by omega), heq, List.getD_append_right _ _ _ _ le_rfl, Nat.sub_self]
        rfl
      · rw [if_neg (by omega), List.getD_eq_default _ _ (by omega),
          List.getD_eq_default _ _ (by simp; omega)]
    · rw [if_neg hrow, if_neg (by omega)]
  by_cases hfull : p.row.length + 1 < 80
  · rw [dif_pos hfull, if_neg (show ¬ t.cursorX + 1 ≥ 80 by omega),
      if_neg (by dsimp only [setCell]; omega)]
    refine ⟨?_, hline, hset _ rfl rfl⟩
    show t.cursorX + 1 = (p.row ++ [c]).length
    rw [hcol, List.length_append, List.length_singleton]
  · rw [dif_neg hfull, if_pos (show t.cursorX + 1 ≥ 80 by omega)]
    exact shows_feed rfl (by rw [← hline]; rfl) (hset _ rfl rfl)

lemma Shows.puts (h : t.Shows p) (s : List Cell) :
    (s.foldl (fun t c => t.termPutchar c.ch c.attr) t).Shows (s.foldl Page.put p) := by
  induction s generalizing t p with
  | nil => exact h
  | cons c s ih => exact ih (h.put c)

lemma space_puts (t : Terminal) (s : List Cell) :
    (s.foldl (fun t c => t.termPutchar c.ch c.attr) t).space = t.space := by
  induction s generalizing t with
  | nil => rfl
  | cons c s ih =>
    rw [List.foldl_cons, ih]
    unfold space
    rw [State.color_termPutchar]

/-- **A terminal shows the end of what is printed to it.** The characters of the text are given with
the colour that each is printed in. -/
theorem prints_page (t : Terminal) (s : List Cell) :
    let t' := s.foldl (fun t c => t.termPutchar c.ch c.attr) t.termClear
    (∀ x < 80, ∀ y < 25, t'.cell x y = ((layout s).shown.getD y []).getD x ⟨32, t.color⟩) ∧
      t'.cursorX = (layout s).row.length ∧ t'.cursorY + 1 = (layout s).shown.length := by
  intro t'
  have h : t'.Shows (layout s) := (shows_blank t).puts s
  refine ⟨fun x hx y hy => ?_, h.column, ?_⟩
  · rw [h.cells x hx y hy, Page.shown_getD]
    congr 1
    exact space_puts _ s
  · rw [h.line, Page.shown_length]

end Terminal

end LunariaOS.Wm
