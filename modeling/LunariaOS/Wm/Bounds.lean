import LunariaOS.Lib.Sweep
import LunariaOS.Wm.Code

/-!
The indices that the terminals use.

`Watched` is a terminal as the code holds it, with its cursor in `int`s and the loops over its cells
one access at a time, and the indices of all accesses so far. `Inside` is the invariant: the cursor is
on the screen and every index used is one of `cells`. `Sees` compares a watched terminal with a
`Terminal`, and the functions of both keep it.
-/

namespace LunariaOS.Wm

open LunariaOS.Lib

/-- `terminal_t`, with the indices into `cells` that were used. -/
structure Watched where
  cursorX : ℤ
  cursorY : ℤ
  cells : ℤ → UInt8
  color : UInt8
  used : List ℤ

namespace Watched

/-! ### The code -/

/-- `t->cells[i] = c`. -/
def store (t : Watched) (i : ℤ) (c : UInt8) : Watched :=
  { t with cells := Function.update t.cells i c, used := t.used ++ [i] }

/-- `t->cells[i] = t->cells[j]`. -/
def move (t : Watched) (i j : ℤ) : Watched :=
  { t with cells := Function.update t.cells i (t.cells j), used := t.used ++ [j, i] }

/-- A cell made blank. -/
def space (t : Watched) (i : ℤ) : Watched := (t.store i 32).store (i + 1) t.color

/-- `t->cursor_x = x, t->cursor_y = y`. -/
def goto (t : Watched) (x y : ℤ) : Watched := { t with cursorX := x, cursorY := y }

/-- The first `n` bytes of the cells taken from a row below. -/
def moveRows (t : Watched) (n : ℕ) : Watched :=
  (List.range n).foldl (fun t (i : ℕ) => t.move i (i + 80 * 2)) t

/-- `n` cells from `first` on made blank. -/
def blanks (t : Watched) (first : ℤ) (n : ℕ) : Watched :=
  (List.range n).foldl (fun t (k : ℕ) => t.space (first + 2 * k)) t

def termScroll (t : Watched) : Watched :=
  ((t.moveRows (24 * 80 * 2)).blanks (24 * 80 * 2) 80).goto t.cursorX 24

def termPutchar (t : Watched) (c color : UInt8) : Watched :=
  let t :=
    if c = 10 then t.goto 0 (t.cursorY + 1)
    else
      let index := t.cursorY * 80 + t.cursorX
      let t := (t.store (index * 2) c).store (index * 2 + 1) color
      let t := t.goto (t.cursorX + 1) t.cursorY
      if t.cursorX ≥ 80 then t.goto 0 (t.cursorY + 1) else t
  if t.cursorY > 24 then t.termScroll else t

def termPutcharAt (t : Watched) (c : UInt8) (x y : ℤ) (color : UInt8) : Watched :=
  if c = 10 then t
  else
    let index := y * 80 + x
    (t.store (index * 2) c).store (index * 2 + 1) color

def termClear (t : Watched) : Watched :=
  (t.blanks 0 (80 * 25)).goto 0 0

def termPrintColor (t : Watched) (str : List UInt8) (color : UInt8) : Watched :=
  str.foldl (fun t c => t.termPutchar c color) t

def termPrint (t : Watched) (str : List UInt8) : Watched :=
  str.foldl (fun t c => t.termPutchar c t.color) t

def termBackspace (t : Watched) : Watched :=
  if t.cursorX = 0 ∧ t.cursorY = 0 then t
  else
    let t :=
      if t.cursorX > 0 then t.goto (t.cursorX - 1) t.cursorY else t.goto 79 (t.cursorY - 1)
    t.store ((t.cursorY * 80 + t.cursorX) * 2) 32

def termCursorUp (t : Watched) : Watched :=
  if t.cursorY > 0 then t.goto t.cursorX (t.cursorY - 1) else t

def termCursorDown (t : Watched) : Watched :=
  if t.cursorY < 24 then t.goto t.cursorX (t.cursorY + 1) else t

def termCursorLeft (t : Watched) : Watched :=
  if t.cursorX > 0 then t.goto (t.cursorX - 1) t.cursorY else t

def termCursorRight (t : Watched) : Watched :=
  if t.cursorX < 79 then t.goto (t.cursorX + 1) t.cursorY else t

/-- `wm_blit`, as far as it reads the cells. -/
def wmBlit (t : Watched) : Watched :=
  { t with used := t.used ++ (List.range (80 * 25 * 2)).map fun (i : ℕ) => (i : ℤ) }

/-- `wm_blit_row`, as far as it reads the cells. -/
def wmBlitRow (t : Watched) (y : ℤ) : Watched :=
  if y < 0 ∨ y > 24 then t
  else { t with used := t.used ++ (List.range (80 * 2)).map fun (i : ℕ) => y * 80 * 2 + i }

/-- A register as an `int`. -/
def int (r : UInt32) : ℤ := i32 r.toNat

/-- What is done to a terminal: the functions of `wm.c` and, on the current terminal, the calls 1, 8, 9
and 10 of `syscall_handler`. -/
inductive Op
  | putchar (c color : UInt8)
  | print (str : List UInt8)
  | printColor (str : List UInt8) (color : UInt8)
  | backspace
  | scroll
  | clear
  | up
  | down
  | left
  | right
  | sysWrite (buf : List UInt8)
  | sysClear
  | sysPutcharAt (ebx ecx edx esi : UInt32)
  | sysGotoXy (ebx ecx : UInt32)

def exec (t : Watched) : Op → Watched
  | .putchar c color => t.termPutchar c color
  | .print str => t.termPrint str
  | .printColor str color => t.termPrintColor str color
  | .backspace => t.termBackspace
  | .scroll => t.termScroll
  | .clear => t.termClear
  | .up => t.termCursorUp
  | .down => t.termCursorDown
  | .left => t.termCursorLeft
  | .right => t.termCursorRight
  | .sysWrite buf => (t.termPrintColor buf (vgaColor black white)).wmBlit
  | .sysClear => t.termClear.wmBlit
  | .sysPutcharAt ebx ecx edx esi =>
    if ecx < 80 ∧ edx < 25 then
      (t.termPutcharAt ebx.toUInt8 (int ecx) (int edx) esi.toUInt8).wmBlitRow (int edx)
    else t
  | .sysGotoXy ebx ecx =>
    if ebx < 80 ∧ ecx < 25 then
      let oy := t.cursorY
      let t := t.goto (int ebx) (int ecx)
      let t := t.wmBlitRow oy
      if oy ≠ t.cursorY then t.wmBlitRow t.cursorY else t
    else t

/-! ### Every index is one of the cells -/

variable {t : Watched} {i j x y : ℤ}

/-- The index is one of `cells`. -/
def Index (i : ℤ) : Prop := 0 ≤ i ∧ i ≤ 3999

/-- All indices used so far are those of cells. -/
def Bounded (t : Watched) : Prop := ∀ i ∈ t.used, Index i

/-- **The invariant.** -/
structure Inside (t : Watched) : Prop where
  left : 0 ≤ t.cursorX
  right : t.cursorX ≤ 79
  top : 0 ≤ t.cursorY
  bottom : t.cursorY ≤ 24
  bounded : t.Bounded

lemma Bounded.goto (h : t.Bounded) (x y : ℤ) : (t.goto x y).Bounded := h

lemma Bounded.use (h : t.Bounded) {l : List ℤ} (hl : ∀ i ∈ l, Index i) :
    ∀ i ∈ t.used ++ l, Index i := by
  intro i hi
  rcases List.mem_append.mp hi with hi | hi
  · exact h i hi
  · exact hl i hi

lemma Bounded.store (h : t.Bounded) (hi : Index i) (c : UInt8) : (t.store i c).Bounded :=
  h.use fun _ hj => (List.mem_singleton.mp hj).symm ▸ hi

lemma Bounded.move (h : t.Bounded) (hi : Index i) (hj : Index j) : (t.move i j).Bounded := by
  refine h.use fun k hk => ?_
  rcases List.mem_pair.mp hk with rfl | rfl
  · exact hj
  · exact hi

lemma Bounded.space (h : t.Bounded) (hi : Index i) (hi' : Index (i + 1)) : (t.space i).Bounded :=
  (h.store hi 32).store hi' t.color

/-- A loop whose turns use cells only. -/
lemma Bounded.loop {f : Watched → ℕ → Watched} {n : ℕ}
    (hf : ∀ t : Watched, t.Bounded → ∀ i < n, (f t i).Bounded) (h : t.Bounded) :
    ((List.range n).foldl f t).Bounded := by
  induction n with
  | zero => exact h
  | succ n ih =>
    rw [List.range_succ, List.foldl_append]
    exact hf _ (ih fun t ht i hi => hf t ht i (by omega)) n (by omega)

lemma Bounded.cell (h : t.Bounded) (hx : 0 ≤ x ∧ x ≤ 79) (hy : 0 ≤ y ∧ y ≤ 24) (c color : UInt8) :
    ((t.store ((y * 80 + x) * 2) c).store ((y * 80 + x) * 2 + 1) color).Bounded :=
  (h.store (by unfold Index; omega) c).store (by unfold Index; omega) color

lemma Bounded.moveRows (h : t.Bounded) {n : ℕ} (hn : n ≤ 3840) : (t.moveRows n).Bounded :=
  h.loop (n := n) (f := fun t i => t.move i (i + 80 * 2)) fun _ ht i hi =>
    ht.move (by unfold Index; omega) (by unfold Index; omega)

lemma Bounded.blanks (h : t.Bounded) {n : ℕ} (hi : 0 ≤ i) (hn : i + 2 * n ≤ 4000) :
    (t.blanks i n).Bounded :=
  h.loop (n := n) (f := fun t k => t.space (i + 2 * k)) fun _ ht k hk =>
    ht.space (by unfold Index; omega) (by unfold Index; omega)

lemma Bounded.termScroll (h : t.Bounded) : t.termScroll.Bounded :=
  ((h.moveRows le_rfl).blanks (by norm_num) (by norm_num)).goto _ _

lemma Bounded.termClear (h : t.Bounded) : t.termClear.Bounded :=
  (h.blanks le_rfl (by norm_num)).goto _ _

lemma Bounded.wmBlit (h : t.Bounded) : t.wmBlit.Bounded := by
  refine h.use fun i hi => ?_
  obtain ⟨k, hk, rfl⟩ := List.mem_map.mp hi
  have hlt := List.mem_range.mp hk
  exact ⟨by omega, by omega⟩

lemma Bounded.wmBlitRow (h : t.Bounded) (y : ℤ) : (t.wmBlitRow y).Bounded := by
  unfold Watched.wmBlitRow
  split_ifs with hy
  · exact h
  · refine h.use fun i hi => ?_
    obtain ⟨k, hk, rfl⟩ := List.mem_map.mp hi
    have hlt := List.mem_range.mp hk
    exact ⟨by omega, by omega⟩

/-! ### What the functions do to the cursor -/

@[simp] lemma store_cursorX (t : Watched) (i : ℤ) (c : UInt8) : (t.store i c).cursorX = t.cursorX := rfl

@[simp] lemma store_cursorY (t : Watched) (i : ℤ) (c : UInt8) : (t.store i c).cursorY = t.cursorY := rfl

@[simp] lemma goto_cursorX (t : Watched) (x y : ℤ) : (t.goto x y).cursorX = x := rfl

@[simp] lemma goto_cursorY (t : Watched) (x y : ℤ) : (t.goto x y).cursorY = y := rfl

@[simp] lemma goto_cells (t : Watched) (x y : ℤ) : (t.goto x y).cells = t.cells := rfl

@[simp] lemma goto_color (t : Watched) (x y : ℤ) : (t.goto x y).color = t.color := rfl

namespace Inside

lemma goto (hb : t.Bounded) (hx : 0 ≤ x ∧ x ≤ 79) (hy : 0 ≤ y ∧ y ≤ 24) : (t.goto x y).Inside :=
  ⟨hx.1, hx.2, hy.1, hy.2, hb⟩

lemma store (h : t.Inside) (hi : Index i) (c : UInt8) : (t.store i c).Inside :=
  ⟨h.left, h.right, h.top, h.bottom, h.bounded.store hi c⟩

lemma termScroll (hb : t.Bounded) (hx : 0 ≤ t.cursorX ∧ t.cursorX ≤ 79) : t.termScroll.Inside :=
  goto ((hb.moveRows le_rfl).blanks (by norm_num) (by norm_num)) hx ⟨by norm_num, le_rfl⟩

lemma termClear (hb : t.Bounded) : t.termClear.Inside :=
  goto (hb.blanks le_rfl (by norm_num)) ⟨le_rfl, by norm_num⟩ ⟨le_rfl, by norm_num⟩

/-- After a character the cursor may be below the screen by one row, and then the screen scrolls. -/
lemma settle (hb : t.Bounded) (hx : 0 ≤ x ∧ x ≤ 79) (hy : 0 ≤ y) :
    (if (t.goto x y).cursorY > 24 then (t.goto x y).termScroll else t.goto x y).Inside := by
  rw [goto_cursorY]
  split_ifs with hlow
  · exact termScroll (hb.goto x y) hx
  · exact goto hb hx ⟨hy, by omega⟩

lemma termPutchar (h : t.Inside) (c color : UInt8) : (t.termPutchar c color).Inside := by
  obtain ⟨hl, hr, ht, hb, hu⟩ := h
  have hcell := hu.cell ⟨hl, hr⟩ ⟨ht, hb⟩ c color
  unfold Watched.termPutchar
  dsimp only
  by_cases hc : c = 10
  · rw [if_pos hc]
    exact settle hu ⟨le_rfl, by norm_num⟩ (by omega)
  rw [if_neg hc, goto_cursorX, store_cursorX, store_cursorX]
  by_cases hfull : t.cursorX + 1 ≥ 80
  · rw [if_pos hfull]
    exact settle (hcell.goto _ _) ⟨le_rfl, by norm_num⟩ (by simp only [goto_cursorY, store_cursorY]; omega)
  · rw [if_neg hfull]
    exact settle hcell ⟨by omega, by omega⟩ ht

lemma termPrintColor (h : t.Inside) (str : List UInt8) (color : UInt8) :
    (t.termPrintColor str color).Inside := by
  unfold Watched.termPrintColor
  induction str generalizing t with
  | nil => exact h
  | cons c str ih => exact ih (h.termPutchar c color)

lemma termPrint (h : t.Inside) (str : List UInt8) : (t.termPrint str).Inside := by
  unfold Watched.termPrint
  induction str generalizing t with
  | nil => exact h
  | cons c str ih => exact ih (h.termPutchar c t.color)

lemma termBackspace (h : t.Inside) : t.termBackspace.Inside := by
  obtain ⟨hl, hr, ht, hb, hu⟩ := id h
  unfold Watched.termBackspace
  dsimp only
  split_ifs with h0 hx
  · exact h
  · refine (goto hu ⟨by omega, by omega⟩ ⟨ht, hb⟩).store ?_ 32
    rw [goto_cursorX, goto_cursorY]
    unfold Index
    omega
  · refine (goto hu ⟨by norm_num, le_rfl⟩ ⟨by omega, by omega⟩).store ?_ 32
    rw [goto_cursorX, goto_cursorY]
    unfold Index
    omega

lemma wmBlit (h : t.Inside) : t.wmBlit.Inside :=
  ⟨h.left, h.right, h.top, h.bottom, h.bounded.wmBlit⟩

lemma wmBlitRow (h : t.Inside) (y : ℤ) : (t.wmBlitRow y).Inside := by
  have hb := h.bounded.wmBlitRow y
  unfold Watched.wmBlitRow at hb ⊢
  split_ifs at hb ⊢
  · exact h
  · exact ⟨h.left, h.right, h.top, h.bottom, hb⟩

end Inside

/-- A register below a bound that is small is itself as an `int`. -/
lemma int_lt {r n : UInt32} (h : r < n) (hn : n.toNat ≤ 2147483648) :
    0 ≤ int r ∧ int r < n.toNat := by
  have hlt : r.toNat < n.toNat := UInt32.lt_iff_toNat_lt.mp h
  unfold int i32
  omega

/-- Registers that name a cell of the screen do so as `int`s. -/
lemma int_cell {x y : UInt32} (h : x < 80 ∧ y < 25) :
    (0 ≤ int x ∧ int x ≤ 79) ∧ (0 ≤ int y ∧ int y ≤ 24) := by
  have hx := int_lt h.1 (by decide)
  have hy := int_lt h.2 (by decide)
  rw [show UInt32.toNat 80 = 80 from rfl] at hx
  rw [show UInt32.toNat 25 = 25 from rfl] at hy
  omega

/-- **One step.** -/
theorem Inside.exec (h : t.Inside) (op : Op) : (t.exec op).Inside := by
  obtain ⟨hl, hr, ht, hb, hu⟩ := id h
  cases op with
  | putchar c color => exact h.termPutchar c color
  | print str => exact h.termPrint str
  | printColor str color => exact h.termPrintColor str color
  | backspace => exact h.termBackspace
  | scroll => exact .termScroll hu ⟨hl, hr⟩
  | clear => exact .termClear hu
  | up =>
    unfold Watched.exec termCursorUp
    split_ifs
    · exact .goto hu ⟨hl, hr⟩ ⟨by omega, by omega⟩
    · exact h
  | down =>
    unfold Watched.exec termCursorDown
    split_ifs
    · exact .goto hu ⟨hl, hr⟩ ⟨by omega, by omega⟩
    · exact h
  | left =>
    unfold Watched.exec termCursorLeft
    split_ifs
    · exact .goto hu ⟨by omega, by omega⟩ ⟨ht, hb⟩
    · exact h
  | right =>
    unfold Watched.exec termCursorRight
    split_ifs
    · exact .goto hu ⟨by omega, by omega⟩ ⟨ht, hb⟩
    · exact h
  | sysWrite buf => exact (h.termPrintColor buf _).wmBlit
  | sysClear => exact (Inside.termClear hu).wmBlit
  | sysPutcharAt ebx ecx edx esi =>
    unfold Watched.exec
    dsimp only
    split_ifs with hreg
    · obtain ⟨hx, hy⟩ := int_cell hreg
      apply Inside.wmBlitRow
      unfold termPutcharAt
      split_ifs
      · exact h
      · exact ⟨hl, hr, ht, hb, hu.cell hx hy _ _⟩
    · exact h
  | sysGotoXy ebx ecx =>
    unfold Watched.exec
    dsimp only
    split_ifs with hreg
    · obtain ⟨hx, hy⟩ := int_cell hreg
      exact ((Inside.goto hu hx hy).wmBlitRow _).wmBlitRow _
    · obtain ⟨hx, hy⟩ := int_cell hreg
      exact (Inside.goto hu hx hy).wmBlitRow _
    · exact h

/-- A terminal of which no cell was used yet. -/
def fresh (x y : ℤ) (cells : ℤ → UInt8) (color : UInt8) : Watched := ⟨x, y, cells, color, []⟩

lemma fresh_bounded (x y : ℤ) (cells : ℤ → UInt8) (color : UInt8) : (fresh x y cells color).Bounded :=
  fun _ hi => absurd hi List.not_mem_nil

/-- **The cursor stays on the screen and the cells are used within their bounds**, whatever is done to
a terminal from a clear one on. -/
theorem stays_inside (x y : ℤ) (cells : ℤ → UInt8) (color : UInt8) (ops : List Op) :
    let t := run exec (fresh x y cells color).termClear ops
    (0 ≤ t.cursorX ∧ t.cursorX ≤ 79) ∧ (0 ≤ t.cursorY ∧ t.cursorY ≤ 24) ∧
      ∀ i ∈ t.used, 0 ≤ i ∧ i ≤ 3999 := by
  intro t
  have h : t.Inside := run_inv_all (fun s op hs => hs.exec op) ops
    (Inside.termClear (fresh_bounded x y cells color))
  exact ⟨⟨h.left, h.right⟩, ⟨h.top, h.bottom⟩, h.bounded⟩

/-! ### A watched terminal is a terminal -/

/-- The watched terminal has the cursor, the cells and the colour of the terminal. -/
structure Sees (t : Watched) (u : Terminal) : Prop where
  cursorX : t.cursorX = u.cursorX
  cursorY : t.cursorY = u.cursorY
  cells : ∀ i : ℕ, t.cells i = u.cells i
  color : t.color = u.color

lemma moveRows_color (t : Watched) (n : ℕ) : (t.moveRows n).color = t.color := by
  unfold moveRows
  refine foldl_keep (g := color) ?_ t
  exact fun _ _ _ => rfl

lemma blanks_color (t : Watched) (i : ℤ) (n : ℕ) : (t.blanks i n).color = t.color := by
  unfold blanks
  refine foldl_keep (g := color) ?_ t
  exact fun _ _ _ => rfl

lemma moveRows_cells (t : Watched) (n : ℕ) (j : ℤ) :
    (t.moveRows n).cells j = if 0 ≤ j ∧ j < n then t.cells (j + 160) else t.cells j := by
  unfold moveRows
  induction n generalizing j with
  | zero => rw [if_neg (by omega)]; rfl
  | succ n ih =>
    rw [List.range_succ, List.foldl_append]
    show Function.update _ _ _ j = _
    rw [Function.update_apply, ih, ih]
    by_cases h : j = n
    · subst h
      rw [if_pos rfl, if_neg (by omega), if_pos (by omega)]
      rfl
    · rw [if_neg h]
      by_cases h' : 0 ≤ j ∧ j < n
      · rw [if_pos h', if_pos (by omega)]
      · rw [if_neg h', if_neg (by omega)]

lemma blanks_cells (t : Watched) (i : ℤ) (n : ℕ) (j : ℤ) :
    (t.blanks i n).cells j =
      if i ≤ j ∧ j < i + 2 * n then (if (j - i) % 2 = 0 then 32 else t.color) else t.cells j := by
  have hcolor := blanks_color t i
  unfold blanks at hcolor ⊢
  induction n generalizing j with
  | zero => rw [if_neg (by omega)]; rfl
  | succ n ih =>
    rw [List.range_succ, List.foldl_append]
    show Function.update (Function.update _ _ _) _ _ j = _
    rw [Function.update_apply, Function.update_apply, ih, hcolor n]
    by_cases h1 : j = i + 2 * n + 1
    · rw [if_pos h1, if_pos (by omega), if_neg (by omega)]
    rw [if_neg h1]
    by_cases h0 : j = i + 2 * n
    · rw [if_pos h0, if_pos (by omega), if_pos (by omega)]
    rw [if_neg h0]
    by_cases h' : i ≤ j ∧ j < i + 2 * n
    · rw [if_pos h', if_pos (show i ≤ j ∧ j < i + 2 * ((n + 1 : ℕ) : ℤ) by omega)]
    · rw [if_neg h', if_neg (show ¬ (i ≤ j ∧ j < i + 2 * ((n + 1 : ℕ) : ℤ)) by omega)]

namespace Sees

variable {u : Terminal}

lemma goto (h : t.Sees u) (x y : ℕ) : (t.goto x y).Sees { u with cursorX := x, cursorY := y } :=
  ⟨rfl, rfl, h.cells, h.color⟩

lemma store (h : t.Sees u) (k : ℕ) (c : UInt8) :
    (t.store k c).Sees { u with cells := Function.update u.cells k c } := by
  refine ⟨h.cursorX, h.cursorY, fun i => ?_, h.color⟩
  show Function.update t.cells (k : ℤ) c i = Function.update u.cells k c i
  simp only [Function.update_apply, Nat.cast_inj, h.cells i]

lemma cell (h : t.Sees u) (k : ℕ) (c color : UInt8) :
    ((t.store ((k : ℤ) * 2) c).store ((k : ℤ) * 2 + 1) color).Sees (u.setCell k c color) := by
  have hs := (h.store (k * 2) c).store (k * 2 + 1) color
  push_cast at hs
  exact hs

lemma termScroll (h : t.Sees u) : t.termScroll.Sees u.termScroll := by
  refine ⟨h.cursorX, rfl, fun i => ?_, ?_⟩
  · unfold Watched.termScroll
    rw [goto_cells, blanks_cells, moveRows_cells, moveRows_color, h.color]
    unfold Terminal.termScroll
    dsimp only
    by_cases hi : i < 3840
    · rw [if_neg (by omega), if_pos (by omega), if_pos hi]
      exact_mod_cast h.cells (i + 160)
    rw [if_neg hi]
    by_cases hi' : i < 4000
    · rw [if_pos (by omega), if_pos hi']
      by_cases hp : i % 2 = 0
      · rw [if_pos hp, if_pos (by omega)]
      · rw [if_neg hp, if_neg (by omega)]
    · rw [if_neg (by omega), if_neg (by omega), if_neg hi', h.cells]
  · unfold Watched.termScroll
    rw [goto_color, blanks_color, moveRows_color, h.color]
    rfl

/-- A clear terminal. -/
theorem termClear (h : t.Sees u) : t.termClear.Sees u.termClear := by
  refine ⟨rfl, rfl, fun i => ?_, ?_⟩
  · unfold Watched.termClear
    rw [goto_cells, blanks_cells, h.color]
    unfold Terminal.termClear
    dsimp only
    by_cases hi : i < 4000
    · rw [if_pos (by omega), if_pos hi]
      by_cases hp : i % 2 = 0
      · rw [if_pos hp, if_pos (by omega)]
      · rw [if_neg hp, if_neg (by omega)]
    · rw [if_neg (by omega), if_neg hi, h.cells]
  · unfold Watched.termClear
    rw [goto_color, blanks_color, h.color]
    rfl

lemma settle (h : t.Sees u) :
    (if t.cursorY > 24 then t.termScroll else t).Sees
      (if u.cursorY > 24 then u.termScroll else u) := by
  have hy := h.cursorY
  by_cases hlow : u.cursorY > 24
  · rw [if_pos hlow, if_pos (by omega)]
    exact h.termScroll
  · rw [if_neg hlow, if_neg (by omega)]
    exact h

/-- A character. -/
theorem termPutchar (h : t.Sees u) (c color : UInt8) :
    (t.termPutchar c color).Sees (u.termPutchar c color) := by
  have hx := h.cursorX
  have hy := h.cursorY
  unfold Watched.termPutchar Terminal.termPutchar
  dsimp only
  by_cases hc : c = 10
  · rw [if_pos hc, if_pos hc, hy]
    exact (h.goto 0 (u.cursorY + 1)).settle
  have hcell := h.cell (u.cursorY * 80 + u.cursorX) c color
  push_cast at hcell
  rw [if_neg hc, if_neg hc, hx, hy]
  apply settle
  rw [goto_cursorX, goto_cursorY, store_cursorX, store_cursorX, store_cursorY, store_cursorY, hx, hy]
  by_cases hfull : u.cursorX + 1 ≥ 80
  · rw [if_pos (by omega), if_pos hfull]
    exact (hcell.goto (u.cursorX + 1) u.cursorY).goto 0 (u.cursorY + 1)
  · rw [if_neg (by omega), if_neg hfull]
    exact hcell.goto (u.cursorX + 1) u.cursorY

/-- A text. -/
theorem termPrintColor (h : t.Sees u) (str : List UInt8) (color : UInt8) :
    (t.termPrintColor str color).Sees (u.termPrintColor str color) := by
  unfold Watched.termPrintColor Terminal.termPrintColor
  induction str generalizing t u with
  | nil => exact h
  | cons c str ih => exact ih (h.termPutchar c color)

/-- A character taken back. -/
theorem termBackspace (h : t.Sees u) : t.termBackspace.Sees u.termBackspace := by
  have hx := h.cursorX
  have hy := h.cursorY
  unfold Watched.termBackspace Terminal.termBackspace
  dsimp only
  by_cases h0 : u.cursorX = 0 ∧ u.cursorY = 0
  · rw [if_pos (by omega), if_pos h0]
    exact h
  rw [if_neg (by omega), if_neg h0]
  by_cases hpos : u.cursorX > 0
  · have hback := (h.goto (u.cursorX - 1) u.cursorY).store
      ((u.cursorY * 80 + (u.cursorX - 1)) * 2) 32
    push_cast [show 1 ≤ u.cursorX from hpos] at hback
    rw [if_pos (by omega), if_pos hpos, goto_cursorX, goto_cursorY, hx, hy]
    exact hback
  · have hback := (h.goto 79 (u.cursorY - 1)).store (((u.cursorY - 1) * 80 + 79) * 2) 32
    push_cast [show 1 ≤ u.cursorY by omega] at hback
    rw [if_neg (by omega), if_neg hpos, goto_cursorX, goto_cursorY, hy]
    exact hback

end Sees

end Watched

end LunariaOS.Wm
