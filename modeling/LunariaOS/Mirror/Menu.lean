import LunariaOS.Mirror.Caret

/-!
The menu of `mirror.c`.

The keys move a place on a cycle of `count` items. Each turn of `mirror_menu_select` draws the items again
and flushes, so the screen shows at every key the items as they are with that place highlighted.
-/

namespace LunariaOS.Mirror

open LunariaOS.Lib LunariaOS.Wm

def keyUp : ℤ := 0xE0
def keyDown : ℤ := 0xE1

/-! ### The code -/

/-- The parameters of `mirror_menu` besides the screen and the selected item. -/
structure Menu where
  x : ℤ
  y : ℤ
  w : ℤ
  items : ℤ → Option CStr
  count : ℤ
  attr : UInt8
  selAttr : UInt8

namespace Menu

variable (f : Menu)

/-- The body of the loop of `mirror_menu`; `ry` is the row of the item number `i`. -/
def drawItem (selected : ℤ) (m : State) (i ry : ℤ) : State :=
  let ra := if i = selected then f.selAttr else f.attr
  let m := m.mirrorFill f.x ry f.w 1 32 ra
  let m := m.mirrorPutc f.x ry (if i = selected then 62 else 32) ra
  if f.w ≥ 3 then m.putSn (i32 (f.x + 2)) ry (i32 (f.x + 2)) (f.w - 2) (f.items i) ra else m

/-- The loop of `mirror_menu` from the item number `i` on, for `n` items. -/
def menuLoop (f : Menu) (selected : ℤ) : ℕ → ℤ → State → State
  | 0, _, m => m
  | n + 1, i, m =>
    let ry := i32 (f.y + i)
    if ry ≥ rows then m else f.menuLoop selected n (i + 1) (f.drawItem selected m i ry)

def mirrorMenu (m : State) (selected : ℤ) : State := f.menuLoop selected f.count.toNat 0 m

/-- The menu drawn, and the screen flushed. -/
def redraw (m : State) (selected : ℤ) : State := (f.mirrorMenu m selected).mirrorFlush

/-- The loop of `mirror_menu_select` on the keys to come: what it returns, or nothing while it waits for
the next key, with the screen and the selected item. -/
def selectLoop (f : Menu) : State → ℤ → List ℤ → Option ℤ × State × ℤ
  | m, selected, [] => (none, f.redraw m selected, selected)
  | m, selected, k :: ks =>
    let m := f.redraw m selected
    if k = keyUp then f.selectLoop m ((i32 (i32 (selected + f.count) - 1)).tmod f.count) ks
    else if k = keyDown then f.selectLoop m ((i32 (selected + 1)).tmod f.count) ks
    else if k = keyEnter then (some selected, m, selected)
    else if k = keyEsc then (some (-1), m, selected)
    else f.selectLoop m selected ks

/-- The item that is selected first. -/
def first (selected : ℤ) : ℤ := if selected < 0 ∨ selected ≥ f.count then 0 else selected

def mirrorMenuSelect (m : State) (selected : ℤ) (ks : List ℤ) : Option ℤ × State × ℤ :=
  if f.count ≤ 0 then (some (-1), m, selected) else f.selectLoop m (f.first selected) ks

/-! ### What the menu is -/

/-- The text of an item. -/
def text (i : ℤ) : List UInt8 := (f.items i).elim [] CStr.bytes

/-- The cell of the item number `i` in the column `c` of the menu. -/
def look (selected i c : ℤ) : Cell where
  ch := if c = 0 then (if i = selected then 62 else 32) else if c = 1 then 32
    else (f.text i).getD (c - 2).toNat 32
  attr := if i = selected then f.selAttr else f.attr

/-- A place of the menu. -/
def Inside (x y : ℤ) : Prop := f.x ≤ x ∧ x < f.x + f.w ∧ f.y ≤ y ∧ y < f.y + f.count

instance (x y : ℤ) : Decidable (f.Inside x y) :=
  inferInstanceAs (Decidable (f.x ≤ x ∧ x < f.x + f.w ∧ f.y ≤ y ∧ y < f.y + f.count))

/-- A menu with an item at least, whose items are single lines. No array of pointers has more than 2^30
elements. -/
structure Fits : Prop where
  count : 0 < f.count ∧ f.count ≤ 1073741824
  width : 0 < f.w ∧ f.w ≤ 2147483647
  left : -2147483648 ≤ f.x
  right : f.x + f.w ≤ 2147483647
  top : -2147483648 ≤ f.y ∧ f.y ≤ 2147483647
  line : ∀ i, 10 ∉ f.text i

/-- How far a key moves. -/
def step (k : ℤ) : ℤ := if k = keyUp then -1 else if k = keyDown then 1 else 0

def moves (ks : List ℤ) : ℤ := (ks.map step).sum

/-- The item that is selected after some keys. -/
def chosen (selected : ℤ) (ks : List ℤ) : ℤ := (selected + moves (Line.typed ks)) % f.count

/-- What is returned: the item on Enter, -1 on Esc, whichever comes first. -/
def answer (selected : ℤ) (ks : List ℤ) : Option ℤ :=
  (ks.find? fun k => k = keyEnter ∨ k = keyEsc).map fun k =>
    if k = keyEnter then f.chosen selected ks else -1

end Menu

/-! ### Drawing -/

section Draw

variable {f : Menu} {m : State} {x y : ℤ}

/-- A text in a row, cut off after `maxw` columns. -/
lemma put_row (hx : 0 ≤ x ∧ x < 80) (hy : 0 ≤ y ∧ y < 25) (l ry maxw j : ℤ) (hl : -2147483648 ≤ l)
    (hend : l + maxw ≤ 2147483647) (hmax : 0 ≤ maxw ∧ maxw ≤ 2147483647) (hj : 0 ≤ j) (hjm : j ≤ maxw)
    {s : List UInt8} (hs : 10 ∉ s) (m : State) (attr : UInt8) :
    (m.putLoop (l + j) ry l maxw s attr).back (place x y) =
      if y = ry ∧ l + j ≤ x ∧ x < l + maxw ∧ x < l + j + s.length then ⟨s.getD (x - l - j).toNat 32, attr⟩
      else m.back (place x y) := by
  induction s generalizing m j with
  | nil =>
    rw [if_neg (by simp; omega)]
    rfl
  | cons ch s ih =>
    have hcol : i32 (l + j - l) = j := by
      unfold i32
      omega
    unfold State.putLoop
    rw [hcol]
    by_cases hlast : j ≥ maxw
    · rw [if_pos ⟨hmax.1, hlast⟩, if_neg (by omega)]
    have hnext : i32 (l + j + 1) = l + (j + 1) := by
      unfold i32
      omega
    rw [if_neg (by omega)]
    unfold State.emit
    rw [if_neg (show ¬ ch = 10 from fun e => hs (e ▸ List.mem_cons_self)), hnext]
    dsimp only
    rw [ih _ (by omega) (by omega) (fun h => hs (List.mem_cons_of_mem _ h)), putc_place hx hy,
      List.length_cons]
    push_cast
    by_cases hat : l + j = x ∧ ry = y
    · rw [if_neg (by omega), if_pos hat, if_pos (by omega), show x - l - j = 0 by omega]
      rfl
    rw [if_neg hat]
    by_cases hin : y = ry ∧ l + (j + 1) ≤ x ∧ x < l + maxw ∧ x < l + (j + 1) + s.length
    · rw [if_pos hin, if_pos (by omega), show (x - l - j).toNat = (x - l - (j + 1)).toNat + 1 by omega]
      rfl
    · rw [if_neg hin, if_neg (by omega)]

/-- A row with its marker. -/
lemma marker_row (hx : 0 ≤ x ∧ x < 80) (hy : 0 ≤ y ∧ y < 25) {l w ry : ℤ} (hw : 0 < w ∧ w ≤ 2147483647)
    (hl : -2147483648 ≤ l) (hend : l + w ≤ 2147483647) (hry : -2147483648 ≤ ry ∧ ry < 25) (m : State)
    (ch attr : UInt8) :
    ((m.mirrorFill l ry w 1 32 attr).mirrorPutc l ry ch attr).back (place x y) =
      if y = ry ∧ l ≤ x ∧ x < l + w then ⟨if x = l then ch else 32, attr⟩ else m.back (place x y) := by
  have hmarker : (m.mirrorFill l ry w 1 32 attr).back (place x y) =
      if y = ry ∧ l ≤ x ∧ x < l + w then ⟨32, attr⟩ else m.back (place x y) := by
    rw [fill_row hx hy hw (by omega) (by omega)]
    simp only [hend, and_true]
  rw [putc_place hx hy, hmarker]
  by_cases hin : y = ry ∧ l ≤ x ∧ x < l + w
  · rw [if_pos hin, if_pos hin]
    by_cases hat : x = l
    · rw [if_pos ⟨hat.symm, hin.1.symm⟩, if_pos hat]
    · rw [if_neg fun e => hat e.1.symm, if_neg hat]
  · rw [if_neg hin, if_neg hin, if_neg (by omega)]

lemma putSn_text (f : Menu) (m : State) (cx cy startx maxw i : ℤ) (attr : UInt8) :
    m.putSn cx cy startx maxw (f.items i) attr = m.putLoop cx cy startx maxw (f.text i) attr := by
  unfold Menu.text
  cases f.items i with
  | none => rfl
  | some s => rfl

/-- **An item is drawn as it looks**, and nothing else is drawn at. -/
lemma drawItem_place (hf : f.Fits) (hx : 0 ≤ x ∧ x < 80) (hy : 0 ≤ y ∧ y < 25) {ry : ℤ}
    (hry : -2147483648 ≤ ry ∧ ry < 25) (selected i : ℤ) (m : State) :
    (f.drawItem selected m i ry).back (place x y) =
      if y = ry ∧ f.x ≤ x ∧ x < f.x + f.w then f.look selected i (x - f.x) else m.back (place x y) := by
  obtain ⟨-, hw, hleft, hright, -, hline⟩ := hf
  have hrow := marker_row hx hy hw hleft hright hry m (if i = selected then 62 else 32)
    (if i = selected then f.selAttr else f.attr)
  unfold Menu.drawItem Menu.look
  dsimp only
  generalize (if i = selected then f.selAttr else f.attr) = ra at hrow ⊢
  by_cases hwide : f.w ≥ 3
  · have hcol : i32 (f.x + 2) = f.x + 2 := by
      unfold i32
      omega
    have hput := fun m => put_row hx hy (f.x + 2) ry (f.w - 2) 0 (by omega) (by omega) (by omega) le_rfl
      (by omega) (hline i) m ra
    simp only [add_zero, sub_zero] at hput
    rw [if_pos hwide, putSn_text, hcol, hput, hrow]
    by_cases hin : y = ry ∧ f.x ≤ x ∧ x < f.x + f.w
    · rw [if_pos hin, if_pos hin]
      by_cases htext : f.x + 2 ≤ x ∧ x < f.x + 2 + (f.text i).length
      · rw [if_pos (by omega), if_neg (by omega), if_neg (by omega), show x - (f.x + 2) = x - f.x - 2 by ring]
      · rw [if_neg (by omega)]
        by_cases h0 : x = f.x
        · rw [if_pos h0, if_pos (show x - f.x = 0 by omega)]
        rw [if_neg h0, if_neg (show ¬ x - f.x = 0 by omega)]
        by_cases h1 : x - f.x = 1
        · rw [if_pos h1]
        · rw [if_neg h1, List.getD_eq_default _ _ (by omega)]
    · rw [if_neg hin, if_neg hin, if_neg (by omega)]
  · rw [if_neg hwide, hrow]
    by_cases hin : y = ry ∧ f.x ≤ x ∧ x < f.x + f.w
    · rw [if_pos hin, if_pos hin]
      by_cases h0 : x = f.x
      · rw [if_pos h0, if_pos (show x - f.x = 0 by omega)]
      · rw [if_neg h0, if_neg (show ¬ x - f.x = 0 by omega), if_pos (by omega)]
    · rw [if_neg hin, if_neg hin]

/-- The items from one on. -/
lemma menuLoop_place (hf : f.Fits) (hx : 0 ≤ x ∧ x < 80) (hy : 0 ≤ y ∧ y < 25) {n : ℕ} {i : ℤ}
    (hi : 0 ≤ i) (hrow : f.y + i ≤ 2147483647) (selected : ℤ) (m : State) :
    (f.menuLoop selected n i m).back (place x y) =
      if f.x ≤ x ∧ x < f.x + f.w ∧ f.y + i ≤ y ∧ y < f.y + i + n then
        f.look selected (y - f.y) (x - f.x)
      else m.back (place x y) := by
  have htop := hf.top
  induction n generalizing i m with
  | zero =>
    rw [if_neg (by omega)]
    rfl
  | succ n ih =>
    -- the loop goes on only above the last row, so the next row does not wrap either
    have hry : i32 (f.y + i) = f.y + i := by
      unfold i32
      omega
    unfold Menu.menuLoop rows
    dsimp only
    rw [hry]
    push_cast
    by_cases hend : f.y + i ≥ 25
    · rw [if_pos hend, if_neg (by omega)]
    rw [if_neg hend, ih (by omega) (by omega), drawItem_place hf hx hy (by omega)]
    by_cases hlater : f.x ≤ x ∧ x < f.x + f.w ∧ f.y + (i + 1) ≤ y ∧ y < f.y + (i + 1) + n
    · rw [if_pos hlater, if_pos (by omega)]
    rw [if_neg hlater]
    by_cases hhere : y = f.y + i ∧ f.x ≤ x ∧ x < f.x + f.w
    · rw [if_pos hhere, if_pos (by omega), hhere.1, add_sub_cancel_left]
    · rw [if_neg hhere, if_neg (by omega)]

/-- **What `mirror_menu` draws.** -/
lemma menu_place (hf : f.Fits) (hx : 0 ≤ x ∧ x < 80) (hy : 0 ≤ y ∧ y < 25) (selected : ℤ) (m : State) :
    (f.mirrorMenu m selected).back (place x y) =
      if f.Inside x y then f.look selected (y - f.y) (x - f.x) else m.back (place x y) := by
  have hcount := hf.count
  have htop := hf.top
  unfold Menu.mirrorMenu Menu.Inside
  rw [menuLoop_place hf hx hy le_rfl (by omega)]
  congr 1
  rw [Int.toNat_of_nonneg hcount.1.le, add_zero]

end Draw

/-! ### The screen -/

section Screen

open State (Inv Tracked)
open Wm.State (Clears)

variable {f : Menu} {m base : State} {u : ℕ → Bool} {selected i c x y : ℤ}

lemma shown_drawItem (f : Menu) (selected : ℤ) (m : State) (i ry : ℤ) :
    (f.drawItem selected m i ry).shown = m.shown := by
  unfold Menu.drawItem
  dsimp only
  by_cases hwide : f.w ≥ 3
  · rw [if_pos hwide, State.shown_putSn, State.shown_putc, State.shown_fill]
  · rw [if_neg hwide, State.shown_putc, State.shown_fill]

lemma shown_menuLoop (f : Menu) (selected : ℤ) (n : ℕ) (i : ℤ) (m : State) :
    (f.menuLoop selected n i m).shown = m.shown := by
  induction n generalizing i m with
  | zero => rfl
  | succ n ih =>
    unfold Menu.menuLoop
    dsimp only
    by_cases hend : i32 (f.y + i) ≥ rows
    · rw [if_pos hend]
    · rw [if_neg hend, ih, shown_drawItem]

lemma place_eq (hx : 0 ≤ x ∧ x < 80) (hy : 0 ≤ y ∧ y < 25) : place x y = y.toNat * cols + x.toNat := by
  unfold place cols
  omega

/-- A cell with a character comes to the screen by a flush. -/
lemma flush_cell {t : Tracked} (h : Inv t) {y x : ℕ} (hy : y < rows) (hx : x < cols)
    (h10 : (t.m.back (y * cols + x)).ch ≠ 10) (h0 : (t.m.back (y * cols + x)).ch ≠ 0) :
    (t.m.mirrorFlush.wm.cell x y).Alike (t.m.back (y * cols + x)) := by
  by_cases hb : t.m.Blank
  · have hblank := hb (y * cols + x) (Nat.mul_comm rows cols ▸ State.place_lt hy hx)
    rw [(State.flush_blank h.clears hb hy hx).2.2]
    exact State.cleared_alike hblank.1 hblank.2
  · obtain ⟨-, -, hcells⟩ := State.flush_cells h.clears hb
    rw [(hcells y hy x hx).2]
    exact ((h.known y hy x hx).sent_alike _).mpr ⟨h10, fun _ e => h0 (congrArg Cell.ch e)⟩

lemma text_noNul (f : Menu) (i : ℤ) : 0 ∉ f.text i := by
  unfold Menu.text
  cases f.items i with
  | none => exact List.not_mem_nil
  | some s => exact s.noNul

lemma look_ch (hf : f.Fits) (selected i c : ℤ) :
    (f.look selected i c).ch ≠ 10 ∧ (f.look selected i c).ch ≠ 0 := by
  unfold Menu.look
  dsimp only
  split_ifs
  · decide
  · decide
  · decide
  · rcases lt_or_ge (c - 2).toNat (f.text i).length with h | h
    · rw [List.getD_eq_getElem _ _ h]
      exact ⟨fun e => hf.line i (e ▸ List.getElem_mem h), fun e => text_noNul f i (e ▸ List.getElem_mem h)⟩
    · rw [List.getD_eq_default _ _ h]
      decide

/-- The menu is on the screen, and what is around it is that of `base`. -/
structure Menu.Shows (f : Menu) (base m : State) (selected : ℤ) : Prop where
  back : ∀ x y, 0 ≤ x ∧ x < 80 → 0 ≤ y ∧ y < 25 → m.back (place x y) =
    if f.Inside x y then f.look selected (y - f.y) (x - f.x) else base.back (place x y)
  screen : ∀ x y, 0 ≤ x ∧ x < 80 → 0 ≤ y ∧ y < 25 → f.Inside x y →
    (m.wm.cell x.toNat y.toNat).Alike (f.look selected (y - f.y) (x - f.x))

/-- What is around the menu is that of `base`. -/
def Menu.Around (f : Menu) (base m : State) : Prop :=
  ∀ x y, 0 ≤ x ∧ x < 80 → 0 ≤ y ∧ y < 25 → ¬ f.Inside x y → m.back (place x y) = base.back (place x y)

/-- **One turn**: the menu is drawn and flushed. -/
lemma redraw_shows (hf : f.Fits) (h : Inv ⟨m, u⟩) (haround : f.Around base m) (selected : ℤ) :
    (∃ u', Inv ⟨f.redraw m selected, u'⟩) ∧ f.Shows base (f.redraw m selected) selected := by
  have hinv : Inv ⟨f.mirrorMenu m selected, u⟩ :=
    h.of_shown (shown_menuLoop f selected f.count.toNat 0 m) rfl
  have hback : (f.redraw m selected).back = (f.mirrorMenu m selected).back := by
    unfold Menu.redraw
    exact back_flush (f.mirrorMenu m selected)
  refine ⟨⟨_, hinv.flush.1⟩, fun x y hx hy => ?_, fun x y hx hy hin => ?_⟩
  · rw [hback, menu_place hf hx hy]
    by_cases hin : f.Inside x y
    · rw [if_pos hin, if_pos hin]
    · rw [if_neg hin, if_neg hin, haround x y hx hy hin]
  · have hcell := menu_place hf hx hy selected m
    rw [if_pos hin, place_eq hx hy] at hcell
    obtain ⟨h10, h0⟩ := look_ch hf selected (y - f.y) (x - f.x)
    have hflush := flush_cell hinv (y := y.toNat) (x := x.toNat) (by unfold rows; omega)
      (by unfold cols; omega)
    dsimp only at hflush
    rw [hcell] at hflush
    exact hflush h10 h0

lemma Menu.Shows.around (h : f.Shows base m selected) : f.Around base m := fun x y hx hy hin =>
  (h.back x y hx hy).trans (if_neg hin)

end Screen

/-! ### The keys -/

section Keys

variable {f : Menu} {m base : State} {u : ℕ → Bool} {selected k : ℤ} {ks : List ℤ}

/-- A key that does not end the menu moves on the cycle of its items. -/
lemma selectLoop_cons (hf : f.Fits) (hsel : 0 ≤ selected ∧ selected < f.count) (hent : k ≠ keyEnter)
    (hesc : k ≠ keyEsc) (m : State) (ks : List ℤ) : f.selectLoop m selected (k :: ks) =
      f.selectLoop (f.redraw m selected) ((selected + Menu.step k) % f.count) ks := by
  have hcount := hf.count
  -- the sums do not wrap, and are not negative before the remainder is taken
  have hup : (i32 (i32 (selected + f.count) - 1)).tmod f.count = (selected + -1) % f.count := by
    rw [show i32 (i32 (selected + f.count) - 1) = selected + -1 + f.count by unfold i32; omega,
      Int.tmod_eq_emod_of_nonneg (by omega), Int.add_emod_right]
  have hdown : (i32 (selected + 1)).tmod f.count = (selected + 1) % f.count := by
    rw [show i32 (selected + 1) = selected + 1 by unfold i32; omega,
      Int.tmod_eq_emod_of_nonneg (by omega)]
  unfold Menu.step
  rw [Menu.selectLoop]
  by_cases hku : k = keyUp
  · rw [if_pos hku, if_pos hku, hup]
  rw [if_neg hku, if_neg hku]
  by_cases hkd : k = keyDown
  · rw [if_pos hkd, if_pos hkd, hdown]
  · rw [if_neg hkd, if_neg hent, if_neg hesc, if_neg hkd, add_zero, Int.emod_eq_of_lt hsel.1 hsel.2]

lemma chosen_cons (f : Menu) (selected : ℤ) (hent : k ≠ keyEnter) (hesc : k ≠ keyEsc) (ks : List ℤ) :
    f.chosen selected (k :: ks) = f.chosen ((selected + Menu.step k) % f.count) ks := by
  unfold Menu.chosen Menu.moves Line.typed
  rw [List.takeWhile_cons_of_pos (by simp [hent, hesc]), List.map_cons, List.sum_cons, Int.emod_add_emod,
    add_assoc]

lemma answer_cons (f : Menu) (selected : ℤ) (hent : k ≠ keyEnter) (hesc : k ≠ keyEsc) (ks : List ℤ) :
    f.answer selected (k :: ks) = f.answer ((selected + Menu.step k) % f.count) ks := by
  unfold Menu.answer
  rw [List.find?_cons_of_neg (by simp [hent, hesc]), chosen_cons f selected hent hesc]

lemma chosen_ended (hsel : 0 ≤ selected ∧ selected < f.count) (hks : Line.typed ks = []) :
    f.chosen selected ks = selected := by
  unfold Menu.chosen
  rw [hks]
  exact (congrArg (· % f.count) (add_zero selected)).trans (Int.emod_eq_of_lt hsel.1 hsel.2)

/-- **The run of the menu**, from any turn on. -/
lemma selectLoop_shows (hf : f.Fits) (h : State.Inv ⟨m, u⟩) (haround : f.Around base m)
    (hsel : 0 ≤ selected ∧ selected < f.count) (ks : List ℤ) :
    (f.selectLoop m selected ks).1 = f.answer selected ks ∧
      f.Shows base (f.selectLoop m selected ks).2.1 (f.chosen selected ks) := by
  induction ks generalizing m u selected with
  | nil =>
    rw [chosen_ended hsel rfl, Menu.selectLoop]
    dsimp only
    exact ⟨rfl, (redraw_shows hf h haround selected).2⟩
  | cons k ks ih =>
    obtain ⟨⟨u', hinv⟩, hshows⟩ := redraw_shows hf h haround selected
    by_cases hent : k = keyEnter
    · have hend : Line.typed (k :: ks) = [] := List.takeWhile_cons_of_neg (by simp [hent])
      unfold Menu.answer
      rw [chosen_ended hsel hend, List.find?_cons_of_pos (by simp [hent]), Menu.selectLoop]
      rw [hent, if_neg (by decide), if_neg (by decide), if_pos rfl]
      dsimp only
      exact ⟨rfl, hshows⟩
    by_cases hesc : k = keyEsc
    · have hend : Line.typed (k :: ks) = [] := List.takeWhile_cons_of_neg (by simp [hesc])
      unfold Menu.answer
      rw [chosen_ended hsel hend, List.find?_cons_of_pos (by simp [hesc]), Menu.selectLoop]
      rw [hesc, if_neg (by decide), if_neg (by decide), if_neg (by decide), if_pos rfl]
      dsimp only
      exact ⟨rfl, hshows⟩
    · rw [selectLoop_cons hf hsel hent hesc, answer_cons f selected hent hesc,
        chosen_cons f selected hent hesc]
      exact ih hinv hshows.around
        ⟨Int.emod_nonneg _ hf.count.1.ne', Int.emod_lt_of_pos _ hf.count.1⟩

end Keys

/-- **The menu is a place on the cycle of its items.** After `mirror_init`, any drawing and any keys,
Enter returns the item at which the keys up and down have arrived, and Esc returns -1; and whenever a key
is read, the screen shows every item of the menu with that item highlighted, and the back buffer is as
before around the menu. -/
theorem menuSelect_choice {f : Menu} (hf : f.Fits) (m : State) (w : Wm.State) (kb frames : List UInt8)
    (mounted : Bool) (before : List Wm.State.Event) (attr : UInt8) (calls : List State.Call)
    (selected : ℤ) (ks : List ℤ) :
    let base := run State.exec { m with wm := run Wm.State.exec (w.boot kb frames mounted) before }
      (.init attr :: calls)
    let r := f.mirrorMenuSelect base selected ks
    r.1 = f.answer (f.first selected) ks ∧ f.Shows base r.2.1 (f.chosen (f.first selected) ks) := by
  intro base r
  set t := run State.track
    ⟨{ m with wm := run Wm.State.exec (w.boot kb frames mounted) before }, fun _ => false⟩
    (.init attr :: calls) with ht
  have hinv : State.Inv t :=
    run_inv_all (fun _ c h => h.track c) calls
      (State.init_inv (Wm.State.clears_run w kb frames mounted before) attr)
  have hbase : State.Inv ⟨base, t.unsent⟩ := by
    have hm : t.m = base := State.track_run _ _
    rw [← hm]
    exact hinv
  have hcount := hf.count
  have hfirst : 0 ≤ f.first selected ∧ f.first selected < f.count := by
    unfold Menu.first
    split_ifs <;> omega
  have hr : r = f.selectLoop base (f.first selected) ks := if_neg (by omega)
  rw [hr]
  exact selectLoop_shows hf hbase (fun _ _ _ _ _ => rfl) hfirst ks

/-- Three items, the last of them a `q`. -/
def threeItems : Menu :=
  ⟨3, 4, 26, fun i => if i = 2 then some ⟨[113], by decide⟩ else none, 3, 15, 31⟩

lemma threeItems_fits : threeItems.Fits := by
  refine ⟨by decide, by decide, by decide, by decide, by decide, fun i => ?_⟩
  unfold Menu.text threeItems
  dsimp only
  split_ifs
  · decide
  · decide

theorem menuSelect_choice_wraps :
    let base := run State.exec
      { blankScreen with wm := run Wm.State.exec (blankScreen.wm.boot [] [] true) [] } [.init 15]
    let r := threeItems.mirrorMenuSelect base 0 [keyDown, 65, keyUp, keyUp, keyEnter]
    r.1 = some 2 ∧ threeItems.Shows base r.2.1 2 :=
  menuSelect_choice threeItems_fits blankScreen blankScreen.wm [] [] true [] 15 [] 0
    [keyDown, 65, keyUp, keyUp, keyEnter]

end LunariaOS.Mirror
