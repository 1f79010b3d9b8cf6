import LunariaOS.Lib.Fuel
import LunariaOS.Edit.Code
import LunariaOS.Mirror.Code
import LunariaOS.Paint.Code

/-!
The view of the editor: which part of the buffer is on the screen, and the frame that is drawn.

`top` is where the first row starts and `offx` the first column that is shown. `scroll_fix` moves
both to the cursor before every frame. Its two loops are given a number of rounds and are `none` when
these run out.
-/

namespace LunariaOS.Edit

open LunariaOS.Lib LunariaOS.Fs
open LunariaOS.Wm.State (text)
open LunariaOS.Paint.State (itoa)
open LunariaOS.Mirror (cols)

def textTop : ℕ := 1
def textBot : ℕ := 23
def textRows : ℕ := textBot - textTop + 1

def attrText : UInt8 := 0x07
def attrTitle : UInt8 := 0x1F
def attrStatus : UInt8 := 0x1F

/-- The editor with its view. -/
structure View where
  s : State
  top : ℕ
  offx : ℤ

namespace View

open State (lineBegin lineEnd colOf width)

/-! ### Scrolling -/

/-- The first loop of `scroll_fix`: `top` goes up to the cursor's line. -/
def scrollUp (buf : Mem) (lb : ℕ) : ℕ → ℕ → Option ℕ
  | 0, _ => none
  | n + 1, top =>
    if lb < top then scrollUp buf lb n (if top > 0 then lineBegin buf (top - 1) else 0) else some top

/-- The inner loop of the second one: the start of the line `n` rows further down, or a place behind
the end of the text when there are fewer. -/
def lastShown (buf : Mem) (len : ℕ) : ℕ → ℕ → ℕ
  | 0, last => last
  | n + 1, last =>
    let e := lineEnd buf len last
    if e ≥ len then len + 1 else lastShown buf len n (e + 1)

/-- The second loop of `scroll_fix`: `top` goes down until the cursor's line is shown. -/
def scrollDown (buf : Mem) (len lb : ℕ) : ℕ → ℕ → Option ℕ
  | 0, _ => none
  | n + 1, top =>
    if lb ≤ lastShown buf len (textRows - 1) top then some top
    else scrollDown buf len lb n (lineEnd buf len top + 1)

/-- The end of `scroll_fix`: the first column that is shown, for a cursor in the column `c`. -/
def fixCol (c offx : ℤ) : ℤ :=
  let offx := if c < offx then c else if c ≥ offx + cols then c - (cols - 1) else offx
  if offx < 0 then 0 else offx

/-- `scroll_fix`, with at most `n` rounds of each loop. -/
def scrollFix (n : ℕ) (v : View) : Option View := do
  let lb := lineBegin v.s.buf v.s.pos
  let top ← scrollUp v.s.buf lb n v.top
  let top ← scrollDown v.s.buf v.s.len lb n top
  some { v with top := top, offx := fixCol (colOf v.s.buf v.s.pos) v.offx }

/-! ### Drawing -/

/-- The byte that stands on the screen for `c`. -/
def glyph (c : UInt8) : UInt8 := if schar c < 32 ∨ schar c > 126 then 46 else c

/-- A cell of the text area, if it is on the screen. -/
def put (m : Mirror.State) (row sx : ℤ) (c : UInt8) : Mirror.State :=
  if 0 ≤ sx ∧ sx < cols then m.mirrorPutc sx row c attrText else m

/-- The cells of the byte `c` in the column `col`: `w` blanks for a tab. -/
def drawByte (offx row : ℤ) (col w : ℕ) (c : UInt8) (m : Mirror.State) : Mirror.State :=
  if c = 9 then (List.range w).foldl (fun m (j : ℕ) => put m row (col + j - offx) 32) m
  else put m row (col - offx) (glyph c)

/-- The loop of `draw_line` over the bytes of a line. -/
def drawBytes (buf : Mem) (offx row : ℤ) (e i col : ℕ) (m : Mirror.State) : Mirror.State :=
  if i < e then
    let w := width (buf i) col
    let m := drawByte offx row col w (buf i) m
    let col := col + w
    if col - offx ≥ cols then m else drawBytes buf offx row e (i + 1) col m
  else m
termination_by e - i

/-- `draw_line`. -/
def drawLine (v : View) (m : Mirror.State) (row : ℤ) (s : ℕ) : Mirror.State :=
  let m := m.mirrorFill 0 row cols 1 32 attrText
  if s > v.s.len then m else drawBytes v.s.buf v.offx row (lineEnd v.s.buf v.s.len s) s 0 m

/-- The loop of `draw` over the rows, from `row` on. -/
def drawRows (v : View) : ℕ → ℤ → ℕ → Mirror.State → Mirror.State
  | 0, _, _, m => m
  | n + 1, row, s, m =>
    let m := v.drawLine m row s
    let e := lineEnd v.s.buf v.s.len s
    drawRows v n (row + 1)
      (if s ≤ v.s.len then (if e < v.s.len then e + 1 else v.s.len + 1) else s) m

/-- `line_of`. -/
def lineOf (buf : Mem) (p : ℕ) : ℕ := 1 + (List.range p).countP fun i => buf i = 10

/-- The rows between the first one and the cursor. -/
def caretRow (v : View) : ℕ :=
  (List.range' v.top (v.s.pos - v.top)).countP fun i => v.s.buf i = 10

/-- The cell in which the caret is put: its column and its row. -/
def caret (v : View) : ℤ × ℤ := (colOf v.s.buf v.s.pos - v.offx, textTop + v.caretRow)

/-- The frame that `draw` builds, with the message `msg`. -/
def frame (v : View) (msg : CStr) (m : Mirror.State) : Mirror.State :=
  let title := strOf (text "lunaria edit - " ++
    if v.s.fname.bytes = [] then text "(untitled)" else v.s.fname.bytes)
  let m := m.mirrorStatus 0 title (strOf (if v.s.dirty then text "modified" else [])) attrTitle
  let m := drawRows v textRows textTop v.top m
  if v.s.cmdMode then
    m.mirrorStatus 24 (strOf (text ":" ++ v.s.cmd)) (strOf (text "enter run - esc cancel")) attrStatus
  else
    let right := strOf (text "L" ++ itoa (lineOf v.s.buf v.s.pos) ++ text " C" ++
      itoa (colOf v.s.buf v.s.pos + 1))
    let left := if msg.bytes ≠ [] then msg
      else strOf (text "esc commands | arrows move | type to edit")
    m.mirrorStatus 24 left right attrStatus

/-- `draw`. -/
def draw (v : View) (msg : CStr) (m : Mirror.State) : Mirror.State :=
  let m := v.frame msg m
  if v.s.cmdMode then m.mirrorCursor (2 + v.s.cmd.length) 24
  else m.mirrorCursor v.caret.1.toNat v.caret.2.toNat

/-! ### The view under the keys -/

/-- `load_into`. -/
def loadInto (sb : Superblock) (v : View) (name : CStr) : Bool × View :=
  match State.loadInto sb v.s name with
  | (true, s) => (true, ⟨s, 0, 0⟩)
  | (false, s) => (false, { v with s := s })

/-- A key. A load and an emptied buffer reset the view. -/
def key (sb : Superblock) (v : View) (k : ℤ) : View :=
  match State.key sb v.s k with
  | (did, s) => if did = .loaded ∨ did = .reset then ⟨s, 0, 0⟩ else { v with s := s }

/-- `startup`. -/
def startup (sb : Superblock) (d : Disk) (name : CStr) : View := ⟨State.startup sb d name, 0, 0⟩

end View

end LunariaOS.Edit
