import LunariaOS.Fs.Code
import LunariaOS.Wm.Cells

/-!
The drawing program `paint.c`.

A pixel is a space whose background is its colour. `view` is the program's memory of what is on the
screen, and a cell is drawn only where it differs from it; the cursor is drawn over the cells and
remembered like them. The program draws by system calls on the current terminal of the window
manager, and keeps its picture in a file.
-/

namespace LunariaOS.Paint

open LunariaOS.Lib LunariaOS.Fs LunariaOS.Wm
open LunariaOS.Wm.State (text)

def canvW : ℕ := 80
def canvH : ℕ := 24
def statusRow : ℕ := 24
def statusW : ℕ := 80

def kEsc : ℤ := 0x1B
def kEnter : ℤ := 10
def kSpace : ℤ := 32
def kUp : ℤ := 0xE0
def kDown : ℤ := 0xE1
def kLeft : ℤ := 0xE2
def kRight : ℤ := 0xE3

def cBlack : ℕ := 0
def cBlue : ℕ := 1
def cLightGrey : ℤ := 7
def cWhite : ℕ := 15

/-- `USER_COLOR`. -/
def userColor (bg fg : ℕ) : ℕ := (bg <<< 4) ||| fg

/-- `ATTR_STATUS`. -/
def attrStatus : UInt8 := UInt8.ofNat (userColor cBlue cWhite)

/-- `ATTR_CURSOR`. -/
def attrCursor : UInt8 := UInt8.ofNat (userColor cBlack cWhite)

/-- `HELP_END`. -/
def helpEnd : ℕ := statusW - 9

/-- `cname`. -/
def cname : List (List UInt8) :=
  [text "black", text "blue", text "green", text "cyan", text "red", text "magenta", text "brown",
    text "grey", text "dkgrey", text "lblue", text "lgreen", text "lcyan", text "lred",
    text "lmagenta", text "yellow", text "white"]

/-- `"paint.bit"`. -/
def fileName : CStr := ⟨text "paint.bit", by decide⟩

/-- The program, with the disk and the window manager under it. `pix` and `view` take the row first;
`view` is `view_ch` and `view_attr`. -/
structure State where
  pix : ℕ → ℕ → UInt8
  view : ℕ → ℕ → Cell
  stateline : Mem
  cx : ℤ
  cy : ℤ
  fgcol : ℤ
  drawing : Bool
  exited : Bool
  disk : Disk
  wm : Wm.State

/-- An array of rows with one place overwritten. -/
def setAt {α : Type*} (m : ℕ → ℕ → α) (y x : ℕ) (c : α) : ℕ → ℕ → α :=
  fun j i => if j = y ∧ i = x then c else m j i

/-- `(unsigned int)n`. -/
def unsigned (n : ℤ) : ℕ := (n % 4294967296).toNat

namespace State

/-- `sys_putchar_at`, and the cell remembered. -/
def put (s : State) (x y : ℤ) (c : Cell) : State :=
  { s with
    view := setAt s.view y.toNat x.toNat c
    wm := s.wm.syscall (.putcharAt c.ch.toNat (unsigned x) (unsigned y) c.attr.toNat) }

/-- The cell of a pixel. -/
def block (col : UInt8) : Cell := ⟨32, UInt8.ofNat (userColor col.toNat col.toNat)⟩

/-- The cell of the cursor. -/
def star : Cell := ⟨42, attrCursor⟩

def drawContent (s : State) (x y : ℤ) : State :=
  if y < 0 ∨ y ≥ canvH ∨ x < 0 ∨ x ≥ canvW then s
  else
    let c := block (s.pix y.toNat x.toNat)
    if s.view y.toNat x.toNat = c then s else s.put x y c

def drawCursor (s : State) : State :=
  let s := s.put s.cx s.cy star
  { s with wm := s.wm.syscall (.gotoXy (unsigned s.cx) (unsigned s.cy)) }

/-- `status_put`: the line and the place after the last byte. -/
def statusPut (line : Mem) (i : ℕ) (str : List UInt8) (stop : ℕ) : Mem × ℕ :=
  match str with
  | [] => (line, i)
  | b :: str => if i < stop then statusPut (Function.update line i b) (i + 1) str stop else (line, i)

/-- The loop of `itoa`: the digits, the last one first. -/
def itoaDigits (m : ℕ) : List UInt8 :=
  UInt8.ofNat (48 + m % 10) :: if m / 10 > 0 then itoaDigits (m / 10) else []
termination_by m
decreasing_by omega

def itoa (n : ℤ) : List UInt8 :=
  let digits := itoaDigits (u32 n.natAbs)
  (if n < 0 then digits ++ [45] else digits).reverse

lemma itoaDigits_length {m : ℕ} (k : ℕ) (hm : m < 10 ^ (k + 1)) : (itoaDigits m).length ≤ k + 1 := by
  induction k generalizing m with
  | zero =>
    rw [itoaDigits, if_neg (by omega)]
    exact le_rfl
  | succ k ih =>
    rw [itoaDigits]
    split_ifs with h
    · have := ih (m := m / 10) (by rw [pow_succ] at hm; omega)
      rw [List.length_cons]
      omega
    · rw [List.length_cons, List.length_nil]
      omega

lemma itoa_length (n : ℤ) : (itoa n).length ≤ 11 := by
  have h := @itoaDigits_length (u32 n.natAbs) 9 ((u32_lt _).trans (by norm_num))
  unfold itoa
  dsimp only
  split_ifs <;> simp only [List.length_reverse, List.length_append, List.length_singleton] <;> omega

def statusBuild (s : State) : State :=
  let line : Mem := s.stateline.blit 0 statusW fun _ => 32
  let (line, i) := statusPut line 0 (if s.drawing then text "DRAW" else text "MOVE") helpEnd
  let (line, i) := statusPut line i (text "  col:") helpEnd
  let (line, i) := statusPut line i (itoa s.fgcol) helpEnd
  let (line, i) := statusPut line i (text " ") helpEnd
  let (line, i) := statusPut line i (cname.getD s.fgcol.toNat []) helpEnd
  let (line, _) :=
    statusPut line i (text "  [] col  spc toggle  s save  l load  enter new") helpEnd
  let (line, _) := statusPut line helpEnd (text " esc quit") statusW
  { s with stateline := line }

/-- One turn of the loop of `flush_status`. -/
def flushCell (s : State) (x : ℕ) : State :=
  if s.view statusRow x = ⟨s.stateline x, attrStatus⟩ then s
  else s.put x statusRow ⟨s.stateline x, attrStatus⟩

def flushStatus (s : State) : State := (List.range statusW).foldl flushCell s

/-- The inner loop of `redraw_all`. -/
def redrawRow (s : State) (y : ℕ) : State :=
  (List.range canvW).foldl (fun s (x : ℕ) => s.drawContent x y) s

def redrawAll (s : State) : State :=
  ((List.range canvH).foldl redrawRow s).flushStatus.drawCursor

def step (s : State) (dx dy : ℤ) : State :=
  let nx := s.cx + dx
  let ny := s.cy + dy
  if nx < 0 ∨ nx ≥ canvW ∨ ny < 0 ∨ ny ≥ canvH then s
  else
    -- restore what the cursor was covering
    let s := s.drawContent s.cx s.cy
    let s := { s with cx := nx, cy := ny }
    let s :=
      if s.drawing then
        { s with pix := setAt s.pix s.cy.toNat s.cx.toNat (UInt8.ofNat s.fgcol.toNat) }
      else s
    (s.drawContent s.cx s.cy).drawCursor

def clearCanvas (s : State) : State :=
  { s with pix := fun _ _ => 0, cx := 0, cy := 0 }.redrawAll

def initCanvas (s : State) : State :=
  { s with
    view := fun _ _ => ⟨32, 0⟩
    pix := fun _ _ => 0
    cx := 0
    cy := 0
    fgcol := cLightGrey
    drawing := false }

/-! ### The picture file -/

/-- The bytes that `save_bit` writes. -/
def bitFile (s : State) : List UInt8 :=
  text "BIT" ++ [1, UInt8.ofNat (canvW % 256), UInt8.ofNat (canvW / 256), UInt8.ofNat (canvH % 256),
    UInt8.ofNat (canvH / 256)] ++
  (List.range canvH).flatMap fun y => (List.range canvW).map fun x => s.pix y x

def saveBit (sb : Superblock) (s : State) : State :=
  let p := s.bitFile.length
  { s with disk := (fsWrite sb fileName fsFile (fun i => s.bitFile.getD i 0) p s.disk).2 }

/-- The first half of `load_bit`: the buffer, if the file is a picture of the size of the canvas.
What the buffer holds before the read is never looked at. -/
def readBit (sb : Superblock) (d : Disk) : Option Mem × Disk :=
  match fsRead sb fileName (fun _ => 0) (8 + canvW * canvH) d with
  | (n, buf, d) =>
    if n < 8 then (none, d)
    else if buf 0 ≠ 66 ∨ buf 1 ≠ 73 ∨ buf 2 ≠ 84 ∨ buf 3 ≠ 1 then (none, d)
    else
      let w := (buf 4).toNat ||| ((buf 5).toNat <<< 8)
      let h := (buf 6).toNat ||| ((buf 7).toNat <<< 8)
      if w ≠ canvW ∨ h ≠ canvH ∨ n < 8 + canvW * canvH then (none, d) else (some buf, d)

def loadBit (sb : Superblock) (s : State) : State :=
  match readBit sb s.disk with
  | (none, d) => { s with disk := d }
  | (some buf, d) =>
    { s with pix := fun y x => buf (8 + y * canvW + x), cx := 0, cy := 0, disk := d }.redrawAll

/-! ### The keys -/

def setMode (s : State) : State := s.statusBuild.flushStatus.drawCursor

/-- `_start` up to its loop. What is in the arrays before it does not count. -/
def start (s : State) : State :=
  let s := s.initCanvas
  let s := { s with wm := s.wm.syscall .clear }
  s.statusBuild.redrawAll

/-- One turn of the loop of `_start`, for the key `k`. After `sys_exit` the program is gone. -/
def key (sb : Superblock) (s : State) (k : ℤ) : State :=
  if s.exited then s
  else if k = kUp then s.step 0 (-1)
  else if k = kDown then s.step 0 1
  else if k = kLeft then s.step (-1) 0
  else if k = kRight then s.step 1 0
  else if k = kSpace then { s with drawing := !s.drawing }.setMode
  else if k = 91 then { s with fgcol := (s.fgcol + 15).tmod 16 }.setMode
  else if k = 93 then { s with fgcol := (s.fgcol + 1).tmod 16 }.setMode
  else if k = 115 ∨ k = 83 then (saveBit sb s).drawCursor
  else if k = 108 ∨ k = 76 then (loadBit sb s).drawCursor
  else if k = kEnter then s.clearCanvas
  else if k = kEsc then { s with wm := s.wm.syscall .clear, exited := true }
  else s.drawCursor

/-- The program when it is loaded: its static variables are zero. -/
def loaded (disk : Disk) (wm : Wm.State) : State where
  pix := fun _ _ => 0
  view := fun _ _ => ⟨0, 0⟩
  stateline := fun _ => 0
  cx := 0
  cy := 0
  fgcol := 0
  drawing := false
  exited := false
  disk := disk
  wm := wm

end State

end LunariaOS.Paint
