import LunariaOS.Libc.Strto

/-!
Formatted output: the interpreter `do_format` of `stdio.c` and the functions of the `printf` family on
top of it.

A pointer into the format is what is left of the object that holds it. The programs are compiled
without optimisation, so that arithmetic on `int` wraps. A conversion asks for an argument of the type
that C wants for it; an argument list that does not hold it has no meaning, and is a fault here.
-/

namespace LunariaOS.Stdio

open LunariaOS.Lib LunariaOS.Libc

/-- Why a run of the interpreter has no result: it read behind the end of the format, or asked for an
argument that is not there. -/
inductive Fault
  | past
  | arg
  deriving DecidableEq

/-- An argument: an `int` or `unsigned int`, a `long long` or `unsigned long long`, a pointer to
characters with the object it points into, any other pointer. -/
inductive Arg
  | word (w : BitVec 32)
  | dword (w : BitVec 64)
  | str (s : Option (List UInt8))
  | ptr (a : BitVec 32)

/-- What a loop over the format gives. -/
def scanned {α : Type*} : Option α → Except Fault α
  | none => .error .past
  | some x => .ok x

lemma scanned_ok {α : Type*} {x : Option α} {a : α} (h : scanned x = .ok a) : x = some a := by
  cases x with
  | none => cases h
  | some b =>
    cases h
    rfl

/-- A sequence of two steps has a result only through one of the first. -/
lemma bind_ok {ε α β : Type} {x : Except ε α} {f : α → Except ε β} {b : β}
    (h : x >>= f = .ok b) : ∃ a, x = .ok a ∧ f a = .ok b := by
  cases x with
  | error e => cases h
  | ok a => exact ⟨a, rfl, h⟩

/-! ### The directive -/

structure Flags where
  left : Bool := false
  zero : Bool := false
  plus : Bool := false
  space : Bool := false
  alt : Bool := false
  deriving DecidableEq

def isFlag (c : UInt8) : Bool :=
  c = ch '-' || c = ch '0' || c = ch '+' || c = ch ' ' || c = ch '#'

def Flags.set (f : Flags) (c : UInt8) : Flags :=
  if c = ch '-' then { f with left := true }
  else if c = ch '0' then { f with zero := true }
  else if c = ch '+' then { f with plus := true }
  else if c = ch ' ' then { f with space := true }
  else { f with alt := true }

def isDec (c : UInt8) : Bool := ch '0' ≤ c && c ≤ ch '9'

/-- `n = n * 10 + (c - '0')`. -/
def addDec (n : ℤ) (c : UInt8) : ℤ := i32 (n * 10 + (c.toNat - 48))

/-- `va_arg` of an `int` or an `unsigned int`. -/
def vaWord : List Arg → Except Fault (BitVec 32 × List Arg)
  | .word w :: ap => .ok (w, ap)
  | _ => .error .arg

/-- The field width, with the flags after it. -/
def readWidth (f : Flags) (p : List UInt8) (ap : List Arg) :
    Except Fault (Flags × ℤ × List UInt8 × List Arg) :=
  match p with
  | [] => .error .past
  | c :: q =>
    if c = ch '*' then do
      let (w, ap) ← vaWord ap
      if w.toInt < 0 then .ok ({ f with left := true }, i32 (-w.toInt), q, ap)
      else .ok (f, w.toInt, q, ap)
    else do
      let (w, p) ← scanned (walk isDec addDec 0 p)
      .ok (f, w, p, ap)

/-- The precision, -1 when there is none. -/
def readPrec (p : List UInt8) (ap : List Arg) : Except Fault (ℤ × List UInt8 × List Arg) :=
  match p with
  | [] => .error .past
  | c :: q =>
    if c = ch '.' then
      match q with
      | [] => .error .past
      | c :: r =>
        if c = ch '*' then do
          let (w, ap) ← vaWord ap
          .ok (if w.toInt < 0 then -1 else w.toInt, r, ap)
        else do
          let (n, p) ← scanned (walk isDec addDec 0 q)
          .ok (n, p, ap)
    else .ok (-1, p, ap)

def isLength (c : UInt8) : Bool :=
  c = ch 'h' || c = ch 'l' || c = ch 'z' || c = ch 'j' || c = ch 't'

/-- The loop over the length modifiers, on `is_ll`. -/
def readLength (ll : Bool) : List UInt8 → Except Fault (Bool × List UInt8)
  | [] => .error .past
  | c :: p =>
    if isLength c then
      if c = ch 'l' then
        match p with
        | [] => .error .past
        | d :: q => if d = ch 'l' then readLength true q else readLength ll (d :: q)
      else readLength (ll || c = ch 'j') p
    else .ok (ll, c :: p)

/-- What stands between the `%` and the conversion character. -/
structure Spec where
  flags : Flags
  width : ℤ
  prec : ℤ
  ll : Bool

/-- Read a directive up to its conversion character. -/
def readSpec (p : List UInt8) (ap : List Arg) : Except Fault (Spec × List UInt8 × List Arg) := do
  let (flags, p) ← scanned (walk isFlag Flags.set {} p)
  let (flags, width, p, ap) ← readWidth flags p ap
  let (prec, p, ap) ← readPrec p ap
  let (ll, p) ← readLength false p
  .ok (⟨flags, width, prec, ll⟩, p, ap)

/-! ### The emitters -/

section Emit

variable {σ : Type} (emit : σ → UInt8 → σ)

/-- `put_str`. -/
def putStr (o : σ) (s : List UInt8) (n : ℤ) : σ := ((cstr s).take n.toNat).foldl emit o

/-- `put_pad`. -/
def putPad (o : σ) (c : UInt8) (n : ℤ) : σ := (fun o => emit o c)^[n.toNat] o

/-- The digits of a number, the last one first, as the loop of `put_uint` finds them. -/
def lowDigits (base v : ℕ) : List ℕ :=
  v % base :: if v / base = 0 ∨ base < 2 then [] else lowDigits base (v / base)
termination_by v
decreasing_by
  rename_i h
  have hb : 1 < base := by omega
  have hv : v ≠ 0 := fun e => h (Or.inl (by simp [e]))
  exact Nat.div_lt_self (by omega) hb

/-- `digits`. -/
def digitChar (upper : Bool) (d : ℕ) : UInt8 :=
  ch ((if upper then "0123456789ABCDEF" else "0123456789abcdef").toList.getD d '0')

/-- `put_uint`. -/
def putUint (o : σ) (v base : ℕ) (upper : Bool) (width : ℤ) (zero left alt : Bool) : σ :=
  let tmp := (if v = 0 ∧ base = 8 ∧ alt then [ch '0'] else []) ++
    (lowDigits base v).map (digitChar upper)
  let pre : ℤ := if alt ∧ base = 16 then 2 else 0
  let total := tmp.length + pre
  let o := if !left && !zero then putPad emit o (ch ' ') (i32 (width - total)) else o
  let o := if pre ≠ 0 then emit (emit o (ch '0')) (if upper then ch 'X' else ch 'x') else o
  let o := if !left && zero then putPad emit o (ch '0') (i32 (width - total)) else o
  let o := tmp.reverse.foldl emit o
  if left then putPad emit o (ch ' ') (i32 (width - total)) else o

/-- The digits of `mag`, the last one first, as the loop of `%d` finds them. -/
def magDigits (mag : ℕ) : List UInt8 :=
  if mag = 0 then [] else UInt8.ofNat (48 + mag % 10) :: magDigits (mag / 10)
termination_by mag
decreasing_by omega

/-- The conversion `%d`, once it has its argument. -/
def putInt (o : σ) (v : ℤ) (f : Flags) (width : ℤ) : σ :=
  let mag := v.natAbs
  let signed := decide (v < 0) || f.plus || f.space
  let sign := if v < 0 then ch '-' else if f.plus then ch '+' else ch ' '
  let tmp := if mag = 0 then [ch '0'] else magDigits mag
  let total : ℤ := tmp.length + if signed then 1 else 0
  let o := if !f.left && !f.zero then putPad emit o (ch ' ') (i32 (width - total)) else o
  let o := if signed then emit o sign else o
  let o := if !f.left && f.zero then putPad emit o (ch '0') (i32 (width - total)) else o
  let o := tmp.reverse.foldl emit o
  if f.left then putPad emit o (ch ' ') (i32 (width - total)) else o

/-- The signed argument of a conversion. -/
def vaSigned (ll : Bool) : List Arg → Except Fault (ℤ × List Arg)
  | .word w :: ap => if ll then .error .arg else .ok (w.toInt, ap)
  | .dword w :: ap => if ll then .ok (w.toInt, ap) else .error .arg
  | _ => .error .arg

/-- The unsigned argument of a conversion. -/
def vaUnsigned (ll : Bool) : List Arg → Except Fault (ℕ × List Arg)
  | .word w :: ap => if ll then .error .arg else .ok (w.toNat, ap)
  | .dword w :: ap => if ll then .ok (w.toNat, ap) else .error .arg
  | _ => .error .arg

/-- `va_arg` of a `void *`. -/
def vaPtr : List Arg → Except Fault (BitVec 32 × List Arg)
  | .ptr a :: ap => .ok (a, ap)
  | _ => .error .arg

/-- `va_arg` of a `const char *`. -/
def vaStr : List Arg → Except Fault (Option (List UInt8) × List Arg)
  | .str s :: ap => .ok (s, ap)
  | _ => .error .arg

/-- The loop of `%s` over the string; `none` when the object ends before it does. -/
def strSize (prec : ℤ) : ℕ → List UInt8 → Option ℕ
  | _, [] => none
  | n, c :: s => if c ≠ 0 ∧ (prec < 0 ∨ (n : ℤ) < prec) then strSize prec (n + 1) s else some n

/-- The bytes of a text. -/
def lit (s : String) : List UInt8 := s.toList.map ch

/-- The conversion `%s`, once it has its argument. -/
def putChars (o : σ) (s : Option (List UInt8)) (p : Spec) : Except Fault σ :=
  let s := s.getD (lit "(null)" ++ [0])
  match strSize p.prec 0 s with
  | none => .error .arg
  | some n =>
    let o := if !p.flags.left then putPad emit o (ch ' ') (i32 (p.width - n)) else o
    let o := putStr emit o s n
    .ok (if p.flags.left then putPad emit o (ch ' ') (i32 (p.width - n)) else o)

/-- The conversion `%c`, once it has its argument. -/
def putChar (o : σ) (c : UInt8) (p : Spec) : σ :=
  let o := if !p.flags.left then putPad emit o (ch ' ') (i32 (p.width - 1)) else o
  let o := emit o c
  if p.flags.left then putPad emit o (ch ' ') (i32 (p.width - 1)) else o

/-- The conversions that print with `put_uint`: the base, whether the digits are upper case and
whether `#` counts. -/
def unsignedConv (conv : UInt8) : Option (ℕ × Bool × Bool) :=
  if conv = ch 'u' then some (10, false, false)
  else if conv = ch 'x' then some (16, false, true)
  else if conv = ch 'X' then some (16, true, true)
  else if conv = ch 'o' then some (8, false, true)
  else none

/-- The `switch` on the conversion character. -/
def convert (o : σ) (p : Spec) (conv : UInt8) (ap : List Arg) : Except Fault (σ × List Arg) :=
  if conv = ch 'd' ∨ conv = ch 'i' then do
    let (v, ap) ← vaSigned p.ll ap
    .ok (putInt emit o v p.flags p.width, ap)
  else match unsignedConv conv with
  | some (base, upper, alt) => do
    let (v, ap) ← vaUnsigned p.ll ap
    .ok (putUint emit o v base upper p.width p.flags.zero p.flags.left (alt && p.flags.alt), ap)
  | none =>
    if conv = ch 'p' then do
      let (a, ap) ← vaPtr ap
      if a = 0 then .ok (putStr emit o (lit "(nil)") (-1), ap)
      else .ok (putUint emit o a.toNat 16 false p.width p.flags.zero p.flags.left true, ap)
    else if conv = ch 'c' then do
      let (w, ap) ← vaWord ap
      .ok (putChar emit o (UInt8.ofNat w.toNat) p, ap)
    else if conv = ch 's' then do
      let (s, ap) ← vaStr ap
      let o ← putChars emit o s p
      .ok (o, ap)
    else
      let o := emit o (ch '%')
      .ok (if conv ≠ 0 then emit o conv else o, ap)

/-! ### The interpreter -/

lemma readWidth_length {f f' : Flags} {w : ℤ} {p q : List UInt8} {ap ap' : List Arg}
    (h : readWidth f p ap = .ok (f', w, q, ap')) : q.length ≤ p.length := by
  cases p with
  | nil => cases h
  | cons c p =>
    by_cases hc : c = ch '*'
    · simp only [readWidth, if_pos hc] at h
      obtain ⟨x, -, h⟩ := bind_ok h
      split_ifs at h <;> cases h <;> exact Nat.le_succ _
    · simp only [readWidth, if_neg hc] at h
      obtain ⟨x, hx, h⟩ := bind_ok h
      cases h
      exact walk_length (scanned_ok hx)

lemma readPrec_length {n : ℤ} {p q : List UInt8} {ap ap' : List Arg}
    (h : readPrec p ap = .ok (n, q, ap')) : q.length ≤ p.length := by
  cases p with
  | nil => cases h
  | cons c p =>
    by_cases hc : c = ch '.'
    · cases p with
      | nil => simp [readPrec, hc] at h
      | cons d p =>
        by_cases hd : d = ch '*'
        · simp only [readPrec, if_pos hc, if_pos hd] at h
          obtain ⟨x, -, h⟩ := bind_ok h
          cases h
          exact (Nat.le_succ _).trans (Nat.le_succ _)
        · simp only [readPrec, if_pos hc, if_neg hd] at h
          obtain ⟨x, hx, h⟩ := bind_ok h
          cases h
          exact (walk_length (scanned_ok hx)).trans (Nat.le_succ _)
    · simp only [readPrec, if_neg hc] at h
      cases h
      exact le_rfl

lemma readLength_length {ll ll' : Bool} {p q : List UInt8} (h : readLength ll p = .ok (ll', q)) :
    q.length ≤ p.length := by
  fun_induction readLength ll p with
  | case1 => cases h
  | case2 => cases h
  | case3 _ _ _ ih => exact (ih h).trans ((Nat.le_succ _).trans (Nat.le_succ _))
  | case4 _ _ _ _ _ ih => exact (ih h).trans (by simp)
  | case5 _ _ _ _ _ ih => exact (ih h).trans (by simp)
  | case6 =>
    cases h
    exact le_rfl

lemma readSpec_length {p q : List UInt8} {ap ap' : List Arg} {s : Spec}
    (h : readSpec p ap = .ok (s, q, ap')) : q.length ≤ p.length := by
  obtain ⟨x, h1, h⟩ := bind_ok h
  obtain ⟨y, h2, h⟩ := bind_ok h
  obtain ⟨z, h3, h⟩ := bind_ok h
  obtain ⟨u, h4, h⟩ := bind_ok h
  cases h
  calc u.2.length ≤ z.2.1.length := readLength_length h4
    _ ≤ y.2.2.1.length := readPrec_length h3
    _ ≤ x.2.length := readWidth_length h2
    _ ≤ p.length := walk_length (scanned_ok h1)

/-- The loop of `do_format`. -/
def formatLoop (o : σ) (p : List UInt8) (ap : List Arg) : Except Fault σ :=
  match p with
  | [] => .error .past
  | c :: p =>
    if c = 0 then .ok o
    else if c ≠ ch '%' then formatLoop (emit o c) p ap
    else
      match p with
      | [] => .error .past
      | d :: q =>
        if d = ch '%' then formatLoop (emit o (ch '%')) q ap
        else
          match _h : readSpec (d :: q) ap with
          | .error e => .error e
          | .ok (_, [], _) => .error .past
          | .ok (s, conv :: r, ap) =>
            -- the conversion character is stepped over, a NUL as well
            match convert emit o s conv ap with
            | .error e => .error e
            | .ok (o, ap) => formatLoop o r ap
termination_by p.length
decreasing_by
  · simp
  · simp
  · have := readSpec_length _h
    simp only [List.length_cons] at this ⊢
    omega

end Emit

/-- `struct out_ctx`: the characters handed to the stream, the buffer, its size and the count. -/
structure OutCtx where
  f : List UInt8
  buf : Mem
  cap : ℕ
  len : ℕ

/-- `emit_file`. -/
def emitFile (o : OutCtx) (c : UInt8) : OutCtx :=
  { o with f := o.f ++ [c], len := u32 (o.len + 1) }

/-- `emit_buf`. -/
def emitBuf (o : OutCtx) (c : UInt8) : OutCtx :=
  { o with
    buf := if u32 (o.len + 1) < o.cap then Function.update o.buf o.len c else o.buf
    len := u32 (o.len + 1) }

/-- `do_format`: the result and the context. -/
def doFormat (emit : OutCtx → UInt8 → OutCtx) (o : OutCtx) (fmt : List UInt8) (ap : List Arg) :
    Except Fault (ℤ × OutCtx) := do
  let o ← formatLoop emit { o with len := 0 } fmt ap
  .ok (i32 o.len, o)

/-- `vfprintf`: the result and the characters that the stream `f` has been sent. -/
def vfprintf (f : List UInt8) (fmt : List UInt8) (ap : List Arg) :
    Except Fault (ℤ × List UInt8) := do
  let (r, o) ← doFormat emitFile ⟨f, fun _ => 0, 0, 0⟩ fmt ap
  .ok (r, o.f)

/-- `vsnprintf`: the result and the memory from the buffer on. -/
def vsnprintf (buf : Mem) (n : ℕ) (fmt : List UInt8) (ap : List Arg) :
    Except Fault (ℤ × Mem) := do
  let (r, o) ← doFormat emitBuf ⟨[], buf, n, 0⟩ fmt ap
  .ok (r, if n > 0 then Function.update o.buf (if o.len < n - 1 then o.len else n - 1) 0 else o.buf)

/-- `vsprintf`: the result and the memory from the buffer on. -/
def vsprintf (buf : Mem) (fmt : List UInt8) (ap : List Arg) : Except Fault (ℤ × Mem) := do
  let (r, o) ← doFormat emitBuf ⟨[], buf, 4294967295, 0⟩ fmt ap
  .ok (r, Function.update o.buf o.len 0)

end LunariaOS.Stdio
