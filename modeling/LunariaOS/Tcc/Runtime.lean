import LunariaOS.Libc.Strto
import LunariaOS.Paint.Code

/-!
The string functions of `string.h` and the copies of them in `flat_runtime`.

A pointer that is only read through is what is left of its object, and `none` is a read behind the
object's end. The loops that write work on a memory, where source and destination may overlap. A
value is compared as what the caller, who declares the function with `int`, finds in the register.
-/

namespace LunariaOS.Tcc

open LunariaOS.Lib
open LunariaOS.Paint.State (itoa itoaDigits)

/-! ### Loops that both have -/

/-- The counting loop over a string. -/
def count (step : ℤ → ℤ) (s : List UInt8) : Option ℤ :=
  (walk (fun c => decide (c ≠ 0)) (fun n _ => step n) 0 s).map Prod.fst

/-- The condition of the loop of `atoi`; 48 and 57 are `'0'` and `'9'`. -/
def isDigit (c : UInt8) : Bool := decide (48 ≤ schar c ∧ schar c ≤ 57)

/-- The loop of `atoi`. -/
def number (s : List UInt8) : Option ℤ :=
  (walk isDigit (fun n c => i32 (n * 10 + (schar c - 48))) 0 s).map Prod.fst

/-- `while ((*d++ = *s++));` in at most `k` rounds. -/
def copyString : ℕ → Mem → ℕ → ℕ → Option Mem
  | 0, _, _, _ => none
  | k + 1, m, d, s =>
    let c := m s
    let m := Function.update m d c
    if c ≠ 0 then copyString k m (d + 1) (s + 1) else some m

/-- `print`, in `stdio.h` and in `flat_runtime`: the bytes that the system call gets. -/
def print (s : List UInt8) : Option (List UInt8) := do
  let n ← count (fun n => (n + 1) % 4294967296) s
  some (s.take n.toNat)

/-- The `do` loop of `print_dec`: the array and `i`. There are at most ten digits, so that `i` stays
above 0. -/
def putDigits (b : List UInt8) (i v : ℕ) : List UInt8 × ℕ :=
  let b := b.set i (UInt8.ofNat (48 + v % 10))
  if v / 10 > 0 then putDigits b (i - 1) (v / 10) else (b, i - 1)
termination_by v
decreasing_by omega

/-- The stack from the array `b[16]` of `print_dec` on up to its end. -/
structure Frame where
  bytes : List UInt8
  room : 16 ≤ bytes.length
  small : bytes.length < 4294967296
  deriving DecidableEq

/-- The end of `print_dec`: the digits of `v`. -/
def printUnsigned (b : Frame) (v : ℕ) : Option (List UInt8) :=
  let (b, i) := putDigits b.bytes 15 v
  print (b.drop (i + 1))

/-- What `print_dec(n)` prints. -/
def printDecimal (b : Frame) (n : ℤ) : Option (List UInt8) :=
  if n < 0 then do
    let sign ← print [ch '-', 0]
    let out ← printUnsigned b ((0 - n) % 4294967296).toNat
    some (sign ++ out)
  else printUnsigned b n.toNat

/-! ### `string.h` and `print_dec_` -/

namespace Header

/-- `strlen`, which counts with an `int`. -/
def strlen (s : List UInt8) : Option ℤ := count (fun i => i32 (i + 1)) s

def atoi (s : List UInt8) : Option ℤ := number s

def strcpy (k : ℕ) (m : Mem) (dest src : ℕ) : Option (Mem × ℕ) :=
  (copyString k m dest src).map fun m => (m, dest)

/-- The loop of `memset`: `for (i = 0; i < n; i++) d[i] = (char)c`. -/
def fill (m : Mem) (d : ℕ) (c : ℤ) : ℕ → Mem
  | 0 => m
  | i + 1 => Function.update (fill m d c i) (d + i) (UInt8.ofInt c)

def memset (m : Mem) (dest : ℕ) (c : ℤ) (n : ℕ) : Mem × ℕ := (fill m dest c n, dest)

/-- `memcpy`; its loop is `LunariaOS.memcpy`. -/
def memcpy (m : Mem) (dest src n : ℕ) : Mem × ℕ := (LunariaOS.memcpy m dest src n, dest)

/-- `print_dec_`. -/
def printDec (b : Frame) (n : ℤ) : Option (List UInt8) := printDecimal b n

end Header

/-! ### `flat_runtime` -/

namespace Flat

/-- `rt_len`, which counts with an `unsigned int`. -/
def rtLen (s : List UInt8) : Option ℤ := count (fun n => (n + 1) % 4294967296) s

def strlen (s : List UInt8) : Option ℤ := rtLen s

def strcmp : List UInt8 → List UInt8 → Option ℤ
  | a :: as, b :: bs => if a ≠ 0 ∧ a = b then strcmp as bs else some (schar a - schar b)
  | _, _ => none

def atoi (s : List UInt8) : Option ℤ := do
  let c ← s.head?
  let (sign, s) := if c = ch '-' then (-1, s.drop 1) else (1, s)
  let r ← number s
  some (i32 (r * sign))

/-- The loop of `memset`: `while (n--) *p++ = (unsigned char)c`. -/
def fill (m : Mem) (p : ℕ) (c : ℤ) : ℕ → Mem
  | 0 => m
  | n + 1 => fill (Function.update m p (UInt8.ofInt c)) (p + 1) c n

def memset (m : Mem) (d : ℕ) (c : ℤ) (n : ℕ) : Mem × ℕ := (fill m d c n, d)

/-- The loop of `memcpy`: `while (n--) *p++ = *q++`. -/
def copy (m : Mem) (p q : ℕ) : ℕ → Mem
  | 0 => m
  | n + 1 => copy (Function.update m p (m q)) (p + 1) (q + 1) n

def memcpy (m : Mem) (d s n : ℕ) : Mem × ℕ := (copy m d s n, d)

def strcpy (k : ℕ) (m : Mem) (d s : ℕ) : Option (Mem × ℕ) :=
  (copyString k m d s).map fun m => (m, d)

def printDec (b : Frame) (n : ℤ) : Option (List UInt8) := printDecimal b n

end Flat

/-! ### Agreement -/

/-- What the functions are called with: two strings, two regions of `n` bytes, the byte and the
number to write, the number to print and the two stacks on which it is printed. -/
structure Input where
  m : Mem
  a : CStr
  b : CStr
  d : ℕ
  s : ℕ
  n : ℕ
  c : ℤ
  x : ℤ
  int : -2147483648 ≤ x ∧ x < 2147483648
  header : Frame
  flat : Frame

/-- The string behind the array of `print_dec`, unless the stack ends before it does. -/
def Frame.behind (f : Frame) : Option (List UInt8) :=
  if 0 ∈ f.bytes.drop 16 then some (cstr (f.bytes.drop 16)) else none

/-- The number that a run of decimal digits stands for. -/
def decimal (l : List UInt8) : ℕ := l.foldl (fun n c => n * 10 + (c.toNat - 48)) 0

/-- A minus sign and the digits of a number that is not a multiple of `2 ^ 32`. -/
def Negative (s : CStr) : Prop :=
  ∃ l, s.bytes = ch '-' :: l ∧ decimal (l.takeWhile isDigit) % 4294967296 ≠ 0

/-- Both copies of every function give the same, and both `atoi` read what `itoa` has written. -/
structure Agree (i : Input) : Prop where
  strlen : Header.strlen i.a.object = (Flat.strlen i.a.object).map i32
  strcmp : Flat.strcmp i.a.object i.b.object = some (LunariaOS.strcmp i.a.bytes i.b.bytes)
  atoi : Flat.atoi i.a.object = Header.atoi i.a.object
  memset : Flat.memset i.m i.d i.c i.n = Header.memset i.m i.d i.c i.n
  memcpy : Flat.memcpy i.m i.d i.s i.n = Header.memcpy i.m i.d i.s i.n
  strcpy : ∀ k, Flat.strcpy k i.m i.d i.s = Header.strcpy k i.m i.d i.s
  printDec : Flat.printDec i.flat i.x = Header.printDec i.header i.x
  readBack : Header.atoi (itoa i.x ++ [0]) = some i.x ∧ Flat.atoi (itoa i.x ++ [0]) = some i.x

/-! ### Counting and comparing -/

lemma count_object (step : ℤ → ℤ) (s : CStr) :
    count step s.object = some (s.bytes.foldl (fun n _ => step n) 0) := by
  have hall : ∀ c ∈ s.bytes, decide (c ≠ 0) = true := fun c hc => decide_eq_true (s.ne_zero hc)
  rw [count, CStr.object, walk_run hall (by simp) (by simp)]
  rfl

/-- The two counters of `strlen` wrap at the same count. -/
lemma foldl_wrap (l : List UInt8) (n : ℤ) :
    l.foldl (fun i _ => i32 (i + 1)) (i32 n) = i32 (l.foldl (fun n _ => (n + 1) % 4294967296) n) := by
  induction l generalizing n with
  | nil => rfl
  | cons c l ih =>
    have h : i32 (i32 n + 1) = i32 ((n + 1) % 4294967296) := by
      unfold i32
      omega
    rw [List.foldl_cons, List.foldl_cons, h, ih]

lemma strlen_agree (s : CStr) : Header.strlen s.object = (Flat.strlen s.object).map i32 := by
  rw [Header.strlen, Flat.strlen, Flat.rtLen, count_object, count_object, Option.map_some]
  exact congrArg some (foldl_wrap s.bytes 0)

/-- `flat_runtime` compares with the NULs that the objects end in. -/
lemma strcmp_agree {l r : List UInt8} (hl : 0 ∉ l) (hr : 0 ∉ r) :
    Flat.strcmp (l ++ [0]) (r ++ [0]) = some (LunariaOS.strcmp l r) := by
  induction l generalizing r with
  | nil =>
    cases r with
    | nil => rfl
    | cons b r =>
      simp only [List.nil_append, List.cons_append, Flat.strcmp, ne_eq, not_true_eq_false,
        false_and, if_false, LunariaOS.strcmp]
  | cons a l ih =>
    simp only [List.mem_cons, not_or] at hl
    cases r with
    | nil =>
      have : ¬ (a ≠ 0 ∧ a = 0) := fun h => h.1 h.2
      simp only [List.nil_append, List.cons_append, Flat.strcmp, if_neg this, LunariaOS.strcmp]
    | cons b r =>
      simp only [List.mem_cons, not_or] at hr
      simp only [List.cons_append, Flat.strcmp, LunariaOS.strcmp, ih hl.2 hr.2]
      split_ifs <;> rfl

/-! ### Writing -/

/-- A fill from the front is one from the back. -/
lemma fill_succ (m : Mem) (d : ℕ) (c : ℤ) (n : ℕ) :
    Header.fill m d c (n + 1) = Header.fill (Function.update m d (UInt8.ofInt c)) (d + 1) c n := by
  induction n with
  | zero => rfl
  | succ n ih =>
    rw [Header.fill, ih, Header.fill]
    congr 1
    omega

lemma fill_agree (m : Mem) (d : ℕ) (c : ℤ) (n : ℕ) : Flat.fill m d c n = Header.fill m d c n := by
  induction n generalizing m d with
  | zero => rfl
  | succ n ih => rw [Flat.fill, ih, fill_succ]

/-- The same for a copy, whose regions may overlap. -/
lemma memcpy_succ (m : Mem) (d s n : ℕ) :
    LunariaOS.memcpy m d s (n + 1) =
      LunariaOS.memcpy (Function.update m d (m s)) (d + 1) (s + 1) n := by
  induction n with
  | zero => rfl
  | succ n ih =>
    have hd : d + (n + 1) = d + 1 + n := by omega
    have hs : s + (n + 1) = s + 1 + n := by omega
    rw [LunariaOS.memcpy, ih, hd, hs, LunariaOS.memcpy]

lemma copy_agree (m : Mem) (d s n : ℕ) : Flat.copy m d s n = LunariaOS.memcpy m d s n := by
  induction n generalizing m d s with
  | zero => rfl
  | succ n ih => rw [Flat.copy, ih, memcpy_succ]

/-! ### Printing -/

lemma foldl_count (l : List UInt8) (n : ℕ) (h : n + l.length < 4294967296) :
    l.foldl (fun (n : ℤ) _ => (n + 1) % 4294967296) (n : ℤ) = ((n + l.length : ℕ) : ℤ) := by
  induction l generalizing n with
  | nil => simp
  | cons c l ih =>
    rw [List.length_cons] at h
    have hstep : ((n : ℤ) + 1) % 4294967296 = ((n + 1 : ℕ) : ℤ) := by omega
    rw [List.foldl_cons, hstep, ih (n + 1) (by omega), List.length_cons]
    congr 1
    omega

lemma print_eq {s : List UInt8} (h : s.length < 4294967296) :
    print s = if 0 ∈ s then some (cstr s) else none := by
  by_cases h0 : (0 : UInt8) ∈ s
  · obtain ⟨l, r, rfl, hl⟩ := List.eq_append_cons_of_mem h0
    have hall : ∀ c ∈ l, decide (c ≠ 0) = true := fun c hc =>
      decide_eq_true fun e => hl (e ▸ hc)
    have hlen : 0 + l.length < 4294967296 := by
      rw [List.length_append] at h
      omega
    have hcount : count (fun n => (n + 1) % 4294967296) (l ++ 0 :: r) = some (l.length : ℤ) := by
      rw [count, walk_run hall (by simp) (by simp), Option.map_some, ← Nat.cast_zero,
        foldl_count l 0 hlen, Nat.zero_add]
    rw [if_pos h0, print, hcount, cstr_append_zero hl]
    simp
  · have hall : ∀ c ∈ s, decide (c ≠ 0) = true := fun c hc =>
      decide_eq_true fun e => h0 (e ▸ hc)
    rw [if_neg h0, print, count, walk_none hall]
    rfl

lemma putDigits_drop (v : ℕ) (b : List UInt8) (i : ℕ) (hi : i < b.length)
    (hlen : (itoaDigits v).length ≤ i) :
    (putDigits b i v).1.drop ((putDigits b i v).2 + 1) =
      (itoaDigits v).reverse ++ b.drop (i + 1) := by
  induction v using Nat.strong_induction_on generalizing b i with
  | _ v ih =>
    rw [itoaDigits] at hlen ⊢
    rw [putDigits]
    have hset : (b.set i (UInt8.ofNat (48 + v % 10))).drop i =
        UInt8.ofNat (48 + v % 10) :: b.drop (i + 1) := by
      rw [List.drop_eq_getElem_cons (by simpa using hi), List.getElem_set_self,
        List.drop_set_of_lt (by omega)]
    split_ifs at hlen ⊢ with hv
    · rw [List.length_cons] at hlen
      rw [ih (v / 10) (by omega) _ _ (by rw [List.length_set]; omega) (by omega), Nat.sub_add_cancel (by omega), hset]
      simp
    · rw [List.length_cons] at hlen
      rw [Nat.sub_add_cancel (by omega), hset]
      simp

lemma zero_notMem_itoaDigits (v : ℕ) : 0 ∉ itoaDigits v := by
  induction v using Nat.strong_induction_on with
  | _ v ih =>
    have hd : (0 : UInt8) ≠ UInt8.ofNat (48 + v % 10) := by
      intro h
      have := congrArg UInt8.toNat h
      simp at this
      omega
    rw [itoaDigits, List.mem_cons, not_or]
    refine ⟨hd, ?_⟩
    split_ifs with hv
    · exact ih (v / 10) (by omega)
    · exact List.not_mem_nil

/-- The digits are followed by what stands behind the array, which has no room for a NUL of its
own. -/
lemma printUnsigned_eq (f : Frame) {v : ℕ} (hv : v < 4294967296) :
    printUnsigned f v = f.behind.map ((itoaDigits v).reverse ++ ·) := by
  have hdigits : (itoaDigits v).length ≤ 10 :=
    LunariaOS.Paint.State.itoaDigits_length 9 (hv.trans (by norm_num))
  have hroom := f.room
  have hsmall := f.small
  have hlen : ((itoaDigits v).reverse ++ f.bytes.drop 16).length < 4294967296 := by
    simp only [List.length_append, List.length_reverse, List.length_drop]
    omega
  have hz : 0 ∉ (itoaDigits v).reverse := by simpa using zero_notMem_itoaDigits v
  have hout : printUnsigned f v = print ((itoaDigits v).reverse ++ f.bytes.drop 16) :=
    congrArg print (putDigits_drop v f.bytes 15 (by omega) (by omega))
  rw [hout, print_eq hlen]
  unfold Frame.behind
  by_cases h0 : (0 : UInt8) ∈ f.bytes.drop 16
  · rw [if_pos (List.mem_append_right _ h0), if_pos h0, Option.map_some]
    congr 1
    exact List.takeWhile_append_of_pos fun c hc => decide_eq_true fun e => hz (e ▸ hc)
  · rw [if_neg (by simpa [h0] using hz), if_neg h0, Option.map_none]

/-- What is printed is the text that `itoa` writes, and then what stands behind the array. -/
lemma printDecimal_eq (f : Frame) {x : ℤ} (hx : -2147483648 ≤ x ∧ x < 2147483648) :
    printDecimal f x = f.behind.map (itoa x ++ ·) := by
  unfold printDecimal itoa
  by_cases hneg : x < 0
  · have hval : ((0 - x) % 4294967296).toNat = u32 x.natAbs := by
      rw [u32_of_lt (by omega)]
      omega
    have hsign : print [ch '-', 0] = some [ch '-'] := by decide
    rw [if_pos hneg, hval, printUnsigned_eq f (u32_lt _), hsign]
    cases f.behind with
    | none => rfl
    | some r => simp [hneg, ch]
  · have hval : x.toNat = u32 x.natAbs := by
      rw [u32_of_lt (by omega)]
      omega
    rw [if_neg hneg, hval, printUnsigned_eq f (u32_lt _)]
    simp [hneg]

lemma printDec_agree (f g : Frame) {x : ℤ} (hx : -2147483648 ≤ x ∧ x < 2147483648) :
    Flat.printDec g x = Header.printDec f x ↔ g.behind = f.behind := by
  rw [Flat.printDec, Header.printDec, printDecimal_eq f hx, printDecimal_eq g hx]
  exact (Option.map_injective (List.append_right_injective _)).eq_iff

/-! ### Numbers -/

lemma isDigit_iff (c : UInt8) : isDigit c = true ↔ 48 ≤ c.toNat ∧ c.toNat ≤ 57 := by
  have := c.toNat_lt
  unfold isDigit schar
  split_ifs <;> rw [decide_eq_true_iff] <;> omega

lemma i32_zero : i32 ((0 : ℕ) : ℤ) = 0 := i32_of_lt (by norm_num)

lemma foldl_digits (l : List UInt8) (hl : ∀ c ∈ l, isDigit c) (n : ℕ) :
    l.foldl (fun n c => i32 (n * 10 + (schar c - 48))) (i32 n) =
      i32 (l.foldl (fun n c => n * 10 + (c.toNat - 48)) n : ℕ) := by
  induction l generalizing n with
  | nil => rw [List.foldl_nil, List.foldl_nil]
  | cons c l ih =>
    have hc := (isDigit_iff c).mp (hl c (by simp))
    have hs : schar c = c.toNat := if_pos (by omega)
    have hstep : i32 (i32 n * 10 + (schar c - 48)) = i32 ((n * 10 + (c.toNat - 48) : ℕ) : ℤ) := by
      rw [hs]
      unfold i32
      omega
    rw [List.foldl_cons, List.foldl_cons, hstep, ih fun b hb => hl b (by simp [hb])]

/-- The loop of `atoi` reads the digits that a string begins with. -/
lemma number_string (l : List UInt8) :
    number (l ++ [0]) = some (i32 (decimal (l.takeWhile isDigit))) := by
  have hdigits := foldl_digits (l.takeWhile isDigit) (fun c hc => List.mem_takeWhile_imp hc) 0
  rw [i32_zero] at hdigits
  rw [number, walk_append l [] (by decide), hdigits]
  unfold decimal
  rw [Option.map_some]

lemma header_atoi_eq (l : List UInt8) :
    Header.atoi (l ++ [0]) = some (i32 (decimal (l.takeWhile isDigit))) := number_string l

lemma takeWhile_minus (l : List UInt8) : (ch '-' :: l).takeWhile isDigit = [] :=
  List.takeWhile_cons_of_neg (by decide)

lemma flat_atoi_minus (l : List UInt8) :
    Flat.atoi (ch '-' :: l ++ [0]) = some (i32 (i32 (decimal (l.takeWhile isDigit)) * -1)) := by
  have h : Flat.atoi (ch '-' :: l ++ [0]) = (number (l ++ [0])).bind fun r => some (i32 (r * -1)) :=
    rfl
  rw [h, number_string]
  rfl

lemma flat_atoi_plain {l : List UInt8} (h : l.head? ≠ some (ch '-')) :
    Flat.atoi (l ++ [0]) = some (i32 (decimal (l.takeWhile isDigit))) := by
  obtain ⟨c, r, hc⟩ : ∃ c r, l ++ [0] = c :: r := List.exists_cons_of_ne_nil (by simp)
  have hne : c ≠ ch '-' := by
    rintro rfl
    cases l with
    | nil => cases hc
    | cons b l => exact h (congrArg some (List.cons.inj hc).1)
  have hstep : Flat.atoi (l ++ [0]) = (number (l ++ [0])).bind fun r => some (i32 (r * 1)) := by
    rw [hc]
    simp only [Flat.atoi, List.head?_cons, Option.bind_eq_bind, Option.bind_some, if_neg hne]
  rw [hstep, number_string, Option.bind_some, mul_one, Option.some_inj]
  unfold i32
  omega

/-- The `atoi` of `string.h` stops at a minus sign. -/
lemma atoi_agree (s : CStr) : Flat.atoi s.object = Header.atoi s.object ↔ ¬ Negative s := by
  unfold Negative CStr.object
  by_cases h : s.bytes.head? = some (ch '-')
  · obtain ⟨l, hl⟩ : ∃ l, s.bytes = ch '-' :: l := List.head?_eq_some_iff.mp h
    have hneg : (∃ r, s.bytes = ch '-' :: r ∧ decimal (r.takeWhile isDigit) % 4294967296 ≠ 0) ↔
        decimal (l.takeWhile isDigit) % 4294967296 ≠ 0 := by
      constructor
      · rintro ⟨r, hr, h⟩
        obtain rfl : l = r := (List.cons.inj (hl.symm.trans hr)).2
        exact h
      · exact fun h => ⟨l, hl, h⟩
    rw [hneg, hl, flat_atoi_minus, header_atoi_eq, takeWhile_minus, Option.some_inj]
    have h0 : decimal [] = 0 := rfl
    rw [h0, i32_zero]
    generalize decimal (l.takeWhile isDigit) = v
    unfold i32
    omega
  · rw [flat_atoi_plain h, header_atoi_eq]
    refine iff_of_true rfl ?_
    rintro ⟨l, hl, -⟩
    exact h (by rw [hl]; rfl)

/-! ### `atoi` after `itoa` -/

lemma decimal_append (l : List UInt8) (c : UInt8) :
    decimal (l ++ [c]) = decimal l * 10 + (c.toNat - 48) := by
  unfold decimal
  rw [List.foldl_append]
  rfl

lemma itoaDigits_digits (v : ℕ) : ∀ c ∈ itoaDigits v, isDigit c := by
  induction v using Nat.strong_induction_on with
  | _ v ih =>
    have hd : isDigit (UInt8.ofNat (48 + v % 10)) := by
      rw [isDigit_iff, UInt8.toNat_ofNat']
      omega
    rw [itoaDigits]
    intro c hc
    rcases List.mem_cons.mp hc with rfl | hc
    · exact hd
    · split_ifs at hc with hv
      · exact ih (v / 10) (by omega) c hc
      · cases hc

lemma decimal_itoaDigits (v : ℕ) : decimal (itoaDigits v).reverse = v := by
  induction v using Nat.strong_induction_on with
  | _ v ih =>
    have hd : (UInt8.ofNat (48 + v % 10)).toNat - 48 = v % 10 := by
      rw [UInt8.toNat_ofNat']
      omega
    rw [itoaDigits, List.reverse_cons, decimal_append, hd]
    split_ifs with hv
    · rw [ih (v / 10) (by omega)]
      omega
    · have : decimal [] = 0 := rfl
      rw [List.reverse_nil, this]
      omega

lemma takeWhile_itoaDigits (v : ℕ) :
    (itoaDigits v).reverse.takeWhile isDigit = (itoaDigits v).reverse :=
  List.takeWhile_eq_self_iff.mpr fun c hc => itoaDigits_digits v c (List.mem_reverse.mp hc)

lemma itoa_nonneg {x : ℤ} (h : 0 ≤ x) : itoa x = (itoaDigits (u32 x.natAbs)).reverse := by
  unfold itoa
  simp [not_lt.mpr h]

lemma itoa_neg {x : ℤ} (h : x < 0) : itoa x = ch '-' :: (itoaDigits (u32 x.natAbs)).reverse := by
  unfold itoa
  simp [h, ch]

lemma flat_readBack {x : ℤ} (hx : -2147483648 ≤ x ∧ x < 2147483648) :
    Flat.atoi (itoa x ++ [0]) = some x := by
  have hu : u32 x.natAbs = x.natAbs := u32_of_lt (by omega)
  rcases lt_or_ge x 0 with hneg | hpos
  · rw [itoa_neg hneg, flat_atoi_minus, takeWhile_itoaDigits, decimal_itoaDigits, hu,
      Option.some_inj]
    unfold i32
    omega
  · have hplain : (itoaDigits (u32 x.natAbs)).reverse.head? ≠ some (ch '-') := by
      intro h
      have hmem := List.mem_reverse.mp (List.mem_of_mem_head? h)
      exact absurd (itoaDigits_digits _ _ hmem) (by decide)
    rw [itoa_nonneg hpos, flat_atoi_plain hplain, takeWhile_itoaDigits, decimal_itoaDigits, hu,
      Option.some_inj]
    unfold i32
    omega

/-- The `atoi` of `string.h` reads back what is not negative. -/
lemma header_readBack {x : ℤ} (hx : -2147483648 ≤ x ∧ x < 2147483648) :
    Header.atoi (itoa x ++ [0]) = some x ↔ 0 ≤ x := by
  have hu : u32 x.natAbs = x.natAbs := u32_of_lt (by omega)
  rcases lt_or_ge x 0 with hneg | hpos
  · have h0 : decimal [] = 0 := rfl
    rw [itoa_neg hneg, header_atoi_eq, takeWhile_minus, h0, i32_zero, Option.some_inj]
    omega
  · rw [itoa_nonneg hpos, header_atoi_eq, takeWhile_itoaDigits, decimal_itoaDigits, hu,
      Option.some_inj]
    refine iff_of_true ?_ hpos
    unfold i32
    omega

/-- The copies agree on everything but negative numbers, which only the `atoi` of `flat_runtime`
reads, and what `print_dec` prints behind the number. -/
theorem agree_iff (i : Input) :
    Agree i ↔ ¬ Negative i.a ∧ 0 ≤ i.x ∧ i.flat.behind = i.header.behind := by
  constructor
  · intro h
    exact ⟨(atoi_agree i.a).mp h.atoi, (header_readBack i.int).mp h.readBack.1,
      (printDec_agree i.header i.flat i.int).mp h.printDec⟩
  · rintro ⟨ha, hx, hb⟩
    exact
      { strlen := strlen_agree i.a
        strcmp := strcmp_agree i.a.noNul i.b.noNul
        atoi := (atoi_agree i.a).mpr ha
        memset := congrArg (·, i.d) (fill_agree i.m i.d i.c i.n)
        memcpy := congrArg (·, i.d) (copy_agree i.m i.d i.s i.n)
        strcpy := fun _ => rfl
        printDec := (printDec_agree i.header i.flat i.int).mpr hb
        readBack := ⟨(header_readBack i.int).mpr hx, flat_readBack i.int⟩ }

/-- `"-5"` on two stacks that hold only zeros. -/
def minusFive : Input :=
  { m := fun _ => 0, a := ⟨[ch '-', ch '5'], by decide⟩, b := CStr.empty, d := 0, s := 0, n := 0,
    c := 0, x := 5, int := by decide, header := ⟨List.replicate 20 0, by decide, by decide⟩,
    flat := ⟨List.replicate 20 0, by decide, by decide⟩ }

theorem not_agree_minusFive : ¬ Agree minusFive := by
  intro h
  have := h.atoi
  exact absurd this (by decide +kernel)

end LunariaOS.Tcc
