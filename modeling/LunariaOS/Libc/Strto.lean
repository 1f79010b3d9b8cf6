import Mathlib.Data.Nat.Digits.Defs
import LunariaOS.Lib.Scan
import LunariaOS.Str

/-!
The number parser of the C library, `strtoull`, and the three functions on top of it.

A pointer into a string is what is left of the object that holds it, its NUL included, and every
function gives `none` when it reads behind the object's end.
-/

namespace LunariaOS

/-- The code of a character. -/
def ch (c : Char) : UInt8 := UInt8.ofNat c.toNat

/-- The object that holds a string: its bytes and the NUL. -/
def CStr.object (s : CStr) : List UInt8 := s.bytes ++ [0]

end LunariaOS

namespace LunariaOS.Libc

open LunariaOS.Lib

/-! ### The code -/

/-- A 64-bit unsigned number. -/
def u64 (n : ℕ) : ℕ := n % 18446744073709551616

/-- `digit_value`; 48, 97 and 65 are `'0'`, `'a'` and `'A'`. -/
def digitValue (c base : ℤ) : ℤ :=
  let below (v : ℤ) : ℤ := if v < base then v else -1
  if 48 ≤ c ∧ c ≤ 57 then below (c - 48)
  else if 97 ≤ c ∧ c ≤ 122 then below (c - 97 + 10)
  else if 65 ≤ c ∧ c ≤ 90 then below (c - 65 + 10)
  else -1

/-- `is_space`; the numbers are `\r`, `\f` and `\v`. -/
def isSpace (c : UInt8) : Bool :=
  c = ch ' ' || c = ch '\t' || c = ch '\n' || c = 13 || c = 12 || c = 11

/-- Whether `p[0]`, `p[1]` and `p[2]` are `0`, `x` or `X` and a hexadecimal digit; each is read only
if the ones before it fit. -/
def hexPrefix : List UInt8 → Option Bool
  | [] => none
  | c0 :: p =>
    if c0 ≠ ch '0' then some false
    else match p with
      | [] => none
      | c1 :: p =>
        if c1 ≠ ch 'x' ∧ c1 ≠ ch 'X' then some false
        else match p with
          | [] => none
          | c2 :: _ => some (decide (0 ≤ digitValue (schar c2) 16))

/-- The pointer to the digits and the base they are in. -/
def radix (p : List UInt8) (base : ℤ) : Option (List UInt8 × ℤ) := do
  let hex ← (if base = 0 ∨ base = 16 then hexPrefix p else some false)
  if hex then some (p.drop 2, 16)
  else if base = 0 then do
    let c ← p.head?
    some (p, if c = ch '0' then 8 else 10)
  else some (p, base)

/-- Whether the loop over the digits takes the byte `c`. -/
def isDigit (base : ℤ) (c : UInt8) : Bool := decide (0 ≤ digitValue c.toNat base)

/-- One round of the loop over the digits, on `acc` and `any`. -/
def addDigit (base : ℤ) (s : ℕ × Bool) (c : UInt8) : ℕ × Bool :=
  (u64 (u64 (s.1 * (base % 4294967296).toNat) + (digitValue c.toNat base).toNat), true)

/-- `strtoull`: the value and the end pointer. -/
def strtoull (s : List UInt8) (base : ℤ) : Option (ℕ × List UInt8) := do
  let (_, p) ← walk isSpace (fun _ _ => ()) () s
  let c ← p.head?
  let (neg, p) := if c = ch '+' ∨ c = ch '-' then (decide (c = ch '-'), p.drop 1) else (false, p)
  let (p, base) ← radix p base
  let ((acc, any), p) ← walk (isDigit base) (addDigit base) (0, false) p
  some (if neg then u64 (18446744073709551616 - acc) else acc, if any then p else s)

/-- A 64-bit number read as a `long long`. -/
def i64 (n : ℤ) : ℤ := (n + 9223372036854775808) % 18446744073709551616 - 9223372036854775808

/-- `strtoll`. -/
def strtoll (s : List UInt8) (base : ℤ) : Option (ℤ × List UInt8) :=
  (strtoull s base).map fun (v, p) => (i64 v, p)

/-- `strtoul`. -/
def strtoul (s : List UInt8) (base : ℤ) : Option (ℕ × List UInt8) :=
  (strtoull s base).map fun (v, p) => (u32 v, p)

/-- `strtol`. -/
def strtol (s : List UInt8) (base : ℤ) : Option (ℤ × List UInt8) :=
  (strtoull s base).map fun (v, p) => (i32 v, p)

/-! ### The grammar -/

/-- The value of a character that is a digit in some base. -/
def digitOf (c : UInt8) : Option ℕ :=
  if ch '0' ≤ c ∧ c ≤ ch '9' then some (c.toNat - 48)
  else if ch 'a' ≤ c ∧ c ≤ ch 'z' then some (c.toNat - 97 + 10)
  else if ch 'A' ≤ c ∧ c ≤ ch 'Z' then some (c.toNat - 65 + 10)
  else none

/-- `c` is a digit of base `b`. -/
def DigitIn (b : ℕ) (c : UInt8) : Prop := ∃ v, digitOf c = some v ∧ v < b

/-- A hexadecimal prefix with a digit after it. -/
def HexAhead (t : List UInt8) : Prop :=
  ∃ x c r, t = ch '0' :: x :: c :: r ∧ (x = ch 'x' ∨ x = ch 'X') ∧ DigitIn 16 c

/-- The parts of a numeral in a text, with the base of its digits. -/
structure Numeral where
  space : List UInt8
  sign : List UInt8
  pre : List UInt8
  digits : List UInt8
  rest : List UInt8
  radix : ℕ

namespace Numeral

variable (n : Numeral)

/-- What follows the sign. -/
def unsigned : List UInt8 := n.pre ++ (n.digits ++ n.rest)

/-- `n` is what the text `s` holds, for the argument `base`. -/
structure Of (base : ℕ) (s : List UInt8) : Prop where
  text : s = n.space ++ (n.sign ++ n.unsigned)
  space : ∀ c ∈ n.space, isSpace c
  space_max : ∀ c ∈ (n.sign ++ n.unsigned).head?, isSpace c = false
  sign : n.sign = [ch '+'] ∨ n.sign = [ch '-'] ∨
    n.sign = [] ∧ ∀ c ∈ n.unsigned.head?, c ≠ ch '+' ∧ c ≠ ch '-'
  radix : ((base = 0 ∨ base = 16) ∧ HexAhead n.unsigned) ∧ n.pre.length = 2 ∧ n.radix = 16 ∨
    ¬ ((base = 0 ∨ base = 16) ∧ HexAhead n.unsigned) ∧ n.pre = [] ∧
      n.radix = if base ≠ 0 then base else if n.unsigned.head? = some (ch '0') then 8 else 10
  digits : ∀ c ∈ n.digits, DigitIn n.radix c
  digits_max : ∀ c ∈ n.rest.head?, ¬ DigitIn n.radix c

/-- The number the digits write. -/
def number : ℕ := Nat.ofDigits n.radix (n.digits.reverse.map fun c => (digitOf c).getD 0)

/-- The number with its sign, modulo 2^64. -/
def value : ℕ :=
  if n.sign = [ch '-'] then (-(n.number : ℤ) % 18446744073709551616).toNat
  else n.number % 18446744073709551616

end Numeral

/-! ### Digits -/

lemma digitOf_eq (c : UInt8) : digitOf c =
    if 48 ≤ c.toNat ∧ c.toNat ≤ 57 then some (c.toNat - 48)
    else if 97 ≤ c.toNat ∧ c.toNat ≤ 122 then some (c.toNat - 97 + 10)
    else if 65 ≤ c.toNat ∧ c.toNat ≤ 90 then some (c.toNat - 65 + 10)
    else none := rfl

lemma digitValue_of_some {c : UInt8} {v b : ℕ} (h : digitOf c = some v) :
    digitValue c.toNat b = if v < b then (v : ℤ) else -1 := by
  rw [digitOf_eq] at h
  unfold digitValue
  dsimp only
  split_ifs at h ⊢ <;> simp only [Option.some.injEq] at h <;> omega

lemma digitValue_of_none {c : UInt8} {b : ℕ} (h : digitOf c = none) :
    digitValue c.toNat b = -1 := by
  rw [digitOf_eq] at h
  unfold digitValue
  dsimp only
  split_ifs at h ⊢ <;> first | rfl | omega

lemma isDigit_iff {c : UInt8} {b : ℕ} : isDigit b c ↔ DigitIn b c := by
  unfold isDigit DigitIn
  rw [decide_eq_true_eq]
  cases h : digitOf c with
  | none => simp [digitValue_of_none h]
  | some v =>
    rw [digitValue_of_some h]
    by_cases hv : v < b <;> simp [hv]

lemma isDigit_eq_false {c : UInt8} {b : ℕ} : isDigit b c = false ↔ ¬ DigitIn b c := by
  rw [← isDigit_iff, Bool.not_eq_true]

/-- The prefix is looked for in signed characters, which changes nothing. -/
lemma digitValue_schar (c : UInt8) : 0 ≤ digitValue (schar c) 16 ↔ DigitIn 16 c := by
  rw [← isDigit_iff, isDigit, decide_eq_true_eq]
  unfold schar
  split_ifs with h
  · rfl
  · have hc := c.toNat_lt
    unfold digitValue
    dsimp only
    split_ifs <;> omega

lemma not_digitIn_zero (b : ℕ) : ¬ DigitIn b 0 := by
  rintro ⟨v, h, -⟩
  cases h

/-! ### The prefix -/

lemma hexPrefix_eq {u : List UInt8} (h0 : 0 ∉ u) :
    ∃ hex, hexPrefix (u ++ [0]) = some hex ∧ (hex = true ↔ HexAhead u) := by
  match u with
  | [] => exact ⟨false, rfl, by simp [HexAhead]⟩
  | [c0] =>
    refine ⟨false, ?_, by simp [HexAhead]⟩
    by_cases hc : c0 = ch '0'
    · subst hc
      rfl
    · simp [hexPrefix, hc]
  | c0 :: c1 :: u =>
    by_cases hc : c0 = ch '0'
    · subst hc
      by_cases hx : c1 = ch 'x' ∨ c1 = ch 'X'
      · match u with
        | [] =>
          refine ⟨false, ?_, by simp [HexAhead]⟩
          simp only [hexPrefix, List.cons_append, List.nil_append, ne_eq, not_true_eq_false,
            if_false]
          rw [if_neg (by tauto)]
          rfl
        | c2 :: u =>
          refine ⟨decide (0 ≤ digitValue (schar c2) 16), ?_, ?_⟩
          · simp only [hexPrefix, List.cons_append, ne_eq, not_true_eq_false, if_false]
            rw [if_neg (by tauto)]
          · rw [decide_eq_true_eq, digitValue_schar]
            constructor
            · exact fun hd => ⟨c1, c2, u, rfl, hx, hd⟩
            · rintro ⟨x, c, r, e, -, hd⟩
              cases e
              exact hd
      · refine ⟨false, ?_, ?_⟩
        · simp only [hexPrefix, List.cons_append, ne_eq, not_true_eq_false, if_false]
          rw [if_pos (by tauto)]
        · simp only [Bool.false_eq_true, false_iff]
          rintro ⟨x, c, r, e, h, -⟩
          cases e
          exact hx h
    · refine ⟨false, by simp [hexPrefix, hc], ?_⟩
      simp only [Bool.false_eq_true, false_iff]
      rintro ⟨x, c, r, e, -⟩
      cases e
      exact hc rfl

lemma radix_eq {n : Numeral} {base : ℕ} {s : List UInt8} (hn : n.Of base s)
    (h0 : 0 ∉ n.unsigned) :
    radix (n.unsigned ++ [0]) base = some (n.digits ++ (n.rest ++ [0]), (n.radix : ℤ)) := by
  obtain ⟨hex, he, hiff⟩ := hexPrefix_eq h0
  have hb : ((base : ℤ) = 0 ∨ (base : ℤ) = 16) ↔ (base = 0 ∨ base = 16) := by omega
  have hread : (if (base : ℤ) = 0 ∨ (base : ℤ) = 16 then hexPrefix (n.unsigned ++ [0])
      else some false) = some (decide ((base = 0 ∨ base = 16) ∧ hex = true)) := by
    by_cases h : base = 0 ∨ base = 16
    · rw [if_pos (hb.mpr h), he]
      simp [h]
    · rw [if_neg (fun h' => h (hb.mp h'))]
      simp [h]
  unfold radix
  rw [hread]
  rcases hn.radix with ⟨hp, hlen, hr⟩ | ⟨hp, hpre, hr⟩
  · have : (base = 0 ∨ base = 16) ∧ hex = true := ⟨hp.1, hiff.mpr hp.2⟩
    simp only [Option.bind_eq_bind, Option.bind_some, this, and_self, decide_true, if_true, hr]
    rw [Numeral.unsigned, List.append_assoc, ← hlen, List.drop_left, List.append_assoc]
    rfl
  · have : ¬ ((base = 0 ∨ base = 16) ∧ hex = true) := fun h => hp ⟨h.1, hiff.mp h.2⟩
    have hu : n.unsigned ++ [0] = n.digits ++ (n.rest ++ [0]) := by simp [Numeral.unsigned, hpre]
    have hhead : (n.unsigned ++ [0]).head? = some (n.unsigned.head?.getD 0) := by
      cases n.unsigned <;> rfl
    simp only [Option.bind_eq_bind, Option.bind_some, this, decide_false, Bool.false_eq_true,
      if_false]
    by_cases h : base = 0
    · rw [if_pos (by omega), hhead, hr, if_neg (by omega), ← hu]
      cases n.unsigned with
      | nil => rfl
      | cons c u =>
        simp only [Option.bind_some, List.head?_cons, Option.getD_some, Option.some.injEq]
        split_ifs <;> rfl
    · rw [if_neg (by omega), hr, if_pos h, ← hu]

/-! ### The digits -/

/-- The loop computes the number that the digits write, modulo 2^64. -/
lemma addDigit_foldl {b : ℕ} (hb : b < 4294967296) (ds : List UInt8)
    (hds : ∀ c ∈ ds, DigitIn b c) (acc : ℕ) (any : Bool) :
    ds.foldl (addDigit b) (u64 acc, any) =
      (u64 (Nat.ofDigits b (ds.reverse.map fun c => (digitOf c).getD 0) + b ^ ds.length * acc),
        any || !ds.isEmpty) := by
  induction ds generalizing acc any with
  | nil => simp
  | cons c ds ih =>
    obtain ⟨v, hv, hlt⟩ := hds c (by simp)
    have step : addDigit b (u64 acc, any) c = (u64 (acc * b + v), true) := by
      have e : ((b : ℤ) % 4294967296).toNat = b := by omega
      unfold addDigit
      rw [digitValue_of_some hv, if_pos hlt, e]
      simp only [Int.toNat_natCast, u64]
      rw [Nat.mod_add_mod, Nat.add_mod, Nat.mod_mul_mod, ← Nat.add_mod]
    rw [List.foldl_cons, step, ih (fun c hc => hds c (by simp [hc]))]
    simp only [List.reverse_cons, List.map_append, List.map_cons, List.map_nil, hv,
      Option.getD_some, Nat.ofDigits_append, Nat.ofDigits_singleton, List.length_map,
      List.length_reverse, List.length_cons, Bool.true_or, List.isEmpty_cons, Bool.not_false,
      Bool.or_true]
    congr 2
    ring

/-! ### What `strtoull` accepts -/

/-- The numeral that a text holds. -/
def Numeral.read (base : ℕ) (s : List UInt8) : Numeral :=
  let space := s.takeWhile isSpace
  let s := s.dropWhile isSpace
  let signed := decide (s.head? = some (ch '+') ∨ s.head? = some (ch '-'))
  let sign := if signed then s.take 1 else []
  let s := if signed then s.drop 1 else s
  let hex := decide (base = 0 ∨ base = 16) && (hexPrefix (s ++ [0])).getD false
  let pre := if hex then s.take 2 else []
  let radix := if hex then 16 else
    if base ≠ 0 then base else if s.head? = some (ch '0') then 8 else 10
  let s := if hex then s.drop 2 else s
  ⟨space, sign, pre, s.takeWhile (isDigit radix), s.dropWhile (isDigit radix), radix⟩

lemma head?_dropWhile {q : UInt8 → Bool} {l : List UInt8} : ∀ c ∈ (l.dropWhile q).head?, q c = false := by
  intro c hc
  have := List.head?_dropWhile_not q l
  rw [Option.mem_def.mp hc] at this
  simpa using this

lemma Numeral.read_of (base : ℕ) {s : List UInt8} (h0 : 0 ∉ s) : (Numeral.read base s).Of base s := by
  -- the text after the spaces, and after the sign
  generalize h1 : s.dropWhile isSpace = s1
  have hs1 : 0 ∉ s1 := fun h => h0 ((List.dropWhile_sublist _).subset (h1 ▸ h))
  generalize hsg : decide (s1.head? = some (ch '+') ∨ s1.head? = some (ch '-')) = signed
  generalize h2 : (if signed then s1.drop 1 else s1) = s2
  have e2 : (if signed then s1.take 1 else []) ++ s2 = s1 := by
    subst h2
    cases signed
    · rfl
    · exact List.take_append_drop 1 s1
  have hs2 : 0 ∉ s2 := fun h => hs1 (e2 ▸ List.mem_append_right _ h)
  obtain ⟨hex, he, hiff⟩ := hexPrefix_eq hs2
  generalize hhex : (decide (base = 0 ∨ base = 16) && hex) = fits
  generalize hr : (if fits then 16 else
    if base ≠ 0 then base else if s2.head? = some (ch '0') then 8 else 10) = r
  generalize h3 : (if fits then s2.drop 2 else s2) = s3
  have e3 : (if fits then s2.take 2 else []) ++ s3 = s2 := by
    subst h3
    cases fits <;> simp
  have hn : Numeral.read base s = ⟨s.takeWhile isSpace, if signed then s1.take 1 else [],
      if fits then s2.take 2 else [], s3.takeWhile (isDigit r), s3.dropWhile (isDigit r), r⟩ := by
    unfold Numeral.read
    simp only [h1, hsg, h2, he, Option.getD_some, hhex, hr, h3]
  rw [hn]
  have hu : (if fits then s2.take 2 else []) ++
      (s3.takeWhile (isDigit r) ++ s3.dropWhile (isDigit r)) = s2 := by
    rw [List.takeWhile_append_dropWhile, e3]
  refine ⟨?_, ?_, ?_, ?_, ?_, ?_, ?_⟩ <;> simp only [Numeral.unsigned, hu]
  · rw [e2, ← h1, List.takeWhile_append_dropWhile]
  · exact fun c hc => List.mem_takeWhile_imp hc
  · rw [e2, ← h1]
    exact head?_dropWhile
  · cases signed
    · right; right
      simp only [Bool.false_eq_true, if_false, true_and]
      have e : s2 = s1 := h2.symm
      intro c hc
      rw [decide_eq_false_iff_not, not_or] at hsg
      rw [e, Option.mem_def] at hc
      rw [hc, Option.some.injEq, Option.some.injEq] at hsg
      exact hsg
    · rw [decide_eq_true_eq] at hsg
      obtain ⟨c, l, rfl⟩ : ∃ c l, s1 = c :: l := by
        cases s1 with
        | nil => simp at hsg
        | cons c l => exact ⟨c, l, rfl⟩
      simp only [List.head?_cons, Option.some.injEq] at hsg
      rcases hsg with rfl | rfl
      · exact Or.inl rfl
      · exact Or.inr (Or.inl rfl)
  · have hf : fits = true ↔ (base = 0 ∨ base = 16) ∧ HexAhead s2 := by
      rw [← hhex, Bool.and_eq_true, decide_eq_true_eq, hiff]
    cases fits
    · right
      refine ⟨fun h => absurd (hf.mpr h) (by simp), rfl, hr.symm⟩
    · left
      refine ⟨hf.mp rfl, ?_, hr.symm⟩
      obtain ⟨x, c, l, rfl, -⟩ := (hf.mp rfl).2
      rfl
  · exact fun c hc => isDigit_iff.mp (List.mem_takeWhile_imp hc)
  · exact fun c hc => isDigit_eq_false.mp (head?_dropWhile c hc)

/-- A text holds one numeral. -/
lemma Numeral.Of.unique {m n : Numeral} {base : ℕ} {s : List UInt8} (hm : m.Of base s)
    (hn : n.Of base s) : m = n := by
  obtain ⟨e1, e2⟩ := split_unique (hm.text.symm.trans hn.text) hm.space hm.space_max hn.space
    hn.space_max
  -- the sign is the first byte, or none
  have hsign : m.sign = n.sign ∧ m.unsigned = n.unsigned := by
    rcases hm.sign with h | h | ⟨h, h'⟩ <;> rcases hn.sign with g | g | ⟨g, g'⟩ <;>
      rw [h, g] at e2 <;> simp only [List.cons_append, List.nil_append] at e2
    · exact ⟨h.trans g.symm, by injection e2⟩
    · injection e2 with e
      exact absurd e (by decide)
    · rw [← e2] at g'
      exact absurd rfl (g' _ rfl).1
    · injection e2 with e
      exact absurd e (by decide)
    · exact ⟨h.trans g.symm, by injection e2⟩
    · rw [← e2] at g'
      exact absurd rfl (g' _ rfl).2
    · rw [e2] at h'
      exact absurd rfl (h' _ rfl).1
    · rw [e2] at h'
      exact absurd rfl (h' _ rfl).2
    · exact ⟨h.trans g.symm, e2⟩
  have hpre : m.pre = n.pre ∧ m.radix = n.radix ∧ m.digits ++ m.rest = n.digits ++ n.rest := by
    have hu := hsign.2
    have hr := hm.radix
    have gr := hn.radix
    rw [hu] at hr
    unfold Numeral.unsigned at hu
    rcases hr with ⟨h, hl, hr⟩ | ⟨h, hl, hr⟩ <;> rcases gr with ⟨g, gl, gr⟩ | ⟨g, gl, gr⟩
    · obtain ⟨a, b⟩ := List.append_inj hu (hl.trans gl.symm)
      exact ⟨a, hr.trans gr.symm, b⟩
    · tauto
    · tauto
    · rw [hl, gl] at hu
      exact ⟨hl.trans gl.symm, hr.trans gr.symm, hu⟩
  obtain ⟨hp, hr, hd⟩ := hpre
  have hdm := hm.digits
  have hdm' := hm.digits_max
  rw [hr] at hdm hdm'
  obtain ⟨e3, e4⟩ := split_unique hd (fun c hc => isDigit_iff.mpr (hdm c hc))
    (fun c hc => isDigit_eq_false.mpr (hdm' c hc))
    (fun c hc => isDigit_iff.mpr (hn.digits c hc))
    (fun c hc => isDigit_eq_false.mpr (hn.digits_max c hc))
  cases m
  cases n
  simp_all

/-- `strtoull` reads the numeral of a text. -/
lemma strtoull_of {n : Numeral} {base : ℕ} {s : List UInt8} (h0 : 0 ∉ s) (hn : n.Of base s)
    (hb : base ≤ 36) :
    strtoull (s ++ [0]) base =
      some (n.value, if n.digits = [] then s ++ [0] else n.rest ++ [0]) := by
  have h0' : 0 ∉ n.sign ++ n.unsigned := by
    rw [hn.text] at h0
    exact fun h => h0 (List.mem_append_right _ h)
  have h0u : 0 ∉ n.unsigned := fun h => h0' (List.mem_append_right _ h)
  have hrad : n.radix ≤ 36 := by
    rcases hn.radix with ⟨-, -, h⟩ | ⟨-, -, h⟩
    · omega
    · split_ifs at h <;> omega
  have spaces : walk isSpace (fun (_ : Unit) _ => ()) () (s ++ [0]) =
      some ((), n.sign ++ n.unsigned ++ [0]) := by
    rw [hn.text, List.append_assoc]
    exact walk_run hn.space (fun c hc => by
      cases hsu : n.sign ++ n.unsigned with
      | nil =>
        rw [hsu] at hc
        cases hc
        decide
      | cons a l =>
        rw [hsu] at hc
        cases hc
        exact hn.space_max c (by rw [hsu]; rfl)) (by simp) ()
  have sign : ∃ c, (n.sign ++ n.unsigned ++ [0]).head? = some c ∧
      (if c = ch '+' ∨ c = ch '-' then
        (decide (c = ch '-'), (n.sign ++ n.unsigned ++ [0]).drop 1)
        else (false, n.sign ++ n.unsigned ++ [0])) =
      (decide (n.sign = [ch '-']), n.unsigned ++ [0]) := by
    rcases hn.sign with h | h | ⟨h, h'⟩
    · exact ⟨ch '+', by rw [h]; rfl, by rw [h]; rfl⟩
    · exact ⟨ch '-', by rw [h]; rfl, by rw [h]; rfl⟩
    · rw [h]
      cases hu : n.unsigned with
      | nil => exact ⟨0, rfl, rfl⟩
      | cons a l =>
        have := h' a (by rw [hu]; rfl)
        exact ⟨a, rfl, by rw [if_neg (by tauto)]; rfl⟩
  have digits : walk (isDigit n.radix) (addDigit n.radix) (0, false) (n.digits ++ (n.rest ++ [0])) =
      some ((u64 n.number, !n.digits.isEmpty), n.rest ++ [0]) := by
    rw [walk_run (fun c hc => isDigit_iff.mpr (hn.digits c hc)) (fun c hc => by
      rw [isDigit_eq_false]
      cases hr : n.rest with
      | nil =>
        rw [hr] at hc
        cases hc
        exact not_digitIn_zero _
      | cons a l =>
        rw [hr] at hc
        cases hc
        exact hn.digits_max c (by rw [hr]; rfl)) (by simp)]
    have := addDigit_foldl (show n.radix < 4294967296 by omega) n.digits hn.digits 0 false
    rw [show u64 0 = 0 from rfl] at this
    rw [this]
    simp [Numeral.number]
  obtain ⟨c, hc, hsign⟩ := sign
  unfold strtoull
  simp only [spaces, hc, hsign, Option.bind_eq_bind, Option.bind_some, radix_eq hn h0u, digits]
  refine congrArg some (Prod.ext ?_ ?_)
  · unfold Numeral.value u64
    dsimp only
    split_ifs <;> simp_all
    omega
  · cases n.digits <;> rfl

/-- `strtoull` accepts exactly the grammar of numerals: a text holds one numeral, its value modulo
2^64 is what the function returns, and the end pointer stands behind its digits, or at the text when
there are none. No byte behind the NUL is read. -/
theorem strtoull_numeral (s : CStr) {base : ℕ} (hb : base = 0 ∨ 2 ≤ base ∧ base ≤ 36) :
    ∃ n : Numeral, n.Of base s.bytes ∧ (∀ m : Numeral, m.Of base s.bytes → m = n) ∧
      strtoull s.object base = some (if n.digits = [] then (0, s.object)
        else (n.value, n.rest ++ [0])) := by
  have hn := Numeral.read_of base s.noNul
  refine ⟨_, hn, fun m hm => hm.unique hn, ?_⟩
  unfold CStr.object
  rw [strtoull_of s.noNul hn (by omega)]
  split_ifs with h
  · have : (Numeral.read base s.bytes).number = 0 := by simp [Numeral.number, h]
    simp [Numeral.value, this]
  · rfl

theorem strtoull_numeral_hex : ∃ n : Numeral, n.Of 0 [ch '0', ch 'x', ch '1', ch 'f'] ∧
    (∀ m : Numeral, m.Of 0 [ch '0', ch 'x', ch '1', ch 'f'] → m = n) ∧
    strtoull (CStr.object ⟨[ch '0', ch 'x', ch '1', ch 'f'], by decide⟩) (0 : ℕ) =
      some (if n.digits = [] then (0, CStr.object ⟨[ch '0', ch 'x', ch '1', ch 'f'], by decide⟩)
        else (n.value, n.rest ++ [0])) :=
  strtoull_numeral ⟨[ch '0', ch 'x', ch '1', ch 'f'], by decide⟩ (Or.inl rfl)

end LunariaOS.Libc
