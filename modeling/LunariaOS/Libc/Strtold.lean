import LunariaOS.Libc.Strto

/-!
The parser of decimal fractions, `strtold`.

A `long double` is a rational number here. The parser reads the longest numeral there is, but
`ldexpl` scales by powers of two, so that an exponent stands for a power of two and not of ten.
-/

namespace LunariaOS.Libc

open LunariaOS.Lib

/-! ### The code -/

/-- The loop of `ldexpl` over the bits of the exponent. -/
def powLoop (r p : ℚ) (e : ℕ) : ℚ :=
  if e = 0 then r
  else powLoop (if e % 2 = 1 then r * p else r) (if e / 2 ≠ 0 then p * p else p) (e / 2)
termination_by e

def ldexpl (x : ℚ) (exp : ℤ) : ℚ :=
  if exp > 0 then powLoop x 2 exp.toNat
  else if exp < 0 then powLoop x (1 / 2) (-exp).toNat
  else x

/-- `*p >= '0' && *p <= '9'`. -/
def isDec (c : UInt8) : Bool := ch '0' ≤ c ∧ c ≤ ch '9'

/-- `*p - '0'`. -/
def decOf (c : UInt8) : ℕ := c.toNat - 48

/-- One round of the loop over the digits before the point, on `val` and `any`. -/
def addWhole (s : ℚ × Bool) (c : UInt8) : ℚ × Bool := (s.1 * 10 + decOf c, true)

/-- One round of the loop over the digits after the point, on `val`, `scale` and `any`. -/
def addFrac (s : ℚ × ℚ × Bool) (c : UInt8) : ℚ × ℚ × Bool :=
  (s.1 + decOf c * s.2.1, s.2.1 * (1 / 10), true)

/-- One round of the loop over the digits of the exponent, on `eval` and `edig`. -/
def addExp (s : ℕ × Bool) (c : UInt8) : ℕ × Bool :=
  (if s.1 < 100000000 then s.1 * 10 + decOf c else s.1, true)

/-- A sign, if there is one: whether it is a minus, and what is left. -/
def readSign (p : List UInt8) : Option (Bool × List UInt8) := do
  let c ← p.head?
  some (if c = ch '+' ∨ c = ch '-' then (decide (c = ch '-'), p.drop 1) else (false, p))

/-- The point and the digits after it, if they are there. -/
def readFrac (val : ℚ) (any : Bool) (p : List UInt8) : Option ((ℚ × Bool) × List UInt8) := do
  let c ← p.head?
  if c = ch '.' then do
    let ((val, _, any), p) ← walk isDec addFrac (val, 1 / 10, any) (p.drop 1)
    some ((val, any), p)
  else some ((val, any), p)

/-- The exponent, if there is one. -/
def readExp (val : ℚ) (p : List UInt8) : Option (ℚ × List UInt8) := do
  let c ← p.head?
  if c = ch 'e' ∨ c = ch 'E' then do
    let (eneg, e) ← readSign (p.drop 1)
    let esign : ℤ := if eneg then -1 else 1
    let ((eval, edig), e) ← walk isDec addExp (0, false) e
    some (if edig then (ldexpl val (esign * eval), e) else (val, p))
  else some (val, p)

/-- `strtold`: the value and the end pointer. -/
def strtold (s : List UInt8) : Option (ℚ × List UInt8) := do
  let (_, p) ← walk isSpace (fun _ _ => ()) () s
  let (neg, p) ← readSign p
  let ((val, any), p) ← walk isDec addWhole (0, false) p
  let ((val, any), p) ← readFrac val any p
  let (val, p) ← (if any then readExp val p else some (val, p))
  some (if neg then -val else val, if any then p else s)

/-! ### The grammar -/

/-- A sign or none. -/
def IsSign (t : List UInt8) : Prop := t = [] ∨ t = [ch '+'] ∨ t = [ch '-']

/-- An exponent with a digit. -/
def ExpAhead (t : List UInt8) : Prop :=
  ∃ mark sign c r, t = mark :: (sign ++ c :: r) ∧ (mark = ch 'e' ∨ mark = ch 'E') ∧ IsSign sign ∧
    isDec c

/-- The exponent of a numeral. -/
structure Exponent where
  mark : UInt8
  sign : List UInt8
  digits : List UInt8

/-- The parts of a decimal numeral in a text: the digits after the point are there if the point is. -/
structure Decimal where
  space : List UInt8
  sign : List UInt8
  whole : List UInt8
  frac : Option (List UInt8)
  exp : Option Exponent
  rest : List UInt8

/-- The number that decimal digits write. -/
def decimal (ds : List UInt8) : ℕ := Nat.ofDigits 10 (ds.reverse.map decOf)

namespace Exponent

variable (x : Exponent)

def text : List UInt8 := x.mark :: (x.sign ++ x.digits)

def value : ℤ := if x.sign = [ch '-'] then -(decimal x.digits) else decimal x.digits

/-- What an exponent is, before the text `rest`. -/
structure Ok (rest : List UInt8) : Prop where
  mark : x.mark = ch 'e' ∨ x.mark = ch 'E'
  sign : IsSign x.sign
  some_digit : x.digits ≠ []
  digits : ∀ c ∈ x.digits, isDec c
  digits_max : ∀ c ∈ rest.head?, isDec c = false

end Exponent

namespace Decimal

variable (n : Decimal)

/-- The digits after the point. -/
def places : List UInt8 := n.frac.getD []

def fracText : List UInt8 := n.frac.elim [] fun f => ch '.' :: f

def expText : List UInt8 := n.exp.elim [] Exponent.text

/-- What follows the digits, and what follows the sign. -/
def tail : List UInt8 := n.expText ++ n.rest

def unsigned : List UInt8 := n.whole ++ (n.fracText ++ n.tail)

/-- The number before the exponent. -/
def mantissa : ℚ := decimal n.whole + decimal n.places / 10 ^ n.places.length

def exponent : ℤ := n.exp.elim 0 Exponent.value

/-- **The number of a numeral**, with exact powers of ten. -/
def value : ℚ :=
  let v := n.mantissa * 10 ^ n.exponent
  if n.sign = [ch '-'] then -v else v

/-- `n` is the longest decimal numeral at the beginning of the text `s`. -/
structure Of (s : List UInt8) : Prop where
  text : s = n.space ++ (n.sign ++ n.unsigned)
  space : ∀ c ∈ n.space, isSpace c
  space_max : ∀ c ∈ (n.sign ++ n.unsigned).head?, isSpace c = false
  sign : IsSign n.sign
  sign_max : n.sign = [] → ∀ c ∈ n.unsigned.head?, c ≠ ch '+' ∧ c ≠ ch '-'
  some_digit : n.whole ≠ [] ∨ n.places ≠ []
  whole : ∀ c ∈ n.whole, isDec c
  whole_max : ∀ c ∈ (n.fracText ++ n.tail).head?, isDec c = false
  point : n.frac = none → ∀ c ∈ n.tail.head?, c ≠ ch '.'
  places : ∀ c ∈ n.places, isDec c
  places_max : ∀ c ∈ n.tail.head?, isDec c = false
  exp : ∀ x ∈ n.exp, x.Ok n.rest
  exp_max : n.exp = none → ¬ ExpAhead n.rest

end Decimal

/-! ### Powers -/

lemma powLoop_eq (r p : ℚ) (e : ℕ) : powLoop r p e = r * p ^ e := by
  induction e using Nat.strong_induction_on generalizing r p with
  | _ e ih =>
    rw [powLoop]
    by_cases h0 : e = 0
    · rw [if_pos h0, h0, pow_zero, mul_one]
    rw [if_neg h0, ih _ (by omega)]
    have hsplit : e = e % 2 + 2 * (e / 2) := (Nat.mod_add_div e 2).symm
    have hpow : (if e / 2 ≠ 0 then p * p else p) ^ (e / 2) = (p * p) ^ (e / 2) := by
      by_cases h : e / 2 = 0
      · rw [h, pow_zero, pow_zero]
      · rw [if_pos h]
    rw [hpow]
    rcases Nat.mod_two_eq_zero_or_one e with h | h
    · rw [h, Nat.zero_add] at hsplit
      rw [if_neg (by omega), ← pow_two, ← pow_mul, ← hsplit]
    · rw [h] at hsplit
      rw [if_pos h, ← pow_two, ← pow_mul, mul_assoc, ← pow_succ', Nat.add_comm, ← hsplit]

lemma ldexpl_eq (x : ℚ) (exp : ℤ) : ldexpl x exp = x * 2 ^ exp := by
  unfold ldexpl
  rcases lt_trichotomy exp 0 with h | h | h
  · rw [if_neg (by omega), if_pos h, powLoop_eq]
    obtain ⟨k, hk⟩ := Int.eq_ofNat_of_zero_le (show 0 ≤ -exp by omega)
    rw [show exp = -(k : ℤ) by omega, neg_neg, Int.toNat_natCast, zpow_neg, zpow_natCast, one_div,
      inv_pow]
  · rw [h]
    simp
  · rw [if_pos h, powLoop_eq]
    obtain ⟨k, rfl⟩ := Int.eq_ofNat_of_zero_le h.le
    rw [Int.toNat_natCast, zpow_natCast]

/-! ### Digits -/

lemma decimal_cons (c : UInt8) (ds : List UInt8) :
    decimal (c :: ds) = decOf c * 10 ^ ds.length + decimal ds := by
  unfold decimal
  rw [List.reverse_cons, List.map_append, Nat.ofDigits_append, List.length_map, List.length_reverse]
  simp only [List.map_cons, List.map_nil, Nat.ofDigits_singleton]
  ring

lemma addWhole_foldl (ds : List UInt8) (v : ℚ) (any : Bool) :
    ds.foldl addWhole (v, any) = (v * 10 ^ ds.length + decimal ds, any || !ds.isEmpty) := by
  induction ds generalizing v any with
  | nil => simp [decimal]
  | cons c ds ih =>
    rw [List.foldl_cons, addWhole, ih, decimal_cons]
    push_cast
    simp only [List.length_cons, List.isEmpty_cons, Bool.not_false, Bool.or_true, Bool.true_or,
      Prod.mk.injEq, and_true]
    ring

lemma addFrac_foldl (ds : List UInt8) (v sc : ℚ) (any : Bool) :
    (ds.foldl addFrac (v, sc, any)).1 = v + sc * 10 * (decimal ds / 10 ^ ds.length) ∧
      (ds.foldl addFrac (v, sc, any)).2.2 = (any || !ds.isEmpty) := by
  induction ds generalizing v sc any with
  | nil => simp [decimal]
  | cons c ds ih =>
    obtain ⟨h1, h2⟩ := ih (v + decOf c * sc) (sc * (1 / 10)) true
    rw [List.foldl_cons, addFrac]
    refine ⟨h1.trans ?_, h2.trans (by simp)⟩
    rw [decimal_cons]
    push_cast
    rw [List.length_cons, pow_succ]
    field_simp
    ring

/-- The exponent is computed without the bound, where it is small. -/
lemma addExp_foldl (ds : List UInt8) (v : ℕ) (any : Bool)
    (h : v * 10 ^ ds.length + decimal ds < 100000000) :
    ds.foldl addExp (v, any) = (v * 10 ^ ds.length + decimal ds, any || !ds.isEmpty) := by
  induction ds generalizing v any with
  | nil => simp [decimal]
  | cons c ds ih =>
    rw [decimal_cons, List.length_cons] at h ⊢
    have hpos : 0 < 10 ^ ds.length := pow_pos (by norm_num) _
    have hv : v < 100000000 := by
      have : v ≤ v * 10 ^ (ds.length + 1) := Nat.le_mul_of_pos_right _ (pow_pos (by norm_num) _)
      omega
    have hnext : (v * 10 + decOf c) * 10 ^ ds.length + decimal ds =
        v * 10 ^ (ds.length + 1) + (decOf c * 10 ^ ds.length + decimal ds) := by
      rw [pow_succ]
      ring
    rw [List.foldl_cons, addExp, if_pos hv, ih _ _ (by rw [hnext]; exact h), hnext]
    simp

/-! ### What is read -/

lemma isDec_sign {c : UInt8} (h : isDec c) : c ≠ ch '+' ∧ c ≠ ch '-' := by
  constructor
  · rintro rfl
    exact absurd h (by decide)
  · rintro rfl
    exact absurd h (by decide)

lemma readSign_eq {sign t : List UInt8} (h : IsSign sign)
    (hmax : sign = [] → ∀ c ∈ t.head?, c ≠ ch '+' ∧ c ≠ ch '-') (ht : t ≠ []) :
    readSign (sign ++ t) = some (decide (sign = [ch '-']), t) := by
  obtain ⟨c, t, rfl⟩ := List.exists_cons_of_ne_nil ht
  rcases h with rfl | rfl | rfl
  · obtain ⟨h1, h2⟩ := hmax rfl c rfl
    unfold readSign
    simp [h1, h2]
  · rfl
  · rfl

lemma isDec_zero : isDec 0 = false := by decide

/-- The sign of an exponent is followed by digits. -/
lemma readExp_some {x : Exponent} {rest : List UInt8} (hx : x.Ok rest) (hrest : rest ≠ [])
    (hbig : decimal x.digits < 100000000) (val : ℚ) :
    readExp val (x.text ++ rest) = some (val * 2 ^ x.value, rest) := by
  have hne : x.digits ++ rest ≠ [] := by
    intro h
    exact hrest (List.append_eq_nil_iff.mp h).2
  have hsign := readSign_eq hx.sign (t := x.digits ++ rest) (fun _ c hc => by
    obtain ⟨d, ds, hds⟩ := List.exists_cons_of_ne_nil hx.some_digit
    rw [hds] at hc
    cases hc
    exact isDec_sign (hx.digits _ (by rw [hds]; exact List.mem_cons_self))) hne
  have hwalk := walk_run (q := isDec) (g := addExp) hx.digits hx.digits_max hrest (0, false)
  rw [addExp_foldl _ _ _ (by simpa using hbig)] at hwalk
  have hany : x.digits.isEmpty = false := by
    rw [List.isEmpty_eq_false_iff]
    exact hx.some_digit
  unfold readExp Exponent.text
  rw [List.cons_append, List.append_assoc, List.head?_cons]
  simp only [Option.bind_eq_bind, Option.bind_some, List.drop_one, List.tail_cons, if_pos hx.mark,
    hsign, hwalk, hany, Nat.zero_mul, Nat.zero_add, Bool.not_false, Bool.or_true, if_true]
  rw [ldexpl_eq]
  unfold Exponent.value
  by_cases hneg : x.sign = [ch '-']
  · simp [hneg]
  · simp [hneg]

/-- An `e` without digits after it is left alone. -/
lemma readExp_none {rest : List UInt8} (h : ¬ ExpAhead rest) (h0 : 0 ∉ rest) (val : ℚ) :
    readExp val (rest ++ [0]) = some (val, rest ++ [0]) := by
  cases rest with
  | nil => rfl
  | cons mark t =>
    have ht0 : 0 ∉ t := fun h => h0 (List.mem_cons_of_mem _ h)
    unfold readExp
    rw [List.cons_append, List.head?_cons]
    simp only [Option.bind_eq_bind, Option.bind_some, List.drop_one, List.tail_cons]
    by_cases hmark : mark = ch 'e' ∨ mark = ch 'E'
    · rw [if_pos hmark]
      -- the sign, and what follows it
      obtain ⟨sign, u, hu, hsign, hmax⟩ : ∃ sign u, t = sign ++ u ∧ IsSign sign ∧
          (sign = [] → ∀ c ∈ (u ++ [0]).head?, c ≠ ch '+' ∧ c ≠ ch '-') := by
        cases t with
        | nil => exact ⟨[], [], rfl, .inl rfl, fun _ c hc => by cases hc; decide⟩
        | cons c u =>
          by_cases hp : c = ch '+'
          · exact ⟨[ch '+'], u, by rw [hp]; rfl, .inr (.inl rfl), fun h => by cases h⟩
          by_cases hm : c = ch '-'
          · exact ⟨[ch '-'], u, by rw [hm]; rfl, .inr (.inr rfl), fun h => by cases h⟩
          · exact ⟨[], c :: u, rfl, .inl rfl, fun _ c' hc' => by cases hc'; exact ⟨hp, hm⟩⟩
      have hnodigit : ∀ c ∈ (u ++ [0]).head?, isDec c = false := by
        intro c hc
        cases u with
        | nil =>
          cases hc
          exact isDec_zero
        | cons d u =>
          cases hc
          by_contra hd
          exact h ⟨mark, sign, c, u, by rw [hu], hmark, hsign, by simpa using hd⟩
      have hread := readSign_eq hsign hmax (by simp)
      have hwalk := walk_run (q := isDec) (g := addExp) (l := []) (fun _ h => absurd h List.not_mem_nil)
        hnodigit (by simp) (0, false)
      rw [hu, List.append_assoc, hread]
      simp only [Option.bind_some]
      rw [List.nil_append] at hwalk
      rw [hwalk]
      simp
    · rw [if_neg hmark]

namespace Decimal

variable {n : Decimal} {s : CStr}

/-- The digits are read up to the exponent. -/
lemma readExp_tail (hn : n.Of s.bytes) (h0 : 0 ∉ n.rest)
    (hbig : ∀ x ∈ n.exp, decimal x.digits < 100000000) (val : ℚ) :
    readExp val (n.tail ++ [0]) = some (val * 2 ^ n.exponent, n.rest ++ [0]) := by
  unfold tail expText exponent
  cases he : n.exp with
  | none =>
    rw [Option.elim_none, Option.elim_none, List.nil_append, zpow_zero, mul_one]
    exact readExp_none (hn.exp_max he) h0 val
  | some x =>
    have hx := hn.exp x (by rw [he]; rfl)
    have hmax : ∀ c ∈ (n.rest ++ [0]).head?, isDec c = false := by
      intro c hc
      cases hr : n.rest with
      | nil =>
        rw [hr] at hc
        cases hc
        exact isDec_zero
      | cons d r =>
        rw [hr] at hc
        exact hx.digits_max c (by rw [hr]; exact hc)
    rw [Option.elim_some, Option.elim_some, List.append_assoc]
    exact readExp_some ⟨hx.mark, hx.sign, hx.some_digit, hx.digits, hmax⟩ (by simp)
      (hbig x (by rw [he]; rfl)) val

/-- The first byte of a text that is ended by a NUL. -/
lemma head_nul {q : UInt8 → Prop} {t : List UInt8} (h : ∀ c ∈ t.head?, q c) (h0 : q 0) :
    ∀ c ∈ (t ++ [0]).head?, q c := by
  intro c hc
  cases t with
  | nil =>
    cases hc
    exact h0
  | cons d t => exact h c hc

/-- The digits after the point are read. -/
lemma readFrac_eq (hn : n.Of s.bytes) (v : ℚ) (any : Bool) :
    readFrac v any (n.fracText ++ (n.tail ++ [0])) =
      some ((v + decimal n.places / 10 ^ n.places.length, any || !n.places.isEmpty), n.tail ++ [0]) := by
  have hplaces := hn.places
  have hmax := head_nul hn.places_max isDec_zero
  unfold readFrac fracText
  cases hf : n.frac with
  | none =>
    have hp : n.places = [] := by
      unfold places
      rw [hf]
      rfl
    have hdot := head_nul (q := fun c => c ≠ ch '.') (hn.point hf) (by decide)
    rw [Option.elim_none, List.nil_append, hp]
    cases ht : n.tail ++ [0] with
    | nil => exact absurd ht (by simp)
    | cons c t =>
      rw [ht] at hdot
      simp [hdot c rfl, decimal]
  | some f =>
    have hp : n.places = f := by
      unfold places
      rw [hf]
      rfl
    rw [hp] at hplaces
    have hwalk := walk_run (q := isDec) (g := addFrac) hplaces hmax (by simp) (v, 1 / 10, any)
    obtain ⟨h1, h2⟩ := addFrac_foldl f v (1 / 10) any
    have hv : v + decimal f / 10 ^ f.length = (f.foldl addFrac (v, 1 / 10, any)).1 := by
      rw [h1]
      ring
    rw [Option.elim_some, hp, hv, ← h2]
    simp only [List.cons_append, List.head?_cons, Option.bind_eq_bind, Option.bind_some, if_true,
      List.drop_one, List.tail_cons, hwalk]

/-- **What `strtold` returns**: the end of the numeral, and a value with a power of two. -/
theorem strtold_eq (hn : n.Of s.bytes) (hbig : ∀ x ∈ n.exp, decimal x.digits < 100000000) :
    strtold s.object = some
      (if n.sign = [ch '-'] then -(n.mantissa * 2 ^ n.exponent) else n.mantissa * 2 ^ n.exponent,
        n.rest ++ [0]) := by
  have h0 : 0 ∉ n.rest := by
    intro h
    apply s.noNul
    rw [hn.text]
    unfold unsigned tail
    simp [h]
  have hobj : s.object = n.space ++ (n.sign ++ (n.whole ++ (n.fracText ++ (n.tail ++ [0])))) := by
    unfold CStr.object
    rw [hn.text]
    unfold unsigned
    simp only [List.append_assoc]
  have hspace := walk_run (q := isSpace) (g := fun _ _ => ()) (r := n.sign ++ n.unsigned ++ [0]) hn.space
    (head_nul hn.space_max (by decide)) (by simp) ()
  have hsign := readSign_eq (t := n.unsigned ++ [0]) hn.sign
    (fun h => head_nul (q := fun c => c ≠ ch '+' ∧ c ≠ ch '-') (hn.sign_max h) (by decide)) (by simp)
  have hwhole := walk_run (q := isDec) (g := addWhole) (r := n.fracText ++ n.tail ++ [0]) hn.whole
    (head_nul hn.whole_max isDec_zero) (by simp) (0, false)
  have hexp := readExp_tail hn h0 hbig n.mantissa
  have hany : (false || !n.whole.isEmpty || !n.places.isEmpty) = true := by
    rcases hn.some_digit with h | h
    · simp [h]
    · simp [h]
  rw [addWhole_foldl, zero_mul, zero_add] at hwhole
  unfold unsigned at hspace hsign
  simp only [List.append_assoc] at hspace hsign hwhole
  unfold strtold
  rw [hobj, hspace]
  simp only [Option.bind_eq_bind, Option.bind_some, hsign, hwhole, readFrac_eq hn, hany, if_true,
    decide_eq_true_eq]
  unfold mantissa at hexp ⊢
  rw [hexp]
  rfl

/-- Powers of two and of ten with the same exponent are the same for the exponent zero only. -/
lemma pow_two_eq_ten (e : ℤ) : (2 : ℚ) ^ e = 10 ^ e ↔ e = 0 := by
  have h : (10 : ℚ) ^ e = 2 ^ e * 5 ^ e := by
    rw [← mul_zpow]
    norm_num
  have h2 : (2 : ℚ) ^ e ≠ 0 := zpow_ne_zero e (by norm_num)
  rw [h, eq_comm, mul_eq_left₀ h2]
  exact zpow_eq_one_iff_right₀ (by norm_num) (by norm_num)

end Decimal

/-- **When `strtold` reads a numeral**: where it has no exponent or the exponent or the number before it
is zero. The end of the numeral it finds always. -/
theorem strtold_reads_iff {n : Decimal} {s : CStr} (hn : n.Of s.bytes)
    (hbig : ∀ x ∈ n.exp, decimal x.digits < 100000000) :
    strtold s.object = some (n.value, n.rest ++ [0]) ↔ n.mantissa = 0 ∨ n.exponent = 0 := by
  rw [Decimal.strtold_eq hn hbig]
  have hval : n.mantissa * 2 ^ n.exponent = n.mantissa * 10 ^ n.exponent ↔
      n.mantissa = 0 ∨ n.exponent = 0 := by
    by_cases h0 : n.mantissa = 0
    · simp [h0]
    · rw [mul_right_inj' h0, Decimal.pow_two_eq_ten]
      simp [h0]
  unfold Decimal.value
  rw [Option.some.injEq, Prod.mk.injEq, and_iff_left rfl, ← hval]
  dsimp only
  split_ifs
  · exact neg_inj
  · rfl

/-- The numeral `1e3`. -/
def thousand : Decimal := ⟨[], [], [ch '1'], none, some ⟨ch 'e', [], [ch '3']⟩, []⟩

/-- The string `"1e3"`. -/
def thousandStr : CStr := ⟨[ch '1', ch 'e', ch '3'], by decide⟩

lemma thousand_exp (x : Exponent) (h : x ∈ thousand.exp) : x = ⟨ch 'e', [], [ch '3']⟩ :=
  (Option.some.inj h).symm

lemma thousand_small (x : Exponent) (h : x ∈ thousand.exp) : decimal x.digits < 100000000 := by
  rw [thousand_exp x h]
  decide +kernel

lemma thousand_of : thousand.Of thousandStr.bytes where
  text := rfl
  space := by decide +kernel
  space_max := by decide +kernel
  sign := .inl rfl
  sign_max := by decide +kernel
  some_digit := .inl (by decide +kernel)
  whole := by decide +kernel
  whole_max := by decide +kernel
  point := by decide +kernel
  places := by decide +kernel
  places_max := by decide +kernel
  exp := fun x hx => by
    rw [thousand_exp x hx]
    exact ⟨.inl rfl, .inl rfl, by decide +kernel, by decide +kernel, by decide +kernel⟩
  exp_max := fun h => absurd h (Option.some_ne_none _)

theorem strtold_reads_iff_thousand :
    strtold thousandStr.object = some (thousand.value, thousand.rest ++ [0]) ↔
      thousand.mantissa = 0 ∨ thousand.exponent = 0 :=
  strtold_reads_iff thousand_of thousand_small

/-- `1e3` is read as `8`. -/
theorem strtold_exponent_two : ¬ ∀ (n : Decimal) (s : CStr), n.Of s.bytes →
    (∀ x ∈ n.exp, decimal x.digits < 100000000) →
    strtold s.object = some (n.value, n.rest ++ [0]) := by
  intro h
  have hread := h thousand thousandStr thousand_of thousand_small
  have hmantissa : thousand.mantissa = 1 := by
    unfold Decimal.mantissa
    rw [show decimal thousand.whole = 1 by decide, show decimal thousand.places = 0 by decide]
    norm_num
  have hexponent : thousand.exponent = 3 := by decide
  have hsign : ¬ thousand.sign = [ch '-'] := by decide
  rw [Decimal.strtold_eq thousand_of thousand_small] at hread
  unfold Decimal.value at hread
  rw [hmantissa, hexponent, if_neg hsign, Option.some.injEq, Prod.mk.injEq] at hread
  norm_num [hsign] at hread

end LunariaOS.Libc
