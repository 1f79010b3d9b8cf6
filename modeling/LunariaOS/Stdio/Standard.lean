import LunariaOS.Stdio.Number

/-!
The integer conversions against the rules of C99.

The interpreter reads a precision and forgets it for the integers, `#` puts `0x` in front of a zero as
well and a `0` behind an octal one, and the padding is counted in an `int`. What it prints is a row of
spaces, zeros and digits all the same, and the numbers of the spaces and of the zeros tell when that is
the text of the standard.
-/

namespace LunariaOS.Stdio

open LunariaOS.Lib LunariaOS.Libc

/-! ### The rules -/

namespace Standard

/-- The digits of a conversion: at least as many as the precision, which is 1 when it is not given,
and `#` makes the first one of an octal number a zero. -/
def digits (base : ℕ) (upper alt : Bool) (prec : Option ℕ) (v : ℕ) : List UInt8 :=
  let ds := ((Nat.digits base v).map (digitChar upper)).reverse
  let ds := List.replicate (prec.getD 1 - ds.length) (ch '0') ++ ds
  if alt ∧ base = 8 ∧ ds.head? ≠ some (ch '0') then ch '0' :: ds else ds

/-- `#` puts `0x` or `0X` in front of a hexadecimal number that is not 0. -/
def hexPrefix (base : ℕ) (upper alt : Bool) (v : ℕ) : List UInt8 :=
  if alt ∧ base = 16 ∧ v ≠ 0 then [ch '0', if upper then ch 'X' else ch 'x'] else []

variable (d : Directive)

/-- A negative width is a `-` flag. -/
def left : Prop := ch '-' ∈ d.flags ∨ d.width.value < 0

instance : Decidable (left d) := by unfold left; infer_instance

/-- A negative precision is not given. -/
def prec : Option ℕ := d.prec.bind fun p => if p.value < 0 then none else some p.value.toNat

/-- The sign of a signed conversion. -/
def sign (v : ℤ) : List UInt8 :=
  if v < 0 then [ch '-'] else if ch '+' ∈ d.flags then [ch '+']
  else if ch ' ' ∈ d.flags then [ch ' '] else []

/-- Pad to the width: the `0` flag is ignored with a `-` flag or a precision. -/
def place (pre ds : List UInt8) : List UInt8 :=
  let n := d.width.value.natAbs - (pre.length + ds.length)
  if left d then pre ++ ds ++ List.replicate n (ch ' ')
  else if ch '0' ∈ d.flags ∧ prec d = none then pre ++ List.replicate n (ch '0') ++ ds
  else List.replicate n (ch ' ') ++ pre ++ ds

/-- The text of `%d` and `%i`. -/
def signed (v : ℤ) : List UInt8 := place d (sign d v) (digits 10 false false (prec d) v.natAbs)

/-- The text of `%u`, `%x`, `%X` and `%o`; `alt` tells whether `#` counts for the conversion. -/
def unsigned (base : ℕ) (upper alt : Bool) (v : ℕ) : List UInt8 :=
  place d (hexPrefix base upper (alt && decide (ch '#' ∈ d.flags)) v)
    (digits base upper (alt && decide (ch '#' ∈ d.flags)) (prec d) v)

end Standard

/-- The characters that `do_format` hands to a stream. -/
def emitted (fmt : List UInt8) (ap : List Arg) : Except Fault (List UInt8) :=
  (vfprintf [] fmt ap).map Prod.snd

lemma emitted_eq (fmt : List UInt8) (ap : List Arg) : emitted fmt ap = formatText fmt ap := by
  unfold emitted
  rw [vfprintf_eq]
  cases formatText fmt ap <;> rfl

/-! ### Rows of spaces, zeros and digits -/

/-- `s` spaces on the left or on the right of a sign or prefix, `j` zeros and the digits. -/
def row (left : Bool) (s j : ℕ) (pre core : List UInt8) : List UInt8 :=
  if left then pre ++ (List.replicate j (ch '0') ++ (core ++ List.replicate s (ch ' ')))
  else List.replicate s (ch ' ') ++ (pre ++ (List.replicate j (ch '0') ++ core))

lemma row_length (left : Bool) (s j : ℕ) (pre core : List UInt8) :
    (row left s j pre core).length = s + pre.length + j + core.length := by
  unfold row
  cases left <;> simp <;> omega

lemma row_count (left : Bool) (s j : ℕ) (pre core : List UInt8) :
    (row left s j pre core).count (ch '0') = pre.count (ch '0') + j + core.count (ch '0') := by
  have h : ¬ ch ' ' = ch '0' := by decide
  unfold row
  cases left <;> simp [List.count_replicate, h] <;> omega

/-- The zeros are counted in the text, and then the spaces. -/
lemma row_inj {left : Bool} {s j s' j' : ℕ} {pre core : List UInt8} :
    row left s j pre core = row left s' j' pre core ↔ s = s' ∧ j = j' := by
  constructor
  · intro h
    have hj := congrArg (List.count (ch '0')) h
    have hs := congrArg List.length h
    rw [row_count, row_count] at hj
    rw [row_length, row_length] at hs
    omega
  · rintro ⟨rfl, rfl⟩
    rfl

lemma padded_row (left zero : Bool) (width : ℤ) (pre core : List UInt8) (z : ℕ) :
    padded left zero width pre (List.replicate z (ch '0') ++ core) =
      let n := (i32 (width - (z + core.length + pre.length))).toNat
      row left (if !left && zero then 0 else n) (z + if !left && zero then n else 0) pre core := by
  unfold padded row
  simp only [List.length_append, List.length_replicate, Nat.cast_add]
  generalize (i32 (width - (z + core.length + pre.length))).toNat = n
  have hz : ∀ l, List.replicate (z + n) (ch '0') ++ l =
      List.replicate n (ch '0') ++ (List.replicate z (ch '0') ++ l) := by
    intro l
    rw [Nat.add_comm, List.replicate_add, List.append_assoc]
  cases left <;> cases zero <;> simp [hz]

lemma place_row (d : Directive) (pre core : List UInt8) (z : ℕ) :
    Standard.place d pre (List.replicate z (ch '0') ++ core) =
      let n := d.width.value.natAbs - (pre.length + (z + core.length))
      let fill := ¬ Standard.left d ∧ ch '0' ∈ d.flags ∧ Standard.prec d = none
      row (decide (Standard.left d)) (if fill then 0 else n) (z + if fill then n else 0) pre core := by
  unfold Standard.place row
  simp only [List.length_append, List.length_replicate]
  generalize d.width.value.natAbs - (pre.length + (z + core.length)) = n
  by_cases hl : Standard.left d
  · simp [hl]
  · by_cases hf : ch '0' ∈ d.flags ∧ Standard.prec d = none
    · have hz : ∀ l, List.replicate (z + n) (ch '0') ++ l =
          List.replicate n (ch '0') ++ (List.replicate z (ch '0') ++ l) := by
        intro l
        rw [Nat.add_comm, List.replicate_add, List.append_assoc]
      simp [hl, hf, hz]
    · simp [hl, hf]

lemma flagSet_left (d : Directive) : d.flagSet.left = decide (Standard.left d) := by
  unfold Directive.flagSet Standard.left
  rw [flags_foldl d.flags_ok]
  by_cases h : d.width.value < 0
  · simp [h]
  · simp [h]

lemma flagSet_zero (d : Directive) : d.flagSet.zero = decide (ch '0' ∈ d.flags) := by
  unfold Directive.flagSet
  rw [flags_foldl d.flags_ok]
  split_ifs <;> simp

lemma signText_flagSet (d : Directive) (v : ℤ) : signText v d.flagSet = Standard.sign d v := by
  unfold signText Standard.sign Directive.flagSet
  rw [flags_foldl d.flags_ok]
  split_ifs <;> simp_all

namespace Directive

/-- The room in front of the number is filled with zeros by the interpreter. -/
def Fills (d : Directive) : Prop := ¬ Standard.left d ∧ ch '0' ∈ d.flags

instance (d : Directive) : Decidable d.Fills := by unfold Fills; infer_instance

end Directive

/-- When a number that is printed with `z` zeros of its own is the one that is prescribed with `y`
zeros. -/
lemma padded_eq_place (d : Directive) (pre core : List UInt8) {z : ℕ} (y : ℕ)
    (hz : z + core.length + pre.length < 2147483648) :
    padded d.flagSet.left d.flagSet.zero d.widthVar pre (List.replicate z (ch '0') ++ core) =
        Standard.place d pre (List.replicate y (ch '0') ++ core) ↔
      d.width.value.natAbs < 2147483648 + (z + core.length + pre.length) ∧
        if d.Fills then
          (Standard.prec d = none → max d.width.value.natAbs (z + core.length + pre.length) =
            max d.width.value.natAbs (y + core.length + pre.length)) ∧
          (Standard.prec d ≠ none → max d.width.value.natAbs (z + core.length + pre.length) =
            y + core.length + pre.length)
        else z = y := by
  rw [padded_row, place_row, flagSet_left, flagSet_zero]
  dsimp only
  rw [row_inj]
  unfold Directive.Fills Directive.widthVar
  generalize d.width.value.natAbs = w
  -- the padding is the one that the width leaves room for, or less than 2^31 of it
  have hn : w < 2147483648 + (z + core.length + pre.length) →
      (i32 (i32 w - (z + core.length + pre.length))).toNat = w - (z + core.length + pre.length) := by
    unfold i32
    omega
  have hlt : (i32 (i32 w - (z + core.length + pre.length))).toNat < 2147483648 := by
    unfold i32
    omega
  generalize (i32 (i32 w - (z + core.length + pre.length))).toNat = n at hn hlt ⊢
  generalize core.length = c at hz hn ⊢
  generalize pre.length = p at hz hn ⊢
  by_cases hl : Standard.left d
  · simp only [hl, decide_true, not_true_eq_false, false_and, if_false, Bool.not_true, Bool.false_and,
      Bool.false_eq_true]
    omega
  · by_cases h0 : ch '0' ∈ d.flags
    · by_cases hp : Standard.prec d = none
      · simp only [hl, h0, hp, decide_true, decide_false, not_false_eq_true, and_self, if_true,
          Bool.not_false, Bool.true_and, ne_eq, not_true_eq_false, true_implies, false_implies, true_and, and_true]
        omega
      · simp only [hl, h0, hp, decide_true, decide_false, not_false_eq_true, and_self, and_false,
          if_true, if_false, Bool.not_false, Bool.true_and, ne_eq, true_implies, false_implies, true_and]
        omega
    · simp only [hl, h0, decide_false, not_false_eq_true, false_and, and_false, if_false,
        Bool.and_false, Bool.false_eq_true]
      omega

/-! ### The digits -/

/-- The digits of a value without a zero in front; 0 has none. -/
def sigDigits (base : ℕ) (upper : Bool) (v : ℕ) : List UInt8 :=
  ((Nat.digits base v).map (digitChar upper)).reverse

lemma sigDigits_length (base : ℕ) (upper : Bool) (v : ℕ) :
    (sigDigits base upper v).length = (Nat.digits base v).length := by
  unfold sigDigits
  rw [List.length_reverse, List.length_map]

lemma numeral_sigDigits (base : ℕ) (upper : Bool) (v : ℕ) :
    numeral base upper v = List.replicate (if v = 0 then 1 else 0) (ch '0') ++ sigDigits base upper v := by
  unfold numeral sigDigits
  by_cases hv : v = 0
  · subst hv
    cases upper <;> simp <;> rfl
  · simp [hv]

lemma digitChar_ne : ∀ d < 16, ∀ upper, d ≠ 0 → digitChar upper d ≠ ch '0' := by decide

lemma sigDigits_head {base : ℕ} (hb : 1 < base) (hb' : base ≤ 16) (upper : Bool) (v : ℕ) :
    (sigDigits base upper v).head? ≠ some (ch '0') := by
  unfold sigDigits
  rw [List.head?_reverse, List.getLast?_map]
  intro h
  obtain ⟨x, hx, hc⟩ := Option.map_eq_some_iff.mp h
  have hne : Nat.digits base v ≠ [] := by
    rintro e
    rw [e] at hx
    cases hx
  rw [List.getLast?_eq_some_getLast hne, Option.some.injEq] at hx
  have hv : v ≠ 0 := Nat.digits_ne_nil_iff_ne_zero.mp hne
  have hx0 : x ≠ 0 := hx ▸ Nat.getLast_digit_ne_zero base hv
  have hlt : x < base := Nat.digits_lt_base hb (hx ▸ List.getLast_mem hne)
  exact digitChar_ne x (by omega) upper hx0 hc

lemma standard_digits {base : ℕ} (hb : 1 < base) (hb' : base ≤ 16) (upper alt : Bool)
    (prec : Option ℕ) (v : ℕ) :
    Standard.digits base upper alt prec v =
      List.replicate (max (prec.getD 1 - (Nat.digits base v).length) (if alt ∧ base = 8 then 1 else 0))
        (ch '0') ++ sigDigits base upper v := by
  have hhead := sigDigits_head hb hb' upper v
  unfold Standard.digits
  rw [← sigDigits_length base upper v]
  rw [show ((Nat.digits base v).map (digitChar upper)).reverse = sigDigits base upper v from rfl]
  dsimp only
  cases hk : prec.getD 1 - (sigDigits base upper v).length with
  | zero =>
    rw [List.replicate_zero, List.nil_append, Nat.zero_max]
    by_cases h8 : alt ∧ base = 8
    · rw [if_pos ⟨h8.1, h8.2, hhead⟩, if_pos h8]
      rfl
    · rw [if_neg fun h => h8 ⟨h.1, h.2.1⟩, if_neg h8]
      rfl
  | succ k =>
    have hmax : max (k + 1) (if alt ∧ base = 8 then 1 else 0) = k + 1 := by
      split_ifs <;> omega
    rw [hmax, if_neg]
    rintro ⟨-, -, h⟩
    exact h rfl

/-! ### When the text is the prescribed one -/

/-- The number of the digits of a value, 0 has one. -/
def digitCount (base v : ℕ) : ℕ := max 1 (Nat.digits base v).length

/-- The conditions on a directive, the base, whether `#` counts, the length `s` of the sign or prefix
and the value. -/
structure Directive.Meets (d : Directive) (base : ℕ) (hash : Bool) (s v : ℕ) : Prop where
  /-- The room that the width leaves fits an `int`. -/
  room : d.width.value.natAbs <
    2147483648 + (s + digitCount base v + if hash ∧ base = 8 ∧ v = 0 then 1 else 0)
  /-- A `0x` is not asked for in front of a zero. -/
  hex : hash → base = 16 → v ≠ 0
  /-- The precision asks for no zeros, or for those that the `0` flag puts there. -/
  plain : ¬ (hash ∧ base = 8) → ∀ p, Standard.prec d = some p → (v ≠ 0 ∨ p ≠ 0) ∧
    if d.Fills then max d.width.value.natAbs (s + digitCount base v) = s + max p (digitCount base v)
    else p ≤ digitCount base v
  /-- The leading zero of an octal number is one that the `0` flag puts there. -/
  octal : hash → base = 8 → Standard.prec d = none →
    d.Fills ∧ digitCount base v < d.width.value.natAbs
  /-- And with a precision it is so too, but for a zero that is to have two digits. -/
  octal_prec : hash → base = 8 → ∀ p, Standard.prec d = some p →
    if d.Fills then
      (v = 0 → max d.width.value.natAbs 2 = max p 1) ∧
      (v ≠ 0 → d.width.value.natAbs = max p (digitCount base v + 1))
    else v = 0 ∧ p = 2

lemma meets_octal (d : Directive) (s v : ℕ) :
    d.Meets 8 true s v ↔
      d.width.value.natAbs < 2147483648 + (s + digitCount 8 v + if v = 0 then 1 else 0) ∧
      (Standard.prec d = none → d.Fills ∧ digitCount 8 v < d.width.value.natAbs) ∧
      ∀ p, Standard.prec d = some p →
        if d.Fills then
          (v = 0 → max d.width.value.natAbs 2 = max p 1) ∧
          (v ≠ 0 → d.width.value.natAbs = max p (digitCount 8 v + 1))
        else v = 0 ∧ p = 2 := by
  constructor
  · rintro ⟨hr, -, -, ho, hp⟩
    simp only [true_and] at hr
    exact ⟨hr, ho rfl rfl, hp rfl rfl⟩
  · rintro ⟨hr, ho, hp⟩
    refine ⟨?_, fun _ h => (by cases h), fun h => absurd ⟨rfl, rfl⟩ h, fun _ _ => ho, fun _ _ => hp⟩
    simp only [true_and]
    exact hr

lemma meets_plain (d : Directive) {base : ℕ} {hash : Bool} (ho : ¬ (hash = true ∧ base = 8))
    (s : ℕ) {v : ℕ} (h16 : hash → base = 16 → v ≠ 0) :
    d.Meets base hash s v ↔
      d.width.value.natAbs < 2147483648 + (s + digitCount base v) ∧
      ∀ p, Standard.prec d = some p → (v ≠ 0 ∨ p ≠ 0) ∧
        if d.Fills then
          max d.width.value.natAbs (s + digitCount base v) = s + max p (digitCount base v)
        else p ≤ digitCount base v := by
  have h0 : ¬ (hash = true ∧ base = 8 ∧ v = 0) := fun h => ho ⟨h.1, h.2.1⟩
  constructor
  · rintro ⟨hr, -, hp, -, -⟩
    rw [if_neg h0] at hr
    exact ⟨hr, hp ho⟩
  · rintro ⟨hr, hp⟩
    refine ⟨?_, h16, fun _ => hp, fun h e => absurd ⟨h, e⟩ ho, fun h e => absurd ⟨h, e⟩ ho⟩
    rw [if_neg h0]
    exact hr

/-- A number printed by one of the two digit loops against the one that is prescribed. -/
lemma place_iff (d : Directive) {base : ℕ} (hb : 1 < base) (hb' : base ≤ 16) (upper hash : Bool)
    {v : ℕ} (hv : v < 18446744073709551616) {pre : List UInt8} (hpre : pre.length ≤ 2)
    (h8 : hash → base = 8 → pre = []) (h16 : hash → base = 16 → v ≠ 0) :
    padded d.flagSet.left d.flagSet.zero d.widthVar pre
        (numeral base upper v ++ if v = 0 ∧ base = 8 ∧ hash then [ch '0'] else []) =
      Standard.place d pre (Standard.digits base upper hash (Standard.prec d) v) ↔
      d.Meets base hash pre.length v := by
  have hlen := numeral_length hb hb' upper hv
  have hzero : (Nat.digits base v).length = 0 ↔ v = 0 := by
    rw [List.length_eq_zero_iff, Nat.digits_eq_nil_iff_eq_zero]
  have hnum : numeral base upper v ++ (if v = 0 ∧ base = 8 ∧ hash then [ch '0'] else []) =
      List.replicate ((if v = 0 then 1 else 0) + if hash ∧ base = 8 ∧ v = 0 then 1 else 0)
        (ch '0') ++ sigDigits base upper v := by
    rw [numeral_sigDigits]
    by_cases h0 : v = 0
    · subst h0
      have e : sigDigits base upper 0 = [] := by
        rw [← List.length_eq_zero_iff, sigDigits_length, hzero]
      rw [e]
      by_cases hb8 : base = 8
      · subst hb8
        cases hash <;> simp
      · simp [hb8]
    · simp [h0]
  rw [numeral_sigDigits, List.length_append, List.length_replicate] at hlen
  rw [hnum, standard_digits hb hb']
  have hz : ((if v = 0 then 1 else 0) + if hash = true ∧ base = 8 ∧ v = 0 then 1 else 0) ≤ 2 := by
    split_ifs <;> omega
  rw [padded_eq_place d pre _ _ (by omega), sigDigits_length]
  rw [sigDigits_length] at hlen
  by_cases ho : hash = true ∧ base = 8
  · obtain ⟨rfl, rfl⟩ := ho
    rw [h8 rfl rfl, meets_octal]
    unfold digitCount
    generalize (Nat.digits 8 v).length = c at hlen hzero ⊢
    generalize d.width.value.natAbs = w
    simp only [true_and, if_true, List.length_nil]
    by_cases hv0 : v = 0
    · have hc : c = 0 := hzero.mpr hv0
      cases hp : Standard.prec d with
      | none =>
        by_cases hf : d.Fills
        · simp [hv0, hc, hf]
          omega
        · simp [hv0, hc, hf]
      | some p =>
        by_cases hf : d.Fills
        · simp [hv0, hc, hf]
        · simp [hv0, hc, hf]
          omega
    · have hc : c ≠ 0 := fun e => hv0 (hzero.mp e)
      cases hp : Standard.prec d with
      | none =>
        by_cases hf : d.Fills
        · simp [hv0, hf]
          omega
        · simp [hv0, hf]
      | some p =>
        by_cases hf : d.Fills
        · simp [hv0, hf]
          omega
        · simp [hv0, hf]
          omega
  · have h1 : ¬ (hash = true ∧ base = 8 ∧ v = 0) := fun h => ho ⟨h.1, h.2.1⟩
    rw [meets_plain d ho _ h16, if_neg ho, if_neg h1]
    unfold digitCount
    generalize (Nat.digits base v).length = c at hlen hzero ⊢
    generalize d.width.value.natAbs = w
    generalize pre.length = s at hpre ⊢
    by_cases hv0 : v = 0
    · have hc : c = 0 := hzero.mpr hv0
      cases hp : Standard.prec d with
      | none =>
        by_cases hf : d.Fills
        · simp [hv0, hc, hf]
          omega
        · simp [hv0, hc, hf]
          omega
      | some p =>
        by_cases hf : d.Fills
        · simp [hv0, hc, hf]
          omega
        · simp [hv0, hc, hf]
          omega
    · have hc : c ≠ 0 := fun e => hv0 (hzero.mp e)
      cases hp : Standard.prec d with
      | none =>
        by_cases hf : d.Fills
        · simp [hv0, hf]
          omega
        · simp [hv0, hf]
          omega
      | some p =>
        by_cases hf : d.Fills
        · simp [hv0, hf]
          omega
        · simp [hv0, hf]
          omega

section Directive

variable (d : Directive) {a : Arg} {conv : UInt8}

/-- `%d` and `%i`. -/
lemma signed_iff (hc : conv = ch 'd' ∨ conv = ch 'i') (ha : a.Is d.kind) :
    emitted (d.format conv ++ [0]) (d.args a) = .ok (Standard.signed d a.signed) ↔
      d.Meets 10 false (Standard.sign d a.signed).length a.signed.natAbs := by
  have hsign : (Standard.sign d a.signed).length ≤ 2 := by
    unfold Standard.sign
    split_ifs <;> simp
  have h := place_iff d (show 1 < 10 by omega) (by omega) false false (signed_lt ha) hsign
    (by simp) (by simp)
  rw [if_neg (by simp), List.append_nil] at h
  rw [emitted_eq, formatText_signed d hc ha, Except.ok.injEq, intText, intDigits_eq,
    signText_flagSet]
  exact h

/-- A prefix is printed in front of a zero as well. -/
lemma prefix_zero (left zero : Bool) (width : ℤ) (upper : Bool) (num : List UInt8) :
    padded left zero width [ch '0', if upper then ch 'X' else ch 'x'] num ≠
      Standard.place d [] (Standard.digits 16 upper true (Standard.prec d) 0) := by
  intro h
  have hmem : (if upper then ch 'X' else ch 'x') ∈
      padded left zero width [ch '0', if upper then ch 'X' else ch 'x'] num := by
    unfold padded
    simp
  rw [h] at hmem
  have hall : ∀ c ∈ Standard.place d [] (Standard.digits 16 upper true (Standard.prec d) 0),
      c = ch '0' ∨ c = ch ' ' := by
    intro c hc
    unfold Standard.place Standard.digits at hc
    split_ifs at hc <;> simp at hc <;> tauto
  rcases hall _ hmem with h | h <;> cases upper <;> exact absurd h (by decide)

/-- `%u`, `%x`, `%X` and `%o`. -/
lemma unsigned_iff {base : ℕ} {upper alt : Bool} (hc : unsignedConv conv = some (base, upper, alt))
    (ha : a.Is d.kind) :
    emitted (d.format conv ++ [0]) (d.args a) =
        .ok (Standard.unsigned d base upper alt a.unsigned) ↔
      d.Meets base (alt && decide (ch '#' ∈ d.flags))
        (if (alt && decide (ch '#' ∈ d.flags)) ∧ base = 16 then 2 else 0) a.unsigned := by
  have hbase := unsignedConv_base hc
  rw [emitted_eq, formatText_unsigned d hc ha, Except.ok.injEq, uintText, uintDigits_eq hbase.1,
    d.flagSet_alt]
  unfold Standard.unsigned
  generalize (alt && decide (ch '#' ∈ d.flags)) = hash
  by_cases h16 : hash = true ∧ base = 16
  · rw [if_pos h16, if_pos h16]
    obtain ⟨rfl, rfl⟩ := h16
    by_cases hv : a.unsigned = 0
    · rw [hv]
      have e : Standard.hexPrefix 16 upper true 0 = [] := by
        unfold Standard.hexPrefix
        rw [if_neg (by simp)]
      rw [e]
      exact ⟨fun h => absurd h (prefix_zero d _ _ _ upper _), fun h => absurd rfl (h.hex rfl rfl)⟩
    · have h := @place_iff d 16 hbase.1 hbase.2 upper true _ (unsigned_lt ha)
        [ch '0', if upper then ch 'X' else ch 'x'] (by simp) (by simp) fun _ _ => hv
      have e : Standard.hexPrefix 16 upper true a.unsigned =
          [ch '0', if upper then ch 'X' else ch 'x'] := by
        unfold Standard.hexPrefix
        rw [if_pos ⟨rfl, rfl, hv⟩]
      rw [e]
      exact h
  · have h := @place_iff d base hbase.1 hbase.2 upper hash _ (unsigned_lt ha) [] (by simp)
      (fun _ _ => rfl) fun h e => absurd ⟨h, e⟩ h16
    have e : Standard.hexPrefix base upper hash a.unsigned = [] := by
      unfold Standard.hexPrefix
      rw [if_neg fun h => h16 ⟨h.1, h.2.1⟩]
    rw [if_neg h16, if_neg h16, e]
    exact h

end Directive

/-- The text of an integer conversion is the one that the standard prescribes exactly when the
precision, the `#` flag and the width ask for nothing that the interpreter forgets, misplaces or
cannot count. -/
theorem integer_prescribed_iff (d : Directive) {a : Arg} (ha : a.Is d.kind) :
    (∀ conv, conv = ch 'd' ∨ conv = ch 'i' →
      (emitted (d.format conv ++ [0]) (d.args a) = .ok (Standard.signed d a.signed) ↔
        d.Meets 10 false (Standard.sign d a.signed).length a.signed.natAbs)) ∧
    ∀ conv base upper alt, unsignedConv conv = some (base, upper, alt) →
      (emitted (d.format conv ++ [0]) (d.args a) =
          .ok (Standard.unsigned d base upper alt a.unsigned) ↔
        d.Meets base (alt && decide (ch '#' ∈ d.flags))
          (if (alt && decide (ch '#' ∈ d.flags)) ∧ base = 16 then 2 else 0) a.unsigned) :=
  ⟨fun _ hc => signed_iff d hc ha, fun _ _ _ _ hc => unsigned_iff d hc ha⟩

theorem integer_prescribed_iff_wide :
    (∀ conv, conv = ch 'd' ∨ conv = ch 'i' →
      (emitted (Directive.wide.format conv ++ [0]) (Directive.wide.args (.dword (-5000000000))) =
          .ok (Standard.signed Directive.wide (-5000000000)) ↔
        Directive.wide.Meets 10 false (Standard.sign Directive.wide (-5000000000)).length 5000000000)) ∧
    ∀ conv base upper alt, unsignedConv conv = some (base, upper, alt) →
      (emitted (Directive.wide.format conv ++ [0]) (Directive.wide.args (.dword (-5000000000))) =
          .ok (Standard.unsigned Directive.wide base upper alt 18446744068709551616) ↔
        Directive.wide.Meets base (alt && decide (ch '#' ∈ Directive.wide.flags))
          (if (alt && decide (ch '#' ∈ Directive.wide.flags)) ∧ base = 16 then 2 else 0)
          18446744068709551616) :=
  integer_prescribed_iff Directive.wide ⟨-5000000000, rfl⟩

namespace Directive

lemma three_ok : ∀ ds, some (Field.digits [ch '3']) = some (.digits ds) → ∀ c ∈ ds, isDec c := by
  rintro _ ⟨⟩ c hc
  rw [List.mem_singleton.mp hc]
  decide

lemma sharp_ok : ∀ c ∈ [ch '#'], isFlag c := by
  intro c hc
  rw [List.mem_singleton.mp hc]
  decide

/-- `%.3` -/
def precThree : Directive :=
  ⟨[], .digits [], some (.digits [ch '3']), false, noFlags_ok, noWidth_ok, three_ok⟩

/-- `%#` -/
def sharp : Directive := ⟨[ch '#'], .digits [], none, false, sharp_ok, noWidth_ok, noPrec_ok⟩

end Directive

/-- `%.3d` prints 5 without its zeros, `%#x` a zero with a prefix and `%#o` no leading zero. -/
theorem integer_not_prescribed :
    (emitted (Directive.precThree.format (ch 'd') ++ [0]) (Directive.precThree.args (.word 5)) =
        .ok (lit "5") ∧
      Standard.signed Directive.precThree (Arg.signed (.word 5)) = lit "005") ∧
    (emitted (Directive.sharp.format (ch 'x') ++ [0]) (Directive.sharp.args (.word 0)) =
        .ok (lit "0x0") ∧
      Standard.unsigned Directive.sharp 16 false true (Arg.unsigned (.word 0)) = lit "0") ∧
    (emitted (Directive.sharp.format (ch 'o') ++ [0]) (Directive.sharp.args (.word 8)) =
        .ok (lit "10") ∧
      Standard.unsigned Directive.sharp 8 false true (Arg.unsigned (.word 8)) = lit "010") := by
  have h5 : (Arg.word 5).Is Directive.precThree.kind := ⟨5, rfl⟩
  have h0 : (Arg.word 0).Is Directive.sharp.kind := ⟨0, rfl⟩
  have h8 : (Arg.word 8).Is Directive.sharp.kind := ⟨8, rfl⟩
  have hx : unsignedConv (ch 'x') = some (16, false, true) := by decide
  have ho : unsignedConv (ch 'o') = some (8, false, true) := by decide
  refine ⟨⟨?_, ?_⟩, ⟨?_, ?_⟩, ?_, ?_⟩
  · rw [emitted_eq, formatText_signed _ (Or.inl rfl) h5, intText, intDigits_eq]
    decide
  · decide
  · rw [emitted_eq, formatText_unsigned _ hx h0, uintText, uintDigits_eq (by omega)]
    decide
  · decide
  · rw [emitted_eq, formatText_unsigned _ ho h8, uintText, uintDigits_eq (by omega)]
    decide
  · decide

end LunariaOS.Stdio
