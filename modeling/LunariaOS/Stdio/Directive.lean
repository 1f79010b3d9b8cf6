import LunariaOS.Stdio.Complete

/-!
The directives of the integer conversions: how they are written, and what the interpreter makes of
them.
-/

namespace LunariaOS.Stdio

open LunariaOS.Lib LunariaOS.Libc

/-- A field width or a precision: a decimal number, or a `*` with its argument. -/
inductive Field
  | digits (ds : List UInt8)
  | star (w : BitVec 32)

namespace Field

def text : Field → List UInt8
  | digits ds => ds
  | star _ => [ch '*']

def args : Field → List Arg
  | digits _ => []
  | star w => [.word w]

/-- The number that a string of decimal digits writes. -/
def decimal (ds : List UInt8) : ℕ := Nat.ofDigits 10 (ds.reverse.map fun c => c.toNat - 48)

def value : Field → ℤ
  | digits ds => decimal ds
  | star w => w.toInt

/-- How a precision is written; `none` when it is not given. -/
def precText : Option Field → List UInt8
  | none => []
  | some p => ch '.' :: p.text

def precArgs : Option Field → List Arg
  | none => []
  | some p => p.args

/-- The precision as the interpreter has it. -/
def precVar : Option Field → ℤ
  | none => -1
  | some p => if p.value < 0 then -1 else i32 p.value

end Field

/-- A directive without its conversion character. The width is not given when it has no digits; a
zero in front of it would be a flag. -/
structure Directive where
  flags : List UInt8
  width : Field
  prec : Option Field
  ll : Bool
  flags_ok : ∀ c ∈ flags, isFlag c
  width_ok : ∀ ds, width = .digits ds → (∀ c ∈ ds, isDec c) ∧ ds.head? ≠ some (ch '0')
  prec_ok : ∀ ds, prec = some (.digits ds) → ∀ c ∈ ds, isDec c

namespace Directive

lemma noFlags_ok : ∀ c ∈ ([] : List UInt8), isFlag c := by simp

lemma noWidth_ok : ∀ ds, Field.digits [] = .digits ds →
    (∀ c ∈ ds, isDec c) ∧ ds.head? ≠ some (ch '0') := by
  rintro _ ⟨⟩
  simp

lemma noPrec_ok : ∀ ds, none = some (Field.digits ds) → ∀ c ∈ ds, isDec c := by simp

variable (d : Directive)

/-- What stands between the `%` and the conversion character. -/
def spec : List UInt8 :=
  d.flags ++ (d.width.text ++ (Field.precText d.prec ++
    if d.ll then [ch 'l', ch 'l'] else []))

/-- The format that is the directive with the conversion character `conv`. -/
def format (conv : UInt8) : List UInt8 := ch '%' :: (d.spec ++ [conv])

/-- The arguments of the directive; `a` is the one that is converted. -/
def args (a : Arg) : List Arg := d.width.args ++ (Field.precArgs d.prec ++ [a])

/-- The kind of the converted argument. -/
def kind : Kind := if d.ll then .dword else .word

/-- The flags as the interpreter has them after the width. -/
def flagSet : Flags :=
  let f := d.flags.foldl Flags.set {}
  if d.width.value < 0 then { f with left := true } else f

/-- The width as the interpreter has it. -/
def widthVar : ℤ := i32 d.width.value.natAbs

end Directive

/-! ### Reading a directive -/

lemma i32_add_mul (n m : ℤ) : i32 (i32 n * 10 + m) = i32 (n * 10 + m) := by
  unfold i32
  omega

lemma addDec_foldl {ds : List UInt8} (h : ∀ c ∈ ds, isDec c) :
    ds.foldl addDec 0 = i32 (Field.decimal ds) := by
  induction ds using List.reverseRecOn with
  | nil => rfl
  | append_singleton ds c ih =>
    have hc : 48 ≤ c.toNat := by
      have := h c (by simp)
      unfold isDec at this
      simp only [Bool.and_eq_true, decide_eq_true_eq] at this
      exact this.1
    rw [List.foldl_append, List.foldl_cons, List.foldl_nil, ih fun c hc => h c (by simp [hc]), addDec,
      i32_add_mul]
    unfold Field.decimal
    rw [List.reverse_append, List.reverse_singleton, List.singleton_append, List.map_cons,
      Nat.ofDigits_cons]
    push_cast
    congr 1
    omega

/-- Each flag is set if it stands in the directive. -/
lemma flags_foldl {fl : List UInt8} (h : ∀ c ∈ fl, isFlag c) (f : Flags) :
    fl.foldl Flags.set f = ⟨f.left || decide (ch '-' ∈ fl), f.zero || decide (ch '0' ∈ fl),
      f.plus || decide (ch '+' ∈ fl), f.space || decide (ch ' ' ∈ fl),
      f.alt || decide (ch '#' ∈ fl)⟩ := by
  induction fl generalizing f with
  | nil => simp
  | cons c fl ih =>
    rw [List.foldl_cons, ih fun c hc => h c (by simp [hc])]
    have hc := h c (by simp)
    unfold isFlag at hc
    simp only [Bool.or_eq_true, decide_eq_true_eq] at hc
    rcases hc with (((rfl | rfl) | rfl) | rfl) | rfl
    · simp [Flags.set, show ¬ ch '0' = ch '-' by decide, show ¬ ch '+' = ch '-' by decide,
        show ¬ ch ' ' = ch '-' by decide, show ¬ ch '#' = ch '-' by decide]
    · simp [Flags.set, show ¬ ch '0' = ch '-' by decide, show ¬ ch '+' = ch '0' by decide,
        show ¬ ch ' ' = ch '0' by decide, show ¬ ch '#' = ch '0' by decide,
        show ¬ ch '-' = ch '0' by decide]
    · simp [Flags.set, show ¬ ch '+' = ch '-' by decide, show ¬ ch '+' = ch '0' by decide,
        show ¬ ch ' ' = ch '+' by decide, show ¬ ch '#' = ch '+' by decide,
        show ¬ ch '-' = ch '+' by decide, show ¬ ch '0' = ch '+' by decide]
    · simp [Flags.set, show ¬ ch ' ' = ch '-' by decide, show ¬ ch ' ' = ch '0' by decide,
        show ¬ ch ' ' = ch '+' by decide, show ¬ ch '#' = ch ' ' by decide,
        show ¬ ch '-' = ch ' ' by decide, show ¬ ch '0' = ch ' ' by decide,
        show ¬ ch '+' = ch ' ' by decide]
    · simp [Flags.set, show ¬ ch '#' = ch '-' by decide, show ¬ ch '#' = ch '0' by decide,
        show ¬ ch '#' = ch '+' by decide, show ¬ ch '#' = ch ' ' by decide,
        show ¬ ch '-' = ch '#' by decide, show ¬ ch '0' = ch '#' by decide,
        show ¬ ch '+' = ch '#' by decide, show ¬ ch ' ' = ch '#' by decide]

/-- A byte at which every loop of a directive stops. -/
def IsConv (c : UInt8) : Prop :=
  c ≠ 0 ∧ c ≠ ch '%' ∧ c ≠ ch '*' ∧ c ≠ ch '.' ∧ isFlag c = false ∧ isDec c = false ∧
    isLength c = false

instance : DecidablePred IsConv := fun c => by unfold IsConv; infer_instance

lemma toInt_i32 {w : BitVec 32} (h : 0 ≤ w.toInt) : i32 w.toInt.natAbs = w.toInt := by
  have := @BitVec.toInt_lt 32 w
  have e : ((w.toInt.natAbs : ℕ) : ℤ) = w.toInt := by omega
  rw [e]
  unfold i32
  omega

/-- The loop over the digits of a number, up to a byte that is neither a digit nor a `*`. -/
lemma walk_digits {ds r : List UInt8} (h : ∀ c ∈ ds, isDec c) (hne : r ≠ [])
    (hr : ∀ c ∈ r.head?, isDec c = false) :
    walk isDec addDec 0 (ds ++ r) = some (i32 (Field.decimal ds), r) := by
  rw [walk_run h hr hne, addDec_foldl h]

/-- The first byte of a number and what follows is not a `*`, unless that is one. -/
lemma head_ne_star {ds r : List UInt8} (h : ∀ c ∈ ds, isDec c) (hr : ∀ c ∈ r.head?, c ≠ ch '*') :
    (ds ++ r).head? ≠ some (ch '*') := by
  cases ds with
  | nil => exact fun e => hr _ e rfl
  | cons c ds =>
    intro e
    have := h c (by simp)
    rw [Option.some.inj e] at this
    exact absurd this (by decide)

lemma readWidth_field (f : Flags) {w : Field} (hw : ∀ ds, w = .digits ds → ∀ c ∈ ds, isDec c)
    {r : List UInt8} (hne : r ≠ []) (hr : ∀ c ∈ r.head?, isDec c = false ∧ c ≠ ch '*')
    (ap : List Arg) :
    readWidth f (w.text ++ r) (w.args ++ ap) =
      .ok (if w.value < 0 then { f with left := true } else f, i32 w.value.natAbs, r, ap) := by
  cases w with
  | digits ds =>
    have hds := hw ds rfl
    have hread := readWidth_walk f (head_ne_star hds fun c hc => (hr c hc).2)
      (walk_digits hds hne fun c hc => (hr c hc).1) ap
    have hpos : ¬ (Field.digits ds).value < 0 := by
      simp only [Field.value]
      omega
    simp only [Field.text, Field.args, List.nil_append]
    rw [hread, if_neg hpos]
    simp [Field.value]
  | star w =>
    have hv : (Field.star w).value = w.toInt := rfl
    have hread := readWidth_star f w r ap
    simp only [Field.text, Field.args, List.cons_append, List.nil_append]
    rw [hread, hv]
    by_cases h : w.toInt < 0
    · have e : ((w.toInt.natAbs : ℕ) : ℤ) = -w.toInt := by omega
      rw [if_pos h, if_pos h, e]
    · rw [if_neg h, if_neg h, toInt_i32 (by omega)]

lemma readPrec_field {p : Option Field} (hp : ∀ ds, p = some (.digits ds) → ∀ c ∈ ds, isDec c)
    {r : List UInt8} (hne : r ≠ [])
    (hr : ∀ c ∈ r.head?, isDec c = false ∧ c ≠ ch '*' ∧ c ≠ ch '.') (ap : List Arg) :
    readPrec (Field.precText p ++ r) (Field.precArgs p ++ ap) =
      .ok (Field.precVar p, r, ap) := by
  match p with
  | none =>
    obtain ⟨c, q, rfl⟩ := List.exists_cons_of_ne_nil hne
    have hc : c ≠ ch '.' := (hr c rfl).2.2
    simp only [Field.precText, Field.precArgs, Field.precVar, List.nil_append, readPrec, if_neg hc]
  | some (.digits ds) =>
    have hds := hp ds rfl
    have hread := readPrec_walk (head_ne_star hds fun c hc => (hr c hc).2.1)
      (walk_digits hds hne fun c hc => (hr c hc).1) ap
    have hv : (Field.digits ds).value = Field.decimal ds := by rw [Field.value]
    have hval : Field.precVar (some (.digits ds)) = i32 (Field.decimal ds) := by
      rw [Field.precVar, hv, if_neg (by omega)]
    rw [hval]
    exact hread
  | some (.star w) =>
    have hval : Field.precVar (some (.star w)) = if w.toInt < 0 then -1 else w.toInt := by
      have hv : (Field.star w).value = w.toInt := by rw [Field.value]
      rw [Field.precVar, hv]
      split_ifs with h
      · rfl
      · have e : ((w.toInt.natAbs : ℕ) : ℤ) = w.toInt := by omega
        have hi := @toInt_i32 w (by omega)
        rwa [e] at hi
    rw [hval]
    exact readPrec_star w r ap

lemma readLength_ll {conv : UInt8} (hc : isLength conv = false) (ll : Bool) :
    readLength false ((if ll then [ch 'l', ch 'l'] else []) ++ [conv, 0]) =
      .ok (ll, [conv, 0]) := by
  have e := readLength_eq ((if ll then [ch 'l', ch 'l'] else []) ++ [conv]) false
  rw [List.append_assoc, List.singleton_append] at e
  rw [e]
  cases ll
  · simp [hc, isLong]
  · simp [hc, isLong, show isLength (ch 'l') = true by decide]

/-- What the interpreter reads of a directive. -/
lemma readSpec_directive (d : Directive) {conv : UInt8} (hc : IsConv conv) (a : Arg) :
    readSpec (d.spec ++ [conv, 0]) (d.args a) =
      .ok (⟨d.flagSet, d.widthVar, Field.precVar d.prec, d.ll⟩, [conv, 0], [a]) := by
  obtain ⟨-, -, hstar, hdot, hflag, hdec, hlen⟩ := hc
  -- what follows the precision, and what follows the width
  generalize h2 : (if d.ll then [ch 'l', ch 'l'] else []) ++ [conv, 0] = r2
  have hne2 : r2 ≠ [] := by
    subst h2
    simp
  have hr2 : ∀ c ∈ r2.head?, c = ch 'l' ∨ c = conv := by
    subst h2
    cases d.ll <;> simp
  generalize h1 : Field.precText d.prec ++ r2 = r1
  have hne1 : r1 ≠ [] := by
    subst h1
    simp [hne2]
  have hr1 : ∀ c ∈ r1.head?, c = ch '.' ∨ c = ch 'l' ∨ c = conv := by
    subst h1
    cases d.prec with
    | none => exact fun c hc => Or.inr (hr2 c hc)
    | some p => simp [Field.precText]
  have e : d.spec ++ [conv, 0] = d.flags ++ (d.width.text ++ r1) := by
    rw [← h1, ← h2]
    simp [Directive.spec]
  have hwalk : walk isFlag Flags.set {} (d.spec ++ [conv, 0]) =
      some (d.flags.foldl Flags.set {}, d.width.text ++ r1) := by
    rw [e]
    refine walk_run d.flags_ok (fun c hc => ?_) (by simp [hne1]) _
    have hr1' : ∀ c ∈ r1.head?, isFlag c = false := by
      intro c hc
      rcases hr1 c hc with rfl | rfl | rfl
      · decide
      · decide
      · exact hflag
    cases hw : d.width with
    | star w =>
      rw [hw] at hc
      cases hc
      decide
    | digits ds =>
      obtain ⟨hds, h0⟩ := d.width_ok ds hw
      rw [hw] at hc
      cases ds with
      | nil => exact hr1' c hc
      | cons x ds =>
        cases hc
        have hx := hds c (by simp)
        have hne : c ≠ ch '0' := fun e => h0 (by rw [e]; rfl)
        unfold isDec at hx
        unfold isFlag
        simp only [Bool.and_eq_true, decide_eq_true_eq] at hx
        have h48 : 48 ≤ c.toNat := hx.1
        have n : ∀ x : Char, (ch x).toNat < 48 → c ≠ ch x := fun x hx e => by
          rw [e] at h48
          omega
        simp [hne, n '-' (by decide), n '+' (by decide), n ' ' (by decide), n '#' (by decide)]
  have hwidth := readWidth_field (d.flags.foldl Flags.set {}) (w := d.width)
    (fun ds h => (d.width_ok ds h).1) hne1 (fun c hc => by
      rcases hr1 c hc with rfl | rfl | rfl
      · exact ⟨by decide, by decide⟩
      · exact ⟨by decide, by decide⟩
      · exact ⟨hdec, hstar⟩) (Field.precArgs d.prec ++ [a])
  have hprec := readPrec_field (p := d.prec) d.prec_ok hne2 (fun c hc => by
      rcases hr2 c hc with rfl | rfl
      · exact ⟨by decide, by decide, by decide⟩
      · exact ⟨hdec, hstar, hdot⟩) [a]
  rw [h1] at hprec
  have hll := readLength_ll hlen d.ll
  rw [h2] at hll
  unfold readSpec Directive.args
  rw [hwalk]
  simp only [scanned, bind, Except.bind, hwidth, hprec, hll]
  simp only [Directive.flagSet, Directive.widthVar]

/-! ### The text of a directive -/

/-- No byte of a directive before its conversion character is a `%`. -/
lemma Directive.spec_ne (d : Directive) : ∀ x ∈ d.spec, x ≠ ch '%' := by
  have dec : ∀ ds : List UInt8, (∀ c ∈ ds, isDec c) → ∀ x ∈ ds, x ≠ ch '%' := by
    intro ds h x hx e
    have := h x hx
    rw [e] at this
    exact absurd this (by decide)
  have field : ∀ w : Field, (∀ ds, w = .digits ds → ∀ c ∈ ds, isDec c) → ∀ x ∈ w.text,
      x ≠ ch '%' := by
    intro w h
    cases w with
    | digits ds => exact dec ds (h ds rfl)
    | star w =>
      intro x hx
      rw [List.mem_singleton.mp hx]
      decide
  intro x hx
  unfold Directive.spec at hx
  simp only [List.mem_append] at hx
  rcases hx with hx | hx | hx | hx
  · intro e
    have := d.flags_ok x hx
    rw [e] at this
    exact absurd this (by decide)
  · exact field d.width (fun ds h => (d.width_ok ds h).1) x hx
  · cases hp : d.prec with
    | none =>
      rw [hp] at hx
      cases hx
    | some p =>
      rw [hp] at hx
      rcases List.mem_cons.mp hx with rfl | hx
      · decide
      · exact field p (fun ds h => d.prec_ok ds (by rw [hp, h])) x hx
  · split_ifs at hx with h
    · have : x = ch 'l' := by simpa using hx
      rw [this]
      decide
    · cases hx

lemma isConv_of_unsigned {conv : UInt8} {b : ℕ × Bool × Bool} (h : unsignedConv conv = some b) :
    IsConv conv ∧ ¬ (conv = ch 'd' ∨ conv = ch 'i') := by
  unfold unsignedConv at h
  split_ifs at h with h1 h2 h3 h4
  · rw [h1]
    decide
  · rw [h2]
    decide
  · rw [h3]
    decide
  · rw [h4]
    decide

lemma unsignedConv_base {conv : UInt8} {base : ℕ} {upper alt : Bool}
    (h : unsignedConv conv = some (base, upper, alt)) : 1 < base ∧ base ≤ 16 := by
  unfold unsignedConv at h
  split_ifs at h <;> cases h <;> omega

section Text

variable (d : Directive) {a : Arg}

lemma formatText_format {conv : UInt8} (hc : IsConv conv) {t : List UInt8}
    (ht : convText ⟨d.flagSet, d.widthVar, Field.precVar d.prec, d.ll⟩ conv [a] = .ok (t, [])) :
    formatText (d.format conv ++ [0]) (d.args a) = .ok t := by
  have hs := readSpec_directive d hc a
  unfold Directive.format
  rw [List.cons_append, List.append_assoc, List.singleton_append]
  obtain ⟨c, q, e, hd⟩ : ∃ c q, d.spec ++ [conv, 0] = c :: q ∧ c ≠ ch '%' := by
    cases hsp : d.spec with
    | nil => exact ⟨conv, [0], rfl, hc.2.1⟩
    | cons c q => exact ⟨c, q ++ [conv, 0], rfl, d.spec_ne c (by rw [hsp]; simp)⟩
  rw [e] at hs ⊢
  rw [formatText_conv hd hs, ht]
  simp only [Except.bind]
  rw [formatText_zero]
  simp [Except.map]

lemma formatText_signed {conv : UInt8} (hc : conv = ch 'd' ∨ conv = ch 'i') (ha : a.Is d.kind) :
    formatText (d.format conv ++ [0]) (d.args a) =
      .ok (intText a.signed d.flagSet d.widthVar) := by
  refine formatText_format d (by rcases hc with rfl | rfl <;> decide) ?_
  unfold convText
  rw [if_pos hc]
  unfold Directive.kind at ha
  cases hll : d.ll
  · rw [hll] at ha
    obtain ⟨w, rfl⟩ := ha
    simp only [vaSigned, bind, Except.bind, Arg.signed, Bool.false_eq_true, if_false]
  · rw [hll] at ha
    obtain ⟨w, rfl⟩ := ha
    simp only [vaSigned, bind, Except.bind, Arg.signed, if_true]

lemma formatText_unsigned {conv : UInt8} {base : ℕ} {upper alt : Bool}
    (hc : unsignedConv conv = some (base, upper, alt)) (ha : a.Is d.kind) :
    formatText (d.format conv ++ [0]) (d.args a) =
      .ok (uintText a.unsigned base upper d.widthVar d.flagSet.zero d.flagSet.left
        (alt && d.flagSet.alt)) := by
  obtain ⟨hconv, hd⟩ := isConv_of_unsigned hc
  refine formatText_format d hconv ?_
  unfold convText
  rw [if_neg hd, hc]
  dsimp only
  unfold Directive.kind at ha
  cases hll : d.ll
  · rw [hll] at ha
    obtain ⟨w, rfl⟩ := ha
    simp only [vaUnsigned, bind, Except.bind, Arg.unsigned, Bool.false_eq_true, if_false]
  · rw [hll] at ha
    obtain ⟨w, rfl⟩ := ha
    simp only [vaUnsigned, bind, Except.bind, Arg.unsigned, if_true]

end Text

end LunariaOS.Stdio
