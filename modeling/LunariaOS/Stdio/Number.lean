import LunariaOS.Stdio.Directive

/-!
Numbers printed and read back.

Both digit loops of the formatter print the numeral of their argument, and whatever padding and sign
stand around it, the parser finds the same numeral in the text.
-/

namespace LunariaOS.Stdio

open LunariaOS.Lib LunariaOS.Libc

/-! ### Numerals -/

/-- The numeral of `v`, the most significant digit first. -/
def numeral (base : ℕ) (upper : Bool) (v : ℕ) : List UInt8 :=
  ((if v = 0 then [0] else Nat.digits base v).map (digitChar upper)).reverse

lemma lowDigits_eq {base : ℕ} (hb : 1 < base) (v : ℕ) :
    lowDigits base v = if v = 0 then [0] else Nat.digits base v := by
  induction v using Nat.strong_induction_on with
  | _ v ih =>
    rw [lowDigits]
    by_cases hv : v = 0
    · subst hv
      simp
    · rw [if_neg hv, Nat.digits_def' hb (by omega)]
      by_cases hq : v / base = 0
      · rw [if_pos (Or.inl hq), hq, Nat.digits_zero]
      · rw [if_neg (by omega), ih _ (Nat.div_lt_self (by omega) hb), if_neg hq]

lemma digitChar_dec : ∀ d < 10, UInt8.ofNat (48 + d) = digitChar false d := by decide

lemma digitOf_digitChar : ∀ d < 16, ∀ upper, digitOf (digitChar upper d) = some d := by decide

lemma magDigits_eq (m : ℕ) : magDigits m = (Nat.digits 10 m).map (digitChar false) := by
  induction m using Nat.strong_induction_on with
  | _ m ih =>
    rw [magDigits]
    by_cases hm : m = 0
    · subst hm
      simp
    · rw [if_neg hm, Nat.digits_def' (by omega) (by omega), List.map_cons, ih _ (by omega),
        digitChar_dec _ (Nat.mod_lt _ (by omega))]

lemma intDigits_eq (m : ℕ) :
    (if m = 0 then [ch '0'] else magDigits m).reverse = numeral 10 false m := by
  unfold numeral
  split_ifs
  · rfl
  · rw [magDigits_eq]

lemma uintDigits_eq {base : ℕ} (hb : 1 < base) (v : ℕ) (upper alt : Bool) :
    uintDigits v base upper alt =
      numeral base upper v ++ if v = 0 ∧ base = 8 ∧ alt then [ch '0'] else [] := by
  unfold uintDigits numeral
  rw [lowDigits_eq hb, List.reverse_append]
  split_ifs <;> simp

lemma numeral_ne_nil (base : ℕ) (upper : Bool) (v : ℕ) : numeral base upper v ≠ [] := by
  unfold numeral
  split_ifs with h
  · simp
  · simpa using Nat.digits_ne_nil_iff_ne_zero.mpr h

lemma numeral_mem {base : ℕ} (hb : 1 < base) {upper : Bool} {v : ℕ} {c : UInt8}
    (hc : c ∈ numeral base upper v) : ∃ d < base, c = digitChar upper d := by
  unfold numeral at hc
  rw [List.mem_reverse, List.mem_map] at hc
  obtain ⟨d, hd, rfl⟩ := hc
  refine ⟨d, ?_, rfl⟩
  split_ifs at hd with h
  · rw [List.mem_singleton] at hd
    omega
  · exact Nat.digits_lt_base hb hd

lemma numeral_digitIn {base : ℕ} (hb : 1 < base) (hb' : base ≤ 16) {upper : Bool} {v : ℕ} :
    ∀ c ∈ numeral base upper v, DigitIn base c := by
  intro c hc
  obtain ⟨d, hd, rfl⟩ := numeral_mem hb hc
  exact ⟨d, digitOf_digitChar d (by omega) upper, hd⟩

/-- The number that a numeral writes, leading zeros or not. -/
lemma numeral_value {base : ℕ} (hb : 1 < base) (hb' : base ≤ 16) (upper : Bool) (v k : ℕ) :
    Nat.ofDigits base ((List.replicate k (ch '0') ++ numeral base upper v).reverse.map
      fun c => (digitOf c).getD 0) = v := by
  have hzero : (List.replicate k (ch '0')).map (fun c => (digitOf c).getD 0) =
      List.replicate k 0 := by
    rw [List.map_replicate]
    rfl
  have hnum : (numeral base upper v).reverse.map (fun c => (digitOf c).getD 0) =
      if v = 0 then [0] else Nat.digits base v := by
    unfold numeral
    rw [List.reverse_reverse, List.map_map]
    refine (List.map_congr_left fun d hd => ?_).trans (List.map_id _)
    have hlt : d < base := by
      split_ifs at hd with h
      · rw [List.mem_singleton] at hd
        omega
      · exact Nat.digits_lt_base hb hd
    simp [digitOf_digitChar d (by omega)]
  rw [List.reverse_append, List.map_append, hnum, List.reverse_replicate, hzero, Nat.ofDigits_append,
    Nat.ofDigits_replicate_zero, Nat.mul_zero, Nat.add_zero]
  split_ifs with h
  · simp [h]
  · exact Nat.ofDigits_digits base v

lemma numeral_length {base : ℕ} (hb : 1 < base) (hb' : base ≤ 16) (upper : Bool) {v : ℕ}
    (hv : v < 18446744073709551616) : (numeral base upper v).length ≤ 68 := by
  unfold numeral
  rw [List.length_reverse, List.length_map]
  split_ifs with h
  · simp
  · have h1 : base ^ (Nat.digits base v).length ≤ base * v :=
      Nat.base_pow_length_digits_le base v (by omega) h
    have h2 : 2 ^ (Nat.digits base v).length ≤ base ^ (Nat.digits base v).length :=
      Nat.pow_le_pow_left (by omega) _
    have h3 : base * v ≤ 16 * 18446744073709551616 := Nat.mul_le_mul hb' hv.le
    exact (Nat.pow_le_pow_iff_right (by omega : 1 < 2)).mp (h2.trans (h1.trans (h3.trans (by norm_num))))

/-! ### Reading a padded number -/

lemma padded_shape (left zero : Bool) (width : ℤ) (pre num : List UInt8) :
    ∃ i j k, padded left zero width pre num = List.replicate i (ch ' ') ++
      (pre ++ (List.replicate j (ch '0') ++ (num ++ List.replicate k (ch ' ')))) := by
  unfold padded
  generalize (i32 (width - (num.length + pre.length))).toNat = n
  cases left <;> cases zero
  · exact ⟨n, 0, 0, by simp⟩
  · exact ⟨0, n, 0, by simp⟩
  · exact ⟨0, 0, n, by simp⟩
  · exact ⟨0, 0, n, by simp⟩

lemma digit_not_space {b : ℕ} {c : UInt8} (h : DigitIn b c) : isSpace c = false := by
  obtain ⟨v, hv, -⟩ := h
  by_contra hc
  rw [Bool.not_eq_false] at hc
  unfold isSpace at hc
  simp only [Bool.or_eq_true, decide_eq_true_eq] at hc
  rcases hc with ((((rfl | rfl) | rfl) | rfl) | rfl) | rfl <;> cases hv

lemma digit_ne {b : ℕ} {c x : UInt8} (h : DigitIn b c) (hx : digitOf x = none) : c ≠ x := by
  rintro rfl
  obtain ⟨v, hv, -⟩ := h
  rw [hx] at hv
  cases hv

/-- What the parser reads of a number between spaces. -/
lemma strtoull_padded {base : ℕ} (hb : 1 < base) (hb' : base ≤ 16) (upper : Bool) (v i j k : ℕ)
    {sign : List UInt8} (hs : sign = [] ∨ sign = [ch '+'] ∨ sign = [ch '-']) :
    strtoull (List.replicate i (ch ' ') ++ (sign ++ (List.replicate j (ch '0') ++
        (numeral base upper v ++ List.replicate k (ch ' ')))) ++ [0]) base =
      some (if sign = [ch '-'] then (-(v : ℤ) % 18446744073709551616).toNat
        else v % 18446744073709551616, List.replicate k (ch ' ') ++ [0]) := by
  have hdig : ∀ c ∈ List.replicate j (ch '0') ++ numeral base upper v, DigitIn base c := by
    intro c hc
    rcases List.mem_append.mp hc with h | h
    · rw [List.eq_of_mem_replicate h]
      exact ⟨0, rfl, by omega⟩
    · exact numeral_digitIn hb hb' c h
  have hne : List.replicate j (ch '0') ++ numeral base upper v ≠ [] := by
    simp [numeral_ne_nil]
  have hpad : ∀ c ∈ List.replicate k (ch ' '), c = ch ' ' := fun c hc =>
    List.eq_of_mem_replicate hc
  -- the first character of the digits
  have hhead : ∀ c ∈ ((List.replicate j (ch '0') ++ numeral base upper v) ++
      List.replicate k (ch ' ')).head?, DigitIn base c := by
    intro c hc
    rw [List.head?_append_of_ne_nil _ hne] at hc
    exact hdig c (List.mem_of_mem_head? hc)
  let n : Numeral := ⟨List.replicate i (ch ' '), sign, [],
    List.replicate j (ch '0') ++ numeral base upper v, List.replicate k (ch ' '), base⟩
  have hof : n.Of base (List.replicate i (ch ' ') ++ (sign ++ (List.replicate j (ch '0') ++
      (numeral base upper v ++ List.replicate k (ch ' '))))) := by
    refine ⟨?_, ?_, ?_, ?_, Or.inr ⟨?_, rfl, ?_⟩, hdig, ?_⟩
    · simp [n, Numeral.unsigned]
    · intro c hc
      rw [List.eq_of_mem_replicate hc]
      rfl
    · intro c hc
      rcases hs with rfl | rfl | rfl
      · exact digit_not_space (hhead c hc)
      · cases hc
        rfl
      · cases hc
        rfl
    · rcases hs with rfl | rfl | rfl
      · exact Or.inr (Or.inr ⟨rfl, fun c hc => ⟨digit_ne (hhead c hc) rfl,
          digit_ne (hhead c hc) rfl⟩⟩)
      · exact Or.inl rfl
      · exact Or.inr (Or.inl rfl)
    · rintro ⟨-, x, c, r, e, hx, -⟩
      have hmem : x ∈ n.unsigned := by
        rw [e]
        simp
      have hcase : DigitIn base x ∨ x = ch ' ' := by
        rcases List.mem_append.mp (show x ∈ [] ++ ((List.replicate j (ch '0') ++
          numeral base upper v) ++ List.replicate k (ch ' ')) from hmem) with h | h
        · cases h
        · rcases List.mem_append.mp h with h | h
          · exact Or.inl (hdig x h)
          · exact Or.inr (hpad x h)
      rcases hcase with ⟨w, hw, hlt⟩ | rfl
      · rcases hx with rfl | rfl
        · rw [show digitOf (ch 'x') = some 33 by decide] at hw
          cases hw
          omega
        · rw [show digitOf (ch 'X') = some 33 by decide] at hw
          cases hw
          omega
      · rcases hx with h | h <;> exact absurd h (by decide)
    · simp only [n]
      rw [if_pos (by omega)]
    · intro c hc
      rw [hpad c (List.mem_of_mem_head? hc)]
      rintro ⟨w, hw, -⟩
      cases hw
  have h0 : 0 ∉ List.replicate i (ch ' ') ++ (sign ++ (List.replicate j (ch '0') ++
      (numeral base upper v ++ List.replicate k (ch ' ')))) := by
    intro h
    rw [← List.append_assoc (List.replicate j (ch '0'))] at h
    rcases List.mem_append.mp h with h | h
    · exact absurd (List.eq_of_mem_replicate h) (by decide)
    · rcases List.mem_append.mp h with h | h
      · rcases hs with rfl | rfl | rfl
        · cases h
        · exact absurd (List.mem_singleton.mp h) (by decide)
        · exact absurd (List.mem_singleton.mp h) (by decide)
      · rcases List.mem_append.mp h with h | h
        · exact not_digitIn_zero base (hdig 0 h)
        · exact absurd (hpad 0 h) (by decide)
  rw [strtoull_of h0 hof (by omega), if_neg hne]
  unfold Numeral.value Numeral.number
  simp only [n]
  rw [numeral_value hb hb']

/-! ### Printing into a buffer and reading back -/

/-- The arguments print a number into every buffer that is large enough, as a text that ends in a
digit with spaces after it at most, and `parse` reads the value `v` from there, up to just after the
last digit. -/
def ReadsBack {α : Type} (fmt : List UInt8) (ap : List Arg)
    (parse : List UInt8 → Option (α × List UInt8)) (v : α) : Prop :=
  ∃ body pad : List UInt8, (∃ c, body.getLast? = some c ∧ (digitOf c).isSome) ∧
    (∀ c ∈ pad, c = ch ' ') ∧
    ∀ (buf : Mem) (n : ℕ), (body ++ pad).length < n → ∃ (r : ℤ) (out : Mem),
      vsnprintf buf n fmt ap = .ok (r, out) ∧
      (List.range ((body ++ pad).length + 1)).map out = body ++ pad ++ [0] ∧
      parse (body ++ pad ++ [0]) = some (v, pad ++ [0])

lemma stored_object (buf : Mem) {n : ℕ} {t : List UInt8} (h : t.length < n) :
    (List.range (t.length + 1)).map (stored buf n t) = t ++ [0] := by
  apply List.ext_getElem
  · simp
  · intro i h1 h2
    rw [List.getElem_map, List.getElem_range]
    unfold stored
    rw [List.length_append, List.length_singleton] at h2
    by_cases hi : i < t.length
    · rw [if_pos (by omega), List.getElem_append_left hi, List.getD_eq_getElem?_getD,
        List.getElem?_eq_getElem hi, Option.getD_some]
    · have e : i = t.length := by omega
      subst e
      rw [if_neg (by omega), if_pos (by omega)]
      simp

/-- A padded number whose parts the parser reads back. -/
lemma readsBack_padded {α : Type} {fmt : List UInt8} {ap : List Arg} {left zero upper : Bool}
    {width : ℤ} {base v : ℕ} (hb : 1 < base) (hb' : base ≤ 16) (hv : v < 18446744073709551616)
    {pre : List UInt8} (hpre : pre = [] ∨ pre = [ch '+'] ∨ pre = [ch '-'] ∨ pre = [ch ' '])
    (hfmt : formatText fmt ap = .ok (padded left zero width pre (numeral base upper v)))
    (g : ℕ → α) :
    ReadsBack fmt ap (fun s => (strtoull s base).map fun x => (g x.1, x.2))
      (g (if pre = [ch '-'] then (-(v : ℤ) % 18446744073709551616).toNat else v)) := by
  have hlen : (padded left zero width pre (numeral base upper v)).length < 4294967296 := by
    have h1 := numeral_length hb hb' upper hv
    have h2 : pre.length ≤ 1 := by
      rcases hpre with rfl | rfl | rfl | rfl <;> simp
    rw [padded_length]
    have h3 : (i32 (width - ((numeral base upper v).length + pre.length))).toNat < 2147483648 := by
      unfold i32
      omega
    omega
  obtain ⟨i, j, k, hshape⟩ := padded_shape left zero width pre (numeral base upper v)
  have hv' : v % 18446744073709551616 = v := Nat.mod_eq_of_lt hv
  -- a space for a sign is one more space
  have hread : strtoull (padded left zero width pre (numeral base upper v) ++ [0]) base =
      some (if pre = [ch '-'] then (-(v : ℤ) % 18446744073709551616).toNat else v,
        List.replicate k (ch ' ') ++ [0]) := by
    rw [hshape]
    by_cases hsp : pre = [ch ' ']
    · have hr := @strtoull_padded base hb hb' upper v (i + 1) j k [] (Or.inl rfl)
      rw [if_neg (by simp), hv', List.replicate_succ', List.nil_append] at hr
      rw [hsp, if_neg (by decide)]
      simpa only [List.append_assoc] using hr
    · have hr := @strtoull_padded base hb hb' upper v i j k pre (by tauto)
      rw [hv'] at hr
      exact hr
  have hbody : padded left zero width pre (numeral base upper v) =
      (List.replicate i (ch ' ') ++ (pre ++ (List.replicate j (ch '0') ++ numeral base upper v))) ++
        List.replicate k (ch ' ') := by
    rw [hshape]
    simp
  have hne := numeral_ne_nil base upper v
  refine ⟨List.replicate i (ch ' ') ++ (pre ++ (List.replicate j (ch '0') ++
    numeral base upper v)), List.replicate k (ch ' '),
    ⟨(numeral base upper v).getLast hne, ?_, ?_⟩, fun c hc => List.eq_of_mem_replicate hc, ?_⟩
  · rw [List.getLast?_append_of_ne_nil _ (by simp [hne]),
      List.getLast?_append_of_ne_nil _ (by simp [hne]),
      List.getLast?_append_of_ne_nil _ hne, List.getLast?_eq_some_getLast hne]
  · obtain ⟨w, hw, -⟩ := numeral_digitIn hb hb' _ (List.getLast_mem hne)
    rw [hw]
    rfl
  · intro buf n hn
    rw [← hbody] at hn ⊢
    refine ⟨_, _, vsnprintf_eq buf n hfmt hlen, stored_object buf hn, ?_⟩
    dsimp only
    rw [hread]
    rfl

lemma Directive.flagSet_alt (d : Directive) : d.flagSet.alt = decide (ch '#' ∈ d.flags) := by
  unfold Directive.flagSet
  rw [flags_foldl d.flags_ok]
  split_ifs <;> simp

lemma signText_cases (v : ℤ) (f : Flags) :
    signText v f = [] ∨ signText v f = [ch '+'] ∨ signText v f = [ch '-'] ∨
      signText v f = [ch ' '] := by
  unfold signText
  split_ifs <;> simp

lemma signText_minus (v : ℤ) (f : Flags) : signText v f = [ch '-'] ↔ v < 0 := by
  unfold signText
  split_ifs with h1 h2 h3
  · simp [h1]
  · simp [h1, show ¬ ch '+' = ch '-' by decide]
  · simp [h1, show ¬ ch ' ' = ch '-' by decide]
  · simp [h1]

/-- What is left of a signed number after it went through the unsigned parser. -/
lemma i32_of_parse {v : ℤ} (h1 : -2147483648 ≤ v) (h2 : v < 2147483648) :
    i32 (if v < 0 then (-(v.natAbs : ℤ) % 18446744073709551616).toNat else v.natAbs : ℕ) = v := by
  unfold i32
  split_ifs <;> omega

lemma i64_of_parse {v : ℤ} (h1 : -9223372036854775808 ≤ v) (h2 : v < 9223372036854775808) :
    i64 (if v < 0 then (-(v.natAbs : ℤ) % 18446744073709551616).toNat else v.natAbs : ℕ) = v := by
  unfold i64
  split_ifs <;> omega

lemma signed_lt {d : Directive} {a : Arg} (ha : a.Is d.kind) :
    a.signed.natAbs < 18446744073709551616 := by
  unfold Directive.kind at ha
  cases hll : d.ll <;> rw [hll] at ha <;> obtain ⟨w, rfl⟩ := ha
  · have h1 := @BitVec.toInt_lt 32 w
    have h2 := @BitVec.le_toInt 32 w
    simp only [Arg.signed]
    omega
  · have h1 := @BitVec.toInt_lt 64 w
    have h2 := @BitVec.le_toInt 64 w
    simp only [Arg.signed]
    omega

lemma unsigned_lt {d : Directive} {a : Arg} (ha : a.Is d.kind) :
    a.unsigned < 18446744073709551616 := by
  unfold Directive.kind at ha
  cases hll : d.ll <;> rw [hll] at ha <;> obtain ⟨w, rfl⟩ := ha
  · have := w.isLt
    simp only [Arg.unsigned]
    omega
  · have := w.isLt
    simp only [Arg.unsigned]
    omega

/-- `strtol` and its like undo `printf`: whatever the flags (but `#`), the width and the value, the
number that a directive prints is read back from the text, to just after its last digit. -/
theorem strto_undoes_printf (d : Directive) (hf : ch '#' ∉ d.flags) {a : Arg} (ha : a.Is d.kind) :
    (∀ conv, conv = ch 'd' ∨ conv = ch 'i' →
      ReadsBack (d.format conv ++ [0]) (d.args a)
        (fun s => if d.ll then strtoll s 10 else strtol s 10) a.signed) ∧
    ∀ conv base upper alt, unsignedConv conv = some (base, upper, alt) →
      ReadsBack (d.format conv ++ [0]) (d.args a)
        (fun s => if d.ll then strtoull s base else strtoul s base) a.unsigned := by
  have hkind : (d.ll = false ∧ ∃ w, a = .word w) ∨ (d.ll = true ∧ ∃ w, a = .dword w) := by
    unfold Directive.kind at ha
    cases hll : d.ll
    · rw [hll] at ha
      exact Or.inl ⟨rfl, ha⟩
    · rw [hll] at ha
      exact Or.inr ⟨rfl, ha⟩
  constructor
  · intro conv hc
    have ht := formatText_signed d hc ha
    unfold intText at ht
    rw [intDigits_eq] at ht
    have hmag := signed_lt ha
    have hpre : signText a.signed d.flagSet = [] ∨ signText a.signed d.flagSet = [ch '+'] ∨
        signText a.signed d.flagSet = [ch '-'] ∨ signText a.signed d.flagSet = [ch ' '] :=
      signText_cases _ _
    rcases hkind with ⟨hll, w, rfl⟩ | ⟨hll, w, rfl⟩
    · have h := readsBack_padded (show 1 < 10 by omega) (by omega) hmag hpre ht fun n => i32 n
      simp only [signText_minus] at h
      rw [i32_of_parse (by simpa [Arg.signed] using @BitVec.le_toInt 32 w)
        (by simpa [Arg.signed] using @BitVec.toInt_lt 32 w)] at h
      simp only [hll]
      exact h
    · have h := readsBack_padded (show 1 < 10 by omega) (by omega) hmag hpre ht fun n => i64 n
      simp only [signText_minus] at h
      rw [i64_of_parse (by simpa [Arg.signed] using @BitVec.le_toInt 64 w)
        (by simpa [Arg.signed] using @BitVec.toInt_lt 64 w)] at h
      simp only [hll]
      exact h
  · intro conv base upper alt hc
    have hbase := unsignedConv_base hc
    have ht := formatText_unsigned d hc ha
    unfold uintText at ht
    rw [d.flagSet_alt, decide_eq_false hf, Bool.and_false, uintDigits_eq hbase.1, if_neg (by simp),
      if_neg (by simp), List.append_nil] at ht
    have hv := unsigned_lt ha
    rcases hkind with ⟨hll, w, rfl⟩ | ⟨hll, w, rfl⟩
    · have h := readsBack_padded hbase.1 hbase.2 hv (Or.inl rfl) ht u32
      rw [if_neg (by simp), u32_of_lt (show Arg.unsigned (.word w) < 4294967296 from w.isLt)] at h
      simp only [hll]
      exact h
    · have h := readsBack_padded hbase.1 hbase.2 hv (Or.inl rfl) ht id
      rw [if_neg (by simp)] at h
      simp only [hll, if_true]
      have e : ∀ s, (strtoull s base).map (fun x => (id x.1, x.2)) = strtoull s base := by
        intro s
        cases strtoull s base <;> rfl
      simp only [e] at h
      exact h

/-- `%+024.3ll` -/
def Directive.wide : Directive where
  flags := [ch '+', ch '0']
  width := .digits [ch '2', ch '4']
  prec := some (.digits [ch '3'])
  ll := true
  flags_ok := List.forall_mem_cons.mpr ⟨by decide, List.forall_mem_singleton.mpr (by decide)⟩
  width_ok := by
    rintro _ ⟨⟩
    exact ⟨List.forall_mem_cons.mpr ⟨by decide, List.forall_mem_singleton.mpr (by decide)⟩, by decide⟩
  prec_ok := by
    rintro _ ⟨⟩
    exact List.forall_mem_singleton.mpr (by decide)

theorem strto_undoes_printf_wide :
    (∀ conv, conv = ch 'd' ∨ conv = ch 'i' →
      ReadsBack (Directive.wide.format conv ++ [0]) (Directive.wide.args (.dword (-5000000000)))
        (fun s => if Directive.wide.ll then strtoll s 10 else strtol s 10) (-5000000000)) ∧
    ∀ conv base upper alt, unsignedConv conv = some (base, upper, alt) →
      ReadsBack (Directive.wide.format conv ++ [0]) (Directive.wide.args (.dword (-5000000000)))
        (fun s => if Directive.wide.ll then strtoull s base else strtoul s base)
        18446744068709551616 :=
  strto_undoes_printf Directive.wide (by decide) ⟨-5000000000, rfl⟩

end LunariaOS.Stdio
