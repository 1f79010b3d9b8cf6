import LunariaOS.Stdio.Output

/-!
Formats whose directives are complete.

A directive that the end of the format cuts short takes the NUL for its conversion character and steps
over it. `asks` reads a format without running it: the arguments it asks for, and whether every
directive has its conversion character. What `%s` asks of its argument depends on the precision, which
may be the argument in front of it.
-/

namespace LunariaOS.Stdio

open LunariaOS.Lib LunariaOS.Libc

/-! ### What a format asks for -/

/-- The kinds of arguments. That of a pointer to characters tells the precision, `none` when it is the
argument in front. -/
inductive Kind
  | word
  | dword
  | str (prec : Option ℤ)
  | ptr
  deriving DecidableEq

/-- The kind behind an argument of value `v`. -/
def Kind.behind (v : ℤ) : Kind → Kind
  | .str none => .str (some v)
  | k => k

/-- `%s` ends in the object: there is a NUL, or a byte behind those that the precision asks for. -/
def Readable (prec : ℤ) (l : List UInt8) : Prop := 0 ∈ l ∨ 0 ≤ prec ∧ prec < l.length

/-- `a` is an argument of the kind. A pointer to characters is null or points to what `%s` can read. -/
def Arg.Is (a : Arg) : Kind → Prop
  | .word => ∃ w, a = .word w
  | .dword => ∃ w, a = .dword w
  | .str prec => ∃ s : Option (List UInt8), a = .str s ∧ ∀ l ∈ s, Readable (prec.getD (-1)) l
  | .ptr => ∃ p, a = .ptr p

/-- The value of an argument as a signed and as an unsigned number. -/
def Arg.signed : Arg → ℤ
  | .word w => w.toInt
  | .dword w => w.toInt
  | _ => 0

def Arg.unsigned : Arg → ℕ
  | .word w => w.toNat
  | .dword w => w.toNat
  | _ => 0

/-- The arguments of the list, behind one of value `v`, begin with one of each kind. -/
def Fits (v : ℤ) : List Kind → List Arg → Prop
  | [], _ => True
  | _ :: _, [] => False
  | k :: ks, a :: ap => a.Is (k.behind v) ∧ Fits a.signed ks ap

/-- A number or a `*`: the arguments it takes, and what follows. -/
def skipNumber (l : List UInt8) : List Kind × List UInt8 :=
  if l.head? = some (ch '*') then ([.word], l.tail) else ([], l.dropWhile isDec)

/-- A precision: the arguments it takes, its value unless that is the last of them, and what follows. -/
def skipPrec (l : List UInt8) : List Kind × Option ℤ × List UInt8 :=
  if l.head? = some (ch '.') then
    ((skipNumber l.tail).1,
      if l.tail.head? = some (ch '*') then none else some ((l.tail.takeWhile isDec).foldl addDec 0),
      (skipNumber l.tail).2)
  else ([], some (-1), l)

/-- Whether length modifiers ask for a `long long`. -/
def isLong : List UInt8 → Bool
  | [] => false
  | [c] => c = ch 'j'
  | c :: d :: l => c = ch 'j' || (c = ch 'l' && d = ch 'l') || isLong (d :: l)

/-- What stands between the `%` and the conversion character: the arguments it takes, the precision,
whether the conversion is on a `long long`, and what follows. -/
def skipSpec (l : List UInt8) : List Kind × Option ℤ × Bool × List UInt8 :=
  let w := skipNumber (l.dropWhile isFlag)
  let p := skipPrec w.2
  (w.1 ++ p.1, p.2.1, isLong (p.2.2.takeWhile isLength), p.2.2.dropWhile isLength)

/-- The arguments of a conversion. -/
def convKinds (prec : Option ℤ) (ll : Bool) (conv : UInt8) : List Kind :=
  if conv = ch 'd' ∨ conv = ch 'i' ∨ (unsignedConv conv).isSome then [if ll then .dword else .word]
  else if conv = ch 'c' then [.word]
  else if conv = ch 's' then [.str prec]
  else if conv = ch 'p' then [.ptr]
  else []

lemma skipNumber_suffix (l : List UInt8) : (skipNumber l).2 <:+ l := by
  unfold skipNumber
  split_ifs
  · exact List.tail_suffix l
  · exact List.dropWhile_suffix _

lemma skipPrec_suffix (l : List UInt8) : (skipPrec l).2.2 <:+ l := by
  unfold skipPrec
  by_cases hd : l.head? = some (ch '.')
  · rw [if_pos hd]
    exact (skipNumber_suffix _).trans (List.tail_suffix l)
  · rw [if_neg hd]

lemma skipSpec_suffix (l : List UInt8) : (skipSpec l).2.2.2 <:+ l :=
  (List.dropWhile_suffix _).trans ((skipPrec_suffix _).trans
    ((skipNumber_suffix _).trans (List.dropWhile_suffix _)))

/-- The arguments that a format asks for, and whether all its directives are complete. -/
def asks (l : List UInt8) : List Kind × Bool :=
  match l with
  | [] => ([], true)
  | c :: l =>
    if c ≠ ch '%' then asks l
    else
      match l with
      | [] => ([], false)
      | d :: q =>
        if d = ch '%' then asks q
        else
          match _h : (skipSpec (d :: q)).2.2.2 with
          | [] => ((skipSpec (d :: q)).1, false)
          | conv :: r =>
            ((skipSpec (d :: q)).1 ++
              (convKinds (skipSpec (d :: q)).2.1 (skipSpec (d :: q)).2.2.1 conv ++ (asks r).1),
              (asks r).2)
termination_by l.length
decreasing_by
  · simp
  · simp
  · have := (skipSpec_suffix (d :: q)).length_le
    rw [_h] at this
    simp only [List.length_cons] at this ⊢
    omega

lemma asks_nil : asks [] = ([], true) := by rw [asks.eq_def]

lemma asks_char {c : UInt8} (hc : c ≠ ch '%') (l : List UInt8) : asks (c :: l) = asks l := by
  rw [asks.eq_def]
  simp [hc]

lemma asks_conv {d : UInt8} (hd : d ≠ ch '%') {q r : List UInt8} {ks : List Kind} {prec : Option ℤ}
    {ll : Bool} {conv : UInt8} (h : skipSpec (d :: q) = (ks, prec, ll, conv :: r)) :
    asks (ch '%' :: d :: q) = (ks ++ (convKinds prec ll conv ++ (asks r).1), (asks r).2) := by
  rw [asks.eq_def]
  simp only [ne_eq, not_true_eq_false, if_false, hd]
  split
  · simp_all
  · rename_i conv' r' h'
    rw [h] at h' ⊢
    cases h'
    rfl

/-- Every directive of the format has its conversion character. -/
def Complete (fmt : List UInt8) : Prop := (asks fmt).2 = true

/-- The arguments are those that the format asks for. -/
def Matches (fmt : List UInt8) (ap : List Arg) : Prop := Fits 0 (asks fmt).1 ap

/-! ### The loops of a directive over a terminated format -/

lemma Fits.word {v : ℤ} {ks : List Kind} {ap : List Arg} (h : Fits v (.word :: ks) ap) :
    ∃ w ap', ap = .word w :: ap' ∧ Fits w.toInt ks ap' := by
  match ap, h with
  | _ :: ap, ⟨⟨w, rfl⟩, h⟩ => exact ⟨w, ap, rfl, h⟩

/-- The argument of an integer conversion. -/
lemma Fits.int {v : ℤ} {ll : Bool} {ks : List Kind} {ap : List Arg}
    (h : Fits v ((if ll then .dword else .word) :: ks) ap) :
    ∃ v' ap', Fits v' ks ap' ∧ (∃ x, vaSigned ll ap = .ok (x, ap')) ∧
      ∃ x, vaUnsigned ll ap = .ok (x, ap') := by
  cases ll with
  | false =>
    obtain ⟨w, ap', rfl, h'⟩ := Fits.word h
    exact ⟨_, ap', h', ⟨_, rfl⟩, _, rfl⟩
  | true =>
    match ap, h with
    | _ :: ap, ⟨⟨w, rfl⟩, h'⟩ => exact ⟨_, ap, h', ⟨_, rfl⟩, _, rfl⟩

lemma Fits.str {v : ℤ} {prec : Option ℤ} {ks : List Kind} {ap : List Arg}
    (h : Fits v (.str prec :: ks) ap) :
    ∃ p v' ap', ap = .str p :: ap' ∧ (∀ l ∈ p, Readable (prec.getD v) l) ∧ Fits v' ks ap' := by
  match ap, h with
  | a :: ap, ⟨ha, h'⟩ =>
    obtain ⟨p, rfl, hp⟩ : ∃ p, a = .str p ∧ ∀ l ∈ p, Readable (prec.getD v) l := by
      cases prec <;> exact ha
    exact ⟨p, _, ap, rfl, hp, h'⟩

lemma exists_of_head? {l : List UInt8} {c : UInt8} (h : l.head? = some c) : ∃ q, l = c :: q := by
  cases l with
  | nil => cases h
  | cons d q => exact ⟨q, by rw [Option.some.inj h]⟩

lemma readWidth_star (f : Flags) (w : BitVec 32) (q : List UInt8) (ap : List Arg) :
    readWidth f (ch '*' :: q) (.word w :: ap) =
      .ok (if w.toInt < 0 then { f with left := true } else f,
        if w.toInt < 0 then i32 (-w.toInt) else w.toInt, q, ap) := by
  simp only [readWidth, if_true, vaWord, bind, Except.bind]
  split_ifs <;> rfl

/-- A width that is not a `*`. -/
lemma readWidth_walk (f : Flags) {l q : List UInt8} {w : ℤ} (h : l.head? ≠ some (ch '*'))
    (hw : walk isDec addDec 0 l = some (w, q)) (ap : List Arg) :
    readWidth f l ap = .ok (f, w, q, ap) := by
  cases l with
  | nil => cases hw
  | cons c l =>
    have hc : c ≠ ch '*' := fun e => h (by rw [e]; rfl)
    simp only [readWidth, if_neg hc, hw, scanned, bind, Except.bind]

/-- A precision that is not a `*`. -/
lemma readPrec_walk {l q : List UInt8} {n : ℤ} (h : l.head? ≠ some (ch '*'))
    (hw : walk isDec addDec 0 l = some (n, q)) (ap : List Arg) :
    readPrec (ch '.' :: l) ap = .ok (n, q, ap) := by
  cases l with
  | nil => cases hw
  | cons c l =>
    have hc : c ≠ ch '*' := fun e => h (by rw [e]; rfl)
    simp only [readPrec, if_true, if_neg hc, hw, scanned, bind, Except.bind]

lemma head_append_zero {l : List UInt8} {c : UInt8} (h : l.head? ≠ some c) (hc : c ≠ 0) :
    (l ++ [0]).head? ≠ some c := by
  cases l with
  | nil => exact fun e => hc (Option.some.inj e).symm
  | cons a l => exact h

lemma readWidth_number (f : Flags) {l : List UInt8} (h : l.head? ≠ some (ch '*')) (ap : List Arg) :
    readWidth f (l ++ [0]) ap =
      .ok (f, (l.takeWhile isDec).foldl addDec 0, l.dropWhile isDec ++ [0], ap) :=
  readWidth_walk f (head_append_zero h (by decide))
    (walk_append (g := addDec) l [] (show isDec 0 = false by decide) 0) ap

lemma readPrec_none {l : List UInt8} (h : l.head? ≠ some (ch '.')) (ap : List Arg) :
    readPrec (l ++ [0]) ap = .ok (-1, l ++ [0], ap) := by
  cases l with
  | nil => rfl
  | cons c q =>
    have hc : c ≠ ch '.' := fun e => h (by rw [e]; rfl)
    simp only [readPrec, List.cons_append, if_neg hc]

lemma readPrec_star (w : BitVec 32) (q : List UInt8) (ap : List Arg) :
    readPrec (ch '.' :: ch '*' :: q) (.word w :: ap) =
      .ok (if w.toInt < 0 then -1 else w.toInt, q, ap) := by
  simp only [readPrec, if_true, vaWord, bind, Except.bind]

lemma readPrec_number {l : List UInt8} (h : l.head? ≠ some (ch '*')) (ap : List Arg) :
    readPrec (ch '.' :: l ++ [0]) ap =
      .ok ((l.takeWhile isDec).foldl addDec 0, l.dropWhile isDec ++ [0], ap) :=
  readPrec_walk (head_append_zero h (by decide))
    (walk_append (g := addDec) l [] (show isDec 0 = false by decide) 0) ap

lemma readWidth_fits {v : ℤ} {l : List UInt8} {ks : List Kind} {ap : List Arg} (f : Flags)
    (h : Fits v ((skipNumber l).1 ++ ks) ap) :
    ∃ f' w v' ap', readWidth f (l ++ [0]) ap = .ok (f', w, (skipNumber l).2 ++ [0], ap') ∧
      Fits v' ks ap' := by
  unfold skipNumber at h ⊢
  by_cases hs : l.head? = some (ch '*')
  · rw [if_pos hs] at h ⊢
    obtain ⟨q, rfl⟩ := exists_of_head? hs
    obtain ⟨w, ap', rfl, h'⟩ := Fits.word h
    have e := readWidth_star f w (q ++ [0]) ap'
    rw [← List.cons_append] at e
    exact ⟨_, _, _, ap', e, h'⟩
  · rw [if_neg hs] at h ⊢
    exact ⟨_, _, v, ap, readWidth_number f hs ap, h⟩

/-- What is readable with the precision that the format tells is readable with the one that is read. -/
lemma readPrec_fits {v : ℤ} {l : List UInt8} {ks : List Kind} {ap : List Arg}
    (h : Fits v ((skipPrec l).1 ++ ks) ap) :
    ∃ n v' ap', readPrec (l ++ [0]) ap = .ok (n, (skipPrec l).2.2 ++ [0], ap') ∧ Fits v' ks ap' ∧
      ∀ x, Readable ((skipPrec l).2.1.getD v') x → Readable n x := by
  unfold skipPrec at h ⊢
  by_cases hd : l.head? = some (ch '.')
  · rw [if_pos hd] at h ⊢
    obtain ⟨q, rfl⟩ := exists_of_head? hd
    rw [List.tail_cons] at h ⊢
    unfold skipNumber at h ⊢
    by_cases hs : q.head? = some (ch '*')
    · rw [if_pos hs] at h ⊢
      obtain ⟨r, rfl⟩ := exists_of_head? hs
      obtain ⟨w, ap', rfl, h'⟩ := Fits.word h
      have e := readPrec_star w (r ++ [0]) ap'
      rw [← List.cons_append, ← List.cons_append] at e
      refine ⟨_, _, ap', e, h', fun x hx => hx.imp_right fun hp => ?_⟩
      have hw : 0 ≤ w.toInt := hp.1
      rw [if_neg (not_lt.mpr hw)]
      exact hp
    · rw [if_neg hs] at h ⊢
      refine ⟨_, v, ap, readPrec_number hs ap, h, fun x hx => ?_⟩
      rw [if_neg hs] at hx
      exact hx
  · rw [if_neg hd] at h ⊢
    exact ⟨-1, v, ap, readPrec_none hd ap, h, fun _ hx => hx⟩

lemma readLength_eq (l : List UInt8) (ll : Bool) :
    readLength ll (l ++ [0]) =
      .ok (ll || isLong (l.takeWhile isLength), l.dropWhile isLength ++ [0]) := by
  match l with
  | [] => simp [readLength, isLong, show isLength 0 = false by decide]
  | [c] =>
    by_cases hc : isLength c
    · by_cases hl : c = ch 'l'
      · subst hl
        simp [readLength, isLong, hc, show isLength 0 = false by decide,
          show ¬ (0 : UInt8) = ch 'l' by decide, show ¬ ch 'l' = ch 'j' by decide]
      · simp [readLength, isLong, hc, hl, show isLength 0 = false by decide]
    · simp [readLength, isLong, hc]
  | c :: d :: l =>
    by_cases hc : isLength c
    · by_cases hl : c = ch 'l'
      · subst hl
        by_cases hd : d = ch 'l'
        · subst hd
          have ih := readLength_eq l true
          simp [readLength, isLong, hc, ih]
        · have ih := readLength_eq (d :: l) ll
          rw [List.cons_append] at ih
          by_cases hdl : isLength d
          · simp [readLength, isLong, hc, hd, ih, hdl, show ¬ ch 'l' = ch 'j' by decide]
          · simp [readLength, isLong, hc, hd, ih, hdl, show ¬ ch 'l' = ch 'j' by decide]
      · have ih := readLength_eq (d :: l) (ll || c = ch 'j')
        rw [List.cons_append] at ih
        by_cases hdl : isLength d
        · simp [readLength, isLong, hc, hl, ih, hdl, Bool.or_assoc]
        · simp [readLength, isLong, hc, hl, ih, hdl]
    · simp [readLength, isLong, hc]

/-- A directive of a terminated format is read to its end, with the arguments it asks for. -/
lemma readSpec_fits {v : ℤ} {l : List UInt8} {ks : List Kind} {ap : List Arg}
    (h : Fits v ((skipSpec l).1 ++ ks) ap) :
    ∃ s v' ap', readSpec (l ++ [0]) ap = .ok (s, (skipSpec l).2.2.2 ++ [0], ap') ∧
      s.ll = (skipSpec l).2.2.1 ∧ Fits v' ks ap' ∧
      ∀ x, Readable ((skipSpec l).2.1.getD v') x → Readable s.prec x := by
  unfold skipSpec at h ⊢
  rw [List.append_assoc] at h
  obtain ⟨f, w, v1, ap1, hw, h⟩ :=
    readWidth_fits ((l.takeWhile isFlag).foldl Flags.set {}) h
  obtain ⟨n, v2, ap2, hp, h, hread⟩ := readPrec_fits h
  refine ⟨⟨f, w, n, isLong ((skipPrec (skipNumber (l.dropWhile isFlag)).2).2.2.takeWhile isLength)⟩,
    v2, ap2, ?_, rfl, h, hread⟩
  unfold readSpec
  rw [walk_append l [] (show isFlag 0 = false by decide)]
  simp only [scanned, bind, Except.bind, hw, hp, readLength_eq, Bool.false_or]

/-- The loop of `%s` ends at a NUL, or when it has counted up to the precision. -/
lemma strSize_isSome {prec : ℤ} {s : List UInt8} {k : ℕ}
    (h : 0 ∈ s ∨ k ≤ prec ∧ prec < k + s.length) : ∃ n, strSize prec k s = some n := by
  induction s generalizing k with
  | nil =>
    rcases h with h | h
    · cases h
    · rw [List.length_nil] at h
      omega
  | cons c s ih =>
    rw [List.length_cons] at h
    rw [strSize]
    split_ifs with hc
    · refine ih (h.imp (fun h => (List.mem_cons.mp h).resolve_left (Ne.symm hc.1)) fun h => ?_)
      omega
    · exact ⟨k, rfl⟩

/-- What is readable is printed. -/
lemma charsText_readable {p : Option (List UInt8)} {s : Spec} (h : ∀ l ∈ p, Readable s.prec l) :
    ∃ t, charsText p s = .ok t := by
  have hread : Readable s.prec (p.getD (lit "(null)" ++ [0])) := by
    cases p with
    | none => exact Or.inl (List.mem_append_right _ (by simp))
    | some l => exact h l rfl
  obtain ⟨n, hn⟩ := @strSize_isSome s.prec (p.getD (lit "(null)" ++ [0])) 0 (by
    rw [Nat.cast_zero, zero_add]
    exact hread)
  exact ⟨_, by simp only [charsText, hn]; rfl⟩

/-- A conversion finds its argument. -/
lemma convText_fits {v : ℤ} {prec : Option ℤ} {s : Spec} {conv : UInt8} {ks : List Kind}
    {ap : List Arg} (hread : ∀ x, Readable (prec.getD v) x → Readable s.prec x)
    (h : Fits v (convKinds prec s.ll conv ++ ks) ap) :
    ∃ t v' ap', convText s conv ap = .ok (t, ap') ∧ Fits v' ks ap' := by
  unfold convKinds at h
  unfold convText
  by_cases hd : conv = ch 'd' ∨ conv = ch 'i'
  · rw [if_pos (by tauto)] at h
    obtain ⟨v', ap', h', ⟨x, hx⟩, -⟩ := Fits.int h
    rw [if_pos hd, hx]
    exact ⟨_, v', ap', rfl, h'⟩
  rw [if_neg hd]
  cases hu : unsignedConv conv with
  | some b =>
    rw [if_pos (by rw [hu]; simp)] at h
    obtain ⟨v', ap', h', -, x, hx⟩ := Fits.int h
    dsimp only
    rw [hx]
    exact ⟨_, v', ap', rfl, h'⟩
  | none =>
    rw [if_neg (by rw [hu]; simp; tauto)] at h
    dsimp only
    by_cases hc : conv = ch 'c'
    · rw [if_pos hc] at h
      obtain ⟨w, ap', rfl, h'⟩ := Fits.word h
      subst hc
      exact ⟨_, _, ap', rfl, h'⟩
    rw [if_neg hc] at h
    by_cases hs : conv = ch 's'
    · rw [if_pos hs] at h
      subst hs
      obtain ⟨p, v', ap', rfl, hp, h'⟩ := Fits.str h
      obtain ⟨t, ht⟩ := charsText_readable fun l hl => hread l (hp l hl)
      refine ⟨t, v', ap', ?_, h'⟩
      rw [if_neg (by decide), if_neg (by decide), if_pos rfl]
      simp only [vaStr, ht, bind, Except.bind]
    rw [if_neg hs] at h
    by_cases hp : conv = ch 'p'
    · rw [if_pos hp] at h ⊢
      match ap, h with
      | _ :: ap, ⟨⟨p, rfl⟩, h'⟩ => exact ⟨_, _, ap, rfl, h'⟩
    rw [if_neg hp] at h
    rw [if_neg hp, if_neg hc, if_neg hs]
    exact ⟨_, v, ap, rfl, h⟩

/-! ### Runs -/

section Emit

variable {σ : Type} (emit : σ → UInt8 → σ)

/-- A directive without a conversion character runs behind the end of the format. -/
lemma formatLoop_short (o : σ) {l : List UInt8} (hl : l.head? ≠ some (ch '%')) {ap : List Arg}
    (hend : (skipSpec l).2.2.2 = []) {v : ℤ} (h : Fits v (skipSpec l).1 ap) :
    formatLoop emit o (ch '%' :: l ++ [0]) ap = .error .past := by
  obtain ⟨s, -, ap', hs, -, -⟩ := @readSpec_fits v _ [] _ (by rwa [List.append_nil])
  rw [hend] at hs
  have step : ∀ {d q}, l ++ [0] = d :: q → d ≠ ch '%' →
      formatLoop emit o (ch '%' :: l ++ [0]) ap = .error .past := by
    intro d q e hd
    rw [List.cons_append, e]
    rw [e] at hs
    rw [formatLoop_conv emit o hd hs, convert_eq]
    exact formatLoop_nil emit _ ap'
  cases l with
  | nil => exact step rfl (by decide)
  | cons d q => exact step rfl (fun e => hl (by rw [e]; rfl))

/-- On the arguments it asks for, a format runs to its end if all its directives are complete, and
else behind its end. -/
lemma formatLoop_fits (o : σ) {l : List UInt8} (h0 : 0 ∉ l) {v : ℤ} {ap : List Arg}
    (h : Fits v (asks l).1 ap) :
    if (asks l).2 then ∃ o', formatLoop emit o (l ++ [0]) ap = .ok o'
    else formatLoop emit o (l ++ [0]) ap = .error .past := by
  fun_induction asks l generalizing o v ap with
  | case1 => exact ⟨o, formatLoop_zero emit o [] ap⟩
  | case2 c l hc ih =>
    rw [List.cons_append, formatLoop_char emit o (fun e => h0 (by simp [e])) hc]
    exact ih _ (fun hm => h0 (by simp [hm])) h
  | case3 c hc =>
    rw [of_not_not hc]
    exact formatLoop_short emit o (by simp) rfl (v := v) trivial
  | case4 c hc q ih =>
    rw [of_not_not hc, List.cons_append, List.cons_append, formatLoop_percent]
    exact ih _ (fun hm => h0 (by simp [hm])) h
  | case5 c hc d q hd hend =>
    rw [of_not_not hc]
    exact formatLoop_short emit o (by simpa using hd) hend h
  | case6 c hc d q hd conv r hr ih =>
    rw [of_not_not hc, List.cons_append, List.cons_append]
    obtain ⟨s, v1, ap1, hs, hll, h1, hread⟩ := readSpec_fits h
    rw [hr, List.cons_append, List.cons_append] at hs
    rw [← hll] at h1
    obtain ⟨t, v2, ap2, ht, h2⟩ := convText_fits hread h1
    rw [formatLoop_conv emit o hd hs, convert_eq, ht]
    refine ih (t.foldl emit o) (fun hm => h0 ?_) h2
    have := (skipSpec_suffix (d :: q)).subset (hr ▸ List.mem_cons_of_mem conv hm)
    exact List.mem_cons_of_mem c this

end Emit

lemma formatText_fits {l : List UInt8} (h0 : 0 ∉ l) {ap : List Arg} (h : Matches l ap)
    (hc : Complete l) : ∃ t, formatText (l ++ [0]) ap = .ok t := by
  have := formatLoop_fits (fun _ _ => ()) () h0 h
  rw [if_pos (show (asks l).2 = true from hc), formatLoop_eq] at this
  obtain ⟨o, ho⟩ := this
  cases ht : formatText (l ++ [0]) ap with
  | error e => simp [ht, Except.map] at ho
  | ok t => exact ⟨t, rfl⟩

/-! ### `vfprintf` and `vsnprintf` -/

/-- `vsnprintf` and `vsprintf` put into the buffer what `vfprintf` sends to a stream. The result is
an `int` and the characters are counted in 32 bits. -/
theorem vsnprintf_stores (fmt : CStr) {ap : List Arg} (hc : Complete fmt.bytes)
    (ha : Matches fmt.bytes ap) :
    ∃ full : List UInt8, (∀ f, ∃ r, vfprintf f fmt.object ap = .ok (r, f ++ full)) ∧
      (full.length < 4294967296 → ∀ (buf : Mem) (n : ℕ), ∃ (r : ℤ) (out : Mem),
        vsnprintf buf n fmt.object ap = .ok (r, out) ∧
        (full.length < 2147483648 → r = full.length) ∧
        (0 < n → (∀ i < min full.length (n - 1), out i = full.getD i 0) ∧
          out (min full.length (n - 1)) = 0 ∧ ∀ i > min full.length (n - 1), out i = buf i) ∧
        (n = 0 → out = buf)) ∧
      (full.length < 4294967295 → ∀ buf : Mem, ∃ (r : ℤ) (out : Mem),
        vsprintf buf fmt.object ap = .ok (r, out) ∧
        (full.length < 2147483648 → r = full.length) ∧
        (∀ i < full.length, out i = full.getD i 0) ∧ out full.length = 0) := by
  obtain ⟨t, ht⟩ := formatText_fits fmt.noNul ha hc
  refine ⟨t, fun f => ⟨i32 (u32 t.length), ?_⟩, fun hlen buf n => ?_, fun hlen buf => ?_⟩
  · unfold CStr.object
    rw [vfprintf_eq, ht]
    rfl
  · refine ⟨i32 t.length, stored buf n t, vsnprintf_eq buf n ht hlen, i32_of_lt, fun hn => ?_,
      fun hn => ?_⟩
    · refine ⟨fun i hi => if_pos hi, ?_, fun i hi => ?_⟩
      · exact (if_neg (lt_irrefl _)).trans (if_pos ⟨hn, rfl⟩)
      · unfold stored
        rw [if_neg (by omega), if_neg (by omega)]
    · subst hn
      funext i
      unfold stored
      rw [if_neg (by omega), if_neg (by omega)]
  · refine ⟨i32 t.length, stored buf (t.length + 1) t, vsprintf_eq buf ht hlen, i32_of_lt,
      fun i hi => if_pos (by omega), ?_⟩
    unfold stored
    rw [if_neg (by omega), if_pos (by omega)]

lemma asks_aChar : asks (lit "a%c") = ([.word], true) := by
  have e : lit "a%c" = [ch 'a', ch '%', ch 'c'] := by decide
  have h : skipSpec [ch 'c'] = ([], some (-1), false, [ch 'c']) := by decide
  rw [e, asks_char (by decide), asks_conv (by decide) h, asks_nil]
  rfl

lemma asks_twoInts : asks (lit "%*d%d") = ([.word, .word, .word], true) := by
  have e : lit "%*d%d" = [ch '%', ch '*', ch 'd', ch '%', ch 'd'] := by decide
  have h1 : skipSpec [ch '*', ch 'd', ch '%', ch 'd'] =
      ([.word], some (-1), false, [ch 'd', ch '%', ch 'd']) := by decide
  have h2 : skipSpec [ch 'd'] = ([], some (-1), false, [ch 'd']) := by decide
  rw [e, asks_conv (by decide) h1, asks_conv (by decide) h2, asks_nil]
  rfl

theorem vsnprintf_stores_char : ∃ full : List UInt8,
    (∀ f, ∃ r, vfprintf f (CStr.object ⟨lit "a%c", by decide⟩) [.word 98] = .ok (r, f ++ full)) ∧
      (full.length < 4294967296 → ∀ (buf : Mem) (n : ℕ), ∃ (r : ℤ) (out : Mem),
        vsnprintf buf n (CStr.object ⟨lit "a%c", by decide⟩) [.word 98] = .ok (r, out) ∧
        (full.length < 2147483648 → r = full.length) ∧
        (0 < n → (∀ i < min full.length (n - 1), out i = full.getD i 0) ∧
          out (min full.length (n - 1)) = 0 ∧ ∀ i > min full.length (n - 1), out i = buf i) ∧
        (n = 0 → out = buf)) ∧
      (full.length < 4294967295 → ∀ buf : Mem, ∃ (r : ℤ) (out : Mem),
        vsprintf buf (CStr.object ⟨lit "a%c", by decide⟩) [.word 98] = .ok (r, out) ∧
        (full.length < 2147483648 → r = full.length) ∧
        (∀ i < full.length, out i = full.getD i 0) ∧ out full.length = 0) :=
  vsnprintf_stores ⟨lit "a%c", by decide⟩ (by rw [Complete, asks_aChar])
    (by rw [Matches, asks_aChar]; exact ⟨⟨98, rfl⟩, trivial⟩)

lemma formatText_twoInts : formatText (lit "%*d%d" ++ [0]) [.word 2147483647, .word 0, .word 0] =
    .ok (intText 0 {} 2147483647 ++ (intText 0 {} 0 ++ [])) := by
  have e : lit "%*d%d" ++ [0] = ch '%' :: ch '*' :: [ch 'd', ch '%', ch 'd', 0] := by decide
  have h1 : readSpec [ch '*', ch 'd', ch '%', ch 'd', 0] [.word 2147483647, .word 0, .word 0] =
      .ok (⟨{}, 2147483647, -1, false⟩, [ch 'd', ch '%', ch 'd', 0], [.word 0, .word 0]) := by rfl
  have h2 : readSpec [ch 'd', 0] [.word 0] = .ok (⟨{}, 0, -1, false⟩, [ch 'd', 0], [.word 0]) := by
    rfl
  have c1 : convText ⟨{}, 2147483647, -1, false⟩ (ch 'd') [.word 0, .word 0] =
      .ok (intText 0 {} 2147483647, [.word 0]) := by rfl
  have c2 : convText ⟨{}, 0, -1, false⟩ (ch 'd') [.word 0] = .ok (intText 0 {} 0, []) := by rfl
  rw [e, formatText_conv (by decide) h1, c1]
  simp only [Except.bind]
  rw [formatText_conv (by decide) h2, c2]
  simp only [Except.bind]
  rw [formatText_zero]
  rfl

/-- A text of 2^31 characters: the result is negative. -/
theorem vsnprintf_negative :
    Complete (lit "%*d%d") ∧ Matches (lit "%*d%d") [.word 2147483647, .word 0, .word 0] ∧
    ∃ full : List UInt8, full.length = 2147483648 ∧
      (∀ f, ∃ r, vfprintf f (lit "%*d%d" ++ [0]) [.word 2147483647, .word 0, .word 0] =
        .ok (r, f ++ full)) ∧
      ∀ (buf : Mem) (n : ℕ), ∃ out,
        vsnprintf buf n (lit "%*d%d" ++ [0]) [.word 2147483647, .word 0, .word 0] =
          .ok (-2147483648, out) := by
  have hlen : ∀ w : ℤ, 1 ≤ w → w < 2147483648 → (intText 0 {} w).length = w.toNat := by
    intro w h1 h2
    rw [intText, padded_length, show signText 0 {} = [] by rfl]
    simp only [Int.natAbs_zero, if_true, List.reverse_singleton, List.length_singleton,
      List.length_nil]
    unfold i32
    omega
  have h1 : (intText 0 {} 2147483647 ++ (intText 0 {} 0 ++ [])).length = 2147483648 := by
    rw [List.length_append, hlen _ (by omega) (by omega)]
    rfl
  refine ⟨by rw [Complete, asks_twoInts], ?_, _, h1, fun f => ?_, fun buf n => ?_⟩
  · rw [Matches, asks_twoInts]
    exact ⟨⟨_, rfl⟩, ⟨_, rfl⟩, ⟨_, rfl⟩, trivial⟩
  · rw [vfprintf_eq, formatText_twoInts]
    exact ⟨_, rfl⟩
  · rw [vsnprintf_eq buf n formatText_twoInts (by rw [h1]; omega), h1]
    exact ⟨_, rfl⟩

end LunariaOS.Stdio
