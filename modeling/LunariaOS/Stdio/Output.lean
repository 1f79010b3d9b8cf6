import LunariaOS.Stdio.Code

/-!
The text of a format.

Every helper of the interpreter sends a list of characters through the emitter, one after the other,
so what a format prints is one text, whichever emitter takes it. `vfprintf` and `vsnprintf` are two
ways to take the same text.
-/

namespace LunariaOS.Stdio

open LunariaOS.Lib LunariaOS.Libc

/-! ### The texts of the conversions -/

/-- A number or a string with its padding: `pre` is the sign or the prefix, which the zeros come
after. -/
def padded (left zero : Bool) (width : ℤ) (pre num : List UInt8) : List UInt8 :=
  let n := (i32 (width - (num.length + pre.length))).toNat
  (if !left && !zero then List.replicate n (ch ' ') else []) ++ pre ++
    (if !left && zero then List.replicate n (ch '0') else []) ++ num ++
    (if left then List.replicate n (ch ' ') else [])

/-- The digits that `put_uint` prints. -/
def uintDigits (v base : ℕ) (upper alt : Bool) : List UInt8 :=
  ((if v = 0 ∧ base = 8 ∧ alt then [ch '0'] else []) ++
    (lowDigits base v).map (digitChar upper)).reverse

/-- What `put_uint` prints. -/
def uintText (v base : ℕ) (upper : Bool) (width : ℤ) (zero left alt : Bool) : List UInt8 :=
  padded left zero width
    (if alt ∧ base = 16 then [ch '0', if upper then ch 'X' else ch 'x'] else [])
    (uintDigits v base upper alt)

/-- The sign of a signed conversion. -/
def signText (v : ℤ) (f : Flags) : List UInt8 :=
  if v < 0 then [ch '-'] else if f.plus then [ch '+'] else if f.space then [ch ' '] else []

/-- What `%d` prints. -/
def intText (v : ℤ) (f : Flags) (width : ℤ) : List UInt8 :=
  padded f.left f.zero width (signText v f)
    (if v.natAbs = 0 then [ch '0'] else magDigits v.natAbs).reverse

/-- What `%s` prints. -/
def charsText (s : Option (List UInt8)) (p : Spec) : Except Fault (List UInt8) :=
  let s := s.getD (lit "(null)" ++ [0])
  match strSize p.prec 0 s with
  | none => .error .arg
  | some n => .ok (padded p.flags.left false p.width [] ((cstr s).take n))

/-- What a directive prints. -/
def convText (p : Spec) (conv : UInt8) (ap : List Arg) : Except Fault (List UInt8 × List Arg) :=
  if conv = ch 'd' ∨ conv = ch 'i' then do
    let (v, ap) ← vaSigned p.ll ap
    .ok (intText v p.flags p.width, ap)
  else match unsignedConv conv with
  | some (base, upper, alt) => do
    let (v, ap) ← vaUnsigned p.ll ap
    .ok (uintText v base upper p.width p.flags.zero p.flags.left (alt && p.flags.alt), ap)
  | none =>
    if conv = ch 'p' then do
      let (a, ap) ← vaPtr ap
      .ok (if a = 0 then [] else uintText a.toNat 16 false p.width p.flags.zero p.flags.left true,
        ap)
    else if conv = ch 'c' then do
      let (w, ap) ← vaWord ap
      .ok (padded p.flags.left false p.width [] [UInt8.ofNat w.toNat], ap)
    else if conv = ch 's' then do
      let (s, ap) ← vaStr ap
      let t ← charsText s p
      .ok (t, ap)
    else .ok (ch '%' :: if conv ≠ 0 then [conv] else [], ap)

/-- What a format prints. -/
def formatText (p : List UInt8) (ap : List Arg) : Except Fault (List UInt8) :=
  match p with
  | [] => .error .past
  | c :: p =>
    if c = 0 then .ok []
    else if c ≠ ch '%' then (formatText p ap).map (c :: ·)
    else
      match p with
      | [] => .error .past
      | d :: q =>
        if d = ch '%' then (formatText q ap).map (ch '%' :: ·)
        else
          match _h : readSpec (d :: q) ap with
          | .error e => .error e
          | .ok (_, [], _) => .error .past
          | .ok (s, conv :: r, ap) =>
            match convText s conv ap with
            | .error e => .error e
            | .ok (t, ap) => (formatText r ap).map (t ++ ·)
termination_by p.length
decreasing_by
  · simp
  · simp
  · have := readSpec_length _h
    simp only [List.length_cons] at this ⊢
    omega

lemma formatText_zero (p : List UInt8) (ap : List Arg) : formatText (0 :: p) ap = .ok [] := by
  rw [formatText.eq_def]
  simp

lemma formatText_conv {d : UInt8} (hd : d ≠ ch '%') {q r : List UInt8} {ap ap' : List Arg}
    {s : Spec} {conv : UInt8} (h : readSpec (d :: q) ap = .ok (s, conv :: r, ap')) :
    formatText (ch '%' :: d :: q) ap =
      (convText s conv ap').bind fun x => (formatText r x.2).map (x.1 ++ ·) := by
  rw [formatText.eq_def]
  simp only [show ch '%' ≠ 0 by decide, if_false, ne_eq, not_true_eq_false, hd]
  split
  · simp_all
  · simp_all
  · rename_i s' conv' r' ap'' h'
    rw [h] at h'
    cases h'
    cases convText s conv ap' <;> rfl

lemma padded_length (left zero : Bool) (width : ℤ) (pre num : List UInt8) :
    (padded left zero width pre num).length =
      (i32 (width - (num.length + pre.length))).toNat + pre.length + num.length := by
  unfold padded
  cases left <;> cases zero <;> simp <;> omega

/-! ### The helpers send their texts -/

section Emit

variable {σ : Type} (emit : σ → UInt8 → σ)

lemma putPad_eq (o : σ) (c : UInt8) (n : ℤ) :
    putPad emit o c n = (List.replicate n.toNat c).foldl emit o := by
  unfold putPad
  induction n.toNat generalizing o with
  | zero => rfl
  | succ k ih => rw [Function.iterate_succ_apply, ih, List.replicate_succ, List.foldl_cons]

/-- The three places where padding is sent, around the sign or prefix and the digits. -/
lemma padded_foldl (o : σ) (left zero : Bool) (width : ℤ) (pre num : List UInt8) :
    (padded left zero width pre num).foldl emit o =
      (let n := i32 (width - (num.length + pre.length))
       let o := if !left && !zero then putPad emit o (ch ' ') n else o
       let o := pre.foldl emit o
       let o := if !left && zero then putPad emit o (ch '0') n else o
       let o := num.foldl emit o
       if left then putPad emit o (ch ' ') n else o) := by
  unfold padded
  cases left <;> cases zero <;> simp [putPad_eq, List.foldl_append]

lemma putUint_eq (o : σ) (v base : ℕ) (upper : Bool) (width : ℤ) (zero left alt : Bool) :
    putUint emit o v base upper width zero left alt =
      (uintText v base upper width zero left alt).foldl emit o := by
  unfold uintText
  rw [padded_foldl]
  unfold putUint uintDigits
  generalize (if v = 0 ∧ base = 8 ∧ alt then [ch '0'] else []) ++
    (lowDigits base v).map (digitChar upper) = tmp
  dsimp only
  rw [List.length_reverse]
  by_cases h : alt ∧ base = 16
  · rw [if_pos h, if_pos h, if_pos (show (2 : ℤ) ≠ 0 by decide)]
    rfl
  · rw [if_neg h, if_neg h, if_neg (show ¬ (0 : ℤ) ≠ 0 by decide)]
    rfl

lemma putInt_eq (o : σ) (v : ℤ) (f : Flags) (width : ℤ) :
    putInt emit o v f width = (intText v f width).foldl emit o := by
  unfold intText
  rw [padded_foldl]
  unfold putInt signText
  by_cases hv : v < 0
  · simp [hv]
  · by_cases hp : f.plus
    · simp [hv, hp]
    · by_cases hs : f.space <;> simp [hv, hp, hs]

lemma strSize_le {prec : ℤ} {s : List UInt8} {k n : ℕ} (h : strSize prec k s = some n) :
    n ≤ k + (cstr s).length := by
  induction s generalizing k with
  | nil => cases h
  | cons c s ih =>
    rw [strSize] at h
    split_ifs at h with hc
    · have := ih h
      simp only [cstr, List.takeWhile_cons, decide_eq_true hc.1, if_true, List.length_cons] at this ⊢
      omega
    · cases h
      exact Nat.le_add_right _ _

lemma putChars_eq (o : σ) (s : Option (List UInt8)) (p : Spec) :
    putChars emit o s p = (charsText s p).map (·.foldl emit o) := by
  unfold putChars charsText
  generalize s.getD (lit "(null)" ++ [0]) = t
  cases h : strSize p.prec 0 t with
  | none => simp [h, Except.map]
  | some n =>
    have hlen : ((cstr t).take n).length = n := by
      have := strSize_le h
      rw [List.length_take]
      omega
    simp only [h, Except.map]
    rw [padded_foldl]
    simp [putStr, hlen]

lemma putChar_eq (o : σ) (c : UInt8) (p : Spec) :
    putChar emit o c p = (padded p.flags.left false p.width [] [c]).foldl emit o := by
  rw [padded_foldl]
  simp [putChar]

lemma convert_eq (o : σ) (p : Spec) (conv : UInt8) (ap : List Arg) :
    convert emit o p conv ap = (convText p conv ap).map fun (t, ap) => (t.foldl emit o, ap) := by
  unfold convert convText
  by_cases hd : conv = ch 'd' ∨ conv = ch 'i'
  · rw [if_pos hd, if_pos hd]
    cases h : vaSigned p.ll ap with
    | error e => rfl
    | ok x => exact congrArg Except.ok (Prod.ext (putInt_eq ..) rfl)
  rw [if_neg hd, if_neg hd]
  cases unsignedConv conv with
  | some b =>
    cases h : vaUnsigned p.ll ap with
    | error e => rfl
    | ok x => exact congrArg Except.ok (Prod.ext (putUint_eq ..) rfl)
  | none =>
    dsimp only
    by_cases hp : conv = ch 'p'
    · rw [if_pos hp, if_pos hp]
      cases h : vaPtr ap with
      | error e => rfl
      | ok x =>
        simp only [bind, Except.bind]
        by_cases ha : x.1 = 0
        · rw [if_pos ha, if_pos ha]
          rfl
        · rw [if_neg ha, if_neg ha]
          exact congrArg Except.ok (Prod.ext (putUint_eq ..) rfl)
    rw [if_neg hp, if_neg hp]
    by_cases hc : conv = ch 'c'
    · rw [if_pos hc, if_pos hc]
      cases h : vaWord ap with
      | error e => rfl
      | ok x => exact congrArg Except.ok (Prod.ext (putChar_eq ..) rfl)
    rw [if_neg hc, if_neg hc]
    by_cases hs : conv = ch 's'
    · rw [if_pos hs, if_pos hs]
      cases h : vaStr ap with
      | error e => rfl
      | ok x =>
        simp only [bind, Except.bind, putChars_eq]
        cases charsText x.1 p <;> rfl
    rw [if_neg hs, if_neg hs]
    by_cases h0 : conv ≠ 0
    · rw [if_pos h0, if_pos h0]
      rfl
    · rw [if_neg h0, if_neg h0]
      rfl

/-! ### The interpreter sends the text of the format -/

lemma formatLoop_nil (o : σ) (ap : List Arg) : formatLoop emit o [] ap = .error .past := by
  rw [formatLoop.eq_def]

lemma formatLoop_zero (o : σ) (p : List UInt8) (ap : List Arg) :
    formatLoop emit o (0 :: p) ap = .ok o := by
  rw [formatLoop.eq_def]
  simp

lemma formatLoop_char (o : σ) {c : UInt8} (h0 : c ≠ 0) (hc : c ≠ ch '%') (p : List UInt8)
    (ap : List Arg) : formatLoop emit o (c :: p) ap = formatLoop emit (emit o c) p ap := by
  rw [formatLoop.eq_def]
  simp [h0, hc]

lemma formatLoop_cut (o : σ) (ap : List Arg) :
    formatLoop emit o [ch '%'] ap = .error .past := by
  rw [formatLoop.eq_def]
  simp [show ch '%' ≠ 0 by decide]

lemma formatLoop_percent (o : σ) (q : List UInt8) (ap : List Arg) :
    formatLoop emit o (ch '%' :: ch '%' :: q) ap = formatLoop emit (emit o (ch '%')) q ap := by
  rw [formatLoop.eq_def]
  simp [show ch '%' ≠ 0 by decide]

lemma formatLoop_error (o : σ) {d : UInt8} (hd : d ≠ ch '%') {q : List UInt8} {ap : List Arg}
    {e : Fault} (h : readSpec (d :: q) ap = .error e) :
    formatLoop emit o (ch '%' :: d :: q) ap = .error e := by
  rw [formatLoop.eq_def]
  simp only [show ch '%' ≠ 0 by decide, if_false, ne_eq, not_true_eq_false, hd]
  split <;> simp_all

lemma formatLoop_end (o : σ) {d : UInt8} (hd : d ≠ ch '%') {q : List UInt8} {ap ap' : List Arg}
    {s : Spec} (h : readSpec (d :: q) ap = .ok (s, [], ap')) :
    formatLoop emit o (ch '%' :: d :: q) ap = .error .past := by
  rw [formatLoop.eq_def]
  simp only [show ch '%' ≠ 0 by decide, if_false, ne_eq, not_true_eq_false, hd]
  split <;> simp_all

lemma formatLoop_conv (o : σ) {d : UInt8} (hd : d ≠ ch '%') {q r : List UInt8} {ap ap' : List Arg}
    {s : Spec} {conv : UInt8} (h : readSpec (d :: q) ap = .ok (s, conv :: r, ap')) :
    formatLoop emit o (ch '%' :: d :: q) ap =
      (convert emit o s conv ap').bind fun x => formatLoop emit x.1 r x.2 := by
  rw [formatLoop.eq_def]
  simp only [show ch '%' ≠ 0 by decide, if_false, ne_eq, not_true_eq_false, hd]
  split
  · simp_all
  · simp_all
  · rename_i s' conv' r' ap'' h'
    rw [h] at h'
    cases h'
    cases convert emit o s conv ap' <;> rfl

lemma formatLoop_eq (o : σ) (p : List UInt8) (ap : List Arg) :
    formatLoop emit o p ap = (formatText p ap).map (·.foldl emit o) := by
  fun_induction formatText p ap generalizing o with
  | case1 => exact formatLoop_nil emit o _
  | case2 => exact formatLoop_zero emit o _ _
  | case3 ap c p h0 hc ih =>
    rw [formatLoop_char emit o h0 hc, ih]
    cases formatText p ap <;> rfl
  | case4 ap c h0 hc =>
    rw [of_not_not hc]
    exact formatLoop_cut emit o ap
  | case5 ap c h0 hc q ih =>
    rw [of_not_not hc, formatLoop_percent, ih]
    cases formatText q ap <;> rfl
  | case6 ap c h0 hc d q hd e h =>
    rw [of_not_not hc]
    exact formatLoop_error emit o hd h
  | case7 ap c h0 hc d q hd s ap' h =>
    rw [of_not_not hc]
    exact formatLoop_end emit o hd h
  | case8 ap c h0 hc d q hd s conv r ap' h e ht =>
    rw [of_not_not hc, formatLoop_conv emit o hd h, convert_eq, ht]
    rfl
  | case9 ap c h0 hc d q hd s conv r ap' h t ap'' ht ih =>
    rw [of_not_not hc, formatLoop_conv emit o hd h, convert_eq, ht]
    refine (ih (t.foldl emit o)).trans ?_
    cases formatText r ap'' with
    | error e => rfl
    | ok u => exact congrArg Except.ok (List.foldl_append ..).symm

end Emit

/-! ### The two emitters -/

lemma emitFile_foldl (t f : List UInt8) (buf : Mem) (cap : ℕ) {len : ℕ} (hl : len < 4294967296) :
    t.foldl emitFile ⟨f, buf, cap, len⟩ = ⟨f ++ t, buf, cap, u32 (len + t.length)⟩ := by
  induction t generalizing f len with
  | nil => simp [u32_of_lt hl]
  | cons c t ih =>
    have e : u32 (u32 (len + 1) + t.length) = u32 (len + (t.length + 1)) := by
      unfold u32
      omega
    rw [List.foldl_cons, emitFile, ih _ (u32_lt _), e, List.append_assoc]
    rfl

/-- What `emit_buf` leaves of a text: the characters that fit before the last byte of the buffer. -/
lemma emitBuf_foldl (t f : List UInt8) (buf : Mem) (cap : ℕ) {len : ℕ}
    (hl : len + t.length < 4294967296) :
    t.foldl emitBuf ⟨f, buf, cap, len⟩ = ⟨f, fun i =>
      if len ≤ i ∧ i < len + t.length ∧ i + 1 < cap then t.getD (i - len) 0 else buf i, cap,
        len + t.length⟩ := by
  induction t generalizing buf len with
  | nil =>
    have h : ∀ i, ¬ (len ≤ i ∧ i < len + ([] : List UInt8).length ∧ i + 1 < cap) := by
      intro i
      rw [List.length_nil]
      omega
    simp only [h, if_false]
    rfl
  | cons c t ih =>
    rw [List.length_cons] at hl ⊢
    have hu : u32 (len + 1) = len + 1 := u32_of_lt (by omega)
    rw [List.foldl_cons, emitBuf, hu, ih _ (by omega)]
    simp only [OutCtx.mk.injEq, true_and]
    refine ⟨funext fun i => ?_, by omega⟩
    have put : (if len + 1 < cap then Function.update buf len c else buf) i =
        if i = len ∧ i + 1 < cap then c else buf i := by
      by_cases h : i = len
      · subst h
        by_cases hc : i + 1 < cap <;> simp [hc]
      · have : ¬ (i = len ∧ i + 1 < cap) := fun h' => h h'.1
        rw [if_neg this]
        split_ifs
        · exact Function.update_of_ne h _ _
        · rfl
    rw [put]
    by_cases hi : i = len
    · subst hi
      have h1 : ¬ (i + 1 ≤ i ∧ i < i + 1 + t.length ∧ i + 1 < cap) := by omega
      by_cases hc : i + 1 < cap
      · have h2 : i ≤ i ∧ i < i + (t.length + 1) ∧ i + 1 < cap := by omega
        rw [if_neg h1, if_pos ⟨rfl, hc⟩, if_pos h2, Nat.sub_self]
        rfl
      · have h2 : ¬ (i ≤ i ∧ i < i + (t.length + 1) ∧ i + 1 < cap) := fun h => hc h.2.2
        rw [if_neg h1, if_neg (fun h => hc h.2), if_neg h2]
    · rw [if_neg (fun h : i = len ∧ i + 1 < cap => hi h.1)]
      by_cases h : len ≤ i ∧ i < len + (t.length + 1) ∧ i + 1 < cap
      · have h1 : len + 1 ≤ i ∧ i < len + 1 + t.length ∧ i + 1 < cap := by omega
        have e : i - len = (i - (len + 1)) + 1 := by omega
        rw [if_pos h, if_pos h1, e, List.getD_cons_succ]
      · have h1 : ¬ (len + 1 ≤ i ∧ i < len + 1 + t.length ∧ i + 1 < cap) := by omega
        rw [if_neg h, if_neg h1]

/-- `vfprintf` sends the text of the format to the stream. -/
lemma vfprintf_eq (f fmt : List UInt8) (ap : List Arg) :
    vfprintf f fmt ap = (formatText fmt ap).map fun t => (i32 (u32 t.length), f ++ t) := by
  unfold vfprintf doFormat
  rw [formatLoop_eq]
  cases formatText fmt ap with
  | error e => rfl
  | ok t =>
    simp only [Except.map, bind, Except.bind]
    rw [emitFile_foldl t f _ _ (by omega), zero_add]

/-- The memory after `vsnprintf` has put the text `t` into a buffer of `n` bytes. -/
def stored (buf : Mem) (n : ℕ) (t : List UInt8) : Mem := fun i =>
  if i < min t.length (n - 1) then t.getD i 0
  else if 0 < n ∧ i = min t.length (n - 1) then 0 else buf i

lemma vsnprintf_eq (buf : Mem) (n : ℕ) {fmt : List UInt8} {ap : List Arg} {t : List UInt8}
    (h : formatText fmt ap = .ok t) (ht : t.length < 4294967296) :
    vsnprintf buf n fmt ap = .ok (i32 t.length, stored buf n t) := by
  unfold vsnprintf doFormat
  rw [formatLoop_eq, h]
  simp only [Except.map, bind, Except.bind]
  rw [emitBuf_foldl t [] buf n (by omega), zero_add]
  refine congrArg Except.ok (Prod.ext rfl (funext fun i => ?_))
  have hmin : (if t.length < n - 1 then t.length else n - 1) = min t.length (n - 1) := by
    split_ifs <;> omega
  simp only [hmin, Nat.zero_le, true_and, Nat.sub_zero]
  unfold stored
  generalize hm : min t.length (n - 1) = m
  have hlt : (i < t.length ∧ i + 1 < n) ↔ i < m := by omega
  by_cases hn : n > 0
  · rw [if_pos hn]
    by_cases hi : i = m
    · rw [hi, Function.update_self, if_neg (by omega), if_pos ⟨hn, rfl⟩]
    · have h1 : ¬ (0 < n ∧ i = m) := fun h => hi h.2
      rw [Function.update_of_ne hi, if_neg h1]
      simp only [hlt]
  · have h1 : ¬ (0 < n ∧ i = m) := fun h => hn h.1
    rw [if_neg hn, if_neg h1]
    simp only [hlt]

lemma vsprintf_eq (buf : Mem) {fmt : List UInt8} {ap : List Arg} {t : List UInt8}
    (h : formatText fmt ap = .ok t) (ht : t.length < 4294967295) :
    vsprintf buf fmt ap = .ok (i32 t.length, stored buf (t.length + 1) t) := by
  unfold vsprintf doFormat
  rw [formatLoop_eq, h]
  simp only [Except.map, bind, Except.bind]
  rw [emitBuf_foldl t [] buf _ (by omega), zero_add]
  refine congrArg Except.ok (Prod.ext rfl (funext fun i => ?_))
  simp only [Nat.zero_le, true_and, Nat.sub_zero]
  unfold stored
  have hlt : (i < t.length ∧ i + 1 < 4294967295) ↔ i < min t.length (t.length + 1 - 1) := by omega
  have heq : (0 < t.length + 1 ∧ i = min t.length (t.length + 1 - 1)) ↔ i = t.length := by omega
  simp only [heq]
  by_cases hi : i = t.length
  · rw [hi, Function.update_self, if_neg (by omega), if_pos rfl]
  · rw [Function.update_of_ne hi, if_neg hi]
    simp only [hlt]

end LunariaOS.Stdio
