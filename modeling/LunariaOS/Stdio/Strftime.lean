import LunariaOS.Paint.Code
import LunariaOS.Stdio.Complete

/-!
The time formatter `strftime`, and the formats that the two formatters of the C library read to their
NUL and no further.
-/

namespace LunariaOS.Stdio

open LunariaOS.Lib LunariaOS.Libc
open LunariaOS.Paint.State (itoa)

/-! ### The code -/

/-- `struct tm`, as far as `strftime` reads it. -/
structure Tm where
  sec : ℤ
  min : ℤ
  hour : ℤ
  mday : ℤ
  mon : ℤ
  year : ℤ
  wday : ℤ

def month : List (List UInt8) :=
  [lit "Jan", lit "Feb", lit "Mar", lit "Apr", lit "May", lit "Jun", lit "Jul", lit "Aug",
    lit "Sep", lit "Oct", lit "Nov", lit "Dec"]

def wday : List (List UInt8) :=
  [lit "Sun", lit "Mon", lit "Tue", lit "Wed", lit "Thu", lit "Fri", lit "Sat"]

/-- An entry of one of the tables; a negative index is that of no entry. -/
def entry (t : List (List UInt8)) (i : ℤ) : Except Fault (List UInt8) :=
  if i < 0 then .error .arg else .ok (t.getD i.toNat [])

/-- The `switch` of `strftime`: the text that goes in for the directive `d`. -/
def timeField (tm : Tm) (d : UInt8) : Except Fault (List UInt8) :=
  if d = ch 'Y' then .ok (itoa (i32 (tm.year + 1900)))
  else if d = ch 'm' then .ok (itoa (i32 (tm.mon + 1)))
  else if d = ch 'd' then .ok (itoa tm.mday)
  else if d = ch 'H' then .ok (itoa tm.hour)
  else if d = ch 'M' then .ok (itoa tm.min)
  else if d = ch 'S' then .ok (itoa tm.sec)
  else if d = ch 'b' then entry month (tm.mon.tmod 12)
  else if d = ch 'a' then entry wday (tm.wday.tmod 7)
  else if d = ch '%' then .ok [ch '%']
  else .ok (cstr [ch '%', d])

/-- The inner loop of `strftime`: the text goes in as far as there is room. -/
def putField (max : ℕ) : Mem → ℕ → List UInt8 → Mem × ℕ
  | s, n, [] => (s, n)
  | s, n, c :: t => if n + 1 < max then putField max (Function.update s n c) (n + 1) t else (s, n)

/-- The loop of `strftime`. -/
def strftimeLoop (tm : Tm) (max : ℕ) : Mem → ℕ → List UInt8 → Except Fault (Mem × ℕ)
  | _, _, [] => .error .past
  | s, n, c :: p =>
    if c ≠ 0 ∧ n + 1 < max then
      if c ≠ ch '%' then strftimeLoop tm max (Function.update s n c) (n + 1) p
      else
        match p with
        | [] => .error .past
        | d :: p => do
          let t ← timeField tm d
          strftimeLoop tm max (putField max s n t).1 (putField max s n t).2 p
    else .ok (s, n)

/-- `strftime`: the number of characters and the memory from the buffer on. -/
def strftime (s : Mem) (max : ℕ) (fmt : List UInt8) (tm : Tm) : Except Fault (ℕ × Mem) := do
  let (s, n) ← strftimeLoop tm max s 0 fmt
  .ok (n, if max > 0 then Function.update s n 0 else s)

/-! ### The text of a format -/

/-- The text of a format with room for all of it. -/
def timeText (tm : Tm) : List UInt8 → Except Fault (List UInt8)
  | [] => .ok []
  | c :: l =>
    if c ≠ ch '%' then (timeText tm l).map (c :: ·)
    else
      match l with
      | [] => .error .past
      | d :: l => do
        let t ← timeField tm d
        let u ← timeText tm l
        .ok (t ++ u)

lemma timeText_char (tm : Tm) {c : UInt8} (hc : c ≠ ch '%') (l : List UInt8) :
    timeText tm (c :: l) = (timeText tm l).map (c :: ·) := by
  rw [timeText.eq_def]
  simp [hc]

lemma timeText_directive (tm : Tm) (d : UInt8) (l : List UInt8) :
    timeText tm (ch '%' :: d :: l) =
      (timeField tm d).bind fun t => (timeText tm l).bind fun u => .ok (t ++ u) := by
  rw [timeText.eq_def]
  simp
  rfl

/-- The format ends in a lone `%`, which is reached while there is room. -/
def ReachesCut (tm : Tm) (max n : ℕ) (fmt : List UInt8) : Prop :=
  ∃ pre t, fmt = pre ++ [ch '%'] ∧ timeText tm pre = .ok t ∧ n + t.length + 1 < max

lemma putField_room (max : ℕ) (s : Mem) (n : ℕ) (t : List UInt8) (k : ℕ) :
    (putField max s n t).2 + k + 1 < max ↔ n + t.length + k + 1 < max := by
  induction t generalizing s n with
  | nil => simp [putField]
  | cons c t ih =>
    rw [putField]
    split_ifs with h
    · rw [ih, List.length_cons]
      omega
    · rw [List.length_cons]
      dsimp only
      omega

lemma timeField_ne_past (tm : Tm) (d : UInt8) : timeField tm d ≠ .error .past := by
  have he : ∀ t i, entry t i ≠ .error .past := by
    intro t i
    unfold entry
    split_ifs <;> simp
  unfold timeField
  split_ifs <;> first | exact he _ _ | simp

lemma reachesCut_cons {tm : Tm} {max n : ℕ} {c : UInt8} (hc : c ≠ ch '%') {l : List UInt8} :
    ReachesCut tm max n (c :: l) ↔ ReachesCut tm max (n + 1) l := by
  constructor
  · rintro ⟨pre, t, e, ht, hn⟩
    cases pre with
    | nil =>
      injection e with e1 e2
      exact absurd e1 hc
    | cons a pre =>
      injection e with e1 e2
      subst e1
      rw [timeText_char tm hc] at ht
      cases hu : timeText tm pre with
      | error e => simp [hu, Except.map] at ht
      | ok u =>
        simp only [hu, Except.map, Except.ok.injEq] at ht
        subst ht
        rw [List.length_cons] at hn
        exact ⟨pre, u, e2, hu, by omega⟩
  · rintro ⟨pre, t, e, ht, hn⟩
    refine ⟨c :: pre, c :: t, by rw [e]; rfl, ?_, by rw [List.length_cons]; omega⟩
    rw [timeText_char tm hc, ht]
    rfl

lemma reachesCut_directive {tm : Tm} {max n : ℕ} {d : UInt8} {l t : List UInt8}
    (ht : timeField tm d = .ok t) :
    ReachesCut tm max n (ch '%' :: d :: l) ↔ ReachesCut tm max (n + t.length) l := by
  constructor
  · rintro ⟨pre, u, e, hu, hn⟩
    match pre with
    | [] => simp at e
    | [a] =>
      injection e with e1 e2
      subst e1
      simp [timeText] at hu
    | a :: b :: pre =>
      injection e with e1 e2
      injection e2 with e2 e3
      subst e1 e2
      rw [timeText_directive, ht] at hu
      simp only [Except.bind] at hu
      cases hv : timeText tm pre with
      | error e => simp [hv] at hu
      | ok v =>
        simp only [hv, Except.ok.injEq] at hu
        subst hu
        rw [List.length_append] at hn
        exact ⟨pre, v, e3, hv, by omega⟩
  · rintro ⟨pre, u, e, hu, hn⟩
    refine ⟨ch '%' :: d :: pre, t ++ u, by rw [e]; rfl, ?_, by rw [List.length_append]; omega⟩
    rw [timeText_directive, ht, hu]
    rfl

lemma not_reachesCut_of_error {tm : Tm} {max n : ℕ} {d : UInt8} {l : List UInt8} {e : Fault}
    (h : timeField tm d = .error e) : ¬ ReachesCut tm max n (ch '%' :: d :: l) := by
  rintro ⟨pre, u, eq, hu, -⟩
  match pre with
  | [] => simp at eq
  | [a] =>
    injection eq with e1 e2
    subst e1
    simp [timeText] at hu
  | a :: b :: pre =>
    injection eq with e1 e2
    injection e2 with e2 e3
    subst e1 e2
    rw [timeText_directive, h] at hu
    cases hu

section Loop

variable (tm : Tm) (max : ℕ) (s : Mem) {n : ℕ}

lemma strftimeLoop_full (h : ¬ n + 1 < max) (c : UInt8) (p : List UInt8) :
    strftimeLoop tm max s n (c :: p) = .ok (s, n) := by
  rw [strftimeLoop.eq_def]
  simp [h]

lemma strftimeLoop_zero (p : List UInt8) : strftimeLoop tm max s n (0 :: p) = .ok (s, n) := by
  rw [strftimeLoop.eq_def]
  simp

lemma strftimeLoop_char (h : n + 1 < max) {c : UInt8} (h0 : c ≠ 0) (hc : c ≠ ch '%')
    (p : List UInt8) : strftimeLoop tm max s n (c :: p) =
      strftimeLoop tm max (Function.update s n c) (n + 1) p := by
  rw [strftimeLoop.eq_def]
  simp [h, h0, hc]

lemma strftimeLoop_directive (h : n + 1 < max) (d : UInt8) (p : List UInt8) :
    strftimeLoop tm max s n (ch '%' :: d :: p) = (timeField tm d).bind fun t =>
      strftimeLoop tm max (putField max s n t).1 (putField max s n t).2 p := by
  rw [strftimeLoop.eq_def]
  simp [h, show ch '%' ≠ 0 by decide]
  rfl

end Loop

/-- The loop runs behind the end of the format exactly when it reaches a directive that the end cuts
short. -/
lemma strftimeLoop_past (tm : Tm) (max : ℕ) (s : Mem) (n : ℕ) (l : List UInt8) (h0 : 0 ∉ l) :
    strftimeLoop tm max s n (l ++ [0]) = .error .past ↔ ReachesCut tm max n l := by
  by_cases hn : n + 1 < max
  · match l with
    | [] =>
      rw [List.nil_append, strftimeLoop_zero]
      refine ⟨fun h => (by cases h), ?_⟩
      rintro ⟨pre, t, e, -⟩
      simp at e
    | [c] =>
      by_cases hc : c = ch '%'
      · subst hc
        refine ⟨fun _ => ⟨[], [], rfl, rfl, hn⟩, fun _ => ?_⟩
        rw [List.cons_append, List.nil_append, strftimeLoop_directive tm max s hn]
        rfl
      · rw [reachesCut_cons hc, List.cons_append, List.nil_append,
          strftimeLoop_char tm max s hn (fun e => h0 (by simp [e])) hc, strftimeLoop_zero]
        refine ⟨fun h => (by cases h), ?_⟩
        rintro ⟨pre, t, e, -⟩
        simp at e
    | c :: d :: l =>
      by_cases hc : c = ch '%'
      · subst hc
        rw [List.cons_append, List.cons_append, strftimeLoop_directive tm max s hn]
        cases ht : timeField tm d with
        | error e =>
          refine ⟨fun h => ?_, fun h => absurd h (not_reachesCut_of_error ht)⟩
          injection h with h
          exact absurd (h ▸ ht) (timeField_ne_past tm d)
        | ok t =>
          rw [reachesCut_directive ht]
          refine (strftimeLoop_past tm max _ _ l (fun hm => h0 (by simp [hm]))).trans ?_
          unfold ReachesCut
          simp only [putField_room]
      · rw [reachesCut_cons hc, List.cons_append,
          strftimeLoop_char tm max s hn (fun e => h0 (by simp [e])) hc]
        exact strftimeLoop_past tm max _ _ (d :: l) (fun hm => h0 (List.mem_cons_of_mem c hm))
  · have e : strftimeLoop tm max s n (l ++ [0]) = .ok (s, n) := by
      cases l <;> exact strftimeLoop_full tm max s hn _ _
    rw [e]
    refine ⟨fun h => (by cases h), ?_⟩
    rintro ⟨pre, t, -, -, h⟩
    omega

lemma strftime_past (tm : Tm) (max : ℕ) (s : Mem) (fmt : CStr) :
    strftime s max fmt.object tm = .error .past ↔ ReachesCut tm max 0 fmt.bytes := by
  rw [← strftimeLoop_past tm max s 0 fmt.bytes fmt.noNul]
  unfold strftime CStr.object
  cases strftimeLoop tm max s 0 (fmt.bytes ++ [0]) <;> simp [bind, Except.bind]

/-! ### The two formatters -/

/-- `do_format` ends, without a read behind the NUL of its format, exactly on the formats whose
directives are all complete; `strftime` reads behind it exactly when it reaches a `%` that the NUL
follows with room left in the buffer. -/
theorem reads_inside_iff (fmt : CStr) :
    (∀ (emit : OutCtx → UInt8 → OutCtx) (o : OutCtx) (ap : List Arg), Matches fmt.bytes ap →
      ((∃ r, doFormat emit o fmt.object ap = .ok r) ↔ Complete fmt.bytes)) ∧
    ∀ (s : Mem) (max : ℕ) (tm : Tm),
      strftime s max fmt.object tm ≠ .error .past ↔ ¬ ReachesCut tm max 0 fmt.bytes := by
  refine ⟨fun emit o ap h => ?_, fun s max tm => not_congr (strftime_past tm max s fmt)⟩
  have := formatLoop_fits emit { o with len := 0 } fmt.noNul h
  unfold doFormat CStr.object Complete
  by_cases hc : (asks fmt.bytes).2 = true
  · rw [if_pos hc] at this
    obtain ⟨o', ho⟩ := this
    simp [ho, hc, bind, Except.bind]
  · rw [if_neg hc] at this
    simp [this, hc, bind, Except.bind]

theorem reads_inside_iff_char :
    (∃ r, doFormat emitBuf ⟨[], fun _ => 0, 8, 0⟩ (CStr.object ⟨lit "a%c", by decide⟩)
      [.word 98] = .ok r) ↔ Complete (lit "a%c") :=
  (reads_inside_iff ⟨lit "a%c", by decide⟩).1 emitBuf ⟨[], fun _ => 0, 8, 0⟩ [.word 98]
    (by rw [Matches, asks_aChar]; exact ⟨⟨98, rfl⟩, trivial⟩)

/-- The format `%` and the time format `%` are read behind their NUL. -/
theorem percent_reads_past :
    Matches [ch '%'] [] ∧
    (∀ emit o, doFormat emit o (CStr.object ⟨[ch '%'], by decide⟩) [] = .error .past) ∧
    strftime (fun _ => 0) 16 (CStr.object ⟨[ch '%'], by decide⟩) ⟨0, 0, 0, 1, 0, 70, 4⟩ =
      .error .past := by
  refine ⟨?_, fun emit o => ?_, rfl⟩
  · rw [Matches, asks.eq_def]
    trivial
  · have h : formatLoop emit { o with len := 0 } [ch '%', 0] [] = .error .past :=
      formatLoop_short emit _ (l := []) (by simp) rfl (v := 0) trivial
    have e : CStr.object ⟨[ch '%'], by decide⟩ = [ch '%', 0] := rfl
    unfold doFormat
    rw [e, h]
    rfl

end LunariaOS.Stdio
