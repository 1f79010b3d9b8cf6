import LunariaOS.Lib.Division

/-!
The 64-bit helpers that are compiled into the output of `tcc`.

They work on halves of 32 bits. `rt_divmod` is the division of `Lib.Division`: as the remainder with
a digit brought down is never above the dividend, the digit that its shift drops is always zero, for
a divisor above `2 ^ 63` too.
-/

namespace LunariaOS.Tcc

open LunariaOS.Lib

/-! ### The code -/

/-- `(unsigned int)n`. -/
def low (n : BitVec 64) : BitVec 32 := n.setWidth 32

/-- `(unsigned int)(n >> 32)`. -/
def high (n : BitVec 64) : BitVec 32 := (n >>> 32).setWidth 32

/-- `((unsigned long long)hi << 32) | lo`. -/
def join (hi lo : BitVec 32) : BitVec 64 := (hi.setWidth 64 <<< 32) ||| lo.setWidth 64

/-- The variables of `rt_divmod` that change. -/
structure Vars where
  rlo : BitVec 32
  rhi : BitVec 32
  qlo : BitVec 32
  qhi : BitVec 32

/-- The body of the loop of `rt_divmod`. -/
def rtStep (n d : BitVec 64) (v : Vars) (i : ℕ) : Vars :=
  let bit : BitVec 32 := if i ≥ 32 then (high n >>> (i - 32)) &&& 1#32 else (low n >>> i) &&& 1#32
  let rhi2 := (v.rhi <<< 1) ||| (v.rlo >>> 31)
  let v := { v with rlo := (v.rlo <<< 1) ||| bit, rhi := rhi2 }
  if v.rhi > high d ∨ v.rhi = high d ∧ v.rlo ≥ low d then
    let b : BitVec 32 := if v.rlo < low d then 1#32 else 0#32
    let v := { v with rlo := v.rlo - low d, rhi := v.rhi - high d - b }
    if i ≥ 32 then { v with qhi := v.qhi ||| (1#32 <<< (i - 32)) }
    else { v with qlo := v.qlo ||| (1#32 <<< i) }
  else v

/-- The turns of the loop for `i - 1` down to `0`. -/
def rtLoop (n d : BitVec 64) : ℕ → Vars → Vars
  | 0, v => v
  | i + 1, v => rtLoop n d i (rtStep n d v i)

def rtDivmod (n d : BitVec 64) (wantR : Bool) : BitVec 64 :=
  if low d = 0#32 ∧ high d = 0#32 then 0#64
  else
    let v := rtLoop n d 64 ⟨0#32, 0#32, 0#32, 0#32⟩
    if wantR then join v.rhi v.rlo else join v.qhi v.qlo

def udivdi3 (a b : BitVec 64) : BitVec 64 := rtDivmod a b false

def umoddi3 (a b : BitVec 64) : BitVec 64 := rtDivmod a b true

/-- `a < 0 ? 0ull - a : a`, for a signed `a`. -/
def magnitude (a : BitVec 64) : BitVec 64 := if a.toInt < 0 then 0#64 - a else a

def divdi3 (a b : BitVec 64) : BitVec 64 :=
  let neg := decide (a.toInt < 0) != decide (b.toInt < 0)
  let q := rtDivmod (magnitude a) (magnitude b) false
  if neg then 0#64 - q else q

def moddi3 (a b : BitVec 64) : BitVec 64 :=
  let neg := decide (a.toInt < 0)
  let r := rtDivmod (magnitude a) (magnitude b) true
  if neg then 0#64 - r else r

/-- `__lshrdi3` for a count that is not negative, as in the two helpers below. -/
def lshrdi3 (u : BitVec 64) (b : ℕ) : BitVec 64 :=
  let lo := low u
  let hi := high u
  if b = 0 then u
  else if b ≥ 32 then join 0#32 (hi >>> (b - 32))
  else join (hi >>> b) ((lo >>> b) ||| (hi <<< (32 - b)))

def ashldi3 (u : BitVec 64) (b : ℕ) : BitVec 64 :=
  let lo := low u
  let hi := high u
  if b = 0 then u
  else if b ≥ 32 then join (lo <<< (b - 32)) 0#32
  else join ((hi <<< b) ||| (lo >>> (32 - b))) (lo <<< b)

def ashrdi3 (u : BitVec 64) (b : ℕ) : BitVec 64 :=
  let lo := low u
  let hi := high u
  if b = 0 then u
  else if b ≥ 32 then join (hi.sshiftRight 31) (hi.sshiftRight (b - 32))
  else join (hi.sshiftRight b) ((lo >>> b) ||| (hi <<< (32 - b)))

/-! ### Halves -/

section Halves

variable (u : BitVec 64) (hi lo x y : BitVec 32)

lemma low_bit (i : ℕ) : (low u).getLsbD i = (decide (i < 32) && u.getLsbD i) := by
  unfold low
  rw [BitVec.getLsbD_setWidth]

lemma high_bit (i : ℕ) : (high u).getLsbD i = (decide (i < 32) && u.getLsbD (32 + i)) := by
  unfold high
  rw [BitVec.getLsbD_setWidth, BitVec.getLsbD_ushiftRight]

lemma join_bit (i : ℕ) :
    (join hi lo).getLsbD i = if i < 32 then lo.getLsbD i else hi.getLsbD (i - 32) := by
  unfold join
  rw [BitVec.getLsbD_or, BitVec.getLsbD_shiftLeft, BitVec.getLsbD_setWidth, BitVec.getLsbD_setWidth]
  by_cases h : i < 32
  · simp [h, show i < 64 by omega]
  · rw [if_neg h, BitVec.getLsbD_of_ge lo i (by omega)]
    by_cases h' : i < 64
    · simp [h, h', show i - 32 < 64 by omega]
    · simp [h', BitVec.getLsbD_of_ge hi (i - 32) (by omega)]

lemma low_toNat : (low u).toNat = u.toNat % 2 ^ 32 := BitVec.toNat_setWidth ..

lemma high_toNat : (high u).toNat = u.toNat / 2 ^ 32 := by
  unfold high
  rw [BitVec.toNat_setWidth, BitVec.toNat_ushiftRight, Nat.shiftRight_eq_div_pow]
  have := u.isLt
  omega

/-- Two words that do not overlap are added. -/
lemma or_toNat {w k : ℕ} {x y : BitVec w} (hx : x.toNat % 2 ^ k = 0) (hy : y.toNat < 2 ^ k) :
    (x ||| y).toNat = x.toNat + y.toNat := by
  rw [BitVec.toNat_or]
  have h := Nat.two_pow_add_eq_or_of_lt hy (x.toNat / 2 ^ k)
  rw [Nat.mul_div_cancel' (Nat.dvd_of_mod_eq_zero hx)] at h
  exact h.symm

lemma join_toNat : (join hi lo).toNat = hi.toNat * 2 ^ 32 + lo.toNat := by
  have hhi := hi.isLt
  have hlo := lo.isLt
  unfold join
  rw [or_toNat (k := 32)]
  · rw [BitVec.toNat_shiftLeft, BitVec.toNat_setWidth, BitVec.toNat_setWidth, Nat.shiftLeft_eq]
    omega
  · rw [BitVec.toNat_shiftLeft, Nat.shiftLeft_eq]
    omega
  · rw [BitVec.toNat_setWidth]
    omega

/-- `x << 1` with the highest digit of `y` brought in. -/
lemma shift_toNat : ((x <<< 1) ||| (y >>> 31)).toNat = 2 * x.toNat % 2 ^ 32 + y.toNat / 2 ^ 31 := by
  have hy := y.isLt
  rw [or_toNat (k := 1), BitVec.toNat_shiftLeft, BitVec.toNat_ushiftRight, Nat.shiftLeft_eq,
    Nat.shiftRight_eq_div_pow]
  · omega
  · rw [BitVec.toNat_shiftLeft, Nat.shiftLeft_eq]
    omega
  · rw [BitVec.toNat_ushiftRight, Nat.shiftRight_eq_div_pow]
    omega

end Halves

/-! ### The division -/

section Division

variable {n d : BitVec 64} {v : Vars} {s : DivState} {i : ℕ}

/-- The variables hold the quotient and the remainder. -/
structure Holds (v : Vars) (s : DivState) : Prop where
  q : (join v.qhi v.qlo).toNat = s.q
  r : (join v.rhi v.rlo).toNat = s.r

lemma bit_toNat (n : BitVec 64) (hi : i < 64) :
    (if i ≥ 32 then (high n >>> (i - 32)) &&& 1#32 else (low n >>> i) &&& 1#32 : BitVec 32).toNat =
      DivState.digit n.toNat i := by
  unfold DivState.digit
  by_cases h : i ≥ 32
  · rw [if_pos h, BitVec.toNat_and, BitVec.toNat_ushiftRight, high_toNat, Nat.shiftRight_eq_div_pow,
      Nat.div_div_eq_div_mul, ← pow_add, show 32 + (i - 32) = i by omega]
    exact Nat.and_one_is_mod _
  · rw [if_neg h, BitVec.toNat_and, BitVec.toNat_ushiftRight, low_toNat, Nat.shiftRight_eq_div_pow]
    refine (Nat.and_one_is_mod _).trans ?_
    rw [show (2 : ℕ) ^ 32 = 2 ^ i * 2 ^ (32 - i) by rw [← pow_add]; congr 1; omega,
      Nat.mod_mul_right_div_self,
      Nat.mod_mod_of_dvd _ (dvd_pow_self 2 (by omega))]

lemma halves (d : BitVec 64) : d.toNat = (high d).toNat * 2 ^ 32 + (low d).toNat := by
  rw [high_toNat, low_toNat]
  omega

/-- The comparison of the halves. -/
lemma le_iff (d : BitVec 64) (hi lo : BitVec 32) :
    (hi > high d ∨ hi = high d ∧ lo ≥ low d) ↔ d.toNat ≤ (join hi lo).toNat := by
  have hlo := lo.isLt
  have hdlo := (low d).isLt
  rw [halves d, join_toNat, gt_iff_lt, ge_iff_le, BitVec.lt_def, BitVec.le_def, ← BitVec.toNat_inj]
  omega

/-- The subtraction of the halves with a borrow. -/
lemma sub_toNat {hi lo : BitVec 32} (h : d.toNat ≤ (join hi lo).toNat) :
    (join (hi - high d - if lo < low d then 1#32 else 0#32) (lo - low d)).toNat =
      (join hi lo).toNat - d.toNat := by
  have hhi := hi.isLt
  have hlo := lo.isLt
  have hdhi := (high d).isLt
  have hdlo := (low d).isLt
  rw [halves d, join_toNat] at *
  rw [join_toNat]
  by_cases hb : lo < low d
  · rw [if_pos hb]
    rw [BitVec.lt_def] at hb
    rw [BitVec.toNat_sub, BitVec.toNat_sub, BitVec.toNat_sub, BitVec.toNat_ofNat]
    omega
  · rw [if_neg hb]
    rw [BitVec.lt_def] at hb
    rw [BitVec.toNat_sub, BitVec.toNat_sub, BitVec.toNat_sub, BitVec.toNat_ofNat]
    omega

lemma one_shift {j : ℕ} (hj : j < 32) : (1#32 <<< j).toNat = 2 ^ j := by
  rw [BitVec.toNat_shiftLeft, Nat.shiftLeft_eq, BitVec.toNat_ofNat]
  have h : 2 ^ j < 2 ^ 32 := Nat.pow_lt_pow_right (by norm_num) hj
  omega

/-- The digit number `i` of the quotient set, where the digits up to it are zero. -/
lemma set_toNat {hi lo : BitVec 32} {k : ℕ} (hi64 : i < 64)
    (h : (join hi lo).toNat = k * 2 ^ (i + 1)) :
    (if i ≥ 32 then join (hi ||| (1#32 <<< (i - 32))) lo else join hi (lo ||| (1#32 <<< i))).toNat =
      (join hi lo).toNat + 2 ^ i := by
  have hlo := lo.isLt
  rw [join_toNat] at h
  by_cases hhigh : i ≥ 32
  · obtain ⟨j, rfl⟩ : ∃ j, i = j + 32 := ⟨i - 32, by omega⟩
    have hk : k * 2 ^ (j + 32 + 1) = k * 2 ^ (j + 1) * 2 ^ 32 := by
      rw [mul_assoc, ← pow_add]
    have hq : hi.toNat = k * 2 ^ (j + 1) := by omega
    have hone : (1#32 <<< j).toNat < 2 ^ (j + 1) := by
      rw [one_shift (by omega)]
      exact Nat.pow_lt_pow_right (by norm_num) (by omega)
    rw [if_pos hhigh, join_toNat, join_toNat, Nat.add_sub_cancel,
      or_toNat (k := j + 1) (by rw [hq, Nat.mul_mod_left]) hone, one_shift (by omega), pow_add]
    ring
  · have hdvd : 2 ^ (i + 1) ∣ lo.toNat := by
      refine (Nat.dvd_add_right ?_).mp (h ▸ Nat.dvd_mul_left ..)
      exact Dvd.dvd.mul_left (pow_dvd_pow 2 (by omega)) _
    have hone : (1#32 <<< i).toNat < 2 ^ (i + 1) := by
      rw [one_shift (by omega)]
      exact Nat.pow_lt_pow_right (by norm_num) (by omega)
    rw [if_neg hhigh, join_toNat, join_toNat,
      or_toNat (Nat.mod_eq_zero_of_dvd hdvd) hone, one_shift (by omega), Nat.add_assoc]

/-- A digit brought down: no digit is lost where the result fits. -/
lemma down_toNat {hi lo bit : BitVec 32} (hbit : bit.toNat ≤ 1)
    (h : 2 * (join hi lo).toNat + bit.toNat < 2 ^ 64) :
    (join ((hi <<< 1) ||| (lo >>> 31)) ((lo <<< 1) ||| bit)).toNat =
      2 * (join hi lo).toNat + bit.toNat := by
  have hlo := lo.isLt
  have hlow : ((lo <<< 1) ||| bit).toNat = 2 * lo.toNat % 2 ^ 32 + bit.toNat := by
    rw [or_toNat (k := 1), BitVec.toNat_shiftLeft, Nat.shiftLeft_eq]
    · omega
    · rw [BitVec.toNat_shiftLeft, Nat.shiftLeft_eq]
      omega
    · omega
  rw [join_toNat] at h ⊢
  rw [join_toNat, shift_toNat, hlow]
  omega

/-- **One turn.** -/
lemma Holds.step (h : Holds v s) (hs : DivState.Partial n.toNat d.toNat (i + 1) s) (hi : i < 64) :
    Holds (rtStep n d v i) (s.step n.toNat d.toNat i) := by
  have hdown := hs.down_le
  have hn := n.isLt
  obtain ⟨⟨k, hk, -⟩, -⟩ := hs
  obtain ⟨hq, hr⟩ := h
  set bit : BitVec 32 :=
    if i ≥ 32 then (high n >>> (i - 32)) &&& 1#32 else (low n >>> i) &&& 1#32 with hbitdef
  have hbit : bit.toNat = DivState.digit n.toNat i := bit_toNat n hi
  -- the remainder with the digit brought down
  have hr' : (join ((v.rhi <<< 1) ||| (v.rlo >>> 31)) ((v.rlo <<< 1) ||| bit)).toNat =
      s.down n.toNat i := by
    unfold DivState.down at hdown ⊢
    rw [down_toNat, hr, hbit]
    · rw [hbit]
      exact DivState.digit_le ..
    · rw [hr, hbit]
      exact hdown.trans_lt hn
  unfold rtStep DivState.step
  dsimp only
  rw [← hbitdef, ← hr']
  by_cases hle : d.toNat ≤ (join ((v.rhi <<< 1) ||| (v.rlo >>> 31)) ((v.rlo <<< 1) ||| bit)).toNat
  · have hset := set_toNat hi (hq.trans hk)
    rw [if_pos ((le_iff d _ _).mpr hle), if_pos hle]
    by_cases hhigh : i ≥ 32
    · rw [if_pos hhigh] at hset ⊢
      exact ⟨hset.trans (by rw [hq]), sub_toNat hle⟩
    · rw [if_neg hhigh] at hset ⊢
      exact ⟨hset.trans (by rw [hq]), sub_toNat hle⟩
  · rw [if_neg fun hc => hle ((le_iff d _ _).mp hc), if_neg hle]
    exact ⟨hq, rfl⟩

lemma Holds.loop (h : Holds v s) (hs : DivState.Partial n.toNat d.toNat i s) (hi : i ≤ 64) :
    Holds (rtLoop n d i v) (s.steps n.toNat d.toNat i) := by
  induction i generalizing v s with
  | zero => exact h
  | succ i ih => exact ih (h.step hs hi) hs.step (by omega)

/-- **`rt_divmod` is the division.** -/
lemma rtDivmod_eq (n : BitVec 64) (hd : d ≠ 0#64) (wantR : Bool) :
    rtDivmod n d wantR = if wantR then n % d else n / d := by
  have hpos : 0 < d.toNat := by
    rcases Nat.eq_zero_or_pos d.toNat with h | h
    · exact absurd (BitVec.toNat_inj.mp h) hd
    · exact h
  have hne : ¬ (low d = 0#32 ∧ high d = 0#32) := by
    rintro ⟨hlo, hhi⟩
    rw [halves d, hlo, hhi] at hpos
    exact absurd hpos (by decide)
  have hfinal := @Holds.loop n d ⟨0#32, 0#32, 0#32, 0#32⟩ ⟨0, 0⟩ 64 ⟨by decide, by decide⟩
    (DivState.partial_start n.isLt hpos) le_rfl
  rw [DivState.steps_eq n.isLt hpos] at hfinal
  unfold rtDivmod
  rw [if_neg hne]
  cases wantR with
  | false => exact BitVec.toNat_inj.mp (hfinal.q.trans BitVec.toNat_udiv.symm)
  | true => exact BitVec.toNat_inj.mp (hfinal.r.trans BitVec.toNat_umod.symm)

/-! ### Signs -/

lemma negative_eq (a : BitVec 64) : decide (a.toInt < 0) = a.msb := by
  rw [BitVec.msb_eq_toInt]

lemma magnitude_eq (a : BitVec 64) : magnitude a = if a.msb then -a else a := by
  rw [← negative_eq]
  unfold magnitude
  simp only [decide_eq_true_eq, BitVec.zero_sub]

lemma magnitude_ne (hd : d ≠ 0#64) : magnitude d ≠ 0#64 := by
  rw [magnitude_eq]
  split_ifs
  · exact fun h => hd (BitVec.neg_eq_zero_iff.mp h)
  · exact hd

/-- The sign of the quotient is negative where the signs differ. -/
lemma divdi3_eq (a : BitVec 64) (hd : d ≠ 0#64) : divdi3 a d = a.sdiv d := by
  unfold divdi3
  dsimp only
  rw [rtDivmod_eq _ (magnitude_ne hd), magnitude_eq, magnitude_eq, negative_eq, negative_eq,
    BitVec.sdiv_eq]
  cases a.msb <;> cases d.msb <;> simp

/-- The remainder has the sign of the dividend. -/
lemma moddi3_eq (a : BitVec 64) (hd : d ≠ 0#64) : moddi3 a d = a.srem d := by
  unfold moddi3
  dsimp only
  rw [rtDivmod_eq _ (magnitude_ne hd), magnitude_eq, magnitude_eq, negative_eq, BitVec.srem_eq]
  cases a.msb <;> cases d.msb <;> simp

end Division

/-! ### Shifts -/

section Shifts

variable (u : BitVec 64)

lemma lshrdi3_eq (k : ℕ) : lshrdi3 u k = u >>> k := by
  unfold lshrdi3
  dsimp only
  apply BitVec.eq_of_getLsbD_eq
  intro i hi
  split_ifs with h0 hbig
  · rw [h0, BitVec.ushiftRight_zero]
  · rw [join_bit, BitVec.getLsbD_ushiftRight, BitVec.getLsbD_ushiftRight, high_bit, BitVec.getLsbD_zero]
    grind
  · rw [join_bit, BitVec.getLsbD_ushiftRight, BitVec.getLsbD_or, BitVec.getLsbD_ushiftRight,
      BitVec.getLsbD_ushiftRight, BitVec.getLsbD_shiftLeft, high_bit, high_bit, low_bit]
    -- the digits below `32 - k` are those of the lower half
    by_cases hlow : i < 32
    · rw [if_pos hlow]
      by_cases hin : k + i < 32
      · simp [hin, show i < 32 - k by omega]
      · rw [show 32 + (i - (32 - k)) = k + i by omega]
        simp [hin, hlow, show ¬ i < 32 - k by omega, show i - (32 - k) < 32 by omega]
    · grind

lemma ashldi3_eq (k : ℕ) : ashldi3 u k = u <<< k := by
  unfold ashldi3
  dsimp only
  apply BitVec.eq_of_getLsbD_eq
  intro i hi
  split_ifs with h0 hbig
  · rw [h0, BitVec.shiftLeft_zero]
  · rw [join_bit, BitVec.getLsbD_shiftLeft, BitVec.getLsbD_shiftLeft, low_bit, BitVec.getLsbD_zero]
    grind
  · rw [join_bit, BitVec.getLsbD_shiftLeft, BitVec.getLsbD_or, BitVec.getLsbD_shiftLeft,
      BitVec.getLsbD_shiftLeft, BitVec.getLsbD_ushiftRight, high_bit, low_bit, low_bit]
    grind

lemma high_msb : (high u).msb = u.msb := by
  rw [BitVec.msb_eq_getLsbD_last, BitVec.msb_eq_getLsbD_last, high_bit]
  rfl

lemma ashrdi3_eq (k : ℕ) : ashrdi3 u k = u.sshiftRight k := by
  have hmsb := BitVec.msb_eq_getLsbD_last u
  unfold ashrdi3
  dsimp only
  apply BitVec.eq_of_getLsbD_eq
  intro i hi
  split_ifs with h0 hbig
  · rw [h0, BitVec.sshiftRight_zero]
  · rw [join_bit, BitVec.getLsbD_sshiftRight, BitVec.getLsbD_sshiftRight, BitVec.getLsbD_sshiftRight,
      high_msb, high_bit, high_bit]
    grind
  · rw [join_bit, BitVec.getLsbD_sshiftRight, BitVec.getLsbD_or, BitVec.getLsbD_sshiftRight,
      BitVec.getLsbD_ushiftRight, BitVec.getLsbD_shiftLeft, high_msb, high_bit, high_bit, low_bit]
    grind

end Shifts

/-- **The helpers compute what they are called for**: the quotients and remainders of 64-bit numbers
without and with a sign, where the signed quotient is taken modulo `2 ^ 64`, and the shifts. -/
theorem helpers_exact (a b : BitVec 64) (hb : b ≠ 0#64) :
    ((udivdi3 a b).toNat = a.toNat / b.toNat ∧ (umoddi3 a b).toNat = a.toNat % b.toNat) ∧
      (divdi3 a b = BitVec.ofInt 64 (a.toInt.tdiv b.toInt) ∧
        (moddi3 a b).toInt = a.toInt.tmod b.toInt) ∧
      ∀ k < 64, lshrdi3 a k = a >>> k ∧ ashldi3 a k = a <<< k ∧ ashrdi3 a k = a.sshiftRight k := by
  refine ⟨⟨?_, ?_⟩, ⟨?_, ?_⟩, fun k _ => ⟨lshrdi3_eq a k, ashldi3_eq a k, ashrdi3_eq a k⟩⟩
  · unfold udivdi3
    rw [rtDivmod_eq a hb]
    exact BitVec.toNat_udiv
  · unfold umoddi3
    rw [rtDivmod_eq a hb]
    exact BitVec.toNat_umod
  · rw [divdi3_eq a hb]
    apply BitVec.eq_of_toInt_eq
    rw [BitVec.toInt_sdiv, BitVec.toInt_ofInt]
  · rw [moddi3_eq a hb, BitVec.toInt_srem]

theorem helpers_exact_wraps :
    divdi3 (BitVec.intMin 64) (-1#64) = BitVec.ofInt 64 ((BitVec.intMin 64).toInt.tdiv (-1#64).toInt) :=
  (helpers_exact (BitVec.intMin 64) (-1#64) (by decide)).2.1.1

end LunariaOS.Tcc
