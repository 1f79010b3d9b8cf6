import LunariaOS.Lib.Calendar
import LunariaOS.Lib.Mem

/-!
`localtime`.

The years are counted from March on and in eras of 400 years, so that the day that a leap year has
more is the last one. `March` holds the date that the code finds in an era, and `March.civil` is the
day of the Gregorian calendar that it stands for.
-/

namespace LunariaOS.Libc.Time

open LunariaOS.Lib

/-! ### The code -/

/-- `struct tm`. -/
structure Tm where
  sec : ℤ
  min : ℤ
  hour : ℤ
  mday : ℤ
  mon : ℤ
  year : ℤ
  wday : ℤ
  yday : ℤ
  isdst : ℤ

/-- The value of `n` as an `unsigned int`. -/
def uint (n : ℤ) : ℤ := n % 4294967296

/-- `localtime` of a time that is there. A `long long` is an integer here: none of them is much larger
than the time. -/
def localtime (secs : ℤ) : Tm :=
  let days := secs.tdiv 86400
  let rem := secs.tmod 86400
  let (rem, days) := if rem < 0 then (rem + 86400, days - 1) else (rem, days)
  let wday := i32 ((days + 4).tmod 7)
  let wday := if wday < 0 then wday + 7 else wday
  let z := days + 719468
  let era := (if z ≥ 0 then z else z - 146096).tdiv 146097
  let doe := uint (z - era * 146097)
  let yoe := uint (doe - doe / 1460 + doe / 36524 - doe / 146096) / 365
  let y := yoe + era * 400
  let doy := uint (doe - (365 * yoe + yoe / 4 - yoe / 100))
  let mp := uint (5 * doy + 2) / 153
  let d := uint (doy - uint (153 * mp + 2) / 5 + 1)
  let m := uint (mp + if mp < 10 then 3 else -9)
  { sec := i32 (rem.tmod 60)
    min := i32 ((rem.tmod 3600).tdiv 60)
    hour := i32 (rem.tdiv 3600)
    mday := i32 d
    mon := i32 m - 1
    year := i32 (y + (if m ≤ 2 then 1 else 0) - 1900)
    wday := wday
    yday := 0
    isdst := 0 }

/-! ### Times of the calendar -/

namespace Tm

variable (tm : Tm)

/-- The day, counted from 1970-01-01 on. -/
def day : ℤ := daysBefore (tm.year + 1900) + monthStart (tm.year + 1900) tm.mon.toNat + (tm.mday - 1)

/-- The seconds since the beginning of 1970. -/
def seconds : ℤ := ((tm.day * 24 + tm.hour) * 60 + tm.min) * 60 + tm.sec

/-- **A date and a time of the Gregorian calendar.** -/
structure Civil : Prop where
  sec : 0 ≤ tm.sec ∧ tm.sec ≤ 59
  min : 0 ≤ tm.min ∧ tm.min ≤ 59
  hour : 0 ≤ tm.hour ∧ tm.hour ≤ 23
  mon : 0 ≤ tm.mon ∧ tm.mon ≤ 11
  mday : 1 ≤ tm.mday ∧ tm.mday ≤ monthLength (tm.year + 1900) tm.mon.toNat
  wday : tm.wday = weekday tm.day

end Tm

/-! ### Years from March on -/

/-- The day of an era: the year, the day of the year, the month and the day of the month, all counted
from March on. -/
structure March (doe yoe doy mp d : ℤ) : Prop where
  year : 0 ≤ yoe ∧ yoe < 400
  day : doe = 365 * yoe + yoe / 4 - yoe / 100 + doy
  day_range : 0 ≤ doy ∧ doy ≤ 365
  leap : doy = 365 → Leap (yoe + 1)
  month : 0 ≤ mp ∧ mp ≤ 11
  month_day : doy = (153 * mp + 2) / 5 + (d - 1)
  month_range : 1 ≤ d ∧ doy < (153 * (mp + 1) + 2) / 5

/-- A year in a cycle of four years, with `k` the leap days passed over. -/
lemma cycle {s k : ℤ} (hs : 0 ≤ s ∧ s ≤ 1460) (hk : k = 0 ∨ k = 1) (h0 : k = 0 → s ≤ 1459)
    (h1 : k = 1 → 1364 ≤ s) :
    (0 ≤ (s - k) / 365 ∧ (s - k) / 365 ≤ 3) ∧
      (0 ≤ s - 365 * ((s - k) / 365) ∧ s - 365 * ((s - k) / 365) ≤ 365) ∧
      (s - 365 * ((s - k) / 365) = 365 → (s - k) / 365 = 3) := by
  rcases hk with rfl | rfl <;> omega

/-- The century, the cycle of four years in it, and the day of the cycle. -/
lemma century {doe c q s : ℤ} (h0 : 0 ≤ doe) (h : doe < 146096) (hc : c = doe / 36524)
    (hq : q = (doe - 36524 * c) / 1461) (hs : s = doe - 36524 * c - 1461 * q) :
    (0 ≤ c ∧ c ≤ 3) ∧ (0 ≤ q ∧ q ≤ 24) ∧ (0 ≤ s ∧ s ≤ 1460) ∧ (q = 24 → s ≤ 1459) := by
  omega

lemma century_shift {c q s k : ℤ} (hc : 0 ≤ c ∧ c ≤ 3) (hq : 0 ≤ q ∧ q ≤ 24) (hs : 0 ≤ s ∧ s ≤ 1460)
    (hk : k = (24 * c + q + s) / 1460) :
    (k = 0 ∨ k = 1) ∧ (k = 0 → s ≤ 1459) ∧ (k = 1 → 1364 ≤ s) := by
  omega

/-- The year that the code finds: the leap days are taken out of the days of the era. -/
lemma year_eq (c q s : ℤ) {k : ℤ} (hk : k = (24 * c + q + s) / 1460) {doe : ℤ}
    (hdoe : doe = 36524 * c + 1461 * q + s) (hc : c = doe / 36524) (hlast : doe / 146096 = 0) :
    (doe - doe / 1460 + doe / 36524 - doe / 146096) / 365 = 100 * c + 4 * q + (s - k) / 365 := by
  have hshift : doe / 1460 = 25 * c + q + k := by
    rw [hdoe, hk]
    omega
  rw [hshift, ← hc, hlast, hdoe]
  omega

/-- **The year of a day of an era.** -/
lemma year_of_era {doe yoe doy : ℤ} (h0 : 0 ≤ doe) (h : doe < 146097)
    (hyoe : yoe = (doe - doe / 1460 + doe / 36524 - doe / 146096) / 365)
    (hdoy : doy = doe - (365 * yoe + yoe / 4 - yoe / 100)) :
    (0 ≤ yoe ∧ yoe < 400) ∧ (0 ≤ doy ∧ doy ≤ 365) ∧ (doy = 365 → Leap (yoe + 1)) := by
  by_cases hlast : doe = 146096
  · subst hlast
    norm_num at hyoe
    subst hyoe
    norm_num at hdoy
    subst hdoy
    decide
  obtain ⟨c, hc⟩ : ∃ c, c = doe / 36524 := ⟨_, rfl⟩
  obtain ⟨q, hq⟩ : ∃ q, q = (doe - 36524 * c) / 1461 := ⟨_, rfl⟩
  obtain ⟨s, hs⟩ : ∃ s, s = doe - 36524 * c - 1461 * q := ⟨_, rfl⟩
  obtain ⟨k, hk⟩ : ∃ k, k = (24 * c + q + s) / 1460 := ⟨_, rfl⟩
  obtain ⟨hc0, hq0, hs0, hlong⟩ := century h0 (by omega) hc hq hs
  obtain ⟨hk0, hk1, hk2⟩ := century_shift hc0 hq0 hs0 hk
  have hdoe : doe = 36524 * c + 1461 * q + s := by omega
  obtain ⟨hj0, hj1, hj2⟩ := cycle hs0 hk0 hk1 hk2
  have hy := year_eq c q s hk hdoe hc (by omega)
  rw [← hyoe] at hy
  clear hyoe hk hc hq hs
  obtain ⟨j, hj⟩ : ∃ j, j = (s - k) / 365 := ⟨_, rfl⟩
  rw [← hj] at hy hj0 hj1 hj2
  clear hj
  have hy4 : yoe / 4 = 25 * c + q := by omega
  have hy100 : yoe / 100 = c := by omega
  have hday : doy = s - 365 * j := by
    rw [hdoy, hy4, hy100]
    omega
  refine ⟨by omega, by omega, fun hlong' => ?_⟩
  -- the last day of a leap year, which is the fourth of a cycle that is not the last of a century
  have hj3 : j = 3 := hj2 (hday ▸ hlong')
  unfold Leap
  omega

/-- The date in an era. -/
lemma march {doe yoe doy mp d : ℤ} (h0 : 0 ≤ doe) (h : doe < 146097)
    (hyoe : yoe = (doe - doe / 1460 + doe / 36524 - doe / 146096) / 365)
    (hdoy : doy = doe - (365 * yoe + yoe / 4 - yoe / 100)) (hmp : mp = (5 * doy + 2) / 153)
    (hd : d = doy - (153 * mp + 2) / 5 + 1) : March doe yoe doy mp d := by
  obtain ⟨hy, hday, hleap⟩ := year_of_era h0 h hyoe hdoy
  clear hyoe
  refine ⟨hy, by omega, hday, hleap, by omega, by omega, ?_⟩
  clear hdoy hleap hy
  omega

/-- The days before the year that begins in the middle of a year from March on. -/
lemma daysBefore_next {yoe : ℤ} (h : 0 ≤ yoe ∧ yoe < 400) (era : ℤ) :
    daysBefore (yoe + era * 400 + 1) = era * 146097 + 365 * yoe + yoe / 4 - yoe / 100 - 719162 := by
  rw [daysBefore_eq]
  unfold quotients
  omega

lemma leap_era (yoe era : ℤ) : Leap (yoe + era * 400) ↔ Leap yoe := by
  unfold Leap
  omega

/-- The months from March to December: thirty and thirty-one days in turn, with two longer months in a
row after every fifth. -/
lemma month_from_march (y : ℤ) {k : ℕ} (h : k < 10) :
    monthStart y (k + 2) = yearLength y - 306 + (153 * k + 2) / 5 ∧
      monthLength y (k + 2) = (153 * (k + 1) + 2) / 5 - (153 * k + 2) / 5 := by
  unfold monthStart yearLength
  interval_cases k <;> norm_num [Finset.sum_range_succ, monthLength] <;> ring

/-- The calendar year, the month and the day of a date in an era. -/
lemma March.civil {doe yoe doy mp d : ℤ} (h : March doe yoe doy mp d) (era : ℤ) {m y : ℤ}
    (hm : m = mp + if mp < 10 then 3 else -9)
    (hy : y = yoe + era * 400 + if m ≤ 2 then 1 else 0) :
    (0 ≤ m - 1 ∧ m - 1 ≤ 11) ∧ (1 ≤ d ∧ d ≤ monthLength y (m - 1).toNat) ∧
      era * 146097 + doe - 719468 = daysBefore y + monthStart y (m - 1).toNat + (d - 1) := by
  have hnext := daysBefore_next h.year era
  obtain ⟨hyoe, hdoe, hrange, hleap, ⟨hmp0, hmp1⟩, hday, hd1, hd2⟩ := h
  by_cases hmp : mp < 10
  · -- from March to December
    rw [if_pos hmp] at hm
    rw [if_neg (by omega), add_zero] at hy
    obtain ⟨k, rfl⟩ := Int.eq_ofNat_of_zero_le hmp0
    obtain ⟨hstart, hlength⟩ := month_from_march y (k := k) (by omega)
    have hlen := daysBefore_succ y
    rw [show (m - 1).toNat = k + 2 by omega, hstart, hlength]
    rw [hy] at hlen ⊢
    omega
  · -- January and February, of the next year
    rw [if_neg hmp] at hm
    rw [if_pos (by omega)] at hy
    rw [← hy] at hnext
    rcases (by omega : mp = 10 ∨ mp = 11) with rfl | rfl
    · rw [show m - 1 = 0 by omega, show monthLength y (0 : ℤ).toNat = 31 from rfl,
        show monthStart y (0 : ℤ).toNat = 0 from rfl]
      omega
    · have hfeb : d ≤ monthLength y 1 := by
        unfold monthLength
        rw [if_pos rfl]
        by_cases hL : Leap y
        · rw [if_pos hL]
          omega
        · have hshort : doy ≠ 365 := fun h365 => hL (by
            rw [hy, show yoe + era * 400 + 1 = yoe + 1 + era * 400 by ring]
            exact (leap_era _ _).mpr (hleap h365))
          rw [if_neg hL]
          omega
      rw [show m - 1 = 1 by omega, show monthStart y (1 : ℤ).toNat = 31 from rfl]
      exact ⟨by omega, ⟨by omega, hfeb⟩, by omega⟩

/-! ### What `localtime` computes -/

lemma uint_eq {n : ℤ} (h : 0 ≤ n ∧ n < 4294967296) : uint n = n := Int.emod_eq_of_lt h.1 h.2

lemma i32_eq {n : ℤ} (h : -2147483648 ≤ n ∧ n < 2147483648) : i32 n = n := by
  unfold i32
  omega

/-- The day and the second of the day, for times before 1970 too. -/
lemma floor_eq (secs : ℤ) :
    (if secs.tmod 86400 < 0 then (secs.tmod 86400 + 86400, secs.tdiv 86400 - 1)
      else (secs.tmod 86400, secs.tdiv 86400)) = (secs % 86400, secs / 86400) := by
  have hsign : Int.sign 86400 = 1 := rfl
  have habs : (86400 : ℤ).natAbs = 86400 := rfl
  rw [Int.tmod_eq_emod, Int.tdiv_eq_ediv, hsign, habs]
  split_ifs <;> simp only [Prod.mk.injEq] <;> omega

lemma weekday_eq (days : ℤ) :
    (if i32 ((days + 4).tmod 7) < 0 then i32 ((days + 4).tmod 7) + 7 else i32 ((days + 4).tmod 7)) =
      weekday days := by
  have habs : (7 : ℤ).natAbs = 7 := rfl
  have hmod : -7 < (days + 4).tmod 7 ∧ (days + 4).tmod 7 < 7 ∧
      ((days + 4).tmod 7 - (days + 4) % 7) % 7 = 0 := by
    rw [Int.tmod_eq_emod, habs]
    split_ifs <;> omega
  rw [i32_eq (by omega)]
  unfold weekday
  split_ifs <;> omega

lemma era_eq (z : ℤ) : (if z ≥ 0 then z else z - 146096).tdiv 146097 = z / 146097 := by
  have hsign : Int.sign 146097 = 1 := rfl
  rw [Int.tdiv_eq_ediv, hsign]
  split_ifs <;> omega

/-- The month that the code finds. -/
lemma uint_month {mp : ℤ} (h : 0 ≤ mp ∧ mp ≤ 11) :
    uint (mp + if mp < 10 then 3 else -9) = mp + if mp < 10 then 3 else -9 := by
  apply uint_eq
  split_ifs <;> omega

/-- **The fields that `localtime` fills in.** -/
lemma localtime_eq (t : ℤ) :
    ∃ d m y : ℤ, (0 ≤ m - 1 ∧ m - 1 ≤ 11) ∧ (1 ≤ d ∧ d ≤ monthLength y (m - 1).toNat) ∧
      t / 86400 = daysBefore y + monthStart y (m - 1).toNat + (d - 1) ∧
      localtime t = ⟨t % 86400 % 60, t % 86400 % 3600 / 60, t % 86400 / 3600, d, m - 1,
        i32 (y - 1900), weekday (t / 86400), 0, 0⟩ := by
  unfold localtime
  dsimp only
  rw [floor_eq]
  dsimp only
  rw [weekday_eq, era_eq]
  obtain ⟨era, hera⟩ : ∃ era, era = (t / 86400 + 719468) / 146097 := ⟨_, rfl⟩
  obtain ⟨doe, hdoe⟩ : ∃ doe, doe = t / 86400 + 719468 - era * 146097 := ⟨_, rfl⟩
  have hdoe0 : 0 ≤ doe ∧ doe < 146097 := by omega
  rw [← hera, ← hdoe, uint_eq (n := doe) (by omega),
    uint_eq (n := doe - doe / 1460 + doe / 36524 - doe / 146096) (by omega)]
  obtain ⟨yoe, hyoe⟩ : ∃ yoe, yoe = (doe - doe / 1460 + doe / 36524 - doe / 146096) / 365 := ⟨_, rfl⟩
  obtain ⟨doy, hdoy⟩ : ∃ doy, doy = doe - (365 * yoe + yoe / 4 - yoe / 100) := ⟨_, rfl⟩
  obtain ⟨-, hday, -⟩ := year_of_era hdoe0.1 hdoe0.2 hyoe hdoy
  rw [← hyoe, ← hdoy, uint_eq (n := doy) (by omega), uint_eq (n := 5 * doy + 2) (by omega)]
  obtain ⟨mp, hmp⟩ : ∃ mp, mp = (5 * doy + 2) / 153 := ⟨_, rfl⟩
  obtain ⟨d, hd⟩ : ∃ d, d = doy - (153 * mp + 2) / 5 + 1 := ⟨_, rfl⟩
  have hmarch := march hdoe0.1 hdoe0.2 hyoe hdoy hmp hd
  have hmonth := hmarch.month
  have hfirst := hmarch.month_range.1
  clear hyoe hdoy
  rw [← hmp, uint_eq (n := 153 * mp + 2) (by omega), ← hd, uint_eq (n := d) (by omega),
    uint_month hmonth]
  obtain ⟨m, hm⟩ : ∃ m, m = mp + if mp < 10 then 3 else -9 := ⟨_, rfl⟩
  obtain ⟨y, hy⟩ : ∃ y, y = yoe + era * 400 + if m ≤ 2 then 1 else 0 := ⟨_, rfl⟩
  obtain ⟨hm0, hlen, hcount⟩ := hmarch.civil era hm hy
  refine ⟨d, m, y, hm0, hlen, by omega, ?_⟩
  have hrem : 0 ≤ t % 86400 ∧ t % 86400 < 86400 := by omega
  rw [← hm, ← hy, Int.tmod_eq_emod_of_nonneg hrem.1, Int.tmod_eq_emod_of_nonneg hrem.1,
    Int.tdiv_eq_ediv_of_nonneg hrem.1, Int.tdiv_eq_ediv_of_nonneg (by omega), i32_eq (by omega),
    i32_eq (by omega), i32_eq (by omega), i32_eq (n := d) (by omega), i32_eq (n := m) (by omega)]

lemma monthStart_le (y : ℤ) {m : ℕ} (hm : m < 12) : monthStart y m + monthLength y m ≤ yearLength y := by
  unfold monthStart yearLength
  rw [← Finset.sum_range_succ]
  refine Finset.sum_le_sum_of_subset_of_nonneg (Finset.range_mono hm) fun i _ _ => ?_
  unfold monthLength
  split_ifs <;> norm_num

lemma monthStart_nonneg (y : ℤ) (m : ℕ) : 0 ≤ monthStart y m :=
  Finset.sum_nonneg fun i _ => by
    unfold monthLength
    split_ifs <;> norm_num

/-- **`localtime` is the Gregorian calendar**, for every time whose year fits in `tm_year`. -/
theorem localtime_civil (t y : ℤ) (hy : InYear y (t / 86400))
    (hint : -2147483648 ≤ y - 1900 ∧ y - 1900 < 2147483648) :
    (localtime t).Civil ∧ (localtime t).year + 1900 = y ∧ (localtime t).seconds = t := by
  obtain ⟨d, m, y', hm, hd, hday, heq⟩ := localtime_eq t
  have hin : InYear y' (t / 86400) := by
    have hstart := monthStart_le y' (m := (m - 1).toNat) (by omega)
    have hnonneg := monthStart_nonneg y' (m - 1).toNat
    have hnext := daysBefore_succ y'
    exact ⟨by omega, by omega⟩
  obtain rfl := hy.unique hin
  have hyear : (localtime t).year + 1900 = y := by
    rw [heq, i32_eq hint]
    ring
  have hdate : (localtime t).day = t / 86400 := by
    unfold Tm.day
    rw [hyear, heq]
    exact hday.symm
  refine ⟨⟨?_, ?_, ?_, ?_, ?_, ?_⟩, hyear, ?_⟩
  · rw [heq]
    dsimp only
    omega
  · rw [heq]
    dsimp only
    omega
  · rw [heq]
    dsimp only
    omega
  · rw [heq]
    exact hm
  · rw [hyear, heq]
    exact hd
  · rw [hdate, heq]
  · unfold Tm.seconds
    rw [hdate, heq]
    dsimp only
    omega

theorem localtime_civil_before : (localtime (-1)).Civil ∧ (localtime (-1)).year + 1900 = 1969 ∧
    (localtime (-1)).seconds = -1 :=
  localtime_civil (-1) 1969 (by unfold InYear; decide) (by decide)

end LunariaOS.Libc.Time
