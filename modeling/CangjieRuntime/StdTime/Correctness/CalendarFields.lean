import CangjieRuntime.Lib.Gregorian
import CangjieRuntime.StdTime.Calendar

/-!
# `StdTime.Correctness.CalendarFields` — seconds and fields determine each other

Both directions are compared with the position of a date on the number line: the days before its year, before its month
in the year, and before it in the month. A position has one date, and positions are ordered as dates are.
-/

namespace CangjieRuntime.StdTime

open StdCore Gregorian

/-! ## The position of a date -/

namespace Fields

/-- The fields of a date-time in the range of years. -/
structure Valid (f : Fields) : Prop where
  year_min : MIN_YEAR ≤ f.year
  year_max : f.year ≤ MAX_YEAR
  month_min : 1 ≤ f.month
  month_max : f.month ≤ 12
  day_min : 1 ≤ f.dayOfMonth
  day_max : f.dayOfMonth ≤ monthLength f.year f.month.toNat
  hour_min : 0 ≤ f.hour
  hour_max : f.hour < 24
  minute_min : 0 ≤ f.minute
  minute_max : f.minute < 60
  second_min : 0 ≤ f.second
  second_max : f.second < 60

/-- The day in the year, from 0. -/
def dayInYear (f : Fields) : Int := daysBeforeMonth f.year f.month.toNat + (f.dayOfMonth - 1)

/-- The day since the start of year 1. -/
def day (f : Fields) : Int := daysBeforeYear f.year + f.dayInYear

/-- The second in the day. -/
def secondInDay (f : Fields) : Int := f.hour * 3600 + (f.minute * 60 + f.second)

/-- The second since the start of year 1. -/
def position (f : Fields) : Int := f.day * 86400 + f.secondInDay

/-- The fields in the order of their weight. -/
def toList (f : Fields) : List Int := [f.year, f.month, f.dayOfMonth, f.hour, f.minute, f.second]

variable {f g : Fields}

variable (hf : f.Valid)
include hf

theorem Valid.dayInYear : 0 ≤ f.dayInYear ∧ f.dayInYear < yearLength f.year := by
  have hmono := (consecutive_months f.year).start_mono
  have hstart : daysBeforeMonth f.year 1 ≤ daysBeforeMonth f.year f.month.toNat :=
    hmono (by have := hf.month_min; omega)
  have hend : daysBeforeMonth f.year (f.month.toNat + 1) ≤ daysBeforeMonth f.year 13 :=
    hmono (by have := hf.month_max; omega)
  rw [daysBeforeMonth_thirteen, daysBeforeMonth] at hend
  have hfirst : daysBeforeMonth f.year 1 = 0 := rfl
  have hmin := hf.day_min
  have hmax := hf.day_max
  unfold Fields.dayInYear
  omega

theorem Valid.secondInDay : 0 ≤ f.secondInDay ∧ f.secondInDay < 86400 := by
  obtain ⟨-, -, -, -, -, -, hh, hh', hm, hm', hs, hs'⟩ := hf
  unfold Fields.secondInDay
  omega

theorem Valid.dayInYear_lt_iff (hg : g.Valid) (hyear : f.year = g.year) :
    f.dayInYear < g.dayInYear ↔ f.month < g.month ∨ f.month = g.month ∧ f.dayOfMonth < g.dayOfMonth := by
  have hfmonth := hf.month_min
  have hgmonth := hg.month_min
  have hday (h : Fields) (hh : h.Valid) :
      0 ≤ h.dayOfMonth - 1 ∧ h.dayOfMonth - 1 < monthLength h.year h.month.toNat := by
    have hmin := hh.day_min
    have hmax := hh.day_max
    omega
  have hfday := hday f hf
  have hgday := hday g hg
  unfold Fields.dayInYear
  rw [hyear] at hfday ⊢
  rw [(consecutive_months g.year).lt_iff hfday.1 hfday.2 hgday.1 hgday.2]
  omega

theorem Valid.day_lt_iff (hg : g.Valid) :
    f.day < g.day ↔ f.year < g.year ∨ f.year = g.year ∧
    (f.month < g.month ∨ f.month = g.month ∧ f.dayOfMonth < g.dayOfMonth) := by
  have hyears := consecutive_years.lt_iff hf.dayInYear.1 hf.dayInYear.2 hg.dayInYear.1 hg.dayInYear.2
  exact hyears.trans (or_congr_right (and_congr_right (hf.dayInYear_lt_iff hg)))

theorem Valid.secondInDay_lt_iff (hg : g.Valid) :
    f.secondInDay < g.secondInDay ↔
      f.hour < g.hour ∨ f.hour = g.hour ∧ (f.minute < g.minute ∨ f.minute = g.minute ∧ f.second < g.second) := by
  obtain ⟨-, -, -, -, -, -, -, -, hm, hm', hs, hs'⟩ := hf
  obtain ⟨-, -, -, -, -, -, -, -, hgm, hgm', hgs, hgs'⟩ := hg
  unfold Fields.secondInDay
  omega

omit hf in
theorem toList_lt_iff : f.toList < g.toList ↔
    f.year < g.year ∨ f.year = g.year ∧ (f.month < g.month ∨ f.month = g.month ∧ (f.dayOfMonth < g.dayOfMonth ∨
      f.dayOfMonth = g.dayOfMonth ∧ (f.hour < g.hour ∨ f.hour = g.hour ∧ (f.minute < g.minute ∨
        f.minute = g.minute ∧ f.second < g.second)))) := by
  simp only [toList, List.cons_lt_cons_iff, List.not_lt_nil, and_false, or_false]

/-- Valid fields are ordered as their positions are. -/
theorem Valid.lt_iff (hg : g.Valid) : f.position < g.position ↔ f.toList < g.toList := by
  have hdays : f.position < g.position ↔ f.day < g.day ∨ f.day = g.day ∧ f.secondInDay < g.secondInDay :=
    (consecutive_mul (by decide)).lt_iff hf.secondInDay.1 hf.secondInDay.2 hg.secondInDay.1 hg.secondInDay.2
  have hlt := hf.day_lt_iff hg
  have hgt := hg.day_lt_iff hf
  have hsecs := hf.secondInDay_lt_iff hg
  rw [hdays, toList_lt_iff]
  omega

/-- A position is that of one date. -/
theorem Valid.eq_of_position (hg : g.Valid) (heq : f.position = g.position) : f = g := by
  have hlt := mt (hf.lt_iff hg).mpr (by omega)
  have hgt := mt (hg.lt_iff hf).mpr (by omega)
  rw [toList_lt_iff] at hlt hgt
  cases f
  cases g
  dsimp only at hlt hgt
  rw [Fields.mk.injEq]
  omega

end Fields

/-! ## From seconds -/

theorem isLeapYear_iff (year : Int) : isLeapYear year = true ↔ Leap year := by
  unfold isLeapYear Leap
  rw [decide_eq_true_eq, ← Int.dvd_iff_tmod_eq_zero, ne_eq, ← Int.dvd_iff_tmod_eq_zero, ← Int.dvd_iff_tmod_eq_zero]

/-- The cycles of 400, 100 and 4 years and the single years, from the first year of a cycle of 400. A cycle of 400 years
    has one day more than four of its centuries, and a cycle of 4 years one day more than four normal years: the fifth
    part there is the last day of the fourth. -/
theorem cycles_spec {first n a b c d r₁ r₂ r₃ r₄ : Int} (hfirst : 400 ∣ first - 1) (ha : a = n / 146097)
    (hr₁ : r₁ = n % 146097) (hb : b = r₁ / 36524 - r₁ / 36524 / 4) (hr₂ : r₂ = r₁ - 36524 * b) (hc : c = r₂ / 1461)
    (hr₃ : r₃ = r₂ % 1461) (hd : d = r₃ / 365 - r₃ / 365 / 4) (hr₄ : r₄ = r₃ - 365 * d) :
    daysBeforeYear (first + 400 * a + 100 * b + 4 * c + d) + r₄ = daysBeforeYear first + n ∧ 0 ≤ r₄ ∧
      r₄ < yearLength (first + 400 * a + 100 * b + 4 * c + d) := by
  obtain ⟨k, hk⟩ := hfirst
  have hbrange : 0 ≤ b ∧ b ≤ 3 := by omega
  have hr₂range : 0 ≤ r₂ ∧ (r₂ < 36524 ∨ r₂ = 36524 ∧ b = 3) := by omega
  have hcrange : 0 ≤ c ∧ c ≤ 24 := by omega
  have hdrange : 0 ≤ d ∧ d ≤ 3 := by omega
  have hr₄range : 0 ≤ r₄ ∧ (r₄ < 365 ∨ r₄ = 365 ∧ d = 3) := by omega
  refine ⟨?_, hr₄range.1, ?_⟩
  · have h4 : (first + 400 * a + 100 * b + 4 * c + d - 1) / 4 = 100 * (k + a) + 25 * b + c := by omega
    have h100 : (first + 400 * a + 100 * b + 4 * c + d - 1) / 100 = 4 * (k + a) + b := by omega
    have h400 : (first + 400 * a + 100 * b + 4 * c + d - 1) / 400 = k + a := by omega
    unfold daysBeforeYear
    rw [h4, h100, h400]
    omega
  · unfold yearLength
    split_ifs with hleap
    · omega
    · unfold Leap at hleap
      omega

theorem shiftRight_two (x : Int) : x >>> (2 : Nat) = x / 4 := by
  rw [Int.shiftRight_eq_div_pow]
  rfl

theorem toYearAndSecond_spec (sec : Int) (hmin : SECS_OF_MIN_TO_AD1 ≤ sec) :
    ∃ year second day, toYearAndSecond sec = (year, second + day * 86400) ∧
    (daysBeforeYear year + day) * 86400 + second = sec ∧
      0 ≤ second ∧ second < 86400 ∧ 0 ≤ day ∧ day < yearLength year := by
  obtain ⟨seconds, first, hstart, hseconds, hfirst, hsum⟩ : ∃ seconds first,
      (if sec < 0 then (sec - SECS_OF_MIN_TO_AD1, MIN_YEAR) else (sec, START_AD_YEAR)) = (seconds, first) ∧
      0 ≤ seconds ∧
        400 ∣ first - 1 ∧ daysBeforeYear first * 86400 + seconds = sec := by
    by_cases hneg : sec < 0
    · refine ⟨_, _, if_pos hneg, by omega, by decide, ?_⟩
      rw [show daysBeforeYear MIN_YEAR * 86400 = SECS_OF_MIN_TO_AD1 from rfl]
      omega
    · refine ⟨_, _, if_neg hneg, by omega, by decide, ?_⟩
      rw [show daysBeforeYear START_AD_YEAR * 86400 = 0 from rfl]
      omega
  obtain ⟨hcycles, hlo, hhi⟩ := cycles_spec (n := seconds / 86400) hfirst rfl rfl rfl rfl rfl rfl rfl rfl
  refine ⟨_, seconds % 86400, _, ?_, ?_, by omega, by omega, hlo, hhi⟩
  · unfold toYearAndSecond
    rw [hstart]
    dsimp only
    rw [show SECS_PER_DAY = 86400 from rfl, show DAYS_PER_400YEARS = 146097 from rfl,
      show DAYS_PER_100YEARS = 36524 from rfl, show DAYS_PER_4YEARS = 1461 from rfl,
      show DAYS_OF_NORMAL_YEAR = 365 from rfl]
    simp (disch := omega) only [Int.tdiv_eq_ediv_of_nonneg, Int.tmod_eq_emod_of_nonneg, shiftRight_two]
  · rw [hcycles]
    omega

/-- The days before a month of a normal year, from the table. -/
def before (idx : Nat) : Int := DAYS_BEFORE.getD idx 0

variable {idx sec : Nat} {days year day second seconds : Int}

theorem element_before (hidx : idx < 13) : element DAYS_BEFORE idx = .ok (before idx) := by
  unfold element before
  rw [if_neg (by omega), Int.toNat_natCast, List.getD_eq_getElem?_getD, List.getElem?_eq_getElem hidx]
  rfl

theorem before_lt_succ : ∀ idx < 12, before idx < before (idx + 1) := by decide

/-- The loop finds the last month that does not start after the day. -/
theorem dateLoop_spec (hlo : 0 ≤ days) (hhi : days < 365) (rounds idx : Nat) (hrounds : idx + rounds = 13)
    (hbefore : ∀ last, idx = last + 1 → before last < days) :
    ∃ month, dateLoop days rounds idx = .ok (month + 1, days - before month + 1) ∧ month < 12 ∧ before month ≤ days ∧
      days < before (month + 1) := by
  have hlast : before 12 = 365 := rfl
  induction rounds generalizing idx with
  | zero =>
    -- the table ends with the whole year
    have hend := hbefore 12 hrounds
    omega
  | succ rounds ih =>
    have helement : element DAYS_BEFORE idx = .ok (before idx) := element_before (by omega)
    unfold dateLoop
    by_cases heq : days = before idx
    · have hidx : idx < 12 := by
        by_contra hnot
        rw [show idx = 12 by omega] at heq
        omega
      refine ⟨idx, bind_ok helement ?_, hidx, heq.ge, heq ▸ before_lt_succ idx hidx⟩
      rw [if_pos heq, heq, Int.sub_self]
      rfl
    · by_cases hlt : days < before idx
      · obtain ⟨last, rfl⟩ : ∃ last, idx = last + 1 := by
          refine Nat.exists_eq_succ_of_ne_zero fun hzero => ?_
          rw [hzero, show before 0 = 0 from rfl] at hlt
          omega
        refine ⟨last, bind_ok helement ?_, by omega, (hbefore last rfl).le, hlt⟩
        rw [if_neg heq, if_pos hlt, Nat.cast_add, Nat.cast_one, Int.add_sub_cancel]
        exact bind_ok (element_before (by omega)) rfl
      · obtain ⟨month, hloop, hmonth⟩ := ih (idx + 1) (by omega) fun last hidx => by
          rw [show last = idx by omega]
          omega
        refine ⟨month, bind_ok helement ?_, hmonth⟩
        rw [if_neg heq, if_neg hlt, hloop]

theorem Month.of_spec {mon : Int} (hlo : 1 ≤ mon) (hhi : mon ≤ 12) :
    ∃ month, Month.of mon = .ok month ∧ month.toInteger = mon := by
  interval_cases mon <;> exact ⟨_, rfl, rfl⟩

theorem dateInNormalYear_spec (hlo : 0 ≤ days) (hhi : days < 365) :
    ∃ (idx : Nat) (month : Month), dateInNormalYear days = .ok (month, days - before idx + 1) ∧
      month.toInteger = idx + 1 ∧ idx < 12 ∧
      before idx ≤ days ∧ days < before (idx + 1) := by
  obtain ⟨idx, hloop, hidx, hrange⟩ := dateLoop_spec hlo hhi 13 0 rfl (by omega)
  have hlow : 1 ≤ (idx : Int) + 1 := by omega
  obtain ⟨month, hof, hmonth⟩ := Month.of_spec hlow (by omega)
  refine ⟨idx, month, bind_ok hloop (bind_ok ?_ rfl), hmonth, hidx, hrange⟩
  rw [Nat.cast_add, Nat.cast_one]
  exact hof

/-- The table, and the day that a leap year has more. -/
theorem daysBeforeMonth_eq (year : Int) (hidx : idx < 13) :
    daysBeforeMonth year (idx + 1) = before idx + if Leap year ∧ 2 ≤ idx then 1 else 0 := by
  by_cases hleap : Leap year
  · interval_cases idx <;> simp [daysBeforeMonth, monthLength, hleap, before, DAYS_BEFORE]
  · interval_cases idx <;> simp [daysBeforeMonth, monthLength, hleap, before, DAYS_BEFORE]

/-- The day is at `d` in the month `idx + 1` of the year. -/
def DayAt (year day : Int) (idx : Nat) (d : Int) : Prop :=
  idx < 12 ∧ daysBeforeMonth year (idx + 1) + (d - 1) = day ∧ 1 ≤ d ∧ d ≤ monthLength year (idx + 1)

/-- A date from the table, for a year whose months are `shift` days later there. -/
theorem dateInNormalYear_dayAt {year day days shift : Int} (hlo : 0 ≤ days) (hhi : days < 365)
    (hday : days + shift = day) (hshift : ∀ idx < 12, before idx ≤ days → days < before (idx + 1) →
      daysBeforeMonth year (idx + 1) = before idx + shift ∧ before (idx + 1) + shift ≤ daysBeforeMonth year (idx + 2)) :
    ∃ (idx : Nat) (month : Month) (d : Int), dateInNormalYear days = .ok (month, d) ∧ month.toInteger = idx + 1 ∧
      DayAt year day idx d := by
  obtain ⟨idx, month, hdate, hmonth, hidx, hle, hlt⟩ := dateInNormalYear_spec hlo hhi
  obtain ⟨hstart, hend⟩ := hshift idx hidx hle hlt
  rw [daysBeforeMonth] at hend
  exact ⟨idx, month, _, hdate, hmonth, hidx, by omega, by omega, by omega⟩

/-- `getDate` finds the month of a day and the day in the month. -/
theorem getDate_spec (hsec : (sec : Int) = second + day * 86400) (hsecond : 0 ≤ second)
    (hsecond' : second < 86400) (hday : 0 ≤ day) (hday' : day < yearLength year) :
    ∃ (idx : Nat) (month : Month) (d : Int), getDate year sec = .ok (month, d) ∧ month.toInteger = idx + 1 ∧
      DayAt year day idx d := by
  have hdays : (sec : Int).tdiv SECS_PER_DAY = day := by
    rw [Int.tdiv_eq_ediv_of_nonneg (by omega), show SECS_PER_DAY = 86400 from rfl]
    omega
  have hmarch : ∀ idx < 13, 2 ≤ idx → 59 ≤ before idx := by decide
  have hjanuary : ∀ idx < 2, before (idx + 1) ≤ 59 := by decide
  unfold getDate
  rw [hdays]
  by_cases hleap : Leap year
  · have hlength : yearLength year = 366 := if_pos hleap
    have helement : element DAYS_BEFORE 2 = .ok 59 := rfl
    rw [if_pos ((isLeapYear_iff year).mpr hleap), helement, ok_bind]
    rcases lt_trichotomy day 59 with hlt | rfl | hgt
    · rw [if_neg (by omega), if_neg (by omega)]
      refine dateInNormalYear_dayAt hday (by omega) (Int.add_zero day) fun idx hidx hle hlt' => ?_
      have hearly := hmarch idx (by omega)
      rw [daysBeforeMonth_eq year (by omega), daysBeforeMonth_eq year (by omega), if_neg (by omega)]
      exact ⟨rfl, by omega⟩
    · rw [if_pos rfl]
      refine ⟨1, .February, 29, rfl, rfl, by decide, ?_, by decide, ?_⟩
      · rw [daysBeforeMonth_eq year (by decide), if_neg (by omega)]
        rfl
      · change 29 ≤ monthLength year 2
        rw [monthLength, if_pos hleap]
    · rw [if_neg (by omega), if_pos hgt]
      refine dateInNormalYear_dayAt (by omega) (by omega) (Int.sub_add_cancel day 1) fun idx hidx hle hlt' => ?_
      have hlate : 2 ≤ idx := by
        by_contra hnot
        have hsmall := hjanuary idx (by omega)
        omega
      rw [daysBeforeMonth_eq year (by omega), daysBeforeMonth_eq year (by omega), if_pos ⟨hleap, hlate⟩,
        if_pos ⟨hleap, by omega⟩]
      exact ⟨rfl, le_rfl⟩
  · have hlength : yearLength year = 365 := if_neg hleap
    rw [if_neg (mt (isLeapYear_iff year).mp hleap)]
    refine dateInNormalYear_dayAt hday (by omega) (Int.add_zero day) fun idx hidx _ _ => ?_
    rw [daysBeforeMonth_eq year (by omega), daysBeforeMonth_eq year (by omega), if_neg (by tauto), if_neg (by tauto)]
    exact ⟨rfl, le_rfl⟩

theorem daysBeforeYear_min : daysBeforeYear MIN_YEAR * 86400 = SECS_OF_MIN_TO_AD1 := rfl

theorem daysBeforeYear_max : daysBeforeYear (MAX_YEAR + 1) * 86400 = SECS_OF_MAX_TO_AD1 := rfl

/-- Seconds in range have a year in range. -/
theorem year_range (hmin : SECS_OF_MIN_TO_AD1 ≤ (daysBeforeYear year + day) * 86400 + second)
    (hmax : (daysBeforeYear year + day) * 86400 + second < SECS_OF_MAX_TO_AD1) (hsecond : 0 ≤ second)
    (hsecond' : second < 86400) (hday : 0 ≤ day) (hday' : day < yearLength year) :
    MIN_YEAR ≤ year ∧ year ≤ MAX_YEAR := by
  rw [← daysBeforeYear_min] at hmin
  rw [← daysBeforeYear_max] at hmax
  constructor
  · by_contra hnot
    have hend := consecutive_years.end_le_start (not_le.mp hnot)
    omega
  · by_contra hnot
    have hstart := consecutive_years.start_mono (Int.add_one_le_iff.mpr (not_le.mp hnot))
    omega

/-- The fields that are read from seconds in range are valid and at these seconds. -/
theorem toFields_spec (hmin : SECS_OF_MIN_TO_AD1 ≤ seconds) (hmax : seconds < SECS_OF_MAX_TO_AD1) :
    ∃ f, toFields seconds = .ok f ∧ f.Valid ∧ f.position = seconds := by
  obtain ⟨year, second, day, hyear, rfl, hsecond, hsecond', hday, hday'⟩ := toYearAndSecond_spec seconds hmin
  obtain ⟨hyear_min, hyear_max⟩ := year_range hmin hmax hsecond hsecond' hday hday'
  have hlength := yearLength_le year
  obtain ⟨sec, hsec⟩ := Int.eq_ofNat_of_zero_le (show 0 ≤ second + day * 86400 by omega)
  obtain ⟨idx, month, d, hdate, hmonth, hidx, hd, hd_min, hd_max⟩ := getDate_spec hsec.symm hsecond hsecond' hday hday'
  have htoNat : (month.toInteger).toNat = idx + 1 := by omega
  refine ⟨⟨year, month.toInteger, d, second / 3600, second % 3600 / 60, second % 60⟩, ?_, ?_, ?_⟩
  · have hpos : 0 ≤ second + day * 86400 := by omega
    have hlt : second + day * 86400 < 0x100000000 := by omega
    have hhour : ((second + day * 86400).tmod SECS_PER_DAY).tdiv SECS_PER_HOUR = second / 3600 := by
      rw [Int.tmod_eq_emod_of_nonneg hpos, show SECS_PER_DAY = 86400 from rfl, Int.tdiv_eq_ediv_of_nonneg (by omega),
        show SECS_PER_HOUR = 3600 from rfl]
      omega
    have hminute : ((second + day * 86400).tmod SECS_PER_HOUR).tdiv SECS_PER_MINUTE = second % 3600 / 60 := by
      rw [Int.tmod_eq_emod_of_nonneg hpos, show SECS_PER_HOUR = 3600 from rfl, Int.tdiv_eq_ediv_of_nonneg (by omega),
        show SECS_PER_MINUTE = 60 from rfl]
      omega
    have hsecs : (second + day * 86400).tmod SECS_PER_MINUTE = second % 60 := by
      rw [Int.tmod_eq_emod_of_nonneg hpos, show SECS_PER_MINUTE = 60 from rfl]
      omega
    unfold toFields
    rw [hyear]
    dsimp only
    rw [hhour, hminute, hsecs]
    exact bind_ok (toU32_ok hsec (by omega)) (bind_ok hdate rfl)
  · refine ⟨hyear_min, hyear_max, by dsimp only; omega, by dsimp only; omega, hd_min, ?_, ?_, ?_, ?_, ?_, ?_, ?_⟩
    · dsimp only
      rwa [htoNat]
    all_goals
      dsimp only
      omega
  · unfold Fields.position Fields.day Fields.dayInYear Fields.secondInDay
    dsimp only
    rw [htoNat]
    omega

/-! ## The check of the fields -/

theorem daysIn_spec {month : Int} (year : Int) (hlo : 1 ≤ month) (hhi : month ≤ 12) :
    daysIn month year = .ok (monthLength year month.toNat) := by
  unfold daysIn
  rw [if_neg (by omega)]
  by_cases hleap : Leap year
  · interval_cases month <;> simp [monthLength, hleap, (isLeapYear_iff year).mpr hleap] <;> rfl
  · have hnormal : isLeapYear year = false := Bool.eq_false_iff.mpr (mt (isLeapYear_iff year).mp hleap)
    interval_cases month <;> simp [monthLength, hleap, hnormal] <;> rfl

/-- The fields that the source accepts are the valid ones. -/
theorem checkDateTime_iff (f : Fields) : checkDateTime f = .ok () ↔ f.Valid := by
  constructor
  · intro hcheck
    unfold checkDateTime at hcheck
    split at hcheck
    · cases hcheck
    · rename_i hyear
      by_cases hmonth : f.month < 1 ∨ f.month > 12
      · unfold daysIn at hcheck
        rw [if_pos hmonth] at hcheck
        cases hcheck
      · rw [daysIn_spec f.year (by omega) (by omega), ok_bind] at hcheck
        split at hcheck
        · cases hcheck
        split at hcheck
        · cases hcheck
        split at hcheck
        · cases hcheck
        split at hcheck
        · cases hcheck
        · constructor <;> omega
  · rintro ⟨hyear, hyear', hmonth, hmonth', hday, hday', hhour, hhour', hminute, hminute', hsecond, hsecond'⟩
    unfold checkDateTime
    rw [if_neg (by omega), daysIn_spec f.year hmonth hmonth', ok_bind, if_neg (by omega), if_neg (by omega),
      if_neg (by omega), if_neg (by omega)]
    rfl

/-! ## To seconds -/

theorem daysAD1ToYear_spec (hlo : 1 ≤ year) (hhi : year ≤ 1000000000) :
    daysAD1ToYear year = .ok (daysBeforeYear year) := by
  have hMIN := INT64_MIN_eq
  have hMAX := INT64_MAX_eq
  have hdiv (n : Int) : (year - 1).tdiv n = (year - 1) / n := Int.tdiv_eq_ediv_of_nonneg (by omega)
  refine bind_ok (i64_ok (by omega) (by omega)) (bind_ok (i64_ok (by omega) (by omega)) ?_)
  rw [hdiv, hdiv, hdiv]
  refine bind_ok (i64_ok (by omega) (by omega)) (bind_ok (i64_ok (by omega) (by omega)) ?_)
  exact i64_ok (by omega) (by omega)

variable (hlo : MIN_YEAR ≤ year) (hhi : year ≤ MAX_YEAR)
include hlo hhi

/-- The days of the years before year 1 mirror those after year 0, which is a leap year. -/
theorem daysSinceAD1_spec : daysSinceAD1 year = .ok (daysBeforeYear year) := by
  rw [show MIN_YEAR = -999999999 from rfl] at hlo
  rw [show MAX_YEAR = 999999999 from rfl] at hhi
  have hMIN := INT64_MIN_eq
  have hMAX := INT64_MAX_eq
  unfold daysSinceAD1
  split_ifs with hzero hpos
  · rw [hzero]
    rfl
  · exact daysAD1ToYear_spec (by omega) (by omega)
  · rw [show DAYS_OF_LEAP_YEAR = 366 from rfl]
    have hmirror : daysBeforeYear year = -(daysBeforeYear (-year + 1) + 366) := by
      unfold daysBeforeYear
      omega
    have hrange : 0 ≤ daysBeforeYear (-year + 1) ∧ daysBeforeYear (-year + 1) ≤ 400000000000 := by
      unfold daysBeforeYear
      omega
    rw [hmirror]
    refine bind_ok (i64_ok (by omega) (by omega)) (bind_ok (i64_ok (by omega) (by omega)) ?_)
    refine bind_ok (daysAD1ToYear_spec (by omega) (by omega)) (bind_ok (i64_ok (by omega) (by omega)) ?_)
    exact i64_ok (by omega) (by omega)

theorem daysBeforeYear_range : -400000000000 ≤ daysBeforeYear year ∧ daysBeforeYear year ≤ 400000000000 := by
  rw [show MIN_YEAR = -999999999 from rfl] at hlo
  rw [show MAX_YEAR = 999999999 from rfl] at hhi
  unfold daysBeforeYear
  omega

theorem toEpochSeconds_spec (hsec : sec < 366 * 86400) :
    toEpochSeconds year sec = .ok (daysBeforeYear year * 86400 + sec - SECS_OF_UNIX_TO_AD1) := by
  have hMIN := INT64_MIN_eq
  have hMAX := INT64_MAX_eq
  have hrange := daysBeforeYear_range hlo hhi
  have hseconds : (do i64 ((← i64 ((← daysSinceUnix year) * SECS_PER_DAY)) + sec) : Except Exn Int) =
      .ok (daysBeforeYear year * 86400 + sec - SECS_OF_UNIX_TO_AD1) := by
    rw [show SECS_OF_UNIX_TO_AD1 = 719162 * 86400 from rfl, show SECS_PER_DAY = 86400 from rfl]
    have hunix : daysSinceUnix year = .ok (daysBeforeYear year - 719162) :=
      bind_ok (daysSinceAD1_spec hlo hhi) (i64_ok (by rw [show DAYS_OF_UNIX_TO_AD1 = 719162 from rfl]; omega)
        (by rw [show DAYS_OF_UNIX_TO_AD1 = 719162 from rfl]; omega))
    refine bind_ok hunix (bind_ok (i64_ok (by omega) (by omega)) ?_)
    rw [show daysBeforeYear year * 86400 + sec - 719162 * 86400 = (daysBeforeYear year - 719162) * 86400 + sec by ring]
    exact i64_ok (by omega) (by omega)
  unfold toEpochSeconds
  rw [hseconds]

omit hlo hhi

namespace Fields

variable {f : Fields}

theorem Valid.toSecondInYear (hf : f.Valid) :
    toSecondInYear f.year f.month f.dayOfMonth f.hour f.minute f.second =
      .ok (f.dayInYear * 86400 + f.secondInDay) := by
  have hMIN := INT64_MIN_eq
  have hMAX := INT64_MAX_eq
  obtain ⟨hday_min, hday_max⟩ := hf.dayInYear
  have hlength : yearLength f.year ≤ 366 := yearLength_le f.year
  obtain ⟨-, -, hmonth, hmonth', hd, -, hh, hh', hm, hm', hs, hs'⟩ := hf
  obtain ⟨idx, hidx⟩ := Int.eq_ofNat_of_zero_le (show 0 ≤ f.month - 1 by omega)
  have hstart := daysBeforeMonth_eq f.year (show idx < 13 by omega)
  have hbefore : ∀ idx < 13, 0 ≤ before idx := by decide
  have hpos := hbefore idx (by omega)
  have hday : f.dayInYear = before idx + f.dayOfMonth - 1 + if f.month > 2 ∧ isLeapYear f.year then 1 else 0 := by
    unfold Fields.dayInYear
    rw [show f.month.toNat = idx + 1 by omega, hstart]
    by_cases hlate : f.month > 2 ∧ isLeapYear f.year = true
    · rw [if_pos hlate, if_pos ⟨(isLeapYear_iff _).mp hlate.2, by omega⟩]
      omega
    · rw [if_neg hlate, if_neg fun hlong => hlate ⟨by omega, (isLeapYear_iff _).mpr hlong.1⟩]
      omega
  have hdays : (if f.month > 2 ∧ isLeapYear f.year then i64 (before idx + f.dayOfMonth - 1 + 1)
      else pure (before idx + f.dayOfMonth - 1) : Except Exn Int) = .ok f.dayInYear := by
    rw [hday]
    split at hday
    · rename_i hlate
      rw [if_pos hlate, if_pos hlate]
      exact i64_ok (by omega) (by omega)
    · rename_i hlate
      rw [if_neg hlate, if_neg hlate, Int.add_zero]
      rfl
  have hle : before idx + f.dayOfMonth - 1 ≤ f.dayInYear := by
    split at hday
    · omega
    · omega
  have hsum : f.dayInYear * 86400 + f.secondInDay = f.dayInYear * 86400 + f.hour * 3600 + f.minute * 60 + f.second := by
    unfold Fields.secondInDay
    ring
  rw [hsum]
  unfold StdTime.toSecondInYear
  rw [show SECS_PER_DAY = 86400 from rfl, show SECS_PER_HOUR = 3600 from rfl, show SECS_PER_MINUTE = 60 from rfl]
  refine bind_ok (i64_ok (by omega) (by omega)) ?_
  rw [hidx]
  refine bind_ok (element_before (by omega))
    (bind_ok (i64_ok (by omega) (by omega)) (bind_ok (i64_ok (by omega) (by omega)) ?_))
  refine bind_ok hdays (bind_ok (i64_ok (by omega) (by omega)) (bind_ok (i64_ok (by omega) (by omega)) ?_))
  refine bind_ok (i64_ok (by omega) (by omega))
    (bind_ok (i64_ok (by omega) (by omega)) (bind_ok (i64_ok (by omega) (by omega)) ?_))
  exact i64_ok (by omega) (by omega)

/-- The seconds since 1970 of valid fields, as `toSecondsFromAD1` computes them on the way. -/
theorem Valid.toEpochSeconds (hf : f.Valid) :
    ∃ sec, toU32 (f.dayInYear * 86400 + f.secondInDay) = .ok sec ∧
      StdTime.toEpochSeconds f.year sec = .ok (f.position - SECS_OF_UNIX_TO_AD1) := by
  have hday := hf.dayInYear
  have hsecond := hf.secondInDay
  have hlength : yearLength f.year ≤ 366 := yearLength_le f.year
  obtain ⟨sec, hsec⟩ := Int.eq_ofNat_of_zero_le (show 0 ≤ f.dayInYear * 86400 + f.secondInDay by omega)
  refine ⟨sec, toU32_ok hsec (by omega), ?_⟩
  rw [toEpochSeconds_spec hf.year_min hf.year_max (show sec < 366 * 86400 by omega), ← hsec]
  unfold position day
  congr 1
  ring

/-- The positions of valid fields are the seconds in range. -/
theorem Valid.position_range (hf : f.Valid) : SECS_OF_MIN_TO_AD1 ≤ f.position ∧ f.position < SECS_OF_MAX_TO_AD1 := by
  have hday := hf.dayInYear
  have hsecond := hf.secondInDay
  have hstart := consecutive_years.start_mono hf.year_min
  have hend := consecutive_years.end_le_start (Int.lt_add_one_iff.mpr hf.year_max)
  rw [← daysBeforeYear_min, ← daysBeforeYear_max]
  unfold position day
  omega

/-- `toSecondsFromAD1` gives the position of valid fields. -/
theorem Valid.toSeconds (hf : f.Valid) : f.toSeconds = .ok f.position := by
  have hrange := hf.position_range
  have hMIN := INT64_MIN_eq
  have hMAX := INT64_MAX_eq
  obtain ⟨sec, hsec, hepoch⟩ := hf.toEpochSeconds
  refine bind_ok hf.toSecondInYear (bind_ok hsec (bind_ok hepoch ?_))
  rw [Int.sub_add_cancel]
  exact i64_ok (by rw [hMIN]; exact le_trans (by decide) hrange.1)
    (by rw [hMAX]; exact le_trans hrange.2.le (by decide))

end Fields

theorem dayOfWeek_spec (hmin : SECS_OF_MIN_TO_AD1 ≤ seconds) (hmax : seconds < SECS_OF_MAX_TO_AD1) :
    dayOfWeek seconds = .ok ((seconds / 86400 + 1) % 7) := by
  have hMIN := INT64_MIN_eq
  have hMAX := INT64_MAX_eq
  obtain ⟨year, second, day, hyear, rfl, hsecond, hsecond', hday, hday'⟩ := toYearAndSecond_spec seconds hmin
  obtain ⟨hyear_min, hyear_max⟩ := year_range hmin hmax hsecond hsecond' hday hday'
  have hlength := yearLength_le year
  have hrange := daysBeforeYear_range hyear_min hyear_max
  obtain ⟨sec, hsec⟩ := Int.eq_ofNat_of_zero_le (show 0 ≤ second + day * 86400 by omega)
  unfold dayOfWeek
  rw [hyear]
  have hdays : (sec : Int).tdiv SECS_PER_DAY = day := by
    rw [Int.tdiv_eq_ediv_of_nonneg (by omega), show SECS_PER_DAY = 86400 from rfl]
    omega
  have hseconds : ((daysBeforeYear year + day) * 86400 + second) / 86400 = daysBeforeYear year + day := by omega
  rw [hseconds]
  refine bind_ok (toU32_ok hsec (by omega)) (bind_ok (daysSinceAD1_spec hyear_min hyear_max) ?_)
  rw [hdays]
  refine bind_ok (i64_ok (by omega) (by omega)) (bind_ok (i64_ok (by omega) (by omega)) ?_)
  generalize daysBeforeYear year + day + 1 = n
  have htmod : n.tmod 7 = n % 7 ∨ n.tmod 7 + 7 = n % 7 ∧ n % 7 ≠ 0 := by
    rw [Int.tmod_eq_emod]
    split
    · omega
    · omega
  dsimp only
  split_ifs with hpos
  · rw [show n.tmod 7 = n % 7 by omega]
    rfl
  · rw [show n.tmod 7 + 7 = n % 7 by omega]
    exact i64_ok (by omega) (by omega)

/-- Seconds and valid fields determine each other, in the order of the fields, and the day of the week goes on from day
    to day. -/
theorem calendar_bijection :
    (∀ s, SECS_OF_MIN_TO_AD1 ≤ s → s < SECS_OF_MAX_TO_AD1 → ∃ f, toFields s = .ok f ∧ f.Valid ∧ f.toSeconds = .ok s) ∧
      (∀ f : Fields, f.Valid → ∃ s, f.toSeconds = .ok s ∧ SECS_OF_MIN_TO_AD1 ≤ s ∧ s < SECS_OF_MAX_TO_AD1 ∧
        toFields s = .ok f) ∧
      (∀ (f g : Fields) (s t : Int), f.Valid → g.Valid → f.toSeconds = .ok s → g.toSeconds = .ok t →
        (f.toList < g.toList ↔ s < t)) ∧
      (∀ s t, SECS_OF_MIN_TO_AD1 ≤ s → t < SECS_OF_MAX_TO_AD1 → t / 86400 = s / 86400 + 1 →
        ∃ d, 0 ≤ d ∧ d < 7 ∧ dayOfWeek s = .ok d ∧ dayOfWeek t = .ok ((d + 1) % 7)) := by
  refine ⟨fun s hmin hmax => ?_, fun f hf => ?_, fun f g s t hf hg hs ht => ?_, fun s t hmin hmax hnext => ?_⟩
  · obtain ⟨f, hfields, hf, rfl⟩ := toFields_spec hmin hmax
    exact ⟨f, hfields, hf, hf.toSeconds⟩
  · obtain ⟨g, hfields, hg, hposition⟩ := toFields_spec hf.position_range.1 hf.position_range.2
    rw [hg.eq_of_position hf hposition] at hfields
    exact ⟨f.position, hf.toSeconds, hf.position_range.1, hf.position_range.2, hfields⟩
  · rw [hf.toSeconds, Except.ok.injEq] at hs
    rw [hg.toSeconds, Except.ok.injEq] at ht
    rw [← hs, ← ht]
    exact (hf.lt_iff hg).symm
  · refine ⟨(s / 86400 + 1) % 7, by omega, by omega, dayOfWeek_spec hmin (by omega), ?_⟩
    rw [dayOfWeek_spec (by omega) hmax, hnext]
    congr 1
    omega

/-- The first second of year 0, a second before year 1, and two days at the start of year 1. -/
theorem calendar_bijection_sample :
    (∃ s, (⟨0, 1, 1, 0, 0, 0⟩ : Fields).toSeconds = .ok s ∧ toFields s = .ok ⟨0, 1, 1, 0, 0, 0⟩) ∧
      (∃ f, toFields (-1500000000) = .ok f ∧ f.toSeconds = .ok (-1500000000)) ∧
      (∃ d, dayOfWeek (-86400) = .ok d ∧ dayOfWeek 0 = .ok ((d + 1) % 7)) := by
  obtain ⟨hread, hwrite, -, hweek⟩ := calendar_bijection
  have hvalid : (⟨0, 1, 1, 0, 0, 0⟩ : Fields).Valid := by constructor <;> decide
  obtain ⟨s, hs, -, -, hfields⟩ := hwrite _ hvalid
  obtain ⟨f, hf, -, hseconds⟩ := hread (-1500000000) (by decide) (by decide)
  obtain ⟨d, -, -, hd, hnext⟩ := hweek (-86400) 0 (by decide) (by decide) (by decide)
  exact ⟨⟨s, hs, hfields⟩, ⟨f, hf, hseconds⟩, ⟨d, hd, hnext⟩⟩

/-- The second before the leap day of year -4, and the first one of year 0. -/
example : toFields (-(1461 + 307) * 86400 - 1) = .ok ⟨-4, 2, 28, 23, 59, 59⟩ ∧
    toFields (-366 * 86400) = .ok ⟨0, 1, 1, 0, 0, 0⟩ := by decide

end CangjieRuntime.StdTime
