import AgentFs.Lib.Calendar
import AgentFs.Ops.Content

/-!
# Timestamps of the FUSE helper

`sidecar.rs` formats Unix times as RFC 3339 texts and `ipc.rs` reads such texts, each with a
calculation of its own between days and dates.  Both calculations are those of the calendar.
-/

namespace AgentFs

/-! ### Writing -/

/-- The fields of a time of day on a date. -/
structure CivilTime where
  year : Int
  month : Nat
  day : Nat
  hour : Nat
  minute : Nat
  second : Nat
  deriving DecidableEq, Repr

/-- The year of an era of 400 years, from the day of the era. -/
def yearOfEra (doe : Nat) : Nat :=
  (doe - doe / 1460 + doe / 36524 - doe / 146096) / 365

/-- The day of a year that starts in March, from the day of the era. -/
def dayOfYear (doe : Nat) : Nat :=
  doe - (365 * yearOfEra doe + yearOfEra doe / 4 - yearOfEra doe / 100)

/-- `civil_from_unix`. -/
def civilFromUnix (secs : Int) : CivilTime :=
  let days := secs / 86400
  let rem := (secs % 86400).toNat
  let z := days + 719468
  let era := (if z ≥ 0 then z else z - 146096).tdiv 146097
  let doe := (z - era * 146097).toNat
  let y := yearOfEra doe + era * 400
  let doy := dayOfYear doe
  let mp := (5 * doy + 2) / 153
  let d := doy - (153 * mp + 2) / 5 + 1
  let m := if mp < 10 then mp + 3 else mp - 9
  { year := if m ≤ 2 then y + 1 else y
    month := m
    day := d
    hour := rem / 3600
    minute := rem % 3600 / 60
    second := rem % 60 }

/-- Zeros before a text up to a width. -/
def zeroPad (width : Nat) (text : Text) : Text :=
  List.replicate (width - text.length) '0' ++ text

/-- A signed number with zeros up to a width, as `{:04}` formats it. -/
def padInt (width : Nat) (n : Int) : Text :=
  if n < 0 then '-' :: zeroPad (width - 1) (decimal n.natAbs) else zeroPad width (decimal n.natAbs)

/-- `humantime_seconds_to_rfc3339`. -/
def humantimeSecondsToRfc3339 (secs : Int) : Text :=
  let t := civilFromUnix secs
  padInt 4 t.year ++ '-' :: zeroPad 2 (decimal t.month) ++ '-' :: zeroPad 2 (decimal t.day) ++
    'T' :: zeroPad 2 (decimal t.hour) ++ ':' :: zeroPad 2 (decimal t.minute) ++
    ':' :: zeroPad 2 (decimal t.second) ++ ['Z']

/-! ### Reading -/

/-- The digits of a number. -/
def parseDigits (text : Text) : Option Nat :=
  if text ≠ [] ∧ text.all Char.isDigit = true then some (Nat.ofDigitChars 10 text 0) else none

/-- `parse::<i64>`. -/
def parseI64 (text : Text) : Option Int :=
  let value := match text with
    | '-' :: digits => (parseDigits digits).map (fun n => -(n : Int))
    | '+' :: digits => (parseDigits digits).map Int.ofNat
    | digits => (parseDigits digits).map Int.ofNat
  value.filter (fun n => -9223372036854775808 ≤ n ∧ n ≤ 9223372036854775807)

/-- `split_once`. -/
def splitOnce (c : Char) (text : Text) : Option (Text × Text) :=
  match text.dropWhile (· ≠ c) with
  | [] => none
  | _ :: after => some (text.takeWhile (· ≠ c), after)

/-- The Unix time of a date and a time of day, as `parse_iso8601` counts. -/
def unixOfCivil (year month day hour minute second : Int) : Int :=
  let y := year - (if month ≤ 2 then 1 else 0)
  let era := (if y ≥ 0 then y else y - 399).tdiv 400
  let yoe := y - era * 400
  let doy := (153 * (if month > 2 then month - 3 else month + 9) + 2).tdiv 5 + day - 1
  let doe := yoe * 365 + yoe.tdiv 4 - yoe.tdiv 100 + doy
  let daysSinceEpoch := era * 146097 + doe - 719468
  daysSinceEpoch * 86400 + hour * 3600 + minute * 60 + second

/-- `parse_iso8601`. -/
def parseIso8601 (s : Option Text) : Option Int := do
  let s ← s
  let trimmed := (s.reverse.dropWhile (· = 'Z')).reverse
  let (date, time) ← splitOnce 'T' trimmed
  let dateParts := date.splitOn '-'
  let year ← dateParts[0]? >>= parseI64
  let month ← dateParts[1]? >>= parseI64
  let day ← dateParts[2]? >>= parseI64
  let time := ((time.splitOn '.')[0]?).getD time
  let timeParts := time.splitOn ':'
  let hour ← timeParts[0]? >>= parseI64
  let minute ← timeParts[1]? >>= parseI64
  let second ← timeParts[2]? >>= parseI64
  some (unixOfCivil year month day hour minute second)

/-! ### Days of the calendar -/

/-- The seconds from the epoch to the start of a year. -/
def unixOfYear (year : Nat) : Int :=
  ((Calendar.daysBeforeYear year : Int) - Calendar.daysBeforeYear 1970) * 86400

/-- A time of day on a date of the calendar. -/
structure CivilTime.Valid (t : CivilTime) : Prop where
  year : 0 ≤ t.year
  month : 1 ≤ t.month ∧ t.month ≤ 12
  day : 1 ≤ t.day ∧ t.day ≤ Calendar.monthLength t.year.toNat (t.month - 1)
  hour : t.hour < 24
  minute : t.minute < 60
  second : t.second < 60

/-- The seconds from the epoch to a time, counted year by year and month by month. -/
def CivilTime.seconds (t : CivilTime) : Int :=
  unixOfYear t.year.toNat +
    ((Calendar.daysBeforeMonth t.year.toNat (t.month - 1) : Int) + t.day - 1) * 86400 +
    t.hour * 3600 + t.minute * 60 + t.second

/-- The last digits of a number. -/
def lastDigits : Nat → Nat → Text
  | 0, _ => []
  | k + 1, n => lastDigits k (n / 10) ++ [(n % 10).digitChar]

/-- `YYYY-MM-DDThh:mm:ssZ`. -/
def CivilTime.rfc3339 (t : CivilTime) : Text :=
  lastDigits 4 t.year.toNat ++ '-' :: lastDigits 2 t.month ++ '-' :: lastDigits 2 t.day ++
    'T' :: lastDigits 2 t.hour ++ ':' :: lastDigits 2 t.minute ++ ':' :: lastDigits 2 t.second ++
    ['Z']

/-- A day of an era is in a century, four years of it, a year of them, and is a day of the year;
the last century and the last of four years are a day longer. -/
theorem exists_dayOfEra {doe : Nat} (h : doe < 146097) :
  ∃ c q r k, doe = 36524 * c + 1461 * q + 365 * r + k ∧ c ≤ 3 ∧ q ≤ 24 ∧ r ≤ 3 ∧ k ≤ 365 ∧
    (k = 365 → r = 3 ∧ (q = 24 → c = 3))
  := by
  obtain ⟨c, hc⟩ : ∃ c, c = min 3 (doe / 36524) := ⟨_, rfl⟩
  obtain ⟨q, hq⟩ : ∃ q, q = (doe - 36524 * c) / 1461 := ⟨_, rfl⟩
  obtain ⟨r, hr⟩ : ∃ r, r = min 3 ((doe - 36524 * c - 1461 * q) / 365) := ⟨_, rfl⟩
  refine ⟨c, q, r, doe - 36524 * c - 1461 * q - 365 * r, ?_⟩
  omega

theorem yearOfEra_eq {c q r k : Nat} (hc : c ≤ 3) (hq : q ≤ 24) (hr : r ≤ 3) (hk : k ≤ 365)
    (hleap : k = 365 → r = 3 ∧ (q = 24 → c = 3)) :
  yearOfEra (36524 * c + 1461 * q + 365 * r + k) = 100 * c + 4 * q + r
  := by
  obtain ⟨doe, hdoe⟩ : ∃ doe, doe = 36524 * c + 1461 * q + 365 * r + k := ⟨_, rfl⟩
  rw [← hdoe, yearOfEra]
  -- the leap days before the day, of four years, of centuries and of the era
  obtain ⟨ε, hε, hεk, hfours⟩ : ∃ ε, ε ≤ k ∧ (k = 365 → ε = 1) ∧ doe / 1460 = 25 * c + q + ε := by
    by_cases hlast : 24 * c + q + 365 * r + k < 1460
    · refine ⟨0, Nat.zero_le k, by omega, ?_⟩
      rw [Nat.div_eq_of_lt_le] <;> omega
    · refine ⟨1, by omega, fun _ => rfl, ?_⟩
      rw [Nat.div_eq_of_lt_le] <;> omega
  obtain ⟨δ, hcenturies, hera⟩ : ∃ δ, doe / 36524 = c + δ ∧ doe / 146096 = δ := by
    have hlt : doe ≠ 146096 → doe < 36524 * c + 36524 := by omega
    clear hfours
    by_cases hlast : doe = 146096
    · obtain rfl : c = 3 := by omega
      exact ⟨1, by rw [hlast], by rw [hlast]⟩
    · have hlt := hlt hlast
      have hge : 36524 * c ≤ doe := by omega
      clear hdoe
      refine ⟨0, ?_, ?_⟩
      · rw [Nat.div_eq_of_lt_le] <;> omega
      · rw [Nat.div_eq_of_lt]
        omega
  rw [hfours, hcenturies, hera]
  clear hfours hcenturies hera hleap
  omega

/-- The year and the day of the year of a day of an era. -/
theorem dayOfEra_spec {doe : Nat} (h : doe < 146097) :
  yearOfEra doe < 400 ∧ dayOfYear doe ≤ 365 ∧
    doe + yearOfEra doe / 100 = 365 * yearOfEra doe + yearOfEra doe / 4 + dayOfYear doe ∧
    (dayOfYear doe = 365 → Calendar.IsLeapYear (yearOfEra doe + 1))
  := by
  obtain ⟨c, q, r, k, rfl, hc, hq, hr, hk, hleap⟩ := exists_dayOfEra h
  have hfours : (100 * c + 4 * q + r) / 4 = 25 * c + q := by omega
  have hcentury : (100 * c + 4 * q + r) / 100 = c := by omega
  have hday : dayOfYear (36524 * c + 1461 * q + 365 * r + k) = k := by
    rw [dayOfYear, yearOfEra_eq hc hq hr hk hleap, hfours, hcentury]
    omega
  rw [hday, yearOfEra_eq hc hq hr hk hleap, hfours, hcentury]
  refine ⟨by omega, hk, by omega, fun hk => ?_⟩
  obtain ⟨rfl, hlast⟩ := hleap hk
  unfold Calendar.IsLeapYear
  omega

/-! ### Dates -/

/-- The date of a day of an era, counted from the 1st of March of its first year. -/
def eraDate (era : Int) (doe : Nat) : Int × Nat × Nat :=
  let y := yearOfEra doe + era * 400
  let mp := (5 * dayOfYear doe + 2) / 153
  let m := if mp < 10 then mp + 3 else mp - 9
  (if m ≤ 2 then y + 1 else y, m, dayOfYear doe - (153 * mp + 2) / 5 + 1)

/-- The month and the day of the month of a day of a year that starts in March. -/
theorem month_spec {doy : Nat} (h : doy ≤ 365) :
  ∃ mp d, (5 * doy + 2) / 153 = mp ∧ mp ≤ 11 ∧ doy - (153 * mp + 2) / 5 + 1 = d ∧
    doy + 1 = [0, 31, 61, 92, 122, 153, 184, 214, 245, 275, 306, 337].getD mp 0 + d ∧ 1 ≤ d ∧
    d ≤ [31, 30, 31, 30, 31, 31, 30, 31, 30, 31, 31, 28 + doy / 365].getD mp 0
  := by
  obtain ⟨mp, hmp⟩ : ∃ mp, (5 * doy + 2) / 153 = mp := ⟨_, rfl⟩
  have hle : mp ≤ 11 := by omega
  refine ⟨mp, _, hmp, hle, rfl, ?_⟩
  interval_cases mp <;> simp <;> omega

/-- The days before the 1st of March of a year, from that of the year `0`. -/
def marchDays (year : Int) : Int :=
  365 * year + year / 4 - year / 100 + year / 400

theorem marchDays_era (era : Int) {yoe : Nat} (h : yoe < 400) :
  marchDays (yoe + era * 400) = era * 146097 + 365 * yoe + (yoe : Int) / 4 - (yoe : Int) / 100
  := by
  unfold marchDays
  omega

/-- January and February belong to the year that starts in the March before. -/
theorem daysBeforeYear_eq_march (n : Nat) :
  (Calendar.daysBeforeYear n : Int) = marchDays (n - 1) + 306 + 60
  := by
  have hdays := Calendar.daysBeforeYear_eq n
  unfold marchDays
  omega

theorem daysBeforeYear_leap (n : Nat) :
  (Calendar.daysBeforeYear n : Int) + (if Calendar.IsLeapYear n then 1 else 0 : Nat) =
    marchDays n + 1
  := by
  have hdays := Calendar.daysBeforeYear_eq n
  unfold marchDays
  split
  · rename_i hleap
    unfold Calendar.IsLeapYear at hleap
    omega
  · rename_i hleap
    unfold Calendar.IsLeapYear at hleap
    omega

/-- The months from March on. -/
theorem month_march (n : Nat) {mp : Nat} (hmp : mp < 10) :
  Calendar.monthLength n (mp + 2) = [31, 30, 31, 30, 31, 31, 30, 31, 30, 31].getD mp 0 ∧
    Calendar.daysBeforeMonth n (mp + 2) =
      [0, 31, 61, 92, 122, 153, 184, 214, 245, 275].getD mp 0 + 59 +
        if Calendar.IsLeapYear n then 1 else 0
  := by
  rw [Calendar.daysBeforeMonth_eq n (by omega)]
  have hlate : 2 ≤ mp + 2 := Nat.le_add_left 2 mp
  simp only [hlate, and_true]
  interval_cases mp <;> exact ⟨rfl, rfl⟩

/-- The date of a day of an era is the one of the calendar. -/
theorem eraDate_spec {era : Int} {doe : Nat} (h : doe < 146097) {n m d : Nat}
    (hdate : eraDate era doe = ((n : Int), m, d)) :
  (1 ≤ m ∧ m ≤ 12) ∧ (1 ≤ d ∧ d ≤ Calendar.monthLength n (m - 1)) ∧
    (Calendar.daysBeforeYear n : Int) + Calendar.daysBeforeMonth n (m - 1) + d - 1 =
      era * 146097 + doe + 60
  := by
  obtain ⟨hyoe, hdoy, hdoe, hlong⟩ := dayOfEra_spec h
  obtain ⟨mp, d', hmp, hle, hd', hday, hpos, hlength⟩ := month_spec hdoy
  unfold eraDate at hdate
  simp only [hmp, hd', Prod.mk.injEq] at hdate
  obtain ⟨hyear, hmonth, rfl⟩ := hdate
  have hera := marchDays_era era hyoe
  generalize yearOfEra doe = yoe at *
  generalize dayOfYear doe = doy at *
  by_cases hearly : mp < 10
  · -- the year of the date started two months before
    rw [if_pos hearly] at hyear hmonth
    rw [if_neg (by omega)] at hyear
    obtain ⟨hmonthLength, hbefore⟩ := month_march n hearly
    have hmarch := daysBeforeYear_leap n
    subst hmonth
    rw [hyear] at hera
    rw [show mp + 3 - 1 = mp + 2 from rfl, hmonthLength, hbefore]
    refine ⟨by omega, ⟨hpos, ?_⟩, ?_⟩
    · interval_cases mp <;> exact hlength
    · have htable : [0, 31, 61, 92, 122, 153, 184, 214, 245, 275, 306, 337].getD mp 0 =
          [0, 31, 61, 92, 122, 153, 184, 214, 245, 275].getD mp 0 := by
        interval_cases mp <;> rfl
      rw [htable] at hday
      clear hlong hle hmp hd' hdoy hlength htable hmonthLength hbefore
      generalize [0, 31, 61, 92, 122, 153, 184, 214, 245, 275].getD mp 0 = table at *
      generalize (if Calendar.IsLeapYear n then 1 else 0 : Nat) = leap at *
      omega
  · -- January and February
    rw [if_neg hearly] at hyear hmonth
    rw [if_pos (by omega)] at hyear
    have hbefore := daysBeforeYear_eq_march n
    rw [show (n : Int) - 1 = yoe + era * 400 by omega] at hbefore
    obtain rfl | rfl : mp = 10 ∨ mp = 11 := by omega
    · subst hmonth
      have hzero : Calendar.daysBeforeMonth n (10 - 9 - 1) = 0 := rfl
      refine ⟨by decide, ⟨hpos, hlength⟩, ?_⟩
      rw [hzero]
      have hday : doy + 1 = 306 + d' := hday
      clear hlong hmp hd' hlength
      omega
    · subst hmonth
      have hjanuary : Calendar.daysBeforeMonth n (11 - 9 - 1) = 31 := rfl
      have hfebruary : Calendar.monthLength n (11 - 9 - 1) =
          if Calendar.IsLeapYear n then 29 else 28 := rfl
      rw [hjanuary, hfebruary]
      have hday : doy + 1 = 337 + d' := hday
      have hlength : d' ≤ 28 + doy / 365 := hlength
      refine ⟨by decide, ⟨hpos, ?_⟩, ?_⟩
      · by_cases hlast : doy = 365
        · have hleap : Calendar.IsLeapYear n := by
            have hleap := hlong hlast
            unfold Calendar.IsLeapYear at hleap ⊢
            clear hbefore hera hlength hmp
            omega
          rw [if_pos hleap]
          rw [hlast] at hlength
          exact hlength
        · rw [Nat.div_eq_of_lt (by omega)] at hlength
          split
          · exact Nat.le_succ_of_le hlength
          · exact hlength
      · clear hlong hmp hd' hlength
        omega

theorem unixOfYear_eq (year : Nat) :
  unixOfYear year = (Calendar.daysBeforeYear year : Int) * 86400 - 62167219200
  := by
  have hepoch : Calendar.daysBeforeYear 1970 = 719528 := by
    have hdays := Calendar.daysBeforeYear_eq 1970
    omega
  rw [unixOfYear, hepoch]
  omega

/-- Division that rounds down, by one that rounds towards zero. -/
theorem tdiv_floor (z : Int) {k : Int} (hk : 0 < k) :
  (if z ≥ 0 then z else z - (k - 1)).tdiv k = z / k
  := by
  split
  · rename_i hz
    exact Int.tdiv_eq_ediv_of_nonneg hz
  · have hnonneg := Int.emod_nonneg z (Int.ne_of_gt hk)
    have hlt := Int.emod_lt_of_pos z hk
    have hsum := Int.mul_ediv_add_emod z k
    have hneg : z - (k - 1) = -((k - 1 - z % k) + k * -(z / k)) := by
      rw [Int.mul_neg]
      omega
    have hrest : (k - 1 - z % k) / k = 0 := Int.ediv_eq_zero_of_lt (by omega) (by omega)
    have hpos : 0 ≤ (k - 1 - z % k) + k * -(z / k) := by
      rename_i hz
      rw [Int.mul_neg]
      omega
    rw [hneg, Int.neg_tdiv, Int.tdiv_eq_ediv_of_nonneg hpos, Int.add_mul_ediv_left _ _ (Int.ne_of_gt hk),
      hrest, Int.zero_add, Int.neg_neg]

/-- The date of a time is that of its day in its era. -/
theorem civilFromUnix_eq (secs : Int) :
  ∃ era doe, civilFromUnix secs =
      { year := (eraDate era doe).1
        month := (eraDate era doe).2.1
        day := (eraDate era doe).2.2
        hour := (secs % 86400).toNat / 3600
        minute := (secs % 86400).toNat % 3600 / 60
        second := (secs % 86400).toNat % 60 } ∧
    doe < 146097 ∧ era * 146097 + doe = secs / 86400 + 719468
  := by
  obtain ⟨z, hz⟩ : ∃ z, z = secs / 86400 + 719468 := ⟨_, rfl⟩
  have hera := tdiv_floor z (k := 146097) (by decide)
  refine ⟨z / 146097, (z - z / 146097 * 146097).toNat, ?_, by omega, by omega⟩
  unfold civilFromUnix eraDate
  dsimp only
  rw [← hz, ← hera]
  rfl

/-- The 60 days before the first era are of the year `0`. -/
theorem eraDate_year_nonneg {era : Int} {doe : Nat} (hdoe : doe < 146097)
    (h : -60 ≤ era * 146097 + doe) :
  0 ≤ (eraDate era doe).1
  := by
  obtain ⟨hyoe, hdoy, hsum, -⟩ := dayOfEra_spec hdoe
  unfold eraDate
  dsimp only
  generalize yearOfEra doe = yoe at *
  generalize dayOfYear doe = doy at *
  by_cases hera : 0 ≤ era
  · split <;> omega
  · obtain rfl : era = -1 := by omega
    have hlast : yoe = 399 := by omega
    have hlate : 306 ≤ doy := by
      rw [hlast] at hsum
      omega
    obtain ⟨mp, hmp⟩ : ∃ mp, (5 * doy + 2) / 153 = mp := ⟨_, rfl⟩
    have hmonth : 10 ≤ mp ∧ mp ≤ 11 := by omega
    rw [hmp, if_neg (Nat.not_lt.mpr hmonth.1), if_pos (by omega), hlast]
    decide

/-- A time from the year `0` on is written as a time of the calendar, which is that time. -/
theorem civilFromUnix_spec {secs : Int} (h : unixOfYear 0 ≤ secs) :
  (civilFromUnix secs).Valid ∧ (civilFromUnix secs).seconds = secs
  := by
  obtain ⟨era, doe, heq, hdoe, hdays⟩ := civilFromUnix_eq secs
  rw [unixOfYear_eq, Calendar.daysBeforeYear] at h
  have hyear := eraDate_year_nonneg hdoe (by omega : -60 ≤ era * 146097 + (doe : Int))
  obtain ⟨n, hn⟩ := Int.eq_ofNat_of_zero_le hyear
  have hdate : eraDate era doe = ((n : Int), (eraDate era doe).2.1, (eraDate era doe).2.2) :=
    Prod.ext hn rfl
  obtain ⟨hmonth, hday, hcount⟩ := eraDate_spec hdoe hdate
  rw [heq]
  have hsecond := Int.emod_lt_of_pos secs (by decide : (0 : Int) < 86400)
  refine ⟨⟨hyear, hmonth, ?_, ?_, ?_, ?_⟩, ?_⟩
  · dsimp only
    rw [hn]
    exact hday
  · dsimp only
    omega
  · dsimp only
    omega
  · dsimp only
    omega
  · have hsum : ((secs % 86400).toNat / 3600 * 3600 + (secs % 86400).toNat % 3600 / 60 * 60 +
        (secs % 86400).toNat % 60 : Nat) = secs % 86400 := by omega
    unfold CivilTime.seconds
    dsimp only
    rw [hn, unixOfYear_eq, Int.toNat_natCast]
    generalize Calendar.daysBeforeYear n = before at *
    generalize Calendar.daysBeforeMonth n ((eraDate era doe).2.1 - 1) = month at *
    omega

/-- A month of a year that starts in March. -/
theorem march_index {m : Nat} (hm : 1 ≤ m ∧ m ≤ 12) :
  ∃ mp, (if (m : Int) > 2 then (m : Int) - 3 else m + 9) = (mp : Nat) ∧
    (153 * (mp : Int) + 2).tdiv 5 =
      ([0, 31, 61, 92, 122, 153, 184, 214, 245, 275, 306, 337].getD mp 0 : Nat) ∧
    ((2 < m ∧ m = mp + 3 ∧ mp < 10) ∨ (m = 1 ∧ mp = 10) ∨ (m = 2 ∧ mp = 11))
  := by
  obtain ⟨hpos, hle⟩ := hm
  interval_cases m
  · exact ⟨10, rfl, rfl, by decide⟩
  · exact ⟨11, rfl, rfl, by decide⟩
  · exact ⟨0, rfl, rfl, by decide⟩
  · exact ⟨1, rfl, rfl, by decide⟩
  · exact ⟨2, rfl, rfl, by decide⟩
  · exact ⟨3, rfl, rfl, by decide⟩
  · exact ⟨4, rfl, rfl, by decide⟩
  · exact ⟨5, rfl, rfl, by decide⟩
  · exact ⟨6, rfl, rfl, by decide⟩
  · exact ⟨7, rfl, rfl, by decide⟩
  · exact ⟨8, rfl, rfl, by decide⟩
  · exact ⟨9, rfl, rfl, by decide⟩

/-- The days before a month, counted from March. -/
theorem marchDays_month (n : Nat) {m mp : Nat}
    (h : (2 < m ∧ m = mp + 3 ∧ mp < 10) ∨ (m = 1 ∧ mp = 10) ∨ (m = 2 ∧ mp = 11)) :
  marchDays (n - (if (m : Int) ≤ 2 then 1 else 0)) +
      ([0, 31, 61, 92, 122, 153, 184, 214, 245, 275, 306, 337].getD mp 0 : Nat) + 60 =
    Calendar.daysBeforeYear n + Calendar.daysBeforeMonth n (m - 1)
  := by
  obtain ⟨hlate, rfl, hmp⟩ | ⟨rfl, rfl⟩ | ⟨rfl, rfl⟩ := h
  · have hleap := daysBeforeYear_leap n
    have htable : [0, 31, 61, 92, 122, 153, 184, 214, 245, 275, 306, 337].getD mp 0 =
        [0, 31, 61, 92, 122, 153, 184, 214, 245, 275].getD mp 0 := by
      interval_cases mp <;> rfl
    rw [if_neg (by omega), show mp + 3 - 1 = mp + 2 from rfl, (month_march n hmp).2, htable,
      Int.sub_zero]
    generalize [0, 31, 61, 92, 122, 153, 184, 214, 245, 275].getD mp 0 = table at *
    generalize (if Calendar.IsLeapYear n then 1 else 0 : Nat) = leap at *
    omega
  · rw [daysBeforeYear_eq_march, if_pos (by decide)]
    have hjanuary : Calendar.daysBeforeMonth n (1 - 1) = 0 := rfl
    rw [hjanuary]
    show _ + ((306 : Nat) : Int) + 60 = _
    omega
  · rw [daysBeforeYear_eq_march, if_pos (by decide)]
    have hfebruary : Calendar.daysBeforeMonth n (2 - 1) = 31 := rfl
    rw [hfebruary]
    show _ + ((337 : Nat) : Int) + 60 = _
    omega

/-- The date that is read is counted in days of the calendar. -/
theorem unixOfCivil_eq {t : CivilTime} (h : t.Valid) :
  unixOfCivil t.year t.month t.day t.hour t.minute t.second = t.seconds
  := by
  obtain ⟨n, hn⟩ := Int.eq_ofNat_of_zero_le h.year
  obtain ⟨mp, hindex, hdays, hcases⟩ := march_index h.month
  have hmonth := marchDays_month n hcases
  unfold unixOfCivil CivilTime.seconds
  dsimp only
  rw [hn, hindex, hdays, unixOfYear_eq, Int.toNat_natCast]
  obtain ⟨y, hy⟩ : ∃ y, y = (n : Int) - (if (t.month : Int) ≤ 2 then 1 else 0) := ⟨_, rfl⟩
  rw [← hy] at hmonth ⊢
  have hera := tdiv_floor y (k := 400) (by decide)
  rw [show (400 : Int) - 1 = 399 from rfl] at hera
  rw [hera, Int.tdiv_eq_ediv_of_nonneg (by omega), Int.tdiv_eq_ediv_of_nonneg (by omega)]
  have hmarch : marchDays y = y / 400 * 146097 + ((y - y / 400 * 400) * 365 +
      (y - y / 400 * 400) / 4 - (y - y / 400 * 400) / 100) := by
    unfold marchDays
    omega
  clear hindex hdays hera hy
  generalize [0, 31, 61, 92, 122, 153, 184, 214, 245, 275, 306, 337].getD mp 0 = table at *
  generalize Calendar.daysBeforeMonth n (t.month - 1) = month at *
  omega

/-! ### Texts -/

theorem ofDigitChars_zeros (k : Nat) (digits : Text) :
  Nat.ofDigitChars 10 (List.replicate k '0' ++ digits) 0 = Nat.ofDigitChars 10 digits 0
  := by
  induction k with
  | zero => rfl
  | succ k ih =>
      rw [List.replicate_succ, List.cons_append]
      exact ih

theorem isDigit_of_mem_zeroPad {width n : Nat} {c : Char} (hc : c ∈ zeroPad width (decimal n)) :
  c.isDigit = true
  := by
  obtain hc | hc := List.mem_append.mp hc
  · rw [List.eq_of_mem_replicate hc]
    rfl
  · exact isDigit_of_mem_decimal hc

theorem zeroPad_ne_nil (width n : Nat) :
  zeroPad width (decimal n) ≠ []
  := by
  intro h
  exact Nat.toDigits_ne_nil (List.append_eq_nil_iff.mp h).2

theorem parseI64_zeroPad (width : Nat) {n : Nat} (h : n < 10000) :
  parseI64 (zeroPad width (decimal n)) = some (n : Int)
  := by
  have hdigit : ∀ c ∈ zeroPad width (decimal n), c.isDigit = true :=
    fun c hc => isDigit_of_mem_zeroPad hc
  have hparse : parseDigits (zeroPad width (decimal n)) = some n := by
    rw [parseDigits, if_pos ⟨zeroPad_ne_nil width n, List.all_eq_true.mpr hdigit⟩, zeroPad,
      ofDigitChars_zeros, decimal, Nat.ofDigitChars_ten_toDigits]
  have hrange : -9223372036854775808 ≤ (n : Int) ∧ (n : Int) ≤ 9223372036854775807 := by omega
  unfold parseI64
  split
  · rename_i heq
    have hminus := hdigit '-' (by rw [heq]; exact List.mem_cons_self)
    cases hminus
  · rename_i heq
    have hplus := hdigit '+' (by rw [heq]; exact List.mem_cons_self)
    cases hplus
  · rw [hparse]
    simp [Option.filter, hrange]

/-- A text up to a character that it does not have. -/
theorem splitOnce_append {c : Char} {before : Text} (after : Text) (h : c ∉ before) :
  splitOnce c (before ++ c :: after) = some (before, after)
  := by
  have hspan : ∀ d ∈ before, decide (d ≠ c) = true := by
    intro d hd
    rw [decide_eq_true_eq]
    rintro rfl
    exact h hd
  unfold splitOnce
  rw [List.dropWhile_append_of_pos hspan, List.takeWhile_append_of_pos hspan]
  simp

theorem splitOn_three {c : Char} {a b d : Text} (ha : c ∉ a) (hb : c ∉ b) (hd : c ∉ d) :
  (a ++ c :: (b ++ c :: d)).splitOn c = [a, b, d]
  := by
  rw [List.splitOn_append_cons_self_of_not_mem ha, List.splitOn_append_cons_self_of_not_mem hb,
    List.splitOn_eq_singleton hd]

/-- The texts of a date and of a time of day. -/
theorem humantimeSecondsToRfc3339_eq (secs : Int) :
  humantimeSecondsToRfc3339 secs =
    (padInt 4 (civilFromUnix secs).year ++
      '-' :: (zeroPad 2 (decimal (civilFromUnix secs).month) ++
        '-' :: zeroPad 2 (decimal (civilFromUnix secs).day))) ++
    'T' :: (zeroPad 2 (decimal (civilFromUnix secs).hour) ++
      ':' :: (zeroPad 2 (decimal (civilFromUnix secs).minute) ++
        ':' :: zeroPad 2 (decimal (civilFromUnix secs).second))) ++ ['Z']
  := by
  simp [humantimeSecondsToRfc3339]

/-- A number of at most `k + 1` digits, with zeros before it. -/
theorem zeroPad_eq_lastDigits (k : Nat) {n : Nat} (h : (decimal n).length ≤ k + 1) :
  zeroPad (k + 1) (decimal n) = lastDigits (k + 1) n
  := by
  induction k generalizing n with
  | zero =>
      by_cases hn : n < 10
      · rw [decimal, Nat.toDigits_of_lt_base hn, lastDigits, Nat.mod_eq_of_lt hn]
        rfl
      · rw [decimal, Nat.toDigits_of_base_le (by decide) (Nat.not_lt.mp hn), List.length_append] at h
        have hpos := Nat.length_toDigits_pos (b := 10) (n := n / 10)
        simp only [List.length_singleton] at h
        omega
  | succ k ih =>
      rw [lastDigits]
      by_cases hn : n < 10
      · have hzero : (decimal 0).length ≤ k + 1 := Nat.le_add_left 1 k
        rw [Nat.div_eq_of_lt hn, ← ih hzero, decimal, Nat.toDigits_of_lt_base hn,
          Nat.mod_eq_of_lt hn]
        simp [zeroPad, decimal, List.replicate_succ']
      · have hdigits : decimal n = decimal (n / 10) ++ [(n % 10).digitChar] :=
          Nat.toDigits_of_base_le (by decide) (Nat.not_lt.mp hn)
        rw [hdigits, List.length_append, List.length_singleton] at h
        rw [← ih (Nat.le_of_succ_le_succ h), hdigits]
        simp [zeroPad]

theorem length_decimal_le {k n : Nat} (hk : 0 < k) (h : n < 10 ^ k) :
  (decimal n).length ≤ k
  := (Nat.length_toDigits_le_iff (by decide) hk).mpr h

theorem not_mem_zeroPad {c : Char} (hc : c.isDigit = false) (width n : Nat) :
  c ∉ zeroPad width (decimal n)
  := by
  intro hmem
  rw [isDigit_of_mem_zeroPad hmem] at hc
  cases hc

theorem padInt_natCast (width n : Nat) :
  padInt width n = zeroPad width (decimal n)
  := by
  rw [padInt, if_neg (Int.not_lt.mpr (Int.natCast_nonneg n)), Int.natAbs_natCast]

/-- The `Z` at the end of a text is not read. -/
theorem trim_end {text : Text} {c : Char} (hlast : text.getLast? = some c) (hc : c ≠ 'Z') :
  ((text ++ ['Z']).reverse.dropWhile (· = 'Z')).reverse = text
  := by
  obtain ⟨init, rfl⟩ := List.getLast?_eq_some_iff.mp hlast
  simp [hc]

/-- A time that is written is read. -/
theorem parseIso8601_of_fields {n month day hour minute second : Nat} (hyear : n < 10000)
    (hmonth : month < 100) (hday : day < 100) (hhour : hour < 100) (hminute : minute < 100)
    (hsecond : second < 100) :
  parseIso8601 (some ((zeroPad 4 (decimal n) ++ '-' :: (zeroPad 2 (decimal month) ++
      '-' :: zeroPad 2 (decimal day))) ++ 'T' :: (zeroPad 2 (decimal hour) ++
      ':' :: (zeroPad 2 (decimal minute) ++ ':' :: zeroPad 2 (decimal second))) ++ ['Z'])) =
    some (unixOfCivil n month day hour minute second)
  := by
  have hfree : ∀ {c : Char}, c.isDigit = false → ∀ width n, c ∉ zeroPad width (decimal n) :=
    fun hc width n => not_mem_zeroPad hc width n
  have hsmall : ∀ {k}, k < 100 → parseI64 (zeroPad 2 (decimal k)) = some (k : Int) :=
    fun hk => parseI64_zeroPad 2 (Nat.lt_trans hk (by decide))
  have hdate : ∀ rest, splitOnce 'T' ((zeroPad 4 (decimal n) ++ '-' :: (zeroPad 2 (decimal month) ++
      '-' :: zeroPad 2 (decimal day))) ++ 'T' :: rest) =
        some (zeroPad 4 (decimal n) ++ '-' :: (zeroPad 2 (decimal month) ++
          '-' :: zeroPad 2 (decimal day)), rest) := by
    intro rest
    apply splitOnce_append
    simp [hfree]
  have hdot : (zeroPad 2 (decimal hour) ++ ':' :: (zeroPad 2 (decimal minute) ++
      ':' :: zeroPad 2 (decimal second))).splitOn '.' = [zeroPad 2 (decimal hour) ++
        ':' :: (zeroPad 2 (decimal minute) ++ ':' :: zeroPad 2 (decimal second))] := by
    apply List.splitOn_eq_singleton
    simp [hfree]
  obtain ⟨c, hc⟩ := Option.isSome_iff_exists.mp (List.getLast?_isSome.mpr (zeroPad_ne_nil 2 second))
  have hcZ : c ≠ 'Z' := by
    rintro rfl
    exact hfree rfl 2 second (List.mem_of_getLast? hc)
  unfold parseIso8601
  simp only [Option.bind_eq_bind, Option.bind_some]
  rw [trim_end (c := c) (by simp [List.getLast?_append, List.getLast?_cons, hc]) hcZ, hdate]
  simp only [Option.bind_some]
  rw [splitOn_three (hfree rfl 4 n) (hfree rfl 2 month) (hfree rfl 2 day), hdot]
  simp only [List.getElem?_cons_zero, List.getElem?_cons_succ, Option.bind_some,
    Option.getD_some]
  rw [splitOn_three (hfree rfl 2 hour) (hfree rfl 2 minute) (hfree rfl 2 second)]
  simp only [List.getElem?_cons_zero, List.getElem?_cons_succ, Option.bind_some,
    parseI64_zeroPad 4 hyear, hsmall hmonth, hsmall hday, hsmall hhour, hsmall hminute,
    hsmall hsecond]

/-- From the year `0` to the year `9999` the text of a time is its date in the Gregorian calendar,
and reading the text gives the time. -/
theorem parseIso8601_humantimeSecondsToRfc3339 {secs : Int} (hstart : unixOfYear 0 ≤ secs)
    (hend : secs < unixOfYear 10000) :
  parseIso8601 (some (humantimeSecondsToRfc3339 secs)) = some secs ∧
    ∃ t : CivilTime, t.Valid ∧ t.seconds = secs ∧ humantimeSecondsToRfc3339 secs = t.rfc3339
  := by
  obtain ⟨hvalid, hseconds⟩ := civilFromUnix_spec hstart
  have htext := humantimeSecondsToRfc3339_eq secs
  generalize civilFromUnix secs = t at *
  obtain ⟨n, hn⟩ := Int.eq_ofNat_of_zero_le hvalid.year
  have hyear : n < 10000 := by
    by_contra hlate
    have hmono := Calendar.daysBeforeYear_mono (Nat.not_lt.mp hlate)
    have hday := hvalid.day.1
    rw [← hseconds, CivilTime.seconds, hn, unixOfYear_eq, unixOfYear_eq, Int.toNat_natCast] at hend
    omega
  have hmonth : t.month < 100 := Nat.lt_of_le_of_lt hvalid.month.2 (by decide)
  have hday : t.day < 100 := by
    have hlength : Calendar.monthLength t.year.toNat (t.month - 1) ≤ 31 := by
      unfold Calendar.monthLength
      split
      · split <;> decide
      · decide
      · decide
      · decide
      · decide
      · decide
    exact Nat.lt_of_le_of_lt (hvalid.day.2.trans hlength) (by decide)
  have hhour : t.hour < 100 := Nat.lt_trans hvalid.hour (by decide)
  have hminute : t.minute < 100 := Nat.lt_trans hvalid.minute (by decide)
  have hsecond : t.second < 100 := Nat.lt_trans hvalid.second (by decide)
  rw [hn, padInt_natCast] at htext
  refine ⟨?_, t, hvalid, hseconds, ?_⟩
  · rw [htext, parseIso8601_of_fields hyear hmonth hday hhour hminute hsecond, ← hseconds,
      ← unixOfCivil_eq hvalid, hn]
  · have htwo : ∀ {k}, k < 100 → zeroPad 2 (decimal k) = lastDigits 2 k := by
      intro k hk
      apply zeroPad_eq_lastDigits
      exact length_decimal_le (by decide) hk
    rw [htext, zeroPad_eq_lastDigits 3 (length_decimal_le (by decide) hyear), htwo hmonth,
      htwo hday, htwo hhour, htwo hminute, htwo hsecond, CivilTime.rfc3339, hn]
    simp

/-- The 29th of February 2000. -/
theorem parseIso8601_leapDay :
  parseIso8601 (some (humantimeSecondsToRfc3339 951782400)) = some 951782400 ∧
    ∃ t : CivilTime, t.Valid ∧ t.seconds = 951782400 ∧
      humantimeSecondsToRfc3339 951782400 = t.rfc3339
  := by
  apply parseIso8601_humantimeSecondsToRfc3339
  · rw [unixOfYear_eq]
    decide
  · rw [unixOfYear_eq]
    have hdays := Calendar.daysBeforeYear_eq 10000
    omega

end AgentFs
