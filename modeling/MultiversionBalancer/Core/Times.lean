import MultiversionBalancer.Core.ParseHttpTime
import MultiversionBalancer.Core.Sprintf

/-!
# Broken-down times

`ngx_gmtime` and `ngx_http_time` of `ngx_times.c`.  The year of a day is first an
estimate, which is corrected when the day of the year becomes negative; the month
comes from a formula that rounds.
-/

namespace MultiversionBalancer.Core.Times

open Http (byte digitByte)

structure Tm where
  sec : ℕ
  min : ℕ
  hour : ℕ
  mday : ℕ
  mon : ℕ
  year : ℕ
  wday : ℕ

/-- The year that a day is in and its `yday`; years begin on March 1, and the first
of them is 1 BC. -/
def yearOf (days : ℕ) : ℕ × ℤ :=
  let year := (days + 2) * 400 / (365 * 400 + 100 - 4 + 1)
  let yday : ℤ := days - (365 * year + year / 4 - year / 100 + year / 400 : ℕ)
  if yday < 0 then
    let leap := if year % 4 = 0 ∧ (year % 100 ≠ 0 ∨ year % 400 = 0) then 1 else 0
    (year - 1, 365 + leap + yday)
  else (year, yday)

def ngxGmtime (t : ℤ) : Tm :=
  let t := if t < 0 then 0 else t.toNat
  let days := if 2932896 < t / 86400 then 2932896 else t / 86400
  let sec := if 2932896 < t / 86400 then 86399 else t % 86400
  let date := yearOf (days + 719527 - (31 + 28))
  let year := date.1
  let yday := date.2
  let mon := ((yday + 31) * 10 / 306).toNat
  let mday := (yday - (367 * mon / 12 - 30 : ℕ) + 1).toNat
  { sec := sec % 3600 % 60
    min := sec % 3600 / 60
    hour := sec / 3600
    mday := mday
    mon := if 306 ≤ yday then mon - 10 else mon + 2
    year := if 306 ≤ yday then year + 1 else year
    wday := (4 + days) % 7 }

/-- The names of the days. -/
def week : List String := ["Sun", "Mon", "Tue", "Wed", "Thu", "Fri", "Sat"]

def months : List String :=
  ["Jan", "Feb", "Mar", "Apr", "May", "Jun", "Jul", "Aug", "Sep", "Oct", "Nov", "Dec"]

/-- `%02d`, or `%4d` with other arguments. -/
def sprintfNum (n : ℕ) (zero : Char) (width : ℕ) : List UInt8 :=
  (ngxSprintfNum n zero width).map byte

def ngxHttpTime (t : ℤ) : List UInt8 :=
  let tm := ngxGmtime t
  Http.bytes (week.getD tm.wday "") ++ Http.bytes ", " ++ sprintfNum tm.mday '0' 2 ++
    Http.bytes " " ++ Http.bytes (months.getD (tm.mon - 1) "") ++ Http.bytes " " ++
    sprintfNum tm.year ' ' 4 ++ Http.bytes " " ++ sprintfNum tm.hour '0' 2 ++
    Http.bytes ":" ++ sprintfNum tm.min '0' 2 ++ Http.bytes ":" ++
    sprintfNum tm.sec '0' 2 ++ Http.bytes " GMT"

/-- The text that `ngx_time_update` keeps in `ngx_cached_http_log_time`, of a local time that is
`gmtoff` minutes ahead. -/
def ngxHttpLogTime (tm : Tm) (gmtoff : ℤ) : Text :=
  ngxSprintfNum tm.mday '0' 2 ++ '/' :: (months.getD (tm.mon - 1) "").toList ++
    '/' :: ngxSprintfNum tm.year ' ' 0 ++ ':' :: ngxSprintfNum tm.hour '0' 2 ++
    ':' :: ngxSprintfNum tm.min '0' 2 ++ ':' :: ngxSprintfNum tm.sec '0' 2 ++
    ' ' :: (if gmtoff < 0 then '-' else '+') :: ngxSprintfNum (gmtoff.tdiv 60).natAbs '0' 2 ++
    ngxSprintfNum (gmtoff.tmod 60).natAbs '0' 2

/-! ## The date of a day -/

/-- The estimate of the year is right, or one too late. -/
theorem estimate_spec {days year : ℕ} (h : (days + 2) * 400 / 146097 = year) :
    Gregorian.daysBeforeMarch year ≤ days + 2 ∧ days < Gregorian.daysBeforeMarch (year + 1) := by
  rw [Gregorian.daysBeforeMarch, Gregorian.daysBeforeMarch]
  omega

theorem yearOf_spec (days : ℕ) :
    0 ≤ (yearOf days).2 ∧
      (days : ℤ) = Gregorian.daysBeforeMarch (yearOf days).1 + (yearOf days).2 ∧
      (yearOf days).2 < 365 + (if Gregorian.Leap ((yearOf days).1 + 1) then 1 else 0) := by
  simp only [yearOf, ← Gregorian.daysBeforeMarch.eq_def]
  generalize hyear : (days + 2) * 400 / (365 * 400 + 100 - 4 + 1) = year
  obtain ⟨hlow, hhigh⟩ := estimate_spec hyear
  by_cases hneg : (days : ℤ) - Gregorian.daysBeforeMarch year < 0
  · simp only [if_pos hneg]
    have hpos : year ≠ 0 := by
      rintro rfl
      rw [Gregorian.daysBeforeMarch] at hneg
      omega
    obtain ⟨year, rfl⟩ := Nat.exists_eq_succ_of_ne_zero hpos
    have hsucc := Gregorian.daysBeforeMarch_succ year
    rw [Nat.succ_eq_add_one] at *
    rw [Nat.add_sub_cancel]
    split at hsucc
    · next hleap =>
      have hyear : (year + 1) % 4 = 0 ∧ ((year + 1) % 100 ≠ 0 ∨ (year + 1) % 400 = 0) := hleap
      rw [if_pos hleap, if_pos hyear]
      omega
    · next hleap =>
      have hyear : ¬((year + 1) % 4 = 0 ∧ ((year + 1) % 100 ≠ 0 ∨ (year + 1) % 400 = 0)) := hleap
      rw [if_neg hleap, if_neg hyear]
      omega
  · simp only [if_neg hneg]
    have hsucc := Gregorian.daysBeforeMarch_succ year
    split at hsucc
    · next hleap =>
      rw [if_pos hleap]
      omega
    · next hleap =>
      rw [if_neg hleap]
      omega

/-- The month and the day of a `yday`, and the months of the year that begins in
January. -/
theorem month_spec {year yday mon : ℕ}
    (h : yday < 365 + (if Gregorian.Leap (year + 1) then 1 else 0))
    (hmon : (yday + 31) * 10 / 306 = mon) :
    1 ≤ mon ∧ mon ≤ 12 ∧ Gregorian.daysFromMarch mon ≤ yday ∧ (306 ≤ yday ↔ 11 ≤ mon) ∧
      yday - Gregorian.daysFromMarch mon + 1 ≤
        if 11 ≤ mon then Gregorian.monthLength (year + 1) (mon - 10)
        else Gregorian.monthLength year (mon + 2) := by
  have hyday : yday < 366 := by
    split at h <;> omega
  have hlow : 1 ≤ mon := by omega
  have hhigh : mon ≤ 12 := by omega
  have hfeb : yday < 365 ∨ Gregorian.Leap (year + 1) := by
    by_contra hnot
    rw [not_or] at hnot
    rw [if_neg hnot.2] at h
    exact hnot.1 h
  refine ⟨hlow, hhigh, ?_, by omega, ?_⟩
  · rw [Gregorian.daysFromMarch]
    omega
  · rcases hfeb with hshort | hleap
    · interval_cases mon
      all_goals
        simp only [Gregorian.daysFromMarch, Gregorian.monthLength]
        norm_num
        try split
        all_goals omega
    · interval_cases mon
      all_goals
        simp only [Gregorian.daysFromMarch, Gregorian.monthLength, if_pos hleap]
        norm_num
        omega

/-- A broken-down time is the one of `t`, on the date `d`. -/
structure Tm.IsTime (tm : Tm) (d : Gregorian.Date) (t : ℤ) : Prop where
  year : tm.year = d.year
  mon : tm.mon = d.month
  mday : tm.mday = d.day
  wday : tm.wday = d.weekday
  hour : tm.hour ≤ 23
  min : tm.min ≤ 59
  sec : tm.sec ≤ 59
  time : t = d.seconds tm.hour tm.min tm.sec

theorem date_of_day {days year : ℕ} {yday : ℤ} (hyear : yearOf (days + 719468) = (year, yday)) :
    ∃ d : Gregorian.Date, d.number = Gregorian.epoch.number + days ∧
      d.year = (if 306 ≤ yday then year + 1 else year) ∧
      d.month = (if 306 ≤ yday then ((yday + 31) * 10 / 306).toNat - 10
        else ((yday + 31) * 10 / 306).toNat + 2) ∧
      d.day = (yday - (367 * ((yday + 31) * 10 / 306).toNat / 12 - 30 : ℕ) + 1).toNat := by
  have hspec := yearOf_spec (days + 719468)
  rw [hyear] at hspec
  obtain ⟨hpos, hdays, hlength⟩ := hspec
  obtain ⟨yday, rfl⟩ := Int.eq_ofNat_of_zero_le hpos
  simp only at hpos hdays hlength ⊢
  obtain ⟨mon, hmon⟩ : ∃ mon, (yday + 31) * 10 / 306 = mon := ⟨_, rfl⟩
  have hmonth : (((yday : ℤ) + 31) * 10 / 306).toNat = mon := by omega
  have hinside : yday < 365 + (if Gregorian.Leap (year + 1) then 1 else 0) := by
    split at hlength
    · next hleap =>
      rw [if_pos hleap]
      omega
    · next hleap =>
      rw [if_neg hleap]
      omega
  obtain ⟨hlow, hhigh, hstart, hlast, hday⟩ := month_spec hinside hmon
  rw [← Gregorian.daysFromMarch, hmonth]
  have hmday : ((yday : ℤ) - (Gregorian.daysFromMarch mon : ℕ) + 1).toNat =
      yday - Gregorian.daysFromMarch mon + 1 := by omega
  rw [hmday, Gregorian.number_epoch]
  by_cases hjanuary : 306 ≤ yday
  · rw [if_pos (hlast.mp hjanuary)] at hday
    have hmon11 := hlast.mp hjanuary
    rw [if_pos (by omega), if_pos (by omega)]
    refine ⟨⟨year + 1, mon - 10, yday - Gregorian.daysFromMarch mon + 1, by omega, by omega,
      Nat.succ_pos _, hday⟩, ?_, rfl, rfl, rfl⟩
    rw [Gregorian.Date.number_january (by simp only; omega) (by simp only; omega)]
    simp only
    rw [Nat.sub_add_cancel (by omega), Nat.add_sub_cancel]
    omega
  · rw [if_neg (fun h => hjanuary (hlast.mpr h))] at hday
    have hmon10 : ¬11 ≤ mon := fun h => hjanuary (hlast.mpr h)
    rw [if_neg (by omega), if_neg (by omega)]
    refine ⟨⟨year, mon + 2, yday - Gregorian.daysFromMarch mon + 1, by omega, by omega,
      Nat.succ_pos _, hday⟩, ?_, rfl, rfl, rfl⟩
    rw [Gregorian.Date.number_march (by simp only; omega)]
    simp only
    rw [Nat.add_sub_cancel]
    omega

theorem gmtime_isTime {t : ℤ} (hpos : 0 ≤ t) (hle : t ≤ 253402300799) :
    ∃ d, (ngxGmtime t).IsTime d t := by
  obtain ⟨t, rfl⟩ := Int.eq_ofNat_of_zero_le hpos
  have hneg : ¬(t : ℤ) < 0 := by omega
  have hdays : ¬2932896 < t / 86400 := by omega
  obtain ⟨⟨year, yday⟩, hyear⟩ : ∃ start, yearOf (t / 86400 + 719468) = start := ⟨_, rfl⟩
  obtain ⟨d, hnumber, hdyear, hdmonth, hdday⟩ := date_of_day hyear
  have hshift : t / 86400 + 719527 - (31 + 28) = t / 86400 + 719468 := by omega
  have hepoch := Gregorian.number_epoch
  refine ⟨d, ?_⟩
  simp only [ngxGmtime, if_neg hneg, Int.toNat_natCast, if_neg hdays, hshift, hyear]
  refine ⟨hdyear.symm, hdmonth.symm, hdday.symm, ?_, ?_, ?_, ?_, ?_⟩
  · simp only [Gregorian.Date.weekday]
    omega
  · simp only
    omega
  · simp only
    omega
  · simp only
    omega
  · simp only [Gregorian.Date.seconds]
    omega

/-! ## The text of a time -/

theorem digitChar_byte {n : ℕ} (hn : n < 10) : byte n.digitChar = digitByte n := by
  interval_cases n <;> rfl

/-- `%02d` of a number that fits. -/
theorem sprintfNum_two {n : ℕ} (hn : n < 100) :
    sprintfNum n '0' 2 = [digitByte (n / 10), digitByte (n % 10)] := by
  rw [sprintfNum, ngxSprintfNum, Nat.toDigits_eq_if (by decide)]
  by_cases hone : n < 10
  · have hdigit := digitChar_byte hone
    rw [if_pos hone, Nat.div_eq_of_lt hone, Nat.mod_eq_of_lt hone, ← hdigit]
    rfl
  · have htens := digitChar_byte (n := n / 10) (by omega)
    have hones := digitChar_byte (n := n % 10) (by omega)
    rw [if_neg hone, Nat.toDigits_of_lt_base (by omega), ← htens, ← hones]
    rfl

theorem sprintfNum_four {n : ℕ} (hlow : 1000 ≤ n) (hn : n < 10000) :
    sprintfNum n ' ' 4 = [digitByte (n / 1000), digitByte (n / 100 % 10),
      digitByte (n / 10 % 10), digitByte (n % 10)] := by
  have h₁ := digitChar_byte (n := n / 1000) (by omega)
  have h₂ := digitChar_byte (n := n / 100 % 10) (by omega)
  have h₃ := digitChar_byte (n := n / 10 % 10) (by omega)
  have h₄ := digitChar_byte (n := n % 10) (by omega)
  have hhundreds : n / 10 / 10 = n / 100 := Nat.div_div_eq_div_mul n 10 10
  have hthousands : n / 100 / 10 = n / 1000 := Nat.div_div_eq_div_mul n 100 10
  rw [sprintfNum, ngxSprintfNum, Nat.toDigits_of_base_le (by decide) (by omega),
    Nat.toDigits_of_base_le (by decide) (by omega),
    Nat.toDigits_of_base_le (by decide) (by omega), hhundreds, hthousands,
    Nat.toDigits_of_lt_base (by omega), ← h₁, ← h₂, ← h₃, ← h₄]
  rfl

theorem digit_digitByte {p : List UInt8} {i n : ℕ} (hn : n < 10)
    (hp : p[i]? = some (digitByte n)) : digit p i = .ok n := by
  rw [digit, peek, hp]
  interval_cases n <;> rfl

theorem twoDigits_write {n : ℕ} (hn : n < 100) (p : List UInt8) :
    twoDigits (digitByte (n / 10) :: digitByte (n % 10) :: p) = .ok n := by
  rw [twoDigits, digit_digitByte (n := n / 10) (by omega) rfl,
    digit_digitByte (n := n % 10) (by omega) rfl]
  exact congrArg Except.ok (by omega)

theorem fourDigits_write {n : ℕ} (hn : n < 10000) (p : List UInt8) :
    fourDigits (digitByte (n / 1000) :: digitByte (n / 100 % 10) ::
      digitByte (n / 10 % 10) :: digitByte (n % 10) :: p) = .ok n := by
  rw [fourDigits, digit_digitByte (n := n / 1000) (by omega) rfl,
    digit_digitByte (n := n / 100 % 10) (by omega) rfl,
    digit_digitByte (n := n / 10 % 10) (by omega) rfl,
    digit_digitByte (n := n % 10) (by omega) rfl]
  exact congrArg Except.ok (by omega)

theorem expect_cons (ch : UInt8) (p : List UInt8) : expect (ch :: p) ch = .ok p :=
  if_pos rfl

/-- The time of day. -/
theorem readClock_write {hour min sec : ℕ} (hhour : hour < 100) (hmin : min < 100)
    (hsec : sec < 100) (p : List UInt8) :
    readClock (byte ' ' :: digitByte (hour / 10) :: digitByte (hour % 10) ::
      byte ':' :: digitByte (min / 10) :: digitByte (min % 10) ::
      byte ':' :: digitByte (sec / 10) :: digitByte (sec % 10) :: p) =
    .ok (hour, min, sec, digitByte (sec / 10) :: digitByte (sec % 10) :: p) := by
  simp only [readClock, expect_cons, twoDigits_write hhour, twoDigits_write hmin,
    twoDigits_write hsec, List.drop_succ_cons, List.drop_zero, bind, Except.bind, pure,
    Except.pure]

theorem readMonth_write {m : ℕ} (hm : m < 12) (p : List UInt8) :
    readMonth (Http.bytes (months.getD m "") ++ p) = .ok m ∧
      (Http.bytes (months.getD m "") ++ p).drop 3 = p ∧
      (Http.bytes (months.getD m "")).length = 3 := by
  interval_cases m <;> exact ⟨rfl, rfl, rfl⟩

theorem skipWeekday_write {w : ℕ} (hw : w < 7) (p : List UInt8) :
    skipWeekday (Http.bytes (week.getD w "") ++ byte ',' :: p) = (.no, byte ',' :: p) := by
  interval_cases w <;> rfl

/-- The text of a broken-down time, as the parser goes through it. -/
theorem httpTime_eq {t : ℤ} (hlow : 1000 ≤ (ngxGmtime t).year)
    (hyear : (ngxGmtime t).year < 10000) (hmday : (ngxGmtime t).mday < 100)
    (hhour : (ngxGmtime t).hour < 100) (hmin : (ngxGmtime t).min < 100)
    (hsec : (ngxGmtime t).sec < 100) :
    ngxHttpTime t =
      Http.bytes (week.getD (ngxGmtime t).wday "") ++ byte ',' :: byte ' ' ::
        digitByte ((ngxGmtime t).mday / 10) :: digitByte ((ngxGmtime t).mday % 10) :: byte ' ' ::
        (Http.bytes (months.getD ((ngxGmtime t).mon - 1) "") ++ byte ' ' ::
          digitByte ((ngxGmtime t).year / 1000) :: digitByte ((ngxGmtime t).year / 100 % 10) ::
          digitByte ((ngxGmtime t).year / 10 % 10) :: digitByte ((ngxGmtime t).year % 10) ::
          byte ' ' :: digitByte ((ngxGmtime t).hour / 10) ::
          digitByte ((ngxGmtime t).hour % 10) :: byte ':' ::
          digitByte ((ngxGmtime t).min / 10) :: digitByte ((ngxGmtime t).min % 10) ::
          byte ':' :: digitByte ((ngxGmtime t).sec / 10) ::
          digitByte ((ngxGmtime t).sec % 10) :: Http.bytes " GMT") := by
  simp only [ngxHttpTime, sprintfNum_two hmday, sprintfNum_four hlow hyear, sprintfNum_two hhour,
    sprintfNum_two hmin, sprintfNum_two hsec, List.append_assoc]
  rfl

theorem readFields_write {mday mon year hour min sec : ℕ} (hmday : mday < 100) (hmon : mon < 12)
    (hyear : year < 10000) (hhour : hour < 100) (hmin : min < 100) (hsec : sec < 100)
    (p : List UInt8) :
    readFields .no (digitByte (mday / 10) :: digitByte (mday % 10) :: byte ' ' ::
      (Http.bytes (months.getD mon "") ++ byte ' ' :: digitByte (year / 1000) ::
        digitByte (year / 100 % 10) :: digitByte (year / 10 % 10) :: digitByte (year % 10) ::
        byte ' ' :: digitByte (hour / 10) :: digitByte (hour % 10) :: byte ':' ::
        digitByte (min / 10) :: digitByte (min % 10) :: byte ':' ::
        digitByte (sec / 10) :: digitByte (sec % 10) :: p)) =
      .ok ⟨mday, mon, year, hour, min, sec⟩ := by
  obtain ⟨hmonth, hrest, hthree⟩ := readMonth_write hmon (byte ' ' :: digitByte (year / 1000) ::
    digitByte (year / 100 % 10) :: digitByte (year / 10 % 10) :: digitByte (year % 10) ::
    byte ' ' :: digitByte (hour / 10) :: digitByte (hour % 10) :: byte ':' ::
    digitByte (min / 10) :: digitByte (min % 10) :: byte ':' ::
    digitByte (sec / 10) :: digitByte (sec % 10) :: p)
  have hday (q : List UInt8) (hq : 17 ≤ q.length) :
      readDay .no (digitByte (mday / 10) :: digitByte (mday % 10) :: byte ' ' :: q) =
        .ok (.rfc822, mday, q) := by
    have hlength : ¬(byte ' ' :: q).length < 18 := by
      rw [List.length_cons]
      omega
    have hno : ¬Format.no = Format.isoc := nofun
    have hspace : peek (byte ' ' :: q) 0 = .ok (byte ' ') := rfl
    simp only [readDay, if_neg hno, twoDigits_write hmday, bind, Except.bind,
      List.drop_succ_cons, List.drop_zero, hspace, if_true, if_neg hlength]
    rfl
  have hlength : 17 ≤ (Http.bytes (months.getD mon "") ++ byte ' ' ::
      digitByte (year / 1000) :: digitByte (year / 100 % 10) :: digitByte (year / 10 % 10) ::
      digitByte (year % 10) :: byte ' ' :: digitByte (hour / 10) :: digitByte (hour % 10) ::
      byte ':' :: digitByte (min / 10) :: digitByte (min % 10) :: byte ':' ::
      digitByte (sec / 10) :: digitByte (sec % 10) :: p).length := by
    rw [List.length_append, hthree]
    simp only [List.length_cons]
    omega
  simp only [readFields, hday _ hlength, hmonth, hrest, skipMonth, expect_cons, readYear,
    fourDigits_write hyear, readClock_write hhour hmin hsec, List.drop_succ_cons,
    List.drop_zero, bind, Except.bind, pure, Except.pure]
  rfl

theorem readDate_write {wday mday mon year hour min sec : ℕ} (hwday : wday < 7)
    (hmday : mday < 100) (hmon : mon < 12) (hyear : year < 10000) (hhour : hour < 100)
    (hmin : min < 100) (hsec : sec < 100) (p : List UInt8) :
    readDate (Http.bytes (week.getD wday "") ++ byte ',' :: byte ' ' ::
      digitByte (mday / 10) :: digitByte (mday % 10) :: byte ' ' ::
      (Http.bytes (months.getD mon "") ++ byte ' ' :: digitByte (year / 1000) ::
        digitByte (year / 100 % 10) :: digitByte (year / 10 % 10) :: digitByte (year % 10) ::
        byte ' ' :: digitByte (hour / 10) :: digitByte (hour % 10) :: byte ':' ::
        digitByte (min / 10) :: digitByte (min % 10) :: byte ':' ::
        digitByte (sec / 10) :: digitByte (sec % 10) :: p)) =
      .ok ⟨mday, mon, year, hour, min, sec⟩ := by
  have hspace {n : ℕ} (hn : n < 10) : digitByte n ≠ byte ' ' := by
    interval_cases n <;> decide
  have hfirst : digitByte (mday / 10) ≠ byte ' ' := hspace (by omega)
  have hthree := (readMonth_write hmon []).2.2
  rw [readDate, skipWeekday_write hwday]
  simp only [List.drop_succ_cons, List.drop_zero, List.dropWhile_cons, decide_true, if_true,
    hfirst, decide_false, Bool.false_eq_true, if_false]
  rw [if_neg (by
    simp only [List.length_cons, List.length_append, hthree]
    omega)]
  exact readFields_write hmday hmon hyear hhour hmin hsec p

theorem readDate_httpTime {t : ℤ} {d : Gregorian.Date} (hd : (ngxGmtime t).IsTime d t)
    (hlow : 1000 ≤ d.year) (hyear : d.year < 10000) :
    readDate (ngxHttpTime t) = .ok ⟨(ngxGmtime t).mday, (ngxGmtime t).mon - 1,
      (ngxGmtime t).year, (ngxGmtime t).hour, (ngxGmtime t).min, (ngxGmtime t).sec⟩ := by
  have hday := d.day_le.trans (Gregorian.monthLength_le d.year d.month)
  have hmonth := d.month_le
  have hmonthPos := d.month_pos
  obtain ⟨htmyear, htmmon, htmmday, htmwday, hhour, hmin, hsec, -⟩ := hd
  have hwday : (ngxGmtime t).wday < 7 := by
    rw [htmwday, Gregorian.Date.weekday]
    exact Nat.mod_lt _ (by decide)
  rw [httpTime_eq (by omega) (by omega) (by omega) (by omega) (by omega) (by omega)]
  exact readDate_write hwday (by omega) (by omega) (by omega) (by omega) (by omega) (by omega) _

/-- The number of the last day that is given back. -/
theorem exists_last_day : ∃ last : Gregorian.Date, last.year = 9999 ∧ last.number = 3652425 := by
  refine ⟨⟨9999, 12, 31, by decide, by decide, by decide, by decide⟩, rfl, ?_⟩
  rw [Gregorian.Date.number_march (by simp only [Nat.reduceLeDiff]), Gregorian.daysBeforeMarch,
    Gregorian.daysFromMarch]
  rfl

theorem year_of_time {t : ℤ} {d : Gregorian.Date} (hd : (ngxGmtime t).IsTime d t) (hpos : 0 ≤ t)
    (hle : t ≤ 253402300799) : 1970 ≤ d.year ∧ d.year ≤ 9999 := by
  obtain ⟨-, -, -, -, hhour, hmin, hsec, htime⟩ := hd
  have hepoch := Gregorian.number_epoch
  obtain ⟨last, hyear, hlast⟩ := exists_last_day
  rw [Gregorian.Date.seconds] at htime
  constructor
  · exact Gregorian.Date.year_le_of_number (d := Gregorian.epoch) (by omega)
  · rw [← hyear]
    exact Gregorian.Date.year_le_of_number (by omega)

/-- Up to the end of the year 9999, `ngx_gmtime` gives the date, the day of the week and the
time of day of a time, no other date has this time, and `ngx_parse_http_time` reads the time
back from the text that `ngx_http_time` writes. -/
theorem http_time_round_trip {t : ℤ} (hpos : 0 ≤ t) (hle : t ≤ 253402300799) :
    (∃ d, (ngxGmtime t).IsTime d t ∧
      ∀ (d' : Gregorian.Date) (hour min sec : ℕ), hour ≤ 23 → min ≤ 59 → sec ≤ 59 →
        d'.seconds hour min sec = t → d' = d ∧ hour = (ngxGmtime t).hour ∧
          min = (ngxGmtime t).min ∧ sec = (ngxGmtime t).sec) ∧
    ngxParseHttpTime (ngxHttpTime t) = .ok t := by
  obtain ⟨d, hd⟩ := gmtime_isTime hpos hle
  have hepoch := Gregorian.number_epoch
  have htime := hd.time
  constructor
  · refine ⟨d, hd, fun d' hour min sec hhour hmin hsec h => ?_⟩
    have hhour' := hd.hour
    have hmin' := hd.min
    have hsec' := hd.sec
    rw [Gregorian.Date.seconds] at h htime
    have hnumber : d'.number = d.number := by omega
    exact ⟨Gregorian.Date.number_injective hnumber, by omega, by omega, by omega⟩
  · obtain ⟨hlow, hhigh⟩ := year_of_time hd hpos hle
    have hmonth := d.month_pos
    have hmon := hd.mon
    have hdate : Fields.IsDate ⟨(ngxGmtime t).mday, (ngxGmtime t).mon - 1, (ngxGmtime t).year,
        (ngxGmtime t).hour, (ngxGmtime t).min, (ngxGmtime t).sec⟩ d :=
      ⟨hd.year.symm, by simp only; omega, hd.mday.symm, hd.hour, hd.min, hd.sec⟩
    refine parseHttpTime_ok_iff.mpr ⟨_, readDate_httpTime hd (by omega) (by omega), ?_, hd.hour,
      hd.min, hd.sec, ?_⟩
    · rw [timeOf_eq hdate (hd.year.trans_le hhigh) fun hfirst => by
        have hzero := hfirst.1
        have hyear := hd.year
        simp only at hzero
        omega]
      exact htime
    · simp only
      rw [hd.year, hmon, Nat.sub_add_cancel hmonth, hd.mday]
      exact d.day_le

theorem http_time_round_trip_2024 :
    ngxParseHttpTime (ngxHttpTime 1709164800) = .ok 1709164800 :=
  (http_time_round_trip (by decide) (by decide)).2

end MultiversionBalancer.Core.Times
