import MultiversionBalancer.Http.Bytes
import MultiversionBalancer.Lib.Gregorian
import MultiversionBalancer.Lib.Run

/-!
# Dates of headers

`ngx_parse_http_time` of `ngx_parse_time.c`: the three formats of dates, the test
of the fields, and the formula for the seconds since the epoch.

The bytes are read through a cursor that is compared with the end at a few places
only, so a read at or behind the end is a failure of its own here.
-/

namespace MultiversionBalancer.Core.Times

open Http (byte)
open Lib (Except.Ensures)

/-- `NGX_ERROR`, or a byte that is read at or behind the end. -/
inductive Failure where
  | error
  | overrun
  deriving DecidableEq

inductive Format where
  | no
  | rfc822
  | rfc850
  | isoc
  deriving DecidableEq

/-- What a date has been read as; months begin with 0. -/
structure Fields where
  day : ℕ
  month : ℕ
  year : ℕ
  hour : ℕ
  min : ℕ
  sec : ℕ
  deriving DecidableEq

/-! ## Reading -/

def peek (p : List UInt8) (i : ℕ) : Except Failure UInt8 :=
  match p[i]? with
  | some ch => .ok ch
  | none => .error .overrun

def digit (p : List UInt8) (i : ℕ) : Except Failure ℕ := do
  let ch ← peek p i
  if Http.isDigit ch then pure (ch - byte '0').toNat else .error .error

def twoDigits (p : List UInt8) : Except Failure ℕ := do
  let tens ← digit p 0
  let ones ← digit p 1
  pure (tens * 10 + ones)

def fourDigits (p : List UInt8) : Except Failure ℕ := do
  let thousands ← digit p 0
  let hundreds ← digit p 1
  let tens ← digit p 2
  let ones ← digit p 3
  pure (thousands * 1000 + hundreds * 100 + tens * 10 + ones)

/-- `if (*p++ != ch) return NGX_ERROR`. -/
def expect (p : List UInt8) (ch : UInt8) : Except Failure (List UInt8) := do
  let c ← peek p 0
  if c = ch then pure (p.drop 1) else .error .error

/-- The loop over the day of the week: a comma or a space ends it. -/
def skipWeekday : List UInt8 → Format × List UInt8
  | [] => (.no, [])
  | ch :: p =>
      if ch = byte ',' then (.no, ch :: p)
      else if ch = byte ' ' then (.isoc, ch :: p)
      else skipWeekday p

/-- The day of the first two formats, which they are told apart by; `day` has the
value that it has without one. -/
def readDay (fmt : Format) (p : List UInt8) :
    Except Failure (Format × ℕ × List UInt8) :=
  if fmt = .isoc then pure (fmt, 32, p)
  else do
    let day ← twoDigits p
    let p := p.drop 2
    let ch ← peek p 0
    if ch = byte ' ' then
      if p.length < 18 then .error .error else pure (.rfc822, day, p.drop 1)
    else if ch = byte '-' then pure (.rfc850, day, p.drop 1)
    else .error .error

def readMonth (p : List UInt8) : Except Failure ℕ := do
  let ch ← peek p 0
  if ch = byte 'J' then
    let second ← peek p 1
    if second = byte 'a' then pure 0
    else
      let third ← peek p 2
      if third = byte 'n' then pure 5 else pure 6
  else if ch = byte 'F' then pure 1
  else if ch = byte 'M' then
    let third ← peek p 2
    if third = byte 'r' then pure 2 else pure 4
  else if ch = byte 'A' then
    let second ← peek p 1
    if second = byte 'p' then pure 3 else pure 7
  else if ch = byte 'S' then pure 8
  else if ch = byte 'O' then pure 9
  else if ch = byte 'N' then pure 10
  else if ch = byte 'D' then pure 11
  else .error .error

def skipMonth (fmt : Format) (p : List UInt8) : Except Failure (List UInt8) :=
  match fmt with
  | .rfc822 => expect p (byte ' ')
  | .rfc850 => expect p (byte '-')
  | _ => pure (p.drop 1)

/-- The year of the first two formats; it has the value that it has without one. -/
def readYear (fmt : Format) (p : List UInt8) : Except Failure (ℕ × List UInt8) :=
  match fmt with
  | .rfc822 => do
      let year ← fourDigits p
      pure (year, p.drop 4)
  | .rfc850 => do
      let year ← twoDigits p
      pure (year + if year < 70 then 2000 else 1900, p.drop 2)
  | _ => pure (2038, p)

/-- The day of the third format, which may have one digit. -/
def readIsocDay (p : List UInt8) : Except Failure (ℕ × List UInt8) := do
  let ch ← peek p 0
  let p := if ch = byte ' ' then p.drop 1 else p
  let day ← digit p 0
  let p := p.drop 1
  let ch ← peek p 0
  if ch ≠ byte ' ' then
    let ones ← digit p 0
    let p := p.drop 1
    if p.length < 14 then .error .error else pure (day * 10 + ones, p)
  else if p.length < 14 then .error .error
  else pure (day, p)

/-- The time of day; what is left begins with the seconds. -/
def readClock (p : List UInt8) : Except Failure (ℕ × ℕ × ℕ × List UInt8) := do
  let p ← expect p (byte ' ')
  let hour ← twoDigits p
  let p ← expect (p.drop 2) (byte ':')
  let min ← twoDigits p
  let p ← expect (p.drop 2) (byte ':')
  let sec ← twoDigits p
  pure (hour, min, sec, p)

def readFields (fmt : Format) (p : List UInt8) : Except Failure Fields := do
  let (fmt, day, p) ← readDay fmt p
  let month ← readMonth p
  let p ← skipMonth fmt (p.drop 3)
  let (year, p) ← readYear fmt p
  let (day, p) ← if fmt = .isoc then readIsocDay p else pure (day, p)
  let (hour, min, sec, p) ← readClock p
  if fmt = .isoc then
    let p ← expect (p.drop 2) (byte ' ')
    let year ← fourDigits p
    pure ⟨day, month, year, hour, min, sec⟩
  else pure ⟨day, month, year, hour, min, sec⟩

/-- The part of `ngx_parse_http_time` that reads. -/
def readDate (value : List UInt8) : Except Failure Fields :=
  let (fmt, p) := skipWeekday value
  let p := (p.drop 1).dropWhile (· = byte ' ')
  if p.length < 18 then .error .error else readFields fmt p

/-! ## The time -/

/-- The lengths of the months. -/
def mday : List ℕ := [31, 28, 31, 30, 31, 30, 31, 31, 30, 31, 30, 31]

/-- The seconds since the epoch, with 64 bits; the year is unsigned. -/
def timeOf (f : Fields) : ℤ :=
  let month := if f.month ≤ 1 then f.month + 11 else f.month - 1
  let year := if f.month ≤ 1 then (f.year + 2 ^ 64 - 1) % 2 ^ 64 else f.year
  Int.bmod
    ((365 * year + (year / 4 : ℕ) - (year / 100 : ℕ) + (year / 400 : ℕ) +
        (367 * month / 12 : ℕ) - 30 + f.day - 1 - 719527 + 31 + 28) * 86400 +
      f.hour * 3600 + f.min * 60 + f.sec) (2 ^ 64)

def ngxParseHttpTime (value : List UInt8) : Except Failure ℤ := do
  let f ← readDate value
  if 23 < f.hour ∨ 59 < f.min ∨ 59 < f.sec then .error .error
  else if f.day = 29 ∧ f.month = 1 then
    if f.year &&& 3 ≠ 0 ∨ (f.year % 100 = 0 ∧ f.year % 400 ≠ 0) then .error .error
    else pure (timeOf f)
  else if mday.getD f.month 0 < f.day then .error .error
  else pure (timeOf f)

/-! ## Reads inside the text -/

section Reads

variable {p : List UInt8} {fmt : Format} {i : ℕ}

theorem peek_ensures (h : i < p.length) :
    Except.Ensures Failure.overrun (fun _ => True) (peek p i) := by
  rw [peek, List.getElem?_eq_getElem h]
  trivial

theorem digit_ensures (h : i < p.length) :
    Except.Ensures Failure.overrun (· ≤ 9) (digit p i) := by
  exact (peek_ensures h).bind fun ch _ => .ite (fun hdigit => Http.digit_le hdigit) fun _ => nofun

theorem twoDigits_ensures (h : 2 ≤ p.length) :
    Except.Ensures Failure.overrun (· ≤ 99) (twoDigits p) := by
  refine (digit_ensures (by omega)).bind fun tens htens => ?_
  refine (digit_ensures (by omega)).bind fun ones hones => ?_
  change tens * 10 + ones ≤ 99
  omega

theorem fourDigits_ensures (h : 4 ≤ p.length) :
    Except.Ensures Failure.overrun (· ≤ 9999) (fourDigits p) := by
  refine (digit_ensures (by omega)).bind fun thousands hthousands => ?_
  refine (digit_ensures (by omega)).bind fun hundreds hhundreds => ?_
  refine (digit_ensures (by omega)).bind fun tens htens => ?_
  refine (digit_ensures (by omega)).bind fun ones hones => ?_
  change thousands * 1000 + hundreds * 100 + tens * 10 + ones ≤ 9999
  omega

theorem expect_ensures (h : 1 ≤ p.length) (ch : UInt8) :
    Except.Ensures Failure.overrun (fun p' => p'.length + 1 = p.length) (expect p ch) := by
  refine (peek_ensures h).bind fun c _ => .ite (fun _ => ?_) fun _ => nofun
  change (p.drop 1).length + 1 = p.length
  rw [List.length_drop]
  omega

/-- The bytes that a format needs from the month on. -/
def Format.rest : Format → ℕ
  | .no => 0
  | .rfc822 => 17
  | .rfc850 => 15
  | .isoc => 18

/-- The bytes of the year behind the month. -/
def Format.year : Format → ℕ
  | .rfc822 => 4
  | .rfc850 => 2
  | _ => 0

theorem readDay_ensures (h : 18 ≤ p.length) :
    Except.Ensures Failure.overrun
      (fun r => r.1 ≠ .no ∧ r.1.rest ≤ r.2.2.length ∧ r.2.1 ≤ 99) (readDay fmt p) := by
  refine .ite (fun hfmt => ?_) fun _ => ?_
  · subst hfmt
    exact ⟨nofun, h, show 32 ≤ 99 by decide⟩
  · refine (twoDigits_ensures (by omega)).bind fun day hday => ?_
    refine (peek_ensures (by rw [List.length_drop]; omega)).bind fun ch _ => ?_
    refine .ite (fun _ => .ite (fun _ => nofun) fun hlength => ?_) fun _ =>
      .ite (fun _ => ?_) fun _ => nofun
    · refine ⟨nofun, ?_, hday⟩
      rw [List.length_drop] at hlength
      simp only [Format.rest, List.length_drop]
      omega
    · refine ⟨nofun, ?_, hday⟩
      simp only [Format.rest, List.length_drop]
      omega

theorem readMonth_ensures (h : 3 ≤ p.length) :
    Except.Ensures Failure.overrun (· ≤ 11) (readMonth p) := by
  have hbyte {i : ℕ} (hi : i ≤ 2) := peek_ensures (p := p) (Nat.lt_of_le_of_lt hi h)
  have hmonth {m : ℕ} (hm : m ≤ 11) : Except.Ensures Failure.overrun (· ≤ 11) (.ok m) := hm
  refine (hbyte (by decide)).bind fun ch _ => ?_
  refine .ite (fun _ => (hbyte (by decide)).bind fun second _ => ?_) fun _ => ?_
  · refine .ite (fun _ => hmonth (by decide)) fun _ => ?_
    exact (hbyte (by decide)).bind fun third _ =>
      .ite (fun _ => hmonth (by decide)) fun _ => hmonth (by decide)
  refine .ite (fun _ => hmonth (by decide)) fun _ => ?_
  refine .ite (fun _ => (hbyte (by decide)).bind fun third _ => ?_) fun _ => ?_
  · exact .ite (fun _ => hmonth (by decide)) fun _ => hmonth (by decide)
  refine .ite (fun _ => (hbyte (by decide)).bind fun second _ => ?_) fun _ => ?_
  · exact .ite (fun _ => hmonth (by decide)) fun _ => hmonth (by decide)
  refine .ite (fun _ => hmonth (by decide)) fun _ => ?_
  refine .ite (fun _ => hmonth (by decide)) fun _ => ?_
  refine .ite (fun _ => hmonth (by decide)) fun _ => ?_
  exact .ite (fun _ => hmonth (by decide)) fun _ => nofun

theorem skipMonth_ensures (h : 1 ≤ p.length) :
    Except.Ensures Failure.overrun (fun p' => p'.length + 1 = p.length) (skipMonth fmt p) := by
  cases fmt with
  | rfc822 => exact expect_ensures h _
  | rfc850 => exact expect_ensures h _
  | _ =>
      change (p.drop 1).length + 1 = p.length
      rw [List.length_drop]
      omega

theorem readYear_ensures (h : fmt.year ≤ p.length) :
    Except.Ensures Failure.overrun
      (fun r => r.1 ≤ 9999 ∧ r.2.length + fmt.year = p.length) (readYear fmt p) := by
  cases fmt with
  | rfc822 =>
      refine (fourDigits_ensures h).bind fun year hyear => ⟨hyear, ?_⟩
      rw [List.length_drop]
      exact Nat.sub_add_cancel h
  | rfc850 =>
      refine (twoDigits_ensures h).bind fun year hyear => ⟨?_, ?_⟩
      · change (year + if year < 70 then 2000 else 1900) ≤ 9999
        split <;> omega
      · rw [List.length_drop]
        exact Nat.sub_add_cancel h
  | _ => exact ⟨show 2038 ≤ 9999 by decide, rfl⟩

theorem readIsocDay_ensures (h : 14 ≤ p.length) :
    Except.Ensures Failure.overrun (fun r => r.1 ≤ 99 ∧ 14 ≤ r.2.length) (readIsocDay p) := by
  refine (peek_ensures (by omega)).bind fun ch _ => ?_
  obtain ⟨q, hq, hlength⟩ : ∃ q, (if ch = byte ' ' then p.drop 1 else p) = q ∧
      13 ≤ q.length := by
    refine ⟨_, rfl, ?_⟩
    split
    · rw [List.length_drop]
      omega
    · omega
  simp only [hq]
  refine (digit_ensures (by omega)).bind fun day hday => ?_
  refine (peek_ensures (by rw [List.length_drop]; omega)).bind fun ch' _ => ?_
  refine .ite (fun _ => ?_) fun _ => .ite (fun _ => nofun) fun hleft => ⟨?_, ?_⟩
  · refine (digit_ensures (by rw [List.length_drop]; omega)).bind fun ones hones => ?_
    refine .ite (fun _ => nofun) fun hleft => ⟨?_, ?_⟩
    · change day * 10 + ones ≤ 99
      omega
    · exact Nat.le_of_not_lt hleft
  · exact hday.trans (by decide)
  · exact Nat.le_of_not_lt hleft

theorem readClock_ensures (h : 9 ≤ p.length) :
    Except.Ensures Failure.overrun (fun r => r.2.2.2.length + 7 = p.length) (readClock p) := by
  refine (expect_ensures (by omega) _).bind fun p₁ h₁ => ?_
  refine (twoDigits_ensures (by omega)).bind fun hour _ => ?_
  refine (expect_ensures (by rw [List.length_drop]; omega) _).bind fun p₂ h₂ => ?_
  rw [List.length_drop] at h₂
  refine (twoDigits_ensures (by omega)).bind fun min _ => ?_
  refine (expect_ensures (by rw [List.length_drop]; omega) _).bind fun p₃ h₃ => ?_
  rw [List.length_drop] at h₃
  refine (twoDigits_ensures (by omega)).bind fun sec _ => ?_
  change p₃.length + 7 = p.length
  omega

theorem readFields_ensures (h : 18 ≤ p.length) :
    Except.Ensures Failure.overrun (fun f => f.month ≤ 11 ∧ f.year ≤ 9999 ∧ f.day ≤ 99)
      (readFields fmt p) := by
  refine (readDay_ensures h).bind fun ⟨fmt, day, p⟩ ⟨hfmt, hrest, hday⟩ => ?_
  have hlong : 15 ≤ p.length ∧ 9 + fmt.year + 4 ≤ p.length := by
    cases fmt with
    | no => exact absurd rfl hfmt
    | _ =>
        simp only [Format.rest, Format.year] at *
        omega
  refine (readMonth_ensures (by omega)).bind fun month hmonth => ?_
  refine (skipMonth_ensures (by rw [List.length_drop]; omega)).bind fun p₁ h₁ => ?_
  rw [List.length_drop] at h₁
  refine (readYear_ensures (by omega)).bind fun ⟨year, p₂⟩ ⟨hyear, h₂⟩ => ?_
  change p₂.length + fmt.year = p₁.length at h₂
  by_cases hisoc : fmt = .isoc
  · subst hisoc
    change 18 ≤ p.length at hrest
    change p₂.length = p₁.length at h₂
    refine (Except.Ensures.bind (readIsocDay_ensures (by omega))
      fun ⟨day, p₃⟩ ⟨hday, h₃⟩ => ?_)
    change 14 ≤ p₃.length at h₃
    refine (readClock_ensures (by omega)).bind fun ⟨hour, min, sec, p₄⟩ h₄ => ?_
    change p₄.length + 7 = p₃.length at h₄
    refine (expect_ensures (by rw [List.length_drop]; omega) _).bind fun p₅ h₅ => ?_
    rw [List.length_drop] at h₅
    exact (fourDigits_ensures (by omega)).bind fun year hyear => ⟨hmonth, hyear, hday⟩
  · simp only [if_neg hisoc]
    refine (readClock_ensures (p := p₂) (by omega)).bind fun ⟨hour, min, sec, p₄⟩ _ => ?_
    exact ⟨hmonth, hyear, hday⟩

theorem readDate_ensures (value : List UInt8) :
    Except.Ensures Failure.overrun (fun f => f.month ≤ 11 ∧ f.year ≤ 9999 ∧ f.day ≤ 99)
      (readDate value) := by
  refine .ite (fun _ => nofun) fun hlength => readFields_ensures (Nat.le_of_not_lt hlength)

end Reads

/-! ## The date and its time -/

section Time

variable {f : Fields} {d : Gregorian.Date}

structure Fields.IsDate (f : Fields) (d : Gregorian.Date) : Prop where
  year : d.year = f.year
  month : d.month = f.month + 1
  day : d.day = f.day
  hour : f.hour ≤ 23
  min : f.min ≤ 59
  sec : f.sec ≤ 59

/-- January and February of the year 0, whose year is one before the first one. -/
def Fields.BeforeMarch (f : Fields) : Prop :=
  f.year = 0 ∧ f.month ≤ 1

/-- The formula, where the year does not wrap. -/
theorem timeOf_eq (hd : f.IsDate d) (hyear : f.year ≤ 9999) (hfirst : ¬f.BeforeMarch) :
    timeOf f = d.seconds f.hour f.min f.sec := by
  obtain ⟨hy, hm, hday, hhour, hmin, hsec⟩ := hd
  have hmonth := d.month_le
  have hdays := d.day_le
  have hlength := Gregorian.monthLength_le d.year d.month
  rw [Fields.BeforeMarch] at hfirst
  rw [timeOf, Gregorian.Date.seconds, Gregorian.number_epoch]
  by_cases hjanuary : f.month ≤ 1
  · have hnumber := Gregorian.Date.number_january (d := d) (by omega) (by omega)
    rw [Gregorian.daysBeforeMarch, Gregorian.daysFromMarch] at hnumber
    have hwrap : (f.year + 2 ^ 64 - 1) % 2 ^ 64 = f.year - 1 := by omega
    simp only [if_pos hjanuary, hwrap]
    rw [Int.bmod_eq_of_le_mul_two (by omega) (by omega)]
    omega
  · have hnumber := Gregorian.Date.number_march (d := d) (by omega)
    rw [Gregorian.daysBeforeMarch, Gregorian.daysFromMarch] at hnumber
    simp only [if_neg hjanuary]
    rw [Int.bmod_eq_of_le_mul_two (by omega) (by omega)]
    omega

/-- The last unsigned year has as many leap years before it as fit, and not -1. -/
theorem wrapped_ne {a b : ℤ} (h : a - b = 582123017290336782287644800) :
    a % ((2 ^ 64 : ℕ) : ℤ) ≠ b % ((2 ^ 64 : ℕ) : ℤ) := by
  omega

/-- The formula with a year that wraps. -/
theorem timeOf_ne (hd : f.IsDate d) (hfirst : f.BeforeMarch) :
    timeOf f ≠ d.seconds f.hour f.min f.sec := by
  obtain ⟨hy, hm, hday, hhour, hmin, hsec⟩ := hd
  obtain ⟨hzero, hjanuary⟩ := hfirst
  intro heq
  have hmonths := Gregorian.daysBeforeMonth_january d.year d.month_pos (by omega)
  have hnumber : d.number = Gregorian.daysBeforeMonth d.year d.month + d.day := by
    rw [Gregorian.Date.number, hy, hzero, Gregorian.daysBeforeYear, Nat.zero_add]
  rw [Gregorian.daysFromMarch] at hmonths
  have hmod := congrArg (· % ((2 ^ 64 : ℕ) : ℤ)) heq
  have hwrap : (f.year + 2 ^ 64 - 1) % 2 ^ 64 = 18446744073709551615 := by omega
  rw [Gregorian.Date.seconds, Gregorian.number_epoch, timeOf] at hmod
  simp only [if_pos hjanuary, hwrap, Int.bmod_emod, Nat.reduceDiv, Nat.cast_ofNat] at hmod
  clear heq hwrap
  refine wrapped_ne ?_ hmod
  clear hmod
  omega

theorem day_le_iff (hmonth : f.month ≤ 11) :
    f.day ≤ Gregorian.monthLength f.year (f.month + 1) ↔
      if f.day = 29 ∧ f.month = 1 then
        ¬(f.year &&& 3 ≠ 0 ∨ (f.year % 100 = 0 ∧ f.year % 400 ≠ 0))
      else ¬mday.getD f.month 0 < f.day := by
  have hand : f.year &&& 3 = f.year % 4 := Nat.and_two_pow_sub_one_eq_mod f.year 2
  rw [hand]
  obtain ⟨day, month, year, hour, min, sec⟩ := f
  simp only at *
  by_cases hfeb : month = 1
  · subst hfeb
    have hlength : mday.getD 1 0 = 28 := rfl
    rw [Gregorian.monthLength, if_pos rfl, hlength]
    by_cases hleap : Gregorian.Leap year
    · rw [if_pos hleap]
      rw [Gregorian.Leap] at hleap
      split <;> omega
    · rw [if_neg hleap]
      rw [Gregorian.Leap] at hleap
      split <;> omega
  · rw [if_neg (by omega), Nat.not_lt]
    have hlength : mday.getD month 0 = Gregorian.monthLength year (month + 1) := by
      interval_cases month
      · rfl
      · exact absurd rfl hfeb
      all_goals rfl
    rw [hlength]

end Time

theorem parseHttpTime_ok_iff {value : List UInt8} {t : ℤ} :
    ngxParseHttpTime value = .ok t ↔
      ∃ f, readDate value = .ok f ∧ t = timeOf f ∧ f.hour ≤ 23 ∧ f.min ≤ 59 ∧ f.sec ≤ 59 ∧
        f.day ≤ Gregorian.monthLength f.year (f.month + 1) := by
  have hensures := readDate_ensures value
  rw [ngxParseHttpTime, Lib.Except.bind_eq_ok]
  refine exists_congr fun f => and_congr_right fun hf => ?_
  rw [hf] at hensures
  rw [day_le_iff hensures.1]
  by_cases hclock : 23 < f.hour ∨ 59 < f.min ∨ 59 < f.sec
  · rw [if_pos hclock]
    refine iff_of_false nofun ?_
    rintro ⟨-, hhour, hmin, hsec, -⟩
    omega
  · rw [if_neg hclock]
    have hok : f.hour ≤ 23 ∧ f.min ≤ 59 ∧ f.sec ≤ 59 := by omega
    have htime : (pure (timeOf f) : Except Failure ℤ) = .ok t ↔ t = timeOf f :=
      ⟨fun h => (Except.ok.inj h).symm, fun h => congrArg Except.ok h.symm⟩
    split
    · split
      · exact iff_of_false nofun fun h => absurd ‹_› h.2.2.2.2
      · rw [htime]
        exact ⟨fun h => ⟨h, hok.1, hok.2.1, hok.2.2, ‹_›⟩, And.left⟩
    · split
      · exact iff_of_false nofun fun h => absurd ‹_› h.2.2.2.2
      · rw [htime]
        exact ⟨fun h => ⟨h, hok.1, hok.2.1, hok.2.2, ‹_›⟩, And.left⟩

/-- `ngx_parse_http_time` reads no byte at or behind the end.  What it accepts is a date
and its time if the day is not 0 and the month is not January or February of the year 0,
and otherwise never. -/
theorem parseHttpTime_date_iff (value : List UInt8) :
    ngxParseHttpTime value ≠ .error .overrun ∧
    ∀ (f : Fields) (t : ℤ), readDate value = .ok f → ngxParseHttpTime value = .ok t →
      ((∃ d, f.IsDate d ∧ t = d.seconds f.hour f.min f.sec) ↔
        f.day ≠ 0 ∧ ¬(f.year = 0 ∧ f.month ≤ 1)) := by
  have hensures := readDate_ensures value
  constructor
  · refine Lib.Except.bind_ne_error (fun h => ?_) fun f _ => ?_
    · rw [h] at hensures
      exact hensures rfl
    · split
      · nofun
      · split
        · split <;> nofun
        · split <;> nofun
  · intro f t hf ht
    obtain ⟨f', hf', rfl, hhour, hmin, hsec, hday⟩ := parseHttpTime_ok_iff.mp ht
    obtain rfl : f = f' := Except.ok.inj (hf.symm.trans hf')
    rw [hf] at hensures
    obtain ⟨hmonth, hyear, -⟩ := hensures
    constructor
    · rintro ⟨d, hd, htime⟩
      refine ⟨?_, fun hfirst => timeOf_ne hd hfirst htime⟩
      rw [← hd.day]
      exact Nat.one_le_iff_ne_zero.mp d.day_pos
    · rintro ⟨hpos, hfirst⟩
      have hd : f.IsDate ⟨f.year, f.month + 1, f.day, Nat.succ_pos _, Nat.succ_le_succ hmonth,
          Nat.one_le_iff_ne_zero.mpr hpos, hday⟩ :=
        ⟨rfl, rfl, rfl, hhour, hmin, hsec⟩
      exact ⟨_, hd, timeOf_eq hd hyear hfirst⟩

/-- The day before the first of November is read as a day of November. -/
theorem parseHttpTime_day_zero :
    ∃ f t, readDate (Http.bytes "Sun, 00 Nov 1994 08:49:37 GMT") = .ok f ∧
      ngxParseHttpTime (Http.bytes "Sun, 00 Nov 1994 08:49:37 GMT") = .ok t ∧
      ¬∃ d, f.IsDate d ∧ t = d.seconds f.hour f.min f.sec := by
  refine ⟨⟨0, 10, 1994, 8, 49, 37⟩, 783593377, by decide +kernel, by decide +kernel, ?_⟩
  rintro ⟨d, hd, -⟩
  exact absurd hd.day (Nat.one_le_iff_ne_zero.mp d.day_pos)

end MultiversionBalancer.Core.Times
