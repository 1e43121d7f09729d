import MultiversionBalancer.Http.Bytes
import MultiversionBalancer.Lib.Run
import Mathlib.Data.List.Induction

/-!
# Times of the configuration

`ngx_parse_time` of `ngx_parse.c`: numbers with units, from years to milliseconds.
The arithmetic is the one of 64 bits, and an overflow would be a failure of its own.
-/

namespace MultiversionBalancer.Core.Durations

open Http (byte isDigit digitByte)

def maxInt : ℕ := 9223372036854775807

/-- `NGX_ERROR`, or a signed overflow. -/
inductive Failure where
  | error
  | overflow
  deriving DecidableEq

/-- A result of signed arithmetic, which is not negative. -/
def checked (n : ℕ) : Except Failure ℕ :=
  if n ≤ maxInt then .ok n else .error .overflow

inductive Step where
  | start
  | year
  | month
  | week
  | day
  | hour
  | min
  | sec
  | msec
  | last
  deriving DecidableEq

def Step.rank : Step → ℕ
  | .start => 0
  | .year => 1
  | .month => 2
  | .week => 3
  | .day => 4
  | .hour => 5
  | .min => 6
  | .sec => 7
  | .msec => 8
  | .last => 9

/-- The cases of the switch; a space stands in place of a unit. -/
inductive TimeUnit where
  | year
  | month
  | week
  | day
  | hour
  | min
  | sec
  | msec
  | blank
  deriving DecidableEq

/-- `step`, `max` and `scale` after a case, or `NGX_ERROR`. -/
def enter (isSec : Bool) (step : Step) : TimeUnit → Option (Step × ℕ × ℕ)
  | .year =>
      if step.rank > Step.start.rank then none
      else some (.year, maxInt / (60 * 60 * 24 * 365), 60 * 60 * 24 * 365)
  | .month =>
      if step.rank ≥ Step.month.rank then none
      else some (.month, maxInt / (60 * 60 * 24 * 30), 60 * 60 * 24 * 30)
  | .week =>
      if step.rank ≥ Step.week.rank then none
      else some (.week, maxInt / (60 * 60 * 24 * 7), 60 * 60 * 24 * 7)
  | .day =>
      if step.rank ≥ Step.day.rank then none
      else some (.day, maxInt / (60 * 60 * 24), 60 * 60 * 24)
  | .hour =>
      if step.rank ≥ Step.hour.rank then none
      else some (.hour, maxInt / (60 * 60), 60 * 60)
  | .msec =>
      if isSec ∨ step.rank ≥ Step.msec.rank then none else some (.msec, maxInt, 1)
  | .min =>
      if step.rank ≥ Step.min.rank then none else some (.min, maxInt / 60, 60)
  | .sec =>
      if step.rank ≥ Step.sec.rank then none else some (.sec, maxInt, 1)
  | .blank =>
      if step.rank ≥ Step.sec.rank then none else some (.last, maxInt, 1)

structure Locals where
  step : Step
  value : ℕ
  total : ℕ
  valid : Bool

/-- What follows the switch. -/
def account (isSec : Bool) (s : Locals) (unit : TimeUnit) : Except Failure Locals :=
  match enter isSec s.step unit with
  | none => .error .error
  | some (step, max, scale) =>
      let seconds := step ≠ .msec ∧ isSec = false
      let scale := if seconds then scale * 1000 else scale
      let max := if seconds then max / 1000 else max
      if max < s.value then .error .error
      else do
        let value ← checked (s.value * scale)
        if maxInt - value < s.total then .error .error
        else do
          let total ← checked (s.total + value)
          .ok { s with step := step, value := 0, total := total }

def readDigit (s : Locals) (d : ℕ) : Except Failure Locals :=
  let cutoff := maxInt / 10
  let cutlim := maxInt % 10
  if cutoff ≤ s.value ∧ (cutoff < s.value ∨ cutlim < d) then .error .error
  else do
    let value ← checked (s.value * 10 + d)
    .ok { s with value := value, valid := true }

/-- The case of a byte; `m` is looked at with the byte behind it. -/
def unitOf (ch : UInt8) : Option TimeUnit :=
  if ch = byte 'y' then some .year
  else if ch = byte 'M' then some .month
  else if ch = byte 'w' then some .week
  else if ch = byte 'd' then some .day
  else if ch = byte 'h' then some .hour
  else if ch = byte 'm' then some .min
  else if ch = byte 's' then some .sec
  else if ch = byte ' ' then some .blank
  else none

/-- The loop; `skip` tells that a unit has just been read, and spaces are passed. -/
def timeLoop (isSec : Bool) : List UInt8 → Locals → Bool → Except Failure Locals
  | [], s, _ => .ok s
  | ch :: p, s, skip =>
      if skip ∧ ch = byte ' ' then timeLoop isSec p s true
      else if isDigit ch then
        (readDigit s (ch - byte '0').toNat).bind fun s => timeLoop isSec p s false
      else
        match unitOf ch, p with
        | none, _ => .error .error
        | some .min, c :: q =>
            if c = byte 's' then
              (account isSec s .msec).bind fun s => timeLoop isSec q s true
            else (account isSec s .min).bind fun s => timeLoop isSec (c :: q) s true
        | some unit, p => (account isSec s unit).bind fun s => timeLoop isSec p s true

/-- What follows the loop. -/
def timeEnd (isSec : Bool) (s : Locals) : Except Failure ℕ :=
  if s.valid = false then .error .error
  else if isSec = false ∧ maxInt / 1000 < s.value then .error .error
  else do
    let value ← checked (if isSec then s.value else s.value * 1000)
    if maxInt - value < s.total then .error .error
    else checked (s.total + value)

def firstStep (isSec : Bool) : Step :=
  if isSec then .start else .month

def ngxParseTime (line : List UInt8) (isSec : Bool) : Except Failure ℕ :=
  (timeLoop isSec line ⟨firstStep isSec, 0, 0, false⟩ false).bind (timeEnd isSec)

/-! ## Groups -/

/-- The digits of a number and what stands behind them. -/
structure Group where
  digits : List ℕ
  unit : TimeUnit
  deriving DecidableEq

/-- The groups of a text and the digits behind the last one, if every byte can be
part of a time; `ds` are the digits that have been read, and spaces behind a unit
belong to it. -/
def groupsOf : List UInt8 → List ℕ → Bool → Option (List Group × List ℕ)
  | [], ds, _ => some ([], ds)
  | ch :: p, ds, skip =>
      if skip ∧ ch = byte ' ' then groupsOf p ds true
      else if isDigit ch then groupsOf p (ds ++ [(ch - byte '0').toNat]) false
      else
        match unitOf ch, p with
        | none, _ => none
        | some .min, c :: q =>
            if c = byte 's' then (groupsOf q [] true).map fun r => (⟨ds, .msec⟩ :: r.1, r.2)
            else (groupsOf (c :: q) [] true).map fun r => (⟨ds, .min⟩ :: r.1, r.2)
        | some unit, p => (groupsOf p [] true).map fun r => (⟨ds, unit⟩ :: r.1, r.2)

/-- The number that digits stand for. -/
def number (ds : List ℕ) : ℕ :=
  ds.foldl (fun n d => n * 10 + d) 0

def TimeUnit.step : TimeUnit → Step
  | .year => .year
  | .month => .month
  | .week => .week
  | .day => .day
  | .hour => .hour
  | .min => .min
  | .sec => .sec
  | .msec => .msec
  | .blank => .last

/-- The step before which a unit may stand; a space stands for seconds. -/
def TimeUnit.bound : TimeUnit → Step
  | .blank => .sec
  | unit => unit.step

/-- The seconds of a unit, and for `ms` the milliseconds. -/
def TimeUnit.seconds : TimeUnit → ℕ
  | .year => 365 * 24 * 60 * 60
  | .month => 30 * 24 * 60 * 60
  | .week => 7 * 24 * 60 * 60
  | .day => 24 * 60 * 60
  | .hour => 60 * 60
  | .min => 60
  | .sec => 1
  | .msec => 1
  | .blank => 1

/-- What a unit stands for in the result, which is in seconds or in milliseconds. -/
def weight (isSec : Bool) (unit : TimeUnit) : ℕ :=
  if unit ≠ .msec ∧ isSec = false then unit.seconds * 1000 else unit.seconds

/-- A unit may stand behind a step. -/
def Enters (isSec : Bool) (step : Step) (unit : TimeUnit) : Prop :=
  step.rank < unit.bound.rank ∧ (unit = .msec → isSec = false)

instance (isSec : Bool) (step : Step) (unit : TimeUnit) : Decidable (Enters isSec step unit) :=
  inferInstanceAs (Decidable (_ ∧ _))

/-- The units of groups come in order. -/
def Ordered (isSec : Bool) : Step → List Group → Prop
  | _, [] => True
  | step, g :: gs => Enters isSec step g.unit ∧ Ordered isSec g.unit.step gs

instance instDecidableOrdered (isSec : Bool) :
    (step : Step) → (gs : List Group) → Decidable (Ordered isSec step gs)
  | _, [] => instDecidableTrue
  | step, g :: gs =>
      have := instDecidableOrdered isSec g.unit.step gs
      inferInstanceAs (Decidable (Enters isSec step g.unit ∧ Ordered isSec g.unit.step gs))

/-- The numbers times their units. -/
def sumOf (isSec : Bool) (gs : List Group) : ℕ :=
  (gs.map fun g => number g.digits * weight isSec g.unit).sum

def hasDigits (gs : List Group) (last : List ℕ) : Bool :=
  gs.any (fun g => !g.digits.isEmpty) || !last.isEmpty

theorem sumOf_cons (isSec : Bool) (ds : List ℕ) (unit : TimeUnit) (gs : List Group) :
    sumOf isSec (⟨ds, unit⟩ :: gs) = number ds * weight isSec unit + sumOf isSec gs :=
  List.sum_cons

theorem ordered_cons (isSec : Bool) (step : Step) (g : Group) (gs : List Group) :
    Ordered isSec step (g :: gs) ↔ Enters isSec step g.unit ∧ Ordered isSec g.unit.step gs :=
  Iff.rfl

/-! ## Steps of the loop -/

theorem number_append (ds : List ℕ) (d : ℕ) : number (ds ++ [d]) = number ds * 10 + d := by
  rw [number, List.foldl_append]
  rfl

theorem checked_ok {n : ℕ} (h : n ≤ maxInt) : checked n = .ok n :=
  if_pos h

theorem readDigit_eq (s : Locals) {d : ℕ} (hd : d ≤ 9) :
    readDigit s d =
      if s.value * 10 + d ≤ maxInt then
        .ok { s with value := s.value * 10 + d, valid := true }
      else .error .error := by
  have hmax : maxInt = 10 * (maxInt / 10) + maxInt % 10 := by decide
  have hlim : maxInt % 10 = 7 := by decide
  rw [readDigit]
  by_cases hfits : s.value * 10 + d ≤ maxInt
  · rw [if_pos hfits, if_neg (by omega), checked_ok hfits]
    rfl
  · rw [if_neg hfits, if_pos (by omega)]

theorem enter_eq (isSec : Bool) (step : Step) (unit : TimeUnit) :
    enter isSec step unit =
      if Enters isSec step unit then some (unit.step, maxInt / unit.seconds, unit.seconds)
      else none := by
  cases unit <;> cases step <;> cases isSec <;> rfl

/-- A unit is accounted for if it comes in order and the sum fits. -/
theorem account_eq (isSec : Bool) (s : Locals) (unit : TimeUnit) :
    account isSec s unit =
      if Enters isSec s.step unit ∧ s.total + s.value * weight isSec unit ≤ maxInt then
        .ok ⟨unit.step, 0, s.total + s.value * weight isSec unit, s.valid⟩
      else .error .error := by
  have hpos : 0 < weight isSec unit := by
    cases unit <;> cases isSec <;> decide
  have hstep : unit.step ≠ .msec ↔ unit ≠ .msec := by
    cases unit <;> decide
  have hmax : (if unit ≠ .msec ∧ isSec = false then maxInt / unit.seconds / 1000
      else maxInt / unit.seconds) = maxInt / weight isSec unit := by
    rw [weight]
    split
    · rw [Nat.div_div_eq_div_mul]
    · rfl
  rw [account, enter_eq]
  by_cases henters : Enters isSec s.step unit
  · rw [if_pos henters]
    simp only [hstep]
    rw [hmax, ← weight]
    by_cases hvalue : maxInt / weight isSec unit < s.value
    · have hlarge := (Nat.div_lt_iff_lt_mul hpos).mp hvalue
      rw [if_pos hvalue, if_neg (by omega)]
    · have hsmall := (Nat.le_div_iff_mul_le hpos).mp (Nat.le_of_not_lt hvalue)
      rw [if_neg hvalue, checked_ok hsmall]
      change (if maxInt - s.value * weight isSec unit < s.total then _ else _) = _
      by_cases htotal : s.total + s.value * weight isSec unit ≤ maxInt
      · rw [if_neg (by omega), if_pos ⟨henters, htotal⟩, checked_ok htotal]
        rfl
      · rw [if_pos (by omega), if_neg fun h => htotal h.2]
  · rw [if_neg henters, if_neg fun h => henters h.1]

/-! ## The loop -/

/-- The unit at a byte that is no digit, and what stands behind it. -/
def nextUnit (ch : UInt8) (p : List UInt8) : Option (TimeUnit × List UInt8) :=
  match unitOf ch, p with
  | none, _ => none
  | some .min, c :: q => if c = byte 's' then some (.msec, q) else some (.min, c :: q)
  | some unit, p => some (unit, p)

theorem nextUnit_cases {ch : UInt8} {p q : List UInt8} {unit : TimeUnit}
    (h : nextUnit ch p = some (unit, q)) :
    unitOf ch ≠ none ∧ (p = q ∨ p = byte 's' :: q) := by
  unfold nextUnit at h
  split at h
  · cases h
  · next hunit =>
    rw [hunit]
    split at h
    · next hs =>
      cases h
      exact ⟨nofun, .inr (by rw [hs])⟩
    · cases h
      exact ⟨nofun, .inl rfl⟩
  · next hunit _ =>
    cases h
    rw [hunit]
    exact ⟨nofun, .inl rfl⟩

theorem length_nextUnit {ch : UInt8} {p q : List UInt8} {unit : TimeUnit}
    (h : nextUnit ch p = some (unit, q)) : q.length ≤ p.length := by
  obtain ⟨-, rfl | rfl⟩ := nextUnit_cases h
  · exact Nat.le_refl _
  · exact Nat.le_succ _

section Loop

variable {isSec skip : Bool} {ch : UInt8} {p : List UInt8} {ds : List ℕ} {s : Locals}

theorem groupsOf_cons : groupsOf (ch :: p) ds skip =
    if skip ∧ ch = byte ' ' then groupsOf p ds true
    else if isDigit ch then groupsOf p (ds ++ [(ch - byte '0').toNat]) false
    else (nextUnit ch p).bind fun u => (groupsOf u.2 [] true).map fun r =>
      (⟨ds, u.1⟩ :: r.1, r.2) := by
  rw [groupsOf.eq_def]
  simp only
  congr 2
  unfold nextUnit
  split
  · rfl
  · split
    · rfl
    · rfl
  · rfl

theorem timeLoop_cons : timeLoop isSec (ch :: p) s skip =
    if skip ∧ ch = byte ' ' then timeLoop isSec p s true
    else if isDigit ch then
      (readDigit s (ch - byte '0').toNat).bind fun s => timeLoop isSec p s false
    else
      match nextUnit ch p with
      | none => .error .error
      | some (unit, q) => (account isSec s unit).bind fun s => timeLoop isSec q s true := by
  rw [timeLoop.eq_def]
  simp only
  congr 2
  unfold nextUnit
  split
  · rfl
  · split
    · rfl
    · rfl
  · rfl

theorem number_append_le (ds more : List ℕ) : number ds ≤ number (ds ++ more) := by
  induction more using List.reverseRecOn with
  | nil => rw [List.append_nil]
  | append_singleton more d ih =>
      rw [← List.append_assoc, number_append]
      omega

theorem weight_pos (isSec : Bool) (unit : TimeUnit) : 0 < weight isSec unit := by
  cases unit <;> cases isSec <;> decide

/-- The digits that have been read are the first ones of a number. -/
theorem groupsOf_first {gs : List Group} {last : List ℕ}
    (h : groupsOf p ds skip = some (gs, last)) :
    ∃ more, (gs = [] ∧ last = ds ++ more) ∨ ∃ unit gs', gs = ⟨ds ++ more, unit⟩ :: gs' := by
  induction p generalizing ds skip gs last with
  | nil =>
      cases h
      exact ⟨[], .inl ⟨rfl, (List.append_nil ds).symm⟩⟩
  | cons ch p ih =>
      rw [groupsOf_cons] at h
      by_cases hskip : skip = true ∧ ch = byte ' '
      · rw [if_pos hskip] at h
        exact ih h
      · rw [if_neg hskip] at h
        cases hdigit : isDigit ch with
        | true =>
            rw [if_pos hdigit] at h
            obtain ⟨more, hmore⟩ := ih h
            rw [List.append_assoc] at hmore
            exact ⟨_, hmore⟩
        | false =>
            rw [hdigit, if_neg Bool.false_ne_true] at h
            obtain ⟨⟨unit, q⟩, -, h⟩ := Option.bind_eq_some_iff.mp h
            obtain ⟨⟨gs', last'⟩, -, heq⟩ := Option.map_eq_some_iff.mp h
            cases heq
            exact ⟨[], .inr ⟨unit, gs', by rw [List.append_nil]⟩⟩

/-- What the loop makes of the groups of a text. -/
def loopEnd (isSec : Bool) (s : Locals) :
    Option (List Group × List ℕ) → Except Failure Locals
  | none => .error .error
  | some (gs, last) =>
      if Ordered isSec s.step gs ∧ s.total + sumOf isSec gs ≤ maxInt ∧ number last ≤ maxInt then
        .ok ⟨gs.foldl (fun _ g => g.unit.step) s.step, number last, s.total + sumOf isSec gs,
          s.valid || hasDigits gs last⟩
      else .error .error

theorem loopEnd_digit {value : ℕ} (hds : ds ≠ []) :
    loopEnd isSec { s with value := value, valid := true } (groupsOf p ds skip) =
      loopEnd isSec s (groupsOf p ds skip) := by
  cases h : groupsOf p ds skip with
  | none => rfl
  | some r =>
      obtain ⟨gs, last⟩ := r
      have hdigits : hasDigits gs last = true := by
        obtain ⟨more, ⟨rfl, rfl⟩ | ⟨unit, gs', rfl⟩⟩ := groupsOf_first h
        · simp [hasDigits, hds]
        · simp [hasDigits, hds]
      rw [loopEnd, loopEnd, hdigits, Bool.true_or, Bool.or_true]

/-- A number that does not fit makes the sum too large. -/
theorem loopEnd_large (hlarge : maxInt < number ds) :
    loopEnd isSec s (groupsOf p ds skip) = .error .error := by
  cases h : groupsOf p ds skip with
  | none => rfl
  | some r =>
      obtain ⟨gs, last⟩ := r
      refine if_neg ?_
      rintro ⟨-, hsum, hlast⟩
      obtain ⟨more, ⟨rfl, rfl⟩ | ⟨unit, gs', rfl⟩⟩ := groupsOf_first h
      · have hle := number_append_le ds more
        omega
      · have hle := number_append_le ds more
        have hweight := Nat.le_mul_of_pos_right (number (ds ++ more)) (weight_pos isSec unit)
        rw [sumOf_cons] at hsum
        omega

theorem loopEnd_unit (unit : TimeUnit) (r : Option (List Group × List ℕ))
    (hvalid : ds ≠ [] → s.valid = true) :
    loopEnd isSec s (r.map fun r => (⟨ds, unit⟩ :: r.1, r.2)) =
      if Enters isSec s.step unit ∧ s.total + number ds * weight isSec unit ≤ maxInt then
        loopEnd isSec ⟨unit.step, 0, s.total + number ds * weight isSec unit, s.valid⟩ r
      else .error .error := by
  cases r with
  | none =>
      split <;> rfl
  | some r =>
      obtain ⟨gs, last⟩ := r
      have hdigits : (s.valid || hasDigits (⟨ds, unit⟩ :: gs) last) =
          (s.valid || hasDigits gs last) := by
        cases ds with
        | nil => rfl
        | cons d ds => rw [hvalid (List.cons_ne_nil _ _), Bool.true_or, Bool.true_or]
      rw [Option.map_some, loopEnd, loopEnd, hdigits, sumOf_cons, ← Nat.add_assoc,
        List.foldl_cons]
      simp only [ordered_cons]
      by_cases henters : Enters isSec s.step unit ∧
          s.total + number ds * weight isSec unit ≤ maxInt
      · rw [if_pos henters]
        simp only [henters.1, true_and]
      · rw [if_neg henters, if_neg]
        rintro ⟨⟨hstep, -⟩, hsum, -⟩
        exact henters ⟨hstep, by omega⟩

/-- The loop goes through the groups of the text. -/
theorem timeLoop_eq (hvalue : s.value = number ds) (hfits : s.value ≤ maxInt)
    (htotal : s.total ≤ maxInt) (hvalid : ds ≠ [] → s.valid = true) :
    timeLoop isSec p s skip = loopEnd isSec s (groupsOf p ds skip) := by
  induction hlength : p.length using Nat.strong_induction_on generalizing p s ds skip with
  | h n ih =>
      cases p with
      | nil =>
          have hdigits : (s.valid || hasDigits [] ds) = s.valid := by
            cases ds with
            | nil => exact Bool.or_false _
            | cons d ds => rw [hvalid (List.cons_ne_nil _ _), Bool.true_or]
          rw [timeLoop, groupsOf, loopEnd, if_pos ⟨trivial, htotal, by omega⟩, hdigits,
            ← hvalue]
          rfl
      | cons ch p =>
          rw [List.length_cons] at hlength
          rw [timeLoop_cons, groupsOf_cons]
          by_cases hskip : skip = true ∧ ch = byte ' '
          · rw [if_pos hskip, if_pos hskip]
            exact ih p.length (by omega) hvalue hfits htotal hvalid rfl
          rw [if_neg hskip, if_neg hskip]
          cases hdigit : isDigit ch with
          | true =>
              have hnumber := number_append ds (ch - byte '0').toNat
              rw [← hvalue] at hnumber
              rw [if_pos rfl, if_pos rfl, readDigit_eq s (Http.digit_le hdigit)]
              by_cases hnext : s.value * 10 + (ch - byte '0').toNat ≤ maxInt
              · rw [if_pos hnext]
                have hne : ds ++ [(ch - byte '0').toNat] ≠ [] := by simp
                rw [← loopEnd_digit hne]
                exact ih p.length (by omega) hnumber.symm hnext htotal (fun _ => rfl) rfl
              · rw [if_neg hnext, loopEnd_large (by omega)]
                rfl
          | false =>
              rw [if_neg Bool.false_ne_true, if_neg Bool.false_ne_true]
              cases hunit : nextUnit ch p with
              | none => rfl
              | some u =>
                  obtain ⟨unit, q⟩ := u
                  have hshort := length_nextUnit hunit
                  rw [Option.bind_some, loopEnd_unit unit _ hvalid, ← hvalue]
                  simp only [account_eq]
                  split
                  · next henters =>
                    exact ih q.length (by omega) rfl (Nat.zero_le _) henters.2
                      (fun hne => absurd rfl hne) rfl
                  · rfl

end Loop

/-- The numbers times their units, a number without one stands for seconds. -/
def valueOf (isSec : Bool) (gs : List Group) (last : List ℕ) : ℕ :=
  sumOf isSec gs + number last * weight isSec .sec

/-- What makes a text a time: the units come in order, there is a digit, and the
sum fits. -/
def IsTime (isSec : Bool) (gs : List Group) (last : List ℕ) : Prop :=
  Ordered isSec (firstStep isSec) gs ∧ hasDigits gs last = true ∧ valueOf isSec gs last ≤ maxInt

instance (isSec : Bool) (gs : List Group) (last : List ℕ) : Decidable (IsTime isSec gs last) :=
  inferInstanceAs (Decidable (_ ∧ _))

/-- The number behind the last unit is accounted for as seconds. -/
theorem timeEnd_eq (isSec : Bool) {s : Locals} (hs : s.value ≤ maxInt) :
    timeEnd isSec s =
      if s.valid = true ∧ s.total + s.value * weight isSec .sec ≤ maxInt then
        .ok (s.total + s.value * weight isSec .sec)
      else .error .error := by
  have hweight : s.value * weight isSec .sec = if isSec then s.value else s.value * 1000 := by
    cases isSec
    · rfl
    · exact Nat.mul_one _
  have hscaled : (isSec = false ∧ maxInt / 1000 < s.value) ↔
      maxInt < s.value * weight isSec .sec := by
    rw [hweight, Nat.div_lt_iff_lt_mul (by decide)]
    cases isSec
    · simp
    · simp [hs]
  rw [timeEnd, ← hweight]
  simp only [hscaled]
  cases s.valid with
  | false => simp
  | true =>
      by_cases hlarge : maxInt < s.value * weight isSec .sec
      · rw [if_neg (by decide), if_pos hlarge, if_neg (by omega)]
      · rw [if_neg (by decide), if_neg hlarge, checked_ok (Nat.le_of_not_lt hlarge)]
        change (if maxInt - s.value * weight isSec .sec < s.total then _ else _) = _
        by_cases htotal : s.total + s.value * weight isSec .sec ≤ maxInt
        · rw [if_neg (by omega), if_pos ⟨rfl, htotal⟩, checked_ok htotal]
        · rw [if_pos (by omega), if_neg fun h => htotal h.2]

/-- What `ngx_parse_time` makes of the groups of a text. -/
theorem parseTime_eq (line : List UInt8) (isSec : Bool) :
    ngxParseTime line isSec =
      match groupsOf line [] false with
      | none => .error .error
      | some (gs, last) =>
          if IsTime isSec gs last then .ok (valueOf isSec gs last) else .error .error := by
  rw [ngxParseTime, timeLoop_eq rfl (Nat.zero_le _) (Nat.zero_le _) fun hne => absurd rfl hne]
  cases groupsOf line [] false with
  | none => rfl
  | some r =>
      obtain ⟨gs, last⟩ := r
      simp only [loopEnd, Nat.zero_add, Bool.false_or]
      by_cases hstart : Ordered isSec (firstStep isSec) gs ∧ sumOf isSec gs ≤ maxInt ∧
          number last ≤ maxInt
      · rw [if_pos hstart]
        refine (timeEnd_eq isSec hstart.2.2).trans ?_
        simp only [IsTime, valueOf, hstart.1, true_and]
      · rw [if_neg hstart, if_neg]
        · rfl
        · rintro ⟨hordered, -, hvalue⟩
          have hweight := Nat.le_mul_of_pos_right (number last) (weight_pos isSec .sec)
          rw [valueOf] at hvalue
          exact hstart ⟨hordered, by omega, by omega⟩

/-! ## Texts -/

def unitText : TimeUnit → List UInt8
  | .year => Http.bytes "y"
  | .month => Http.bytes "M"
  | .week => Http.bytes "w"
  | .day => Http.bytes "d"
  | .hour => Http.bytes "h"
  | .min => Http.bytes "m"
  | .sec => Http.bytes "s"
  | .msec => Http.bytes "ms"
  | .blank => Http.bytes " "

/-- A group of digits, its unit, and the spaces behind it. -/
structure Spelled where
  digits : List ℕ
  unit : TimeUnit
  spaces : ℕ

/-- The digits and the unit. -/
def Spelled.group (g : Spelled) : Group := ⟨g.digits, g.unit⟩

/-- The text of groups, and of the digits behind them. -/
def spell (gs : List Spelled) (last : List ℕ) : List UInt8 :=
  gs.flatMap (fun g => g.digits.map digitByte ++ (unitText g.unit ++
    List.replicate g.spaces (byte ' '))) ++ last.map digitByte

/-- The units that a text may have. -/
def Allowed (isSec : Bool) (unit : TimeUnit) : Prop :=
  unit ≠ .blank ∧
    if isSec then unit ≠ .msec else unit ≠ .year ∧ unit ≠ .month

/-- Groups as they should be: every unit has digits of its own, and the units become
smaller and smaller. -/
structure WellSpelled (isSec : Bool) (gs : List Spelled) (last : List ℕ) : Prop where
  digits : ∀ g ∈ gs, g.digits ≠ [] ∧ ∀ d ∈ g.digits, d < 10
  allowed : ∀ g ∈ gs, Allowed isSec g.unit
  decreasing : gs.Pairwise fun g g' => g.unit.step.rank < g'.unit.step.rank
  last_digits : ∀ d ∈ last, d < 10
  ne : gs ≠ [] ∨ last ≠ []

section Texts

variable {isSec skip : Bool} {p : List UInt8} {ds : List ℕ}

theorem groupsOf_digits {more : List ℕ} (hmore : ∀ d ∈ more, d < 10) (hne : more ≠ []) :
    groupsOf (more.map digitByte ++ p) ds skip = groupsOf p (ds ++ more) false := by
  induction more generalizing ds skip with
  | nil => exact absurd rfl hne
  | cons d more ih =>
      obtain ⟨hd, hmore⟩ := List.forall_mem_cons.mp hmore
      obtain ⟨hdigit, hvalue⟩ := Http.digitByte_spec hd
      have hspace : ¬(skip = true ∧ digitByte d = byte ' ') := by
        rintro ⟨-, heq⟩
        rw [heq] at hdigit
        exact absurd hdigit (by decide)
      rw [List.map_cons, List.cons_append, groupsOf_cons, if_neg hspace, if_pos hdigit, hvalue]
      cases more with
      | nil => rfl
      | cons d' more =>
          rw [ih hmore (List.cons_ne_nil _ _), List.append_assoc]
          rfl

theorem groupsOf_spaces (n : ℕ) :
    groupsOf (List.replicate n (byte ' ') ++ p) ds true = groupsOf p ds true := by
  induction n with
  | zero => rfl
  | succ n ih => rw [List.replicate_succ, List.cons_append, groupsOf_cons, if_pos ⟨rfl, rfl⟩, ih]

theorem groupsOf_unitText {unit : TimeUnit} (hunit : unit ≠ .blank)
    (hp : p.head? ≠ some (byte 's')) :
    groupsOf (unitText unit ++ p) ds false =
      (groupsOf p [] true).map fun r => (⟨ds, unit⟩ :: r.1, r.2) := by
  cases unit with
  | blank => exact absurd rfl hunit
  | min =>
      cases p with
      | nil => rfl
      | cons c q =>
          have hc : c ≠ byte 's' := fun heq => hp (congrArg some heq)
          change groupsOf (byte 'm' :: c :: q) ds false = _
          rw [groupsOf_cons, if_neg (fun h => Bool.false_ne_true h.1), if_neg (by decide)]
          have hnext : nextUnit (byte 'm') (c :: q) = some (.min, c :: q) := if_neg hc
          rw [hnext]
          rfl
  | _ =>
      rw [unitText]
      rfl

/-- A text that is spelled well begins with a digit. -/
theorem spell_head {gs : List Spelled} {last : List ℕ}
    (hdigits : ∀ g ∈ gs, g.digits ≠ [] ∧ ∀ d ∈ g.digits, d < 10)
    (hlast : ∀ d ∈ last, d < 10) : ∀ c ∈ (spell gs last).head?, isDigit c = true := by
  intro c hc
  cases gs with
  | nil =>
      cases last with
      | nil => cases hc
      | cons d last =>
          cases hc
          exact (Http.digitByte_spec (hlast d List.mem_cons_self)).1
  | cons g gs =>
      obtain ⟨hne, hg⟩ := hdigits g List.mem_cons_self
      obtain ⟨d, ds, heq⟩ := List.exists_cons_of_ne_nil hne
      rw [spell, List.flatMap_cons, heq] at hc
      cases hc
      exact (Http.digitByte_spec (hg d (heq ▸ List.mem_cons_self))).1

theorem groupsOf_spell {gs : List Spelled} {last : List ℕ}
    (hdigits : ∀ g ∈ gs, g.digits ≠ [] ∧ ∀ d ∈ g.digits, d < 10)
    (hunits : ∀ g ∈ gs, g.unit ≠ .blank) (hlast : ∀ d ∈ last, d < 10) :
    groupsOf (spell gs last) [] skip = some (gs.map Spelled.group, last) := by
  induction gs generalizing skip with
  | nil =>
      cases last with
      | nil => rfl
      | cons d last =>
          rw [spell, List.flatMap_nil, List.nil_append, ← List.append_nil (List.map _ _),
            groupsOf_digits hlast (List.cons_ne_nil _ _)]
          rfl
  | cons g gs ih =>
      obtain ⟨⟨hne, hg⟩, hdigits⟩ := List.forall_mem_cons.mp hdigits
      obtain ⟨hunit, hunits⟩ := List.forall_mem_cons.mp hunits
      have hrest : spell (g :: gs) last = g.digits.map digitByte ++ (unitText g.unit ++
          (List.replicate g.spaces (byte ' ') ++ spell gs last)) := by
        simp [spell]
      have hhead : (List.replicate g.spaces (byte ' ') ++ spell gs last).head? ≠
          some (byte 's') := by
        cases g.spaces with
        | zero =>
            intro hs
            exact absurd (spell_head hdigits hlast _ hs) (by decide)
        | succ n =>
            rw [List.replicate_succ]
            exact fun hs => absurd (Option.some_inj.mp hs) (by decide)
      rw [hrest, groupsOf_digits hg hne, groupsOf_unitText hunit hhead, groupsOf_spaces,
        ih hdigits hunits]
      rfl

end Texts

/-! ## Order -/

section Order

variable {isSec : Bool} {step : Step}

theorem bound_eq {unit : TimeUnit} (hunit : unit ≠ .blank) : unit.bound = unit.step := by
  cases unit with
  | blank => exact absurd rfl hunit
  | _ => rfl

/-- Units that become smaller come in order. -/
theorem ordered_of_pairwise {gs : List Group}
    (hunits : ∀ g ∈ gs, g.unit ≠ .blank ∧ (g.unit = .msec → isSec = false))
    (hstart : ∀ g ∈ gs, step.rank < g.unit.step.rank)
    (hgs : gs.Pairwise fun g g' => g.unit.step.rank < g'.unit.step.rank) :
    Ordered isSec step gs := by
  induction gs generalizing step with
  | nil => trivial
  | cons g gs ih =>
      obtain ⟨⟨hblank, hmsec⟩, hunits⟩ := List.forall_mem_cons.mp hunits
      obtain ⟨hfirst, hlater⟩ := List.pairwise_cons.mp hgs
      refine ⟨⟨?_, hmsec⟩, ih hunits hfirst hlater⟩
      rw [bound_eq hblank]
      exact hstart g List.mem_cons_self

/-- Units that come in order become smaller. -/
theorem Ordered.units {gs : List Group} (h : Ordered isSec step gs) :
    (∀ g ∈ gs, g.unit ≠ .blank → step.rank < g.unit.step.rank ∧
      (g.unit = .msec → isSec = false)) ∧
    gs.Pairwise fun g g' => g'.unit ≠ .blank → g.unit.step.rank < g'.unit.step.rank := by
  induction gs generalizing step with
  | nil => exact ⟨nofun, .nil⟩
  | cons g gs ih =>
      obtain ⟨⟨hbound, hmsec⟩, hrest⟩ := (ordered_cons isSec step g gs).mp h
      obtain ⟨hunits, hpairs⟩ := ih hrest
      refine ⟨?_, List.pairwise_cons.mpr ⟨fun g' hg' hblank => (hunits g' hg' hblank).1, hpairs⟩⟩
      intro g' hg' hblank
      have hnext : g.unit ≠ .blank → step.rank < g.unit.step.rank := fun hne => by
        rwa [bound_eq hne] at hbound
      rcases List.mem_cons.mp hg' with rfl | hg'
      · exact ⟨hnext hblank, hmsec⟩
      · obtain ⟨hlt, hmsec'⟩ := hunits g' hg' hblank
        refine ⟨Nat.lt_trans ?_ hlt, hmsec'⟩
        by_cases hunit : g.unit = .blank
        · rw [hunit] at hbound ⊢
          exact Nat.lt_trans hbound (by decide)
        · exact hnext hunit

end Order

/-! ## Texts that are refused -/

section Refused

variable {isSec skip : Bool} {p : List UInt8} {ds : List ℕ}

/-- All bytes of a text that has groups can be part of a time. -/
theorem known_of_groupsOf {r : List Group × List ℕ} (h : groupsOf p ds skip = some r) :
    ∀ ch ∈ p, isDigit ch = true ∨ unitOf ch ≠ none := by
  induction hlength : p.length using Nat.strong_induction_on generalizing p ds skip r with
  | h n ih =>
      cases p with
      | nil => nofun
      | cons ch p =>
          rw [List.length_cons] at hlength
          rw [groupsOf_cons] at h
          rw [List.forall_mem_cons]
          split at h
          · next hskip =>
            refine ⟨.inr ?_, ih _ (by omega) h rfl⟩
            rw [hskip.2]
            nofun
          · split at h
            · next hdigit => exact ⟨.inl hdigit, ih _ (by omega) h rfl⟩
            · obtain ⟨⟨unit, q⟩, hunit, h⟩ := Option.bind_eq_some_iff.mp h
              obtain ⟨r', hrest, -⟩ := Option.map_eq_some_iff.mp h
              obtain ⟨hknown, rfl | rfl⟩ := nextUnit_cases hunit
              · exact ⟨.inr hknown, ih _ (by omega) hrest rfl⟩
              · rw [List.length_cons] at hlength
                exact ⟨.inr hknown, List.forall_mem_cons.mpr
                  ⟨.inr nofun, ih _ (by omega) hrest rfl⟩⟩

theorem digit_of_hasDigits {gs : List Group} {last : List ℕ}
    (h : groupsOf p ds skip = some (gs, last)) (hdigits : hasDigits gs last = true) :
    ds ≠ [] ∨ ∃ ch ∈ p, isDigit ch = true := by
  induction hlength : p.length using Nat.strong_induction_on generalizing p ds skip gs last with
  | h n ih =>
      cases p with
      | nil =>
          cases h
          refine .inl ?_
          rintro rfl
          cases hdigits
      | cons ch p =>
          rw [List.length_cons] at hlength
          rw [groupsOf_cons] at h
          have hcons (hrest : ∃ c ∈ p, isDigit c = true) : ∃ c ∈ ch :: p, isDigit c = true :=
            hrest.imp fun c hc => ⟨List.mem_cons_of_mem _ hc.1, hc.2⟩
          split at h
          · exact (ih _ (by omega) h hdigits rfl).imp_right hcons
          · split at h
            · next hdigit => exact .inr ⟨ch, List.mem_cons_self, hdigit⟩
            · obtain ⟨⟨unit, q⟩, hunit, h⟩ := Option.bind_eq_some_iff.mp h
              obtain ⟨⟨gs', last'⟩, hrest, heq⟩ := Option.map_eq_some_iff.mp h
              have hshort := length_nextUnit hunit
              cases heq
              by_cases hds : ds = []
              · subst hds
                obtain hnil | ⟨c, hc, hcdigit⟩ := ih q.length (by omega) hrest hdigits rfl
                · exact absurd rfl hnil
                · obtain ⟨-, rfl | rfl⟩ := nextUnit_cases hunit
                  · exact .inr (hcons ⟨c, hc, hcdigit⟩)
                  · exact .inr (hcons ⟨c, List.mem_cons_of_mem _ hc, hcdigit⟩)
              · exact .inl hds

end Refused

/-- A unit of the text has no digits of its own. -/
def BareUnit (line : List UInt8) : Prop :=
  ∃ gs last, groupsOf line [] false = some (gs, last) ∧
    ∃ g ∈ gs, g.unit ≠ .blank ∧ g.digits = []

/-- A unit of the text is not smaller than one before it, or is not one that the
text may have. -/
def OutOfOrder (isSec : Bool) (line : List UInt8) : Prop :=
  ∃ gs last, groupsOf line [] false = some (gs, last) ∧
    ((∃ g ∈ gs, g.unit ≠ .blank ∧ ¬Allowed isSec g.unit) ∨
      ¬(gs.filter fun g => g.unit ≠ .blank).Pairwise fun g g' =>
        g.unit.step.rank < g'.unit.step.rank)

/-- The text is no time, whether or not its units have digits: a byte is no part of a
time, a unit or a space in place of one is out of order, there is no digit, or the sum
does not fit. -/
def Faulty (isSec : Bool) (line : List UInt8) : Prop :=
  groupsOf line [] false = none ∨
    ∃ gs last, groupsOf line [] false = some (gs, last) ∧
      (¬Ordered isSec (firstStep isSec) gs ∨ hasDigits gs last = false ∨
        maxInt < valueOf isSec gs last)

section Results

variable {isSec : Bool} {line : List UInt8}

theorem parseTime_error_iff : ngxParseTime line isSec = .error .error ↔ Faulty isSec line := by
  rw [parseTime_eq, Faulty]
  cases groupsOf line [] false with
  | none => exact iff_of_true rfl (.inl rfl)
  | some r =>
      obtain ⟨gs, last⟩ := r
      have hfault : ¬IsTime isSec gs last ↔ ¬Ordered isSec (firstStep isSec) gs ∨
          hasDigits gs last = false ∨ maxInt < valueOf isSec gs last := by
        rw [IsTime, not_and_or, not_and_or, Bool.not_eq_true, Nat.not_le]
      by_cases htime : IsTime isSec gs last
      · simp only [if_pos htime]
        refine iff_of_false nofun ?_
        rintro (hnone | ⟨gs', last', heq, h⟩)
        · cases hnone
        · cases heq
          exact hfault.mpr h htime
      · simp only [if_neg htime]
        exact iff_of_true trivial (.inr ⟨gs, last, rfl, hfault.mp htime⟩)

theorem parseTime_ne_overflow : ngxParseTime line isSec ≠ .error .overflow := by
  rw [parseTime_eq]
  split
  · nofun
  · split
    · nofun
    · nofun

/-- A text that is spelled well is read exactly. -/
theorem parseTime_spell {gs : List Spelled} {last : List ℕ} (h : WellSpelled isSec gs last) :
    ngxParseTime (spell gs last) isSec =
      if valueOf isSec (gs.map Spelled.group) last ≤ maxInt then
        .ok (valueOf isSec (gs.map Spelled.group) last)
      else .error .error := by
  have hmsec (unit : TimeUnit) (hunit : Allowed isSec unit) (heq : unit = .msec) :
      isSec = false := by
    cases isSec with
    | false => rfl
    | true => exact absurd heq hunit.2
  have hstart (unit : TimeUnit) (hunit : Allowed isSec unit) :
      (firstStep isSec).rank < unit.step.rank := by
    obtain ⟨hblank, hunit⟩ := hunit
    cases isSec with
    | true => cases unit <;> decide
    | false =>
        cases unit with
        | year => exact absurd rfl hunit.1
        | month => exact absurd rfl hunit.2
        | _ => decide
  have hordered : Ordered isSec (firstStep isSec) (gs.map Spelled.group) := by
    refine ordered_of_pairwise ?_ ?_ (List.pairwise_map.mpr h.decreasing)
    · intro g hg
      obtain ⟨g', hg', rfl⟩ := List.mem_map.mp hg
      exact ⟨(h.allowed g' hg').1, hmsec _ (h.allowed g' hg')⟩
    · intro g hg
      obtain ⟨g', hg', rfl⟩ := List.mem_map.mp hg
      exact hstart _ (h.allowed g' hg')
  have hdigits : hasDigits (gs.map Spelled.group) last = true := by
    rw [hasDigits, Bool.or_eq_true]
    cases gs with
    | nil => exact .inr (by simpa using h.ne.resolve_left (fun hne => hne rfl))
    | cons g gs =>
        refine .inl (List.any_eq_true.mpr ⟨g.group, List.mem_cons_self, ?_⟩)
        simpa [Spelled.group] using (h.digits g List.mem_cons_self).1
  rw [parseTime_eq, groupsOf_spell h.digits (fun g hg => (h.allowed g hg).1) h.last_digits]
  simp only [IsTime, hordered, hdigits, true_and]

/-- Bytes that are no part of a time, no digit, and units out of order are faults. -/
theorem faulty_of (h : (∃ ch ∈ line, isDigit ch = false ∧ unitOf ch = none) ∨
    (∀ ch ∈ line, isDigit ch = false) ∨ OutOfOrder isSec line) : Faulty isSec line := by
  cases hgroups : groupsOf line [] false with
  | none => exact .inl hgroups
  | some r =>
      obtain ⟨gs, last⟩ := r
      refine .inr ⟨gs, last, hgroups, ?_⟩
      rcases h with ⟨ch, hch, hdigit, hunit⟩ | hnone | ⟨gs', last', hgroups', hout⟩
      · rcases known_of_groupsOf hgroups ch hch with hknown | hknown
        · rw [hdigit] at hknown
          cases hknown
        · exact absurd hunit hknown
      · refine .inr (.inl (Bool.eq_false_iff.mpr fun hdigits => ?_))
        obtain hnil | ⟨ch, hch, hdigit⟩ := digit_of_hasDigits hgroups hdigits
        · exact hnil rfl
        · rw [hnone ch hch] at hdigit
          cases hdigit
      · rw [hgroups] at hgroups'
        cases hgroups'
        refine .inl fun hordered => ?_
        obtain ⟨hunits, hpairs⟩ := hordered.units
        rcases hout with ⟨g, hg, hblank, hnot⟩ | hnot
        · obtain ⟨hstart, hmsec⟩ := hunits g hg hblank
          refine hnot ⟨hblank, ?_⟩
          cases isSec with
          | true => exact fun heq => absurd (hmsec heq) (by decide)
          | false =>
              refine ⟨fun heq => ?_, fun heq => ?_⟩
              · rw [heq] at hstart
                exact absurd hstart (by decide)
              · rw [heq] at hstart
                exact absurd hstart (by decide)
        · refine hnot ((hpairs.filter _).imp_of_mem fun _ hg' hlt => hlt ?_)
          simpa using (List.mem_filter.mp hg').2

end Results

/-- `ngx_parse_time` never overflows, reads what is spelled well exactly, and refuses bytes
that are no part of a time, texts without a digit, and units out of order.  It refuses a
text with a unit that has no digits of its own exactly if the text has another fault. -/
theorem parseTime_units_iff (line : List UInt8) (isSec : Bool) :
    ngxParseTime line isSec ≠ .error .overflow ∧
    (∀ gs last, WellSpelled isSec gs last → line = spell gs last →
      ngxParseTime line isSec =
        if valueOf isSec (gs.map Spelled.group) last ≤ maxInt then
          .ok (valueOf isSec (gs.map Spelled.group) last)
        else .error .error) ∧
    ((∃ ch ∈ line, isDigit ch = false ∧ unitOf ch = none) ∨
      (∀ ch ∈ line, isDigit ch = false) ∨ OutOfOrder isSec line →
      ngxParseTime line isSec = .error .error) ∧
    ((BareUnit line → ngxParseTime line isSec = .error .error) ↔
      ¬BareUnit line ∨ Faulty isSec line) := by
  refine ⟨parseTime_ne_overflow, ?_, fun h => parseTime_error_iff.mpr (faulty_of h), ?_⟩
  · rintro gs last h rfl
    exact parseTime_spell h
  · rw [parseTime_error_iff, imp_iff_not_or]

/-- An hour and minutes without a number. -/
theorem parseTime_bare_unit :
    BareUnit (Http.bytes "1hm") ∧ ngxParseTime (Http.bytes "1hm") true = .ok 3600 :=
  ⟨⟨[⟨[1], .hour⟩, ⟨[], .min⟩], [], by decide, ⟨[], .min⟩, by decide, by decide, rfl⟩,
    by decide⟩

end MultiversionBalancer.Core.Durations
