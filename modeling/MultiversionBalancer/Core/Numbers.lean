import MultiversionBalancer.Http.Bytes
import Mathlib.Algebra.Order.Field.Rat
import Mathlib.Tactic.FieldSimp
import Mathlib.Tactic.Ring

/-!
# Reading numbers

`ngx_atoi`, `ngx_atosz`, `ngx_atoof`, `ngx_atotm`, `ngx_hextoi` and `ngx_atofp` of
`ngx_string.c`.  The arithmetic is that of signed types: a result above the maximum of the
type is a failure of its own, which no text leads to.
-/

namespace MultiversionBalancer.Core

open Http (byte isDigit hexDigit hexValue)

/-! ## The functions of the source -/

/-- `NGX_ERROR`, or arithmetic that leaves its type. -/
inductive NumberFailure where
  | error
  | overflow
  deriving DecidableEq

def maxInt : ℕ := 9223372036854775807

def maxSize : ℕ := 9223372036854775807

def maxOff : ℕ := 9223372036854775807

def maxTime : ℕ := 9223372036854775807

/-- The result of an operation in a signed type with the maximum `max`. -/
def signed (max n : ℕ) : Except NumberFailure ℕ :=
  if n ≤ max then .ok n else .error .overflow

/-- `value * base + digit`. -/
def addDigit (max base value digit : ℕ) : Except NumberFailure ℕ := do
  let product ← signed max (value * base)
  signed max (product + digit)

/-- The loop of `ngx_atoi` and of the functions for the other types. -/
def scanNumber (max : ℕ) : List UInt8 → ℕ → Except NumberFailure ℕ
  | [], value => .ok value
  | c :: line, value =>
      if ¬isDigit c then .error .error
      else if max / 10 ≤ value ∧ (max / 10 < value ∨ max % 10 < (c - byte '0').toNat) then
        .error .error
      else do
        let value ← addDigit max 10 value (c - byte '0').toNat
        scanNumber max line value

/-- `ngx_atoi`, for a type with the maximum `max`. -/
def parseNumber (max : ℕ) (line : List UInt8) : Except NumberFailure ℕ :=
  if line = [] then .error .error else scanNumber max line 0

def ngxAtoi : List UInt8 → Except NumberFailure ℕ := parseNumber maxInt

def ngxAtosz : List UInt8 → Except NumberFailure ℕ := parseNumber maxSize

def ngxAtoof : List UInt8 → Except NumberFailure ℕ := parseNumber maxOff

def ngxAtotm : List UInt8 → Except NumberFailure ℕ := parseNumber maxTime

/-- The loop of `ngx_hextoi`. -/
def scanHex : List UInt8 → ℕ → Except NumberFailure ℕ
  | [], value => .ok value
  | ch :: line, value =>
      if maxInt / 16 < value then .error .error
      else
        match hexDigit ch with
        | some d => do
            let value ← addDigit maxInt 16 value d.toNat
            scanHex line value
        | none => .error .error

def ngxHextoi (line : List UInt8) : Except NumberFailure ℕ :=
  if line = [] then .error .error else scanHex line 0

/-- The first loop of `ngx_atofp`, which leaves the value and what remains of
`point`. -/
def scanFixed : List UInt8 → ℕ → ℕ → ℕ → Except NumberFailure (ℕ × ℕ)
  | [], point, _, value => .ok (value, point)
  | c :: line, point, dot, value =>
      if point = 0 then .error .error
      else if c = byte '.' then
        if dot ≠ 0 then .error .error else scanFixed line point 1 value
      else if ¬isDigit c then .error .error
      else if maxInt / 10 ≤ value ∧
          (maxInt / 10 < value ∨ maxInt % 10 < (c - byte '0').toNat) then .error .error
      else do
        let value ← addDigit maxInt 10 value (c - byte '0').toNat
        scanFixed line (point - dot) dot value

/-- The second loop of `ngx_atofp`. -/
def scalePoint : ℕ → ℕ → Except NumberFailure ℕ
  | 0, value => .ok value
  | point + 1, value =>
      if maxInt / 10 < value then .error .error
      else do
        let value ← signed maxInt (value * 10)
        scalePoint point value

def ngxAtofp (line : List UInt8) (point : ℕ) : Except NumberFailure ℕ :=
  if line = [] then .error .error
  else do
    let (value, point) ← scanFixed line point 0 0
    scalePoint point value

/-! ## Numbers as they are written -/

/-- The value of decimal digits. -/
def decimal (digits : List UInt8) : ℕ :=
  digits.foldl (fun v c => v * 10 + (c - byte '0').toNat) 0

/-- The value of hexadecimal digits. -/
def hexadecimal (digits : List UInt8) : ℕ :=
  digits.foldl (fun v c => v * 16 + (hexValue c).getD 0) 0

def WrittenDecimal (max : ℕ) (line : List UInt8) (n : ℕ) : Prop :=
  line ≠ [] ∧ (∀ c ∈ line, isDigit c = true) ∧ n = decimal line ∧ n ≤ max

/-- The hexadecimal numbers up to `NGX_MAX_INT_T_VALUE`. -/
def WrittenHex (line : List UInt8) (n : ℕ) : Prop :=
  line ≠ [] ∧ (∀ c ∈ line, (hexValue c).isSome = true) ∧ n = hexadecimal line ∧ n ≤ maxInt

/-- A decimal number with at most `point` digits behind a dot; missing digits count as
zero. -/
inductive Fixed (point : ℕ) : List UInt8 → ℚ → Prop where
  | whole {digits : List UInt8} (h : ∀ c ∈ digits, isDigit c = true) :
      Fixed point digits (decimal digits)
  | dotted {digits fraction : List UInt8} (h : ∀ c ∈ digits, isDigit c = true)
      (hfraction : ∀ c ∈ fraction, isDigit c = true) (hlength : fraction.length ≤ point) :
      Fixed point (digits ++ byte '.' :: fraction)
        (decimal digits + decimal fraction / 10 ^ fraction.length)

/-- The numbers that `10 ^ point` makes whole and not too large. -/
def WrittenFixed (point : ℕ) (line : List UInt8) (n : ℕ) : Prop :=
  line ≠ [] ∧ (∃ q, Fixed point line q ∧ (n : ℚ) = q * 10 ^ point) ∧ n ≤ maxInt

/-- A parser that returns the numbers of the texts that are written in one way, and
`NGX_ERROR` for the other texts; it never leaves its type. -/
def Parses (parse : List UInt8 → Except NumberFailure ℕ) (Written : List UInt8 → ℕ → Prop) :
    Prop :=
  ∀ line, (∀ n, Written line n → parse line = .ok n) ∧
    ((¬∃ n, Written line n) → parse line = .error .error)

theorem Parses.written {parse : List UInt8 → Except NumberFailure ℕ}
    {Written : List UInt8 → ℕ → Prop} (h : Parses parse Written) {line : List UInt8} {n : ℕ}
    (hok : parse line = .ok n) : Written line n := by
  by_cases hsome : ∃ m, Written line m
  · obtain ⟨m, hm⟩ := hsome
    obtain rfl : m = n := Except.ok.inj (((h line).1 m hm).symm.trans hok)
    exact hm
  · exact nomatch hok.symm.trans ((h line).2 hsome)

/-! ## The loops -/

/-- The value of digits behind others with the value `v`. -/
def digitsFrom (base : ℕ) (digit : UInt8 → ℕ) (v : ℕ) (line : List UInt8) : ℕ :=
  line.foldl (fun v c => v * base + digit c) v

theorem digitsFrom_cons (base : ℕ) (digit : UInt8 → ℕ) (v : ℕ) (c : UInt8)
    (line : List UInt8) :
    digitsFrom base digit v (c :: line) = digitsFrom base digit (v * base + digit c) line :=
  rfl

theorem le_digitsFrom {base : ℕ} (hbase : 0 < base) (digit : UInt8 → ℕ) (v : ℕ)
    (line : List UInt8) : v ≤ digitsFrom base digit v line := by
  induction line generalizing v with
  | nil => exact Nat.le_refl v
  | cons c line ih =>
      calc v ≤ v * base := Nat.le_mul_of_pos_right v hbase
        _ ≤ v * base + digit c := Nat.le_add_right _ _
        _ ≤ digitsFrom base digit (v * base + digit c) line := ih _

theorem digitsFrom_eq (base : ℕ) (digit : UInt8 → ℕ) (v : ℕ) (line : List UInt8) :
    digitsFrom base digit v line =
      v * base ^ line.length + digitsFrom base digit 0 line := by
  induction line generalizing v with
  | nil => simp [digitsFrom]
  | cons c line ih =>
      rw [digitsFrom_cons, digitsFrom_cons, ih (v * base + digit c), ih (0 * base + digit c),
        List.length_cons]
      ring

theorem addDigit_eq_ok {max base value digit : ℕ} (h : value * base + digit ≤ max) :
    addDigit max base value digit = .ok (value * base + digit) := by
  have hproduct : value * base ≤ max := Nat.le_trans (Nat.le_add_right _ _) h
  simp only [addDigit, signed, if_pos hproduct, bind, Except.bind, if_pos h]

/-- The test before the multiplication fails when the next value is too large. -/
theorem cutoff_iff (max v : ℕ) {d : ℕ} (hd : d ≤ 9) :
    (max / 10 ≤ v ∧ (max / 10 < v ∨ max % 10 < d)) ↔ max < v * 10 + d := by
  omega

/-- The loop of `ngx_atoi` returns the value of the digits if it is in the type. -/
theorem scanNumber_eq {max v : ℕ} (hv : v ≤ max) (line : List UInt8) :
    scanNumber max line v =
      if line.all isDigit = true ∧
          digitsFrom 10 (fun c => (c - byte '0').toNat) v line ≤ max then
        .ok (digitsFrom 10 (fun c => (c - byte '0').toNat) v line)
      else .error .error := by
  induction line generalizing v with
  | nil => exact (if_pos ⟨rfl, hv⟩).symm
  | cons c line ih =>
      rw [scanNumber]
      simp only [List.all_cons, Bool.and_eq_true]
      by_cases hdigit : isDigit c = true
      · rw [if_neg (not_not.mpr hdigit)]
        have hcutoff := cutoff_iff max v (Http.digit_le hdigit)
        have hle := le_digitsFrom (by decide : 0 < 10) (fun c => (c - byte '0').toNat)
          (v * 10 + (c - byte '0').toNat) line
        by_cases hlarge : max < v * 10 + (c - byte '0').toNat
        · have hnot : ¬digitsFrom 10 (fun c => (c - byte '0').toNat) v (c :: line) ≤ max :=
            Nat.not_le.mpr (Nat.lt_of_lt_of_le hlarge hle)
          rw [if_pos (hcutoff.mpr hlarge), if_neg fun h => hnot h.2]
        · have hroom := Nat.not_lt.mp hlarge
          rw [if_neg (mt hcutoff.mp hlarge), addDigit_eq_ok hroom]
          simp only [bind, Except.bind]
          rw [ih hroom]
          simp only [hdigit, true_and]
          rfl
      · rw [if_pos hdigit, if_neg fun h => hdigit h.1.1]

theorem parseNumber_parses (max : ℕ) : Parses (parseNumber max) (WrittenDecimal max) := by
  intro line
  by_cases hnil : line = []
  · refine ⟨fun n h => absurd hnil h.1, fun _ => if_pos hnil⟩
  · rw [parseNumber, if_neg hnil, scanNumber_eq (Nat.zero_le max)]
    constructor
    · rintro n ⟨-, hdigits, rfl, hle⟩
      exact if_pos ⟨List.all_eq_true.mpr hdigits, hle⟩
    · intro hnone
      exact if_neg fun h => hnone ⟨_, hnil, List.all_eq_true.mp h.1, rfl, h.2⟩

theorem ngxAtoi_written {line : List UInt8} {n : ℕ} (h : ngxAtoi line = .ok n) :
    WrittenDecimal maxInt line n :=
  (parseNumber_parses maxInt).written h

theorem hexValue_of_hexDigit {c d : UInt8} (h : hexDigit c = some d) :
    hexValue c = some d.toNat := by
  rw [← Http.hexDigit_toNat, h]
  rfl

/-- The loop of `ngx_hextoi`. -/
theorem scanHex_eq {v : ℕ} (hv : v ≤ maxInt) (line : List UInt8) :
    scanHex line v =
      if (line.all fun c => (hexValue c).isSome) = true ∧
          digitsFrom 16 (fun c => (hexValue c).getD 0) v line ≤ maxInt then
        .ok (digitsFrom 16 (fun c => (hexValue c).getD 0) v line)
      else .error .error := by
  induction line generalizing v with
  | nil => exact (if_pos ⟨rfl, hv⟩).symm
  | cons c line ih =>
      rw [scanHex]
      simp only [List.all_cons, Bool.and_eq_true]
      have hle := le_digitsFrom (by decide : 0 < 16) (fun c => (hexValue c).getD 0)
        (v * 16 + (hexValue c).getD 0) line
      by_cases hlarge : maxInt / 16 < v
      · have hnot : ¬digitsFrom 16 (fun c => (hexValue c).getD 0) v (c :: line) ≤ maxInt := by
          refine Nat.not_le.mpr (Nat.lt_of_lt_of_le ?_ hle)
          rw [maxInt] at hlarge ⊢
          omega
        rw [if_pos hlarge, if_neg fun h => hnot h.2]
      · rw [if_neg hlarge]
        cases hd : hexDigit c with
        | none =>
            have hnone : hexValue c = none := by
              rw [← Http.hexDigit_toNat, hd]
              rfl
            refine (if_neg fun h => ?_).symm
            rw [hnone] at h
            exact Bool.false_ne_true h.1.1
        | some d =>
            have hvalue := hexValue_of_hexDigit hd
            have hroom : v * 16 + d.toNat ≤ maxInt := by
              have hlt := (Http.hexDigit_lt hd).1
              rw [maxInt] at hlarge ⊢
              omega
            have hsome : (hexValue c).isSome = true := by
              rw [hvalue]
              rfl
            have hfrom : digitsFrom 16 (fun c => (hexValue c).getD 0) v (c :: line) =
                digitsFrom 16 (fun c => (hexValue c).getD 0) (v * 16 + d.toNat) line := by
              rw [digitsFrom_cons, hvalue, Option.getD_some]
            simp only [addDigit_eq_ok hroom, bind, Except.bind]
            rw [ih hroom, hfrom]
            simp only [hsome, true_and]

theorem ngxHextoi_parses : Parses ngxHextoi WrittenHex := by
  intro line
  by_cases hnil : line = []
  · refine ⟨fun n h => absurd hnil h.1, fun _ => if_pos hnil⟩
  · rw [ngxHextoi, if_neg hnil, scanHex_eq (Nat.zero_le maxInt)]
    constructor
    · rintro n ⟨-, hdigits, rfl, hle⟩
      exact if_pos ⟨List.all_eq_true.mpr hdigits, hle⟩
    · intro hnone
      exact if_neg fun h => hnone ⟨_, hnil, List.all_eq_true.mp h.1, rfl, h.2⟩

/-! ## Fixed point -/

/-- The loop of `ngx_atofp` behind the dot. -/
theorem scanFixed_fraction {v : ℕ} (hv : v ≤ maxInt) (line : List UInt8) (point : ℕ) :
    scanFixed line point 1 v =
      if line.all isDigit = true ∧ line.length ≤ point ∧
          digitsFrom 10 (fun c => (c - byte '0').toNat) v line ≤ maxInt then
        .ok (digitsFrom 10 (fun c => (c - byte '0').toNat) v line, point - line.length)
      else .error .error := by
  induction line generalizing v point with
  | nil =>
      exact (if_pos ⟨rfl, Nat.zero_le point, hv⟩).symm
  | cons c line ih =>
      rw [scanFixed]
      simp only [List.all_cons, Bool.and_eq_true, List.length_cons]
      by_cases hpoint : point = 0
      · rw [if_pos hpoint, if_neg fun h => by omega]
      · rw [if_neg hpoint]
        by_cases hdot : c = byte '.'
        · have hnot : ¬isDigit c = true := by
            rw [hdot]
            decide
          rw [if_pos hdot, if_pos Nat.one_ne_zero, if_neg fun h => hnot h.1.1]
        · rw [if_neg hdot]
          by_cases hdigit : isDigit c = true
          · rw [if_neg (not_not.mpr hdigit)]
            have hcutoff := cutoff_iff maxInt v (Http.digit_le hdigit)
            have hle := le_digitsFrom (by decide : 0 < 10) (fun c => (c - byte '0').toNat)
              (v * 10 + (c - byte '0').toNat) line
            by_cases hlarge : maxInt < v * 10 + (c - byte '0').toNat
            · rw [if_pos (hcutoff.mpr hlarge),
                if_neg fun h => Nat.not_le.mpr (Nat.lt_of_lt_of_le hlarge hle) h.2.2]
            · have hroom := Nat.not_lt.mp hlarge
              rw [if_neg (mt hcutoff.mp hlarge), addDigit_eq_ok hroom]
              simp only [bind, Except.bind]
              have hlength : point - 1 - line.length = point - (line.length + 1) := by omega
              have hroom' : line.length ≤ point - 1 ↔ line.length + 1 ≤ point := by omega
              rw [ih hroom, hlength]
              simp only [hdigit, true_and, hroom']
              rfl
          · rw [if_pos hdigit, if_neg fun h => hdigit h.1.1]

/-- The loop of `ngx_atofp` up to the dot. -/
theorem scanFixed_append {v : ℕ} (hv : v ≤ maxInt) {digits : List UInt8} (rest : List UInt8)
    (hdot : byte '.' ∉ digits) {point : ℕ} (hpoint : point ≠ 0) :
    scanFixed (digits ++ rest) point 0 v =
      if digits.all isDigit = true ∧
          digitsFrom 10 (fun c => (c - byte '0').toNat) v digits ≤ maxInt then
        scanFixed rest point 0 (digitsFrom 10 (fun c => (c - byte '0').toNat) v digits)
      else .error .error := by
  induction digits generalizing v with
  | nil => exact (if_pos ⟨rfl, hv⟩).symm
  | cons c digits ih =>
      rw [List.mem_cons, not_or] at hdot
      rw [List.cons_append, scanFixed, if_neg hpoint, if_neg (Ne.symm hdot.1)]
      simp only [List.all_cons, Bool.and_eq_true]
      by_cases hdigit : isDigit c = true
      · rw [if_neg (not_not.mpr hdigit)]
        have hcutoff := cutoff_iff maxInt v (Http.digit_le hdigit)
        have hle := le_digitsFrom (by decide : 0 < 10) (fun c => (c - byte '0').toNat)
          (v * 10 + (c - byte '0').toNat) digits
        by_cases hlarge : maxInt < v * 10 + (c - byte '0').toNat
        · rw [if_pos (hcutoff.mpr hlarge),
            if_neg fun h => Nat.not_le.mpr (Nat.lt_of_lt_of_le hlarge hle) h.2]
        · have hroom := Nat.not_lt.mp hlarge
          rw [if_neg (mt hcutoff.mp hlarge), addDigit_eq_ok hroom]
          simp only [bind, Except.bind]
          rw [Nat.sub_zero, ih hroom hdot.2]
          simp only [hdigit, true_and]
          rfl
      · rw [if_pos hdigit, if_neg fun h => hdigit h.1.1]

theorem scalePoint_eq {v : ℕ} (hv : v ≤ maxInt) (point : ℕ) :
    scalePoint point v =
      if v * 10 ^ point ≤ maxInt then .ok (v * 10 ^ point) else .error .error := by
  induction point generalizing v with
  | zero =>
      rw [Nat.pow_zero, Nat.mul_one, if_pos hv]
      rfl
  | succ point ih =>
      have hpower : v * 10 ^ (point + 1) = v * 10 * 10 ^ point := by ring
      have hle : v * 10 ≤ v * 10 * 10 ^ point :=
        Nat.le_mul_of_pos_right _ (Nat.pow_pos (by decide))
      rw [scalePoint, hpower]
      by_cases hlarge : maxInt / 10 < v
      · have hover : maxInt < v * 10 := by omega
        rw [if_pos hlarge, if_neg (Nat.not_le.mpr (Nat.lt_of_lt_of_le hover hle))]
      · have hroom : v * 10 ≤ maxInt := by omega
        rw [if_neg hlarge]
        simp only [signed, if_pos hroom, bind, Except.bind]
        exact ih hroom

theorem decimal_append (digits fraction : List UInt8) :
    decimal (digits ++ fraction) =
      decimal digits * 10 ^ fraction.length + decimal fraction := by
  have hfrom := digitsFrom_eq 10 (fun c => (c - byte '0').toNat) (decimal digits)
    fraction
  rw [decimal, List.foldl_append]
  exact hfrom

/-- A text without a dot. -/
theorem ngxAtofp_whole {line : List UInt8} (hnil : line ≠ []) (hdot : byte '.' ∉ line)
    {point : ℕ} (hpoint : point ≠ 0) :
    ngxAtofp line point =
      if line.all isDigit = true ∧ decimal line * 10 ^ point ≤ maxInt then
        .ok (decimal line * 10 ^ point)
      else .error .error := by
  have hscan := scanFixed_append (Nat.zero_le maxInt) [] hdot hpoint
  rw [List.append_nil] at hscan
  have hle : decimal line ≤ decimal line * 10 ^ point :=
    Nat.le_mul_of_pos_right _ (Nat.pow_pos (by decide))
  rw [ngxAtofp, if_neg hnil, hscan]
  by_cases hdigits : line.all isDigit = true ∧ decimal line ≤ maxInt
  · have hok : (if line.all isDigit = true ∧ decimal line ≤ maxInt then
        scanFixed [] point 0 (decimal line) else .error .error) =
          .ok (decimal line, point) := if_pos hdigits
    refine (congrArg (· >>= _) hok).trans ((scalePoint_eq hdigits.2 point).trans ?_)
    exact if_congr (and_iff_right hdigits.1).symm rfl rfl
  · refine (congrArg (· >>= _) (if_neg hdigits)).trans (if_neg fun h => ?_).symm
    exact hdigits ⟨h.1, Nat.le_trans hle h.2⟩

/-- A text with a dot. -/
theorem ngxAtofp_dotted {digits fraction : List UInt8} (hdot : byte '.' ∉ digits)
    {point : ℕ} (hpoint : point ≠ 0) :
    ngxAtofp (digits ++ byte '.' :: fraction) point =
      if digits.all isDigit = true ∧ fraction.all isDigit = true ∧
          fraction.length ≤ point ∧
          decimal (digits ++ fraction) * 10 ^ (point - fraction.length) ≤ maxInt then
        .ok (decimal (digits ++ fraction) * 10 ^ (point - fraction.length))
      else .error .error := by
  have hnil : digits ++ byte '.' :: fraction ≠ [] := by simp
  have hscan := scanFixed_append (Nat.zero_le maxInt) (byte '.' :: fraction) hdot hpoint
  have hpow : 1 ≤ 10 ^ (point - fraction.length) := Nat.pow_pos (by decide)
  have hle : decimal (digits ++ fraction) ≤
      decimal (digits ++ fraction) * 10 ^ (point - fraction.length) :=
    Nat.le_mul_of_pos_right _ hpow
  have hfrom : digitsFrom 10 (fun c => (c - byte '0').toNat) (decimal digits) fraction =
      decimal (digits ++ fraction) := (List.foldl_append ..).symm
  have hwhole : decimal digits ≤ decimal (digits ++ fraction) := by
    rw [← hfrom]
    exact le_digitsFrom (by decide) _ _ _
  rw [ngxAtofp, if_neg hnil, hscan]
  by_cases hdigits : digits.all isDigit = true ∧ decimal digits ≤ maxInt
  · have hfraction : scanFixed (byte '.' :: fraction) point 0 (decimal digits) =
        if fraction.all isDigit = true ∧ fraction.length ≤ point ∧
            decimal (digits ++ fraction) ≤ maxInt then
          .ok (decimal (digits ++ fraction), point - fraction.length)
        else .error .error := by
      rw [scanFixed, if_neg hpoint, if_pos rfl, if_neg (not_not.mpr rfl),
        scanFixed_fraction hdigits.2, hfrom]
    refine (congrArg (· >>= _) ((if_pos hdigits).trans hfraction)).trans ?_
    by_cases hin : fraction.all isDigit = true ∧ fraction.length ≤ point ∧
        decimal (digits ++ fraction) ≤ maxInt
    · refine (congrArg (· >>= _) (if_pos hin)).trans
        ((scalePoint_eq hin.2.2 (point - fraction.length)).trans ?_)
      exact if_congr ⟨fun h => ⟨hdigits.1, hin.1, hin.2.1, h⟩, fun h => h.2.2.2⟩ rfl rfl
    · refine (congrArg (· >>= _) (if_neg hin)).trans (if_neg fun h => ?_).symm
      exact hin ⟨h.2.1, h.2.2.1, Nat.le_trans hle h.2.2.2⟩
  · refine (congrArg (· >>= _) (if_neg hdigits)).trans (if_neg fun h => ?_).symm
    exact hdigits ⟨h.1, Nat.le_trans hwhole (Nat.le_trans hle h.2.2.2)⟩

theorem not_mem_of_digits {digits : List UInt8} (h : ∀ c ∈ digits, isDigit c = true) :
    byte '.' ∉ digits :=
  fun hmem => absurd (h _ hmem) (by decide)

/-- The number of a text with a dot, times `10 ^ point`. -/
theorem fixed_scale (digits : List UInt8) {fraction : List UInt8} {point : ℕ}
    (hlength : fraction.length ≤ point) :
    ((decimal digits : ℚ) + decimal fraction / 10 ^ fraction.length) * 10 ^ point =
      (decimal (digits ++ fraction) * 10 ^ (point - fraction.length) : ℕ) := by
  obtain ⟨more, rfl⟩ := Nat.exists_eq_add_of_le hlength
  rw [decimal_append, Nat.add_sub_cancel_left]
  push_cast
  field_simp
  ring

theorem ngxAtofp_parses {point : ℕ} (hpoint : 1 ≤ point) :
    Parses (fun line => ngxAtofp line point) (WrittenFixed point) := by
  have hpoint' : point ≠ 0 := Nat.one_le_iff_ne_zero.mp hpoint
  intro line
  by_cases hnil : line = []
  · exact ⟨fun n h => absurd hnil h.1, fun _ => if_pos hnil⟩
  · by_cases hdot : byte '.' ∈ line
    · obtain ⟨digits, fraction, rfl, hfirst⟩ := List.eq_append_cons_of_mem hdot
      dsimp only
      rw [ngxAtofp_dotted hfirst hpoint']
      constructor
      · rintro n ⟨-, ⟨q, hq, hn⟩, hle⟩
        generalize hline : digits ++ byte '.' :: fraction = line at hq
        cases hq with
        | whole h =>
            refine absurd ?_ (not_mem_of_digits h)
            rw [← hline]
            exact List.mem_append_right _ List.mem_cons_self
        | @dotted digits' fraction' h hfraction hlength =>
            obtain ⟨rfl, -, rfl⟩ := (List.append_cons_inj_of_notMem (not_mem_of_digits h)
              (not_mem_of_digits hfraction)).mp hline.symm
            rw [fixed_scale _ hlength, Nat.cast_inj] at hn
            rw [hn] at hle ⊢
            exact if_pos
              ⟨List.all_eq_true.mpr h, List.all_eq_true.mpr hfraction, hlength, hle⟩
      · intro hnone
        refine if_neg fun h => hnone ⟨_, hnil, ⟨_, .dotted (List.all_eq_true.mp h.1)
          (List.all_eq_true.mp h.2.1) h.2.2.1, ?_⟩, h.2.2.2⟩
        exact (fixed_scale _ h.2.2.1).symm
    · dsimp only
      rw [ngxAtofp_whole hnil hdot hpoint']
      constructor
      · rintro n ⟨-, ⟨q, hq, hn⟩, hle⟩
        cases hq with
        | whole h =>
            obtain rfl : n = decimal line * 10 ^ point := by exact_mod_cast hn
            exact if_pos ⟨List.all_eq_true.mpr h, hle⟩
        | dotted _ _ _ => exact absurd (List.mem_append_right _ List.mem_cons_self) hdot
      · intro hnone
        refine if_neg fun h => hnone ⟨_, hnil, ⟨_, .whole (List.all_eq_true.mp h.1), ?_⟩, h.2⟩
        push_cast
        rfl

/-- The functions return exactly the numbers that are written in their base and fit into
their type. -/
theorem numbers_exact (point : ℕ) (hpoint : 1 ≤ point) :
    Parses ngxAtoi (WrittenDecimal maxInt) ∧ Parses ngxAtosz (WrittenDecimal maxSize) ∧
      Parses ngxAtoof (WrittenDecimal maxOff) ∧ Parses ngxAtotm (WrittenDecimal maxTime) ∧
      Parses ngxHextoi WrittenHex ∧
      Parses (fun line => ngxAtofp line point) (WrittenFixed point) :=
  ⟨parseNumber_parses maxInt, parseNumber_parses maxSize, parseNumber_parses maxOff,
    parseNumber_parses maxTime, ngxHextoi_parses, ngxAtofp_parses hpoint⟩

/-- Two digits behind the dot. -/
theorem numbers_exact_two :
    Parses ngxAtoi (WrittenDecimal maxInt) ∧ Parses ngxAtosz (WrittenDecimal maxSize) ∧
      Parses ngxAtoof (WrittenDecimal maxOff) ∧ Parses ngxAtotm (WrittenDecimal maxTime) ∧
      Parses ngxHextoi WrittenHex ∧
      Parses (fun line => ngxAtofp line 2) (WrittenFixed 2) :=
  numbers_exact 2 (by decide)

end MultiversionBalancer.Core
