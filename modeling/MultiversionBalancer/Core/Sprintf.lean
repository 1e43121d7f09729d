import MultiversionBalancer.Core.CFloat

/-!
# Formatted numbers

The conversions of `ngx_sprintf` and of the C library's `sprintf` that the log
module uses, as texts.
-/

namespace MultiversionBalancer

open CFloat

/-- Character strings of the source. -/
abbrev Text := List Char

/-- `ngx_sprintf_num` in decimal: at least `width` characters, filled with
`zero`. -/
def ngxSprintfNum (n : ℕ) (zero : Char) (width : ℕ) : Text :=
  let digits := Nat.toDigits 10 n
  List.replicate (width - digits.length) zero ++ digits

/-- A signed decimal conversion without width (`%T`, `%O`, `%i`, `%d`). -/
def ngxSprintfInt (i : ℤ) : Text :=
  if i < 0 then '-' :: ngxSprintfNum i.natAbs ' ' 0
  else ngxSprintfNum i.natAbs ' ' 0

/-- The value of an `int` converted from a wider integer. -/
def toInt32 (i : ℤ) : ℤ :=
  i.bmod (2 ^ 32)

def ngxSprintfFloat {F : Type} [CFloat F] (fracWidth : ℕ) (f : F) : Text :=
  let negative := lt f (ofInt 0)
  let f := if negative then ofInt 0 - f else f
  let ui := cast f
  let scale : ℤ := 10 ^ fracWidth
  let frac := cast ((f - ofInt ui) * ofInt scale + lit (1 / 2))
  let carry := frac == scale
  (if negative then ['-'] else []) ++
    ngxSprintfNum (if carry then ui + 1 else ui).toNat ' ' 0 ++
    '.' :: ngxSprintfNum (if carry then 0 else frac).toNat '0' fracWidth

/-- Rounding to the nearest integer, ties to even. -/
def roundHalfEven (q : ℚ) : ℤ :=
  let f := q.floor
  let d := q - f
  if d < 1 / 2 then f
  else if 1 / 2 < d then f + 1
  else if f % 2 = 0 then f
  else f + 1

/-- `%.2f` of the C library: the exact value rounded to two decimals. -/
def sprintfFixed2 {F : Type} [CFloat F] (f : F) : Text :=
  match toRat f with
  | none => special f
  | some q =>
      let m := (roundHalfEven (|q| * 100)).toNat
      (if q < 0 then ['-'] else []) ++
        ngxSprintfNum (m / 100) ' ' 0 ++ '.' :: ngxSprintfNum (m % 100) '0' 2

end MultiversionBalancer
