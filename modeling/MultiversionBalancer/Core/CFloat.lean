import Mathlib.Algebra.Order.Ring.Rat
import Mathlib.Data.Nat.Sqrt

/-!
# C floating-point arithmetic

The balancer computes its predictions and loads in C `float` and `double`
expressions.  `CFloat` names the operations those expressions use, without
fixing a representation: a type of tagged binary32/binary64 values with the
usual arithmetic conversions is an instance, and so is exact arithmetic on
rationals.  What is proved for every instance therefore holds of the compiled
program, whatever its roundings are.

`RatFloat` is the exact instance: a value is a rational, or the absence of one
after a division by zero or an overflow of the `float` range.
-/

namespace MultiversionBalancer

/-- The operations of C floating-point expressions. -/
class CFloat (F : Type) extends Add F, Sub F, Mul F, Div F where
  /-- Conversion of an integer operand. -/
  ofInt : ℤ → F
  /-- A floating constant. -/
  lit : ℚ → F
  /-- The conversion made by an assignment to a `float` object. -/
  narrow : F → F
  /-- `sqrt` of `math.h`. -/
  sqrt : F → F
  /-- The comparison `<`. -/
  lt : F → F → Bool
  /-- The comparison `<=`. -/
  le : F → F → Bool
  /-- The comparison `==`. -/
  eq : F → F → Bool
  /-- Conversion to `ngx_int_t`; `none` where C leaves it undefined. -/
  toInt : F → Option ℤ
  /-- The number a finite value stands for. -/
  toRat : F → Option ℚ
  /-- What the C library prints for a value that is not finite. -/
  special : F → List Char

namespace CFloat

variable {F : Type} [CFloat F]

/-- The macro `ngx_max`, which yields its second argument exactly when the
first compares below it. -/
def max (a b : F) : F :=
  if lt a b then b else a

/-- An assignment of a floating value to an `ngx_int_t` object; a conversion
that C leaves undefined is taken as zero. -/
def cast (x : F) : ℤ :=
  (toInt x).getD 0

/-- The conversion of a floating value to `int`, with the same convention. -/
def castInt (x : F) : ℤ :=
  if -2 ^ 31 ≤ cast x ∧ cast x < 2 ^ 31 then cast x else 0

end CFloat

/-- The ranges of the C types: a finite `float` object is below `2 ^ 128`, the
result of a conversion to `ngx_int_t` has 64 bits, and a value that is not
finite prints as `inf` or `nan` with at most a sign. -/
class CFloatRange (F : Type) [CFloat F] : Prop where
  toRat_narrow : ∀ (x : F) (q : ℚ),
    CFloat.toRat (CFloat.narrow x) = some q → |q| < 2 ^ 128
  toInt_range : ∀ (x : F) (n : ℤ),
    CFloat.toInt x = some n → -2 ^ 63 ≤ n ∧ n < 2 ^ 63
  special_length : ∀ x : F, (CFloat.special x).length ≤ 4

/-- The comparison `<` is a strict partial order; a value that is not a number
is related to nothing. -/
class CFloatOrder (F : Type) [CFloat F] : Prop where
  lt_irrefl : ∀ x : F, CFloat.lt x x = false
  lt_trans : ∀ x y z : F, CFloat.lt x y = true → CFloat.lt y z = true →
    CFloat.lt x z = true

/-- An exact floating value: a rational, or nothing where the operation has no
finite result. -/
structure RatFloat where
  val : Option ℚ
  deriving DecidableEq

namespace RatFloat

/-- Lift a partial operation on rationals. -/
def lift₂ (f : ℚ → ℚ → Option ℚ) (a b : RatFloat) : RatFloat :=
  ⟨a.val.bind fun x => b.val.bind fun y => f x y⟩

/-- Lift a comparison; it is false when an operand is not a number. -/
def test (f : ℚ → ℚ → Bool) (a b : RatFloat) : Bool :=
  match a.val, b.val with
  | some x, some y => f x y
  | _, _ => false

/-- Rounding toward zero. -/
def truncate (q : ℚ) : ℤ :=
  Int.tdiv q.num q.den

/-- The square root to nine decimal places. -/
def root (q : ℚ) : ℚ :=
  (Nat.sqrt (q * 10 ^ 18).floor.toNat : ℚ) / 10 ^ 9

instance : CFloat RatFloat where
  add := lift₂ fun x y => some (x + y)
  sub := lift₂ fun x y => some (x - y)
  mul := lift₂ fun x y => some (x * y)
  div := lift₂ fun x y => if y = 0 then none else some (x / y)
  ofInt n := ⟨some n⟩
  lit q := ⟨some q⟩
  narrow x := ⟨x.val.bind fun q => if |q| < 2 ^ 128 then some q else none⟩
  sqrt x := ⟨x.val.bind fun q => if q < 0 then none else some (root q)⟩
  lt := test fun x y => decide (x < y)
  le := test fun x y => decide (x ≤ y)
  eq := test fun x y => decide (x = y)
  toInt x := (x.val.map truncate).filter fun n => -2 ^ 63 ≤ n ∧ n < 2 ^ 63
  toRat x := x.val
  special _ := ['n', 'a', 'n']

instance : CFloatRange RatFloat where
  toRat_narrow x q h := by
    obtain ⟨y, -, hy⟩ := Option.bind_eq_some_iff.mp h
    split at hy
    · next hlt =>
        obtain rfl := Option.some.inj hy
        exact hlt
    · cases hy
  toInt_range x n h := by
    obtain ⟨-, hn⟩ := Option.filter_eq_some_iff.mp h
    simpa using hn
  special_length _ := by simp [CFloat.special]

instance : CFloatOrder RatFloat where
  lt_irrefl x := by
    rcases x with ⟨_ | q⟩
    · rfl
    · simp [CFloat.lt, test]
  lt_trans x y z hxy hyz := by
    rcases x with ⟨_ | p⟩
    · cases hxy
    rcases y with ⟨_ | q⟩
    · cases hyz
    rcases z with ⟨_ | r⟩
    · cases hyz
    simp only [CFloat.lt, test, decide_eq_true_eq] at *
    exact lt_trans hxy hyz

end RatFloat

end MultiversionBalancer
