import MultiversionBalancer.Core.CFloat

/-!
# Floats read as rationals

The instance of `CFloat` without ranges: every value is a rational number, and a
division by zero gives zero.
-/

namespace MultiversionBalancer

/-- A floating value read as a rational. -/
structure ExactFloat where
  val : ℚ
  deriving DecidableEq

instance : CFloat ExactFloat where
  add x y := ⟨x.val + y.val⟩
  sub x y := ⟨x.val - y.val⟩
  mul x y := ⟨x.val * y.val⟩
  div x y := ⟨x.val / y.val⟩
  ofInt n := ⟨n⟩
  lit q := ⟨q⟩
  narrow x := x
  sqrt x := ⟨RatFloat.root x.val⟩
  lt x y := decide (x.val < y.val)
  le x y := decide (x.val ≤ y.val)
  eq x y := decide (x.val = y.val)
  toInt x := some (RatFloat.truncate x.val)
  toRat x := some x.val
  special _ := []

namespace ExactFloat

@[simp] theorem add_val (x y : ExactFloat) : (x + y).val = x.val + y.val := rfl

@[simp] theorem sub_val (x y : ExactFloat) : (x - y).val = x.val - y.val := rfl

@[simp] theorem narrow_eq (x : ExactFloat) : CFloat.narrow x = x := rfl

@[simp] theorem ofInt_val (n : ℤ) : (CFloat.ofInt n : ExactFloat).val = n := rfl

end ExactFloat

end MultiversionBalancer
