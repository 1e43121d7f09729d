import MultiversionBalancer.Core.CFloat
import Mathlib.Algebra.Order.Field.Basic
import Mathlib.Algebra.Order.Ring.Unbundled.Rat

/-!
# Exact floating values

The exact operations on values that are numbers: they are those of the
rationals as long as no divisor is zero and no `float` object is out of range.
-/

namespace MultiversionBalancer.RatFloat

open CFloat

/-- The floating value of a number. -/
def ofRat (q : ℚ) : RatFloat := ⟨some q⟩

variable {p q : ℚ} {x y : RatFloat}

theorem ofRat_inj : ofRat p = ofRat q ↔ p = q := by
  simp [ofRat]

@[simp] theorem ofInt_eq (n : ℤ) : (ofInt n : RatFloat) = ofRat n := rfl

@[simp] theorem lit_eq (q : ℚ) : (lit q : RatFloat) = ofRat q := rfl

@[simp] theorem ofRat_add : ofRat p + ofRat q = ofRat (p + q) := rfl

@[simp] theorem ofRat_sub : ofRat p - ofRat q = ofRat (p - q) := rfl

@[simp] theorem ofRat_mul : ofRat p * ofRat q = ofRat (p * q) := rfl

theorem ofRat_div (hq : q ≠ 0) : ofRat p / ofRat q = ofRat (p / q) :=
  congrArg RatFloat.mk (if_neg hq)

theorem ofRat_div_zero : ofRat p / ofRat 0 = ⟨none⟩ := by
  refine congrArg RatFloat.mk ?_
  exact @if_pos ((0 : ℚ) = 0) _ rfl _ none (some (p / 0))

theorem narrow_ofRat (hq : |q| < 2 ^ 128) : narrow (ofRat q) = ofRat q :=
  congrArg RatFloat.mk (if_pos hq)

@[simp] theorem ofRat_lt : lt (ofRat p) (ofRat q) = true ↔ p < q :=
  decide_eq_true_iff

@[simp] theorem ofRat_le : le (ofRat p) (ofRat q) = true ↔ p ≤ q :=
  decide_eq_true_iff

@[simp] theorem ofRat_eq : eq (ofRat p) (ofRat q) = true ↔ p = q :=
  decide_eq_true_iff

theorem ofRat_lt_false : lt (ofRat p) (ofRat q) = false ↔ q ≤ p := by
  rw [← Bool.not_eq_true, ofRat_lt, not_lt]

theorem ofRat_max : CFloat.max (ofRat p) (ofRat q) = ofRat (Max.max p q) := by
  unfold CFloat.max
  split
  · next hlt => rw [max_eq_right (ofRat_lt.mp hlt).le]
  · next hle => rw [max_eq_left (not_lt.mp (mt ofRat_lt.mpr hle))]

/-- Only numbers compare. -/
theorem exists_of_lt (h : lt x y = true) :
    ∃ p q, x = ofRat p ∧ y = ofRat q ∧ p < q := by
  rcases x with ⟨_ | p⟩
  · cases h
  rcases y with ⟨_ | q⟩
  · cases h
  exact ⟨p, q, rfl, rfl, ofRat_lt.mp h⟩

theorem exists_of_le (h : le x y = true) :
    ∃ p q, x = ofRat p ∧ y = ofRat q ∧ p ≤ q := by
  rcases x with ⟨_ | p⟩
  · cases h
  rcases y with ⟨_ | q⟩
  · cases h
  exact ⟨p, q, rfl, rfl, ofRat_le.mp h⟩

theorem exists_of_eq (h : eq x y = true) : ∃ q, x = ofRat q ∧ y = ofRat q := by
  rcases x with ⟨_ | p⟩
  · cases h
  rcases y with ⟨_ | q⟩
  · cases h
  obtain rfl := ofRat_eq.mp h
  exact ⟨p, rfl, rfl⟩

end MultiversionBalancer.RatFloat
