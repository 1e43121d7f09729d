import MultiversionBalancer.Core.CFloat
import Mathlib.Algebra.Order.Field.Basic
import Mathlib.Data.Rat.Floor
import Mathlib.Tactic.Linarith
import Mathlib.Tactic.NormNum
import Mathlib.Tactic.Positivity
import Mathlib.Tactic.Ring

/-!
# Machine arithmetic

The instance of `CFloat` that rounds: a value is an `int`, a `float` or a
`double`, operands are converted to the wider of their types, and every result
is rounded to the 24 or 53 significant bits of its type, half to even.  A value
that is not finite is the absence of a number; numbers below the normal range
are not treated separately.
-/

namespace MultiversionBalancer

/-- Rounding to the nearest integer, half to even. -/
def roundEven (q : ℚ) : ℤ :=
  let n := ⌊q⌋
  if q - n < 1 / 2 then n else if 1 / 2 < q - n then n + 1 else n + n % 2

/-- The exponent of the leading bit of a positive number. -/
def leadingBit (q : ℚ) : ℤ :=
  let e : ℤ := (Nat.log2 q.num.toNat : ℤ) - Nat.log2 q.den
  if (2 : ℚ) ^ e ≤ q then e else e - 1

/-- Rounding to `p` significant bits. -/
def roundTo (p : ℕ) (q : ℚ) : ℚ :=
  let ulp : ℚ := 2 ^ (leadingBit |q| - (p - 1))
  roundEven (q / ulp) * ulp

/-- The types of C expressions. -/
inductive CType where
  | int
  | float
  | double
  deriving DecidableEq

namespace CType

/-- The type two operands are converted to. -/
def join : CType → CType → CType
  | .double, _ => .double
  | _, .double => .double
  | .float, _ => .float
  | _, .float => .float
  | .int, .int => .int

/-- The value a number has in the type; an overflow has none. -/
def convert : CType → ℚ → Option ℚ
  | .int, q => some (RatFloat.truncate q)
  | .float, q =>
      let r := roundTo 24 q
      if |r| < 2 ^ 128 then some r else none
  | .double, q =>
      let r := roundTo 53 q
      if |r| < 2 ^ 1024 then some r else none

end CType

/-- A machine number with its type. -/
structure MachineFloat where
  type : CType
  val : Option ℚ
  deriving DecidableEq

namespace MachineFloat

/-- An operation after the usual conversions of its operands. -/
def lift₂ (f : ℚ → ℚ → Option ℚ) (a b : MachineFloat) : MachineFloat :=
  let t := a.type.join b.type
  { type := t
    val := do
      let x ← a.val.bind t.convert
      let y ← b.val.bind t.convert
      t.convert (← f x y) }

/-- A comparison after the usual conversions of its operands. -/
def test (f : ℚ → ℚ → Bool) (a b : MachineFloat) : Bool :=
  let t := a.type.join b.type
  match a.val.bind t.convert, b.val.bind t.convert with
  | some x, some y => f x y
  | _, _ => false

instance : CFloat MachineFloat where
  add := lift₂ fun x y => some (x + y)
  sub := lift₂ fun x y => some (x - y)
  mul := lift₂ fun x y => some (x * y)
  div := lift₂ fun x y => if y = 0 then none else some (x / y)
  ofInt n := ⟨.int, some n⟩
  lit q := ⟨.double, CType.convert .double q⟩
  narrow x := ⟨.float, x.val.bind (CType.convert .float)⟩
  sqrt x := ⟨.double, (x.val.bind fun q =>
    if q < 0 then none else some (RatFloat.root q)).bind (CType.convert .double)⟩
  lt := test fun x y => decide (x < y)
  le := test fun x y => decide (x ≤ y)
  eq := test fun x y => decide (x = y)
  toInt x := (x.val.map RatFloat.truncate).filter
    fun n => -2 ^ 63 ≤ n ∧ n < 2 ^ 63
  toRat x := x.val
  special _ := ['n', 'a', 'n']

instance : CFloatRange MachineFloat where
  toRat_narrow x q h := by
    obtain ⟨y, -, hy⟩ := Option.bind_eq_some_iff.mp h
    unfold CType.convert at hy
    dsimp only at hy
    split at hy
    · next hlt =>
        obtain rfl := Option.some.inj hy
        exact hlt
    · cases hy
  toInt_range x n h := by
    obtain ⟨-, hn⟩ := Option.filter_eq_some_iff.mp h
    simpa using hn
  special_length _ := by simp [CFloat.special]

/-! ## Rounding -/

@[simp] theorem roundEven_intCast (n : ℤ) : roundEven n = n := by
  simp [roundEven]

theorem roundTo_of_multiple {p : ℕ} {q : ℚ} {n : ℤ}
    (h : q = n * 2 ^ (leadingBit |q| - (p - 1))) : roundTo p q = q := by
  have hpos : (2 : ℚ) ^ (leadingBit |q| - (p - 1 : ℤ)) ≠ 0 :=
    zpow_ne_zero _ (by norm_num)
  have hdiv : q / 2 ^ (leadingBit |q| - (p - 1 : ℤ)) = n := by
    rw [div_eq_iff hpos]
    exact h
  simp only [roundTo]
  rw [hdiv, roundEven_intCast]
  exact h.symm

theorem roundTo_zero (p : ℕ) : roundTo p 0 = 0 :=
  roundTo_of_multiple (n := 0) (by simp)

theorem log2_bounds {n : ℕ} (hn : n ≠ 0) :
    (2 : ℚ) ^ (Nat.log2 n : ℤ) ≤ n ∧ (n : ℚ) < 2 ^ (Nat.log2 n + 1 : ℤ) := by
  have hlow := Nat.log2_self_le hn
  have hhigh := Nat.lt_log2_self (n := n)
  refine ⟨?_, ?_⟩
  · rw [zpow_natCast]
    exact_mod_cast hlow
  · have hcast : ((Nat.log2 n : ℤ) + 1) = ((Nat.log2 n + 1 : ℕ) : ℤ) := by simp
    rw [hcast, zpow_natCast]
    exact_mod_cast hhigh

theorem leadingBit_spec {q : ℚ} (hq : 0 < q) :
    2 ^ leadingBit q ≤ q ∧ q < 2 ^ (leadingBit q + 1) := by
  have hnum : q.num.toNat ≠ 0 := by
    have hpos := Rat.num_pos.mpr hq
    omega
  obtain ⟨hnlow, hnhigh⟩ := log2_bounds hnum
  obtain ⟨hdlow, hdhigh⟩ := log2_bounds q.den_nz
  have hden : (0 : ℚ) < q.den := by exact_mod_cast q.den_pos
  have hdiv : q = (q.num.toNat : ℚ) / q.den := by
    have hcast : (q.num.toNat : ℚ) = q.num := by
      rw [← Int.cast_natCast, Int.toNat_of_nonneg (Rat.num_pos.mpr hq).le]
    rw [hcast, Rat.num_div_den]
  have htwo : (2 : ℚ) ≠ 0 := by norm_num
  have hupper : q < 2 ^ ((Nat.log2 q.num.toNat : ℤ) - Nat.log2 q.den + 1) := by
    refine lt_of_eq_of_lt hdiv ?_
    rw [div_lt_iff₀ hden]
    calc (q.num.toNat : ℚ) < 2 ^ ((Nat.log2 q.num.toNat : ℤ) + 1) := hnhigh
      _ = 2 ^ ((Nat.log2 q.num.toNat : ℤ) - Nat.log2 q.den + 1) *
          2 ^ (Nat.log2 q.den : ℤ) := by
        rw [← zpow_add₀ htwo]
        congr 1
        ring
      _ ≤ 2 ^ ((Nat.log2 q.num.toNat : ℤ) - Nat.log2 q.den + 1) * q.den :=
        mul_le_mul_of_nonneg_left hdlow (zpow_nonneg (by norm_num) _)
  have hlower : 2 ^ ((Nat.log2 q.num.toNat : ℤ) - Nat.log2 q.den - 1) ≤ q := by
    refine le_of_le_of_eq ?_ hdiv.symm
    rw [le_div_iff₀ hden]
    calc (2 : ℚ) ^ ((Nat.log2 q.num.toNat : ℤ) - Nat.log2 q.den - 1) * q.den
        ≤ 2 ^ ((Nat.log2 q.num.toNat : ℤ) - Nat.log2 q.den - 1) *
          2 ^ ((Nat.log2 q.den : ℤ) + 1) :=
        mul_le_mul_of_nonneg_left hdhigh.le (zpow_nonneg (by norm_num) _)
      _ = 2 ^ (Nat.log2 q.num.toNat : ℤ) := by
        rw [← zpow_add₀ htwo]
        congr 1
        ring
      _ ≤ q.num.toNat := hnlow
  unfold leadingBit
  dsimp only
  split
  · next hle => exact ⟨hle, hupper⟩
  · next hlt =>
      refine ⟨hlower, ?_⟩
      rw [sub_add_cancel]
      exact not_le.mp hlt

theorem leadingBit_eq {q : ℚ} {e : ℤ} (hlow : 2 ^ e ≤ q)
    (hhigh : q < 2 ^ (e + 1)) : leadingBit q = e := by
  have hpos : 0 < q := lt_of_lt_of_le (zpow_pos (by norm_num) e) hlow
  obtain ⟨hl, hh⟩ := leadingBit_spec hpos
  have hone : (1 : ℚ) < 2 := by norm_num
  have h₁ := (zpow_lt_zpow_iff_right₀ hone).mp (lt_of_le_of_lt hl hhigh)
  have h₂ := (zpow_lt_zpow_iff_right₀ hone).mp (lt_of_le_of_lt hlow hh)
  omega

/-- Rounding a number to an integer moves it by less than one. -/
theorem roundEven_bounds {x : ℚ} {m n : ℤ} (hm : (m : ℚ) ≤ x)
    (hn : x < (n : ℚ)) : m ≤ roundEven x ∧ roundEven x ≤ n := by
  have hlow : m ≤ ⌊x⌋ := Int.le_floor.mpr hm
  have hhigh : ⌊x⌋ < n := Int.floor_lt.mpr hn
  have hmod := Int.emod_two_eq_zero_or_one ⌊x⌋
  unfold roundEven
  dsimp only
  split
  · exact ⟨hlow, hhigh.le⟩
  · split
    · exact ⟨by omega, by omega⟩
    · exact ⟨by omega, by omega⟩

/-- A rounded positive number: its last place, and at most the next power of
two. -/
theorem roundTo_spec {p : ℕ} (hp : 1 ≤ p) {q : ℚ} (hq : 0 < q) :
    ∃ k : ℤ, roundTo p q = k * 2 ^ (leadingBit q - (p - 1)) ∧
      2 ^ (p - 1) ≤ k ∧ k ≤ 2 ^ p := by
  obtain ⟨hlow, hhigh⟩ := leadingBit_spec hq
  have hulp : (0 : ℚ) < 2 ^ (leadingBit q - (p - 1 : ℤ)) :=
    zpow_pos (by norm_num) _
  have htwo : (2 : ℚ) ≠ 0 := by norm_num
  have hcast : ((p - 1 : ℕ) : ℤ) = (p : ℤ) - 1 := by omega
  refine ⟨roundEven (q / 2 ^ (leadingBit q - (p - 1 : ℤ))), ?_, ?_⟩
  · simp only [roundTo, abs_of_pos hq]
  · refine roundEven_bounds ?_ ?_
    · rw [le_div_iff₀ hulp]
      refine le_of_eq_of_le ?_ hlow
      push_cast
      rw [← zpow_natCast, hcast, ← zpow_add₀ htwo]
      congr 1
      ring
    · rw [div_lt_iff₀ hulp]
      refine lt_of_lt_of_eq hhigh ?_
      push_cast
      rw [← zpow_natCast, ← zpow_add₀ htwo]
      congr 1
      ring

theorem roundTo_roundTo {p : ℕ} (hp : 1 ≤ p) {q : ℚ} (hq : 0 ≤ q) :
    roundTo p (roundTo p q) = roundTo p q := by
  rcases hq.eq_or_lt with rfl | hq
  · rw [roundTo_zero, roundTo_zero]
  · obtain ⟨k, hk, hlow, hhigh⟩ := roundTo_spec hp hq
    have htwo : (2 : ℚ) ≠ 0 := by norm_num
    have hcast : ((p - 1 : ℕ) : ℤ) = (p : ℤ) - 1 := by omega
    have hulp : (0 : ℚ) < 2 ^ (leadingBit q - (p - 1 : ℤ)) :=
      zpow_pos (by norm_num) _
    have hkpos : (0 : ℚ) < k := by
      have hpow : (0 : ℤ) < 2 ^ (p - 1) := by positivity
      exact_mod_cast lt_of_lt_of_le hpow hlow
    have habs : |roundTo p q| = roundTo p q := by
      rw [hk]
      exact abs_of_pos (mul_pos hkpos hulp)
    rcases hhigh.eq_or_lt with rfl | hlt
    · -- the number was rounded up to the next power of two
      have hpower : roundTo p q = 2 ^ (leadingBit q + 1) := by
        rw [hk]
        push_cast
        rw [← zpow_natCast, ← zpow_add₀ htwo]
        congr 1
        ring
      have hbit : leadingBit (roundTo p q) = leadingBit q + 1 := by
        refine leadingBit_eq hpower.ge ?_
        rw [hpower]
        exact (zpow_lt_zpow_iff_right₀ (by norm_num)).mpr (by omega)
      refine roundTo_of_multiple (n := 2 ^ (p - 1)) ?_
      rw [habs, hbit, hpower]
      push_cast
      rw [← zpow_natCast, hcast, ← zpow_add₀ htwo]
      congr 1
      ring
    · have hbit : leadingBit (roundTo p q) = leadingBit q := by
        refine leadingBit_eq ?_ ?_
        · rw [hk]
          have hk' : (2 : ℚ) ^ (p - 1) ≤ k := by exact_mod_cast hlow
          refine le_trans (le_of_eq ?_)
            (mul_le_mul_of_nonneg_right hk' hulp.le)
          rw [← zpow_natCast, hcast, ← zpow_add₀ htwo]
          congr 1
          ring
        · rw [hk]
          have hk' : (k : ℚ) < 2 ^ p := by exact_mod_cast hlt
          refine lt_of_lt_of_eq (mul_lt_mul_of_pos_right hk' hulp) ?_
          rw [← zpow_natCast, ← zpow_add₀ htwo]
          congr 1
          ring
      refine roundTo_of_multiple (n := k) ?_
      rw [habs, hbit]
      exact hk

theorem roundTo_nonneg {p : ℕ} (hp : 1 ≤ p) {q : ℚ} (hq : 0 ≤ q) :
    0 ≤ roundTo p q := by
  rcases hq.eq_or_lt with rfl | hq
  · rw [roundTo_zero]
  · obtain ⟨k, hk, hlow, -⟩ := roundTo_spec hp hq
    rw [hk]
    have hkpos : (0 : ℤ) ≤ k := le_trans (by positivity) hlow
    exact mul_nonneg (by exact_mod_cast hkpos) (zpow_nonneg (by norm_num) _)

theorem roundTo_le {p : ℕ} (hp : 1 ≤ p) {q : ℚ} (hq : 0 ≤ q) :
    roundTo p q ≤ 2 * q := by
  rcases hq.eq_or_lt with rfl | hq
  · rw [roundTo_zero, mul_zero]
  · obtain ⟨k, hk, -, hhigh⟩ := roundTo_spec hp hq
    have hk' : (k : ℚ) ≤ 2 ^ p := by exact_mod_cast hhigh
    rw [hk]
    calc (k : ℚ) * 2 ^ (leadingBit q - (p - 1 : ℤ))
        ≤ 2 ^ p * 2 ^ (leadingBit q - (p - 1 : ℤ)) :=
        mul_le_mul_of_nonneg_right hk' (zpow_nonneg (by norm_num) _)
      _ = 2 * 2 ^ leadingBit q := by
        rw [← zpow_natCast, ← zpow_add₀ (by norm_num),
          ← zpow_one_add₀ (by norm_num)]
        congr 1
        ring
      _ ≤ 2 * q := mul_le_mul_of_nonneg_left (leadingBit_spec hq).1 (by norm_num)

theorem roundTo_natCast {n : ℕ} (h : n ≤ 2 ^ 24) : roundTo 24 n = n := by
  rcases Nat.eq_zero_or_pos n with rfl | hpos
  · exact_mod_cast roundTo_zero 24
  · have hq : (0 : ℚ) < n := by exact_mod_cast hpos
    have habs : |(n : ℚ)| = n := abs_of_pos hq
    have htwo : (2 : ℚ) ≠ 0 := by norm_num
    rcases h.eq_or_lt with rfl | hlt
    · decide +kernel
    · obtain ⟨hlow, -⟩ := leadingBit_spec hq
      have hn' : (n : ℚ) < 2 ^ (24 : ℤ) := by exact_mod_cast hlt
      have hbit : leadingBit (n : ℚ) < 24 :=
        (zpow_lt_zpow_iff_right₀ (by norm_num : (1 : ℚ) < 2)).mp
          (lt_of_le_of_lt hlow hn')
      obtain ⟨k, hk⟩ : ∃ k : ℕ, (k : ℤ) = 23 - leadingBit (n : ℚ) :=
        ⟨(23 - leadingBit (n : ℚ)).toNat, by omega⟩
      refine roundTo_of_multiple (n := n * 2 ^ k) ?_
      rw [habs]
      push_cast
      rw [mul_assoc, ← zpow_natCast (2 : ℚ) k, hk, ← zpow_add₀ htwo]
      have hexp : 23 - leadingBit (n : ℚ) + (leadingBit (n : ℚ) - 23) = 0 := by
        ring
      rw [hexp, zpow_zero, mul_one]

/-! ## Subtracting integers as `float`s -/

theorem convert_float {q : ℚ} (hq : 0 ≤ q) (hlt : q < 2 ^ 64) :
    CType.convert .float q = some (roundTo 24 q) := by
  refine if_pos ?_
  rw [abs_of_nonneg (roundTo_nonneg (by norm_num) hq)]
  have hle := roundTo_le (p := 24) (by norm_num) hq
  calc roundTo 24 q ≤ 2 * q := hle
    _ < 2 * 2 ^ 64 := mul_lt_mul_of_pos_left hlt (by norm_num)
    _ < 2 ^ 128 := by norm_num

theorem narrow_ofInt {m : ℤ} (hm : 0 ≤ m) (hlt : m < 2 ^ 63) :
    CFloat.max (CFloat.narrow (CFloat.ofInt m)) (CFloat.ofInt 0) =
      (⟨.float, some (roundTo 24 m)⟩ : MachineFloat) := by
  have hm' : (0 : ℚ) ≤ m := by exact_mod_cast hm
  have hlt' : (m : ℚ) < 2 ^ 63 := by exact_mod_cast hlt
  have hnarrow : (CFloat.narrow (CFloat.ofInt m) : MachineFloat) =
      ⟨.float, some (roundTo 24 m)⟩ :=
    congrArg (MachineFloat.mk .float)
      (convert_float hm' (hlt'.trans (by norm_num)))
  have hround := roundTo_nonneg (p := 24) (by norm_num) hm'
  have hnot : CFloat.lt (⟨.float, some (roundTo 24 m)⟩ : MachineFloat)
      (CFloat.ofInt 0) = false := by
    have hle := roundTo_le (p := 24) (by norm_num) hm'
    have hconv := convert_float hround (by linarith)
    have hzero := convert_float (q := ((0 : ℤ) : ℚ)) (by norm_num)
      (by norm_num)
    have htest : CFloat.lt (⟨.float, some (roundTo 24 m)⟩ : MachineFloat)
        (CFloat.ofInt 0) = decide (roundTo 24 (roundTo 24 (m : ℚ)) <
          roundTo 24 ((0 : ℤ) : ℚ)) := by
      change test _ _ _ = _
      simp only [test, CType.join, CFloat.ofInt, Option.bind_some, hconv, hzero]
    rw [htest, roundTo_roundTo (by norm_num) hm', Int.cast_zero, roundTo_zero]
    exact decide_eq_false (not_lt.mpr hround)
  unfold CFloat.max
  rw [hnarrow, hnot]
  rfl

/-- Subtracting one integer from another as `float`s is exact if the
difference of the rounded operands rounds to the difference. -/
theorem cast_sub_exact {n m : ℤ} (hm : 0 ≤ m) (hmn : m ≤ n) (hn : n < 2 ^ 63)
    (h : roundTo 24 (roundTo 24 n - roundTo 24 m) = n - m) :
    CFloat.cast (CFloat.ofInt n -
      CFloat.max (CFloat.narrow (CFloat.ofInt m)) (CFloat.ofInt 0) :
        MachineFloat) = n - m := by
  have hm' : (0 : ℚ) ≤ m := by exact_mod_cast hm
  have hn' : (0 : ℚ) ≤ n := by exact_mod_cast hm.trans hmn
  have hnlt : (n : ℚ) < 2 ^ 63 := by exact_mod_cast hn
  have hmlt : (m : ℚ) < 2 ^ 63 := by exact_mod_cast lt_of_le_of_lt hmn hn
  have hround := roundTo_nonneg (p := 24) (by norm_num) hm'
  have hle := roundTo_le (p := 24) (by norm_num) hm'
  have hleft := convert_float hn' (hnlt.trans (by norm_num))
  have hright := convert_float hround (by linarith)
  rw [roundTo_roundTo (by norm_num) hm'] at hright
  have hdiff : CType.convert .float (roundTo 24 n - roundTo 24 m) =
      some ((n - m : ℤ) : ℚ) := by
    have habs : |((n : ℚ) - m)| < 2 ^ 128 := by
      rw [abs_lt]
      constructor
      · linarith
      · linarith
    rw [CType.convert]
    simp only [h]
    rw [if_pos habs, Int.cast_sub]
  have hval : (CFloat.ofInt n -
      (⟨.float, some (roundTo 24 m)⟩ : MachineFloat)).val =
        some ((n - m : ℤ) : ℚ) := by
    change (lift₂ _ _ _).val = _
    simp only [lift₂, CType.join, CFloat.ofInt, Option.bind_eq_bind,
      Option.bind_some, hleft, hright, hdiff]
  rw [narrow_ofInt hm (lt_of_le_of_lt hmn hn)]
  change (((CFloat.ofInt n -
    (⟨.float, some (roundTo 24 m)⟩ : MachineFloat)).val.map
      RatFloat.truncate).filter
        fun n => -2 ^ 63 ≤ n ∧ n < 2 ^ 63).getD 0 = _
  have htrunc : RatFloat.truncate ((n - m : ℤ) : ℚ) = n - m := by
    simp only [RatFloat.truncate, Rat.num_intCast, Rat.den_intCast]
    simp
  have hrange : (-2 ^ 63 ≤ n - m ∧ n - m < 2 ^ 63) := by omega
  rw [hval, Option.map_some, htrunc, Option.filter_some,
    if_pos (decide_eq_true hrange)]
  rfl

end MachineFloat

end MultiversionBalancer
