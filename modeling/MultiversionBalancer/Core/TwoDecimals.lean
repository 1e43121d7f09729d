import MultiversionBalancer.Core.MachineFloat
import MultiversionBalancer.Core.Sprintf

/-!
# Two decimals

A `float` that is printed with two decimals is read as a `double` that is printed in the same
way.
-/

namespace MultiversionBalancer

theorem roundHalfEven_near {x : ℚ} {n : ℤ} (h : |x - n| < 1 / 2) : roundHalfEven x = n := by
  obtain ⟨hlow, hhigh⟩ := abs_lt.mp h
  unfold roundHalfEven
  dsimp only
  by_cases hle : (n : ℚ) ≤ x
  · have hfloor : x.floor = n := Int.floor_eq_iff.mpr ⟨hle, by linarith⟩
    rw [hfloor, if_pos (by linarith)]
  · have hfloor : ⌊x⌋ = n - 1 := Int.floor_eq_iff.mpr (by
      push_cast
      exact ⟨by linarith, by linarith⟩)
    replace hfloor : x.floor = n - 1 := hfloor
    have hlarge : (1 : ℚ) / 2 < x - (n - 1 : ℤ) := by
      push_cast
      linarith
    rw [hfloor, if_neg (not_lt.mpr hlarge.le), if_pos hlarge]
    ring

theorem roundHalfEven_bounds (x : ℚ) :
    x.floor ≤ roundHalfEven x ∧ roundHalfEven x ≤ x.floor + 1 := by
  unfold roundHalfEven
  dsimp only
  split_ifs <;> constructor <;> omega

theorem roundHalfEven_nonneg {x : ℚ} (h : 0 ≤ x) : 0 ≤ roundHalfEven x := by
  have hfloor : 0 ≤ ⌊x⌋ := Int.floor_nonneg.mpr h
  exact le_trans hfloor (roundHalfEven_bounds x).1

theorem roundHalfEven_le_add_one (x : ℚ) : (roundHalfEven x : ℚ) ≤ x + 1 := by
  have hfloor : (⌊x⌋ : ℚ) ≤ x := Int.floor_le x
  have hle : (roundHalfEven x : ℚ) ≤ ⌊x⌋ + 1 := by exact_mod_cast (roundHalfEven_bounds x).2
  linarith

theorem roundEven_error (x : ℚ) : |(roundEven x : ℚ) - x| ≤ 1 / 2 := by
  have hlow := Int.floor_le x
  have hhigh := Int.lt_floor_add_one x
  unfold roundEven
  dsimp only
  split_ifs with hbelow habove
  · rw [abs_le]
    constructor <;> linarith
  · push_cast
    rw [abs_le]
    constructor <;> linarith
  · have hhalf : x - ⌊x⌋ = 1 / 2 := le_antisymm (not_lt.mp habove) (not_lt.mp hbelow)
    rcases Int.emod_two_eq_zero_or_one ⌊x⌋ with hmod | hmod
    · rw [hmod, add_zero, abs_le]
      constructor <;> linarith
    · rw [hmod]
      push_cast
      rw [abs_le]
      constructor <;> linarith

/-- Rounding moves a number by at most half of its last place. -/
theorem roundTo_error (p : ℕ) (q : ℚ) :
    |roundTo p q - q| ≤ 2 ^ (leadingBit |q| - (p - 1)) / 2 := by
  have hulp : (0 : ℚ) < 2 ^ (leadingBit |q| - (p - 1 : ℤ)) := zpow_pos (by norm_num) _
  have herror := roundEven_error (q / 2 ^ (leadingBit |q| - (p - 1 : ℤ)))
  have hsplit : roundTo p q - q =
      (roundEven (q / 2 ^ (leadingBit |q| - (p - 1 : ℤ))) -
        q / 2 ^ (leadingBit |q| - (p - 1 : ℤ))) * 2 ^ (leadingBit |q| - (p - 1 : ℤ)) := by
    rw [sub_mul, div_mul_cancel₀ _ hulp.ne']
    rfl
  rw [hsplit, abs_mul, abs_of_pos hulp]
  calc _ ≤ 1 / 2 * 2 ^ (leadingBit |q| - (p - 1 : ℤ)) :=
        mul_le_mul_of_nonneg_right herror hulp.le
    _ = _ := by ring

theorem leadingBit_lt {q : ℚ} {e : ℤ} (hq : 0 < q) (h : q < 2 ^ e) : leadingBit q < e := by
  have hlow := (MachineFloat.leadingBit_spec hq).1
  exact (zpow_lt_zpow_iff_right₀ (by norm_num)).mp (lt_of_le_of_lt hlow h)

theorem le_leadingBit {q : ℚ} {e : ℤ} (hq : 0 < q) (h : 2 ^ e ≤ q) : e ≤ leadingBit q := by
  have hhigh := (MachineFloat.leadingBit_spec hq).2
  have hlt := (zpow_lt_zpow_iff_right₀ (by norm_num)).mp (lt_of_le_of_lt h hhigh)
  omega

/-- A large `float` is an integer, and a `double` as well. -/
theorem float_integer {q : ℚ} (hlarge : (2 : ℚ) ^ (24 : ℤ) ≤ q) (hfloat : roundTo 24 q = q) :
    (∃ n : ℤ, q = n) ∧ roundTo 53 q = q := by
  have hpos : 0 < q := lt_of_lt_of_le (by norm_num) hlarge
  have hbit := le_leadingBit hpos hlarge
  obtain ⟨k, hk, -, -⟩ := MachineFloat.roundTo_spec (p := 24) (by norm_num) hpos
  rw [hfloat] at hk
  obtain ⟨j, hj⟩ : ∃ j : ℕ, leadingBit q = 24 + j := ⟨(leadingBit q - 24).toNat, by omega⟩
  have hexp : leadingBit q - ((24 : ℕ) - 1 : ℤ) = ((j + 1 : ℕ) : ℤ) := by
    rw [hj]
    push_cast
    ring
  have htwo : (2 : ℚ) ≠ 0 := by norm_num
  refine ⟨⟨k * 2 ^ (j + 1), ?_⟩, MachineFloat.roundTo_of_multiple (n := k * 2 ^ 29) ?_⟩
  · rw [hexp, zpow_natCast] at hk
    rw [hk]
    push_cast
    ring
  · have hshift : (2 : ℚ) ^ (leadingBit q - ((24 : ℕ) - 1 : ℤ)) =
        2 ^ (29 : ℤ) * 2 ^ (leadingBit q - ((53 : ℕ) - 1 : ℤ)) := by
      rw [← zpow_add₀ htwo]
      congr 1
      push_cast
      ring
    have hlast : q = k * (2 ^ (29 : ℤ) * 2 ^ (leadingBit q - ((53 : ℕ) - 1 : ℤ))) := by
      rw [← hshift]
      exact hk
    rw [abs_of_pos hpos]
    push_cast
    rw [mul_assoc]
    exact hlast

/-- The two decimals of a `float` survive the reading as a `double`. -/
theorem two_decimals {q : ℚ} (hq : 0 ≤ q) (hfloat : roundTo 24 q = q) :
    roundHalfEven (roundTo 53 ((roundHalfEven (q * 100) : ℚ) / 100) * 100) =
      roundHalfEven (q * 100) := by
  rcases le_or_gt ((2 : ℚ) ^ (24 : ℤ)) q with hlarge | hsmall
  · obtain ⟨⟨n, hn⟩, hdouble⟩ := float_integer hlarge hfloat
    have hexact : roundHalfEven (q * 100) = n * 100 := by
      refine roundHalfEven_near ?_
      rw [hn]
      push_cast
      norm_num
    have hback : ((n * 100 : ℤ) : ℚ) / 100 = q := by
      rw [hn]
      push_cast
      ring
    rw [hexact, hback, hdouble, hexact]
  · obtain ⟨m, hm⟩ : ∃ m, m = roundHalfEven (q * 100) := ⟨_, rfl⟩
    have hfloor : (q * 100).floor < 2 ^ 24 * 100 := Int.floor_lt.mpr (by
      have h : q * 100 < 2 ^ (24 : ℤ) * 100 := mul_lt_mul_of_pos_right hsmall (by norm_num)
      exact_mod_cast h)
    have hle : m ≤ 2 ^ 24 * 100 := by
      have h := (roundHalfEven_bounds (q * 100)).2
      omega
    have hnonneg : 0 ≤ m := by
      rw [hm]
      exact roundHalfEven_nonneg (by positivity)
    rw [← hm]
    rcases hnonneg.eq_or_lt with hzero | hpos
    · rw [← hzero]
      norm_num [MachineFloat.roundTo_zero]
      exact roundHalfEven_near (n := 0) (by norm_num)
    · have hpos' : (0 : ℚ) < m / 100 := by
        have h : (0 : ℚ) < m := by exact_mod_cast hpos
        positivity
      have hle' : (m : ℚ) / 100 < 2 ^ (25 : ℤ) := by
        have h : (m : ℚ) ≤ 2 ^ 24 * 100 := by exact_mod_cast hle
        rw [div_lt_iff₀ (by norm_num)]
        calc (m : ℚ) ≤ 2 ^ 24 * 100 := h
          _ < 2 ^ (25 : ℤ) * 100 := by norm_num
      have hbit := leadingBit_lt hpos' hle'
      have herror := roundTo_error 53 ((m : ℚ) / 100)
      rw [abs_of_pos hpos'] at herror
      have hulp : (2 : ℚ) ^ (leadingBit ((m : ℚ) / 100) - ((53 : ℕ) - 1 : ℤ)) ≤ 2 ^ (-28 : ℤ) :=
        zpow_le_zpow_right₀ (by norm_num) (by push_cast; omega)
      refine roundHalfEven_near ?_
      have hscale : roundTo 53 ((m : ℚ) / 100) * 100 - m =
          (roundTo 53 ((m : ℚ) / 100) - m / 100) * 100 := by ring
      rw [hscale, abs_mul]
      calc _ ≤ (2 : ℚ) ^ (-28 : ℤ) / 2 * |100| :=
            mul_le_mul_of_nonneg_right (herror.trans (by linarith)) (abs_nonneg _)
        _ < 1 / 2 := by norm_num

/-- The values of C: a `float` has 24 bits, and a value that is not finite has one of four
texts. -/
class CFloatText (F : Type) [CFloat F] : Prop where
  narrow_bits : ∀ (x : F) (q : ℚ), CFloat.toRat (CFloat.narrow x) = some q → 0 ≤ q →
    roundTo 24 q = q
  special_mem : ∀ x : F, CFloat.special x ∈
    ["inf".toList, "-inf".toList, "nan".toList, "-nan".toList]

theorem roundTo_eq_zero {p : ℕ} {q : ℚ} (hq : q < 0) (h : 0 ≤ roundTo p q) : roundTo p q = 0 := by
  have hulp : (0 : ℚ) < 2 ^ (leadingBit |q| - (p - 1 : ℤ)) := zpow_pos (by norm_num) _
  have hneg : q / 2 ^ (leadingBit |q| - (p - 1 : ℤ)) < 0 := div_neg_of_neg_of_pos hq hulp
  have herror := (abs_le.mp (roundEven_error (q / 2 ^ (leadingBit |q| - (p - 1 : ℤ))))).2
  have hnonneg : 0 ≤ roundEven (q / 2 ^ (leadingBit |q| - (p - 1 : ℤ))) := by
    have hprod : (0 : ℚ) ≤ roundEven (q / 2 ^ (leadingBit |q| - (p - 1 : ℤ))) *
        2 ^ (leadingBit |q| - (p - 1 : ℤ)) := h
    exact_mod_cast nonneg_of_mul_nonneg_left hprod hulp
  have hle : roundEven (q / 2 ^ (leadingBit |q| - (p - 1 : ℤ))) < 1 := by
    have hlt : (roundEven (q / 2 ^ (leadingBit |q| - (p - 1 : ℤ))) : ℚ) < 1 := by linarith
    exact_mod_cast hlt
  have hzero : roundEven (q / 2 ^ (leadingBit |q| - (p - 1 : ℤ))) = 0 := by omega
  rw [roundTo, hzero, Int.cast_zero, zero_mul]

instance : CFloatText MachineFloat where
  narrow_bits x q h hq := by
    obtain ⟨y, -, hy⟩ := Option.bind_eq_some_iff.mp h
    unfold CType.convert at hy
    dsimp only at hy
    split at hy
    · obtain rfl := Option.some.inj hy
      rcases le_or_gt 0 y with hnonneg | hneg
      · exact MachineFloat.roundTo_roundTo (by norm_num) hnonneg
      · rw [roundTo_eq_zero hneg hq, MachineFloat.roundTo_zero]
    · cases hy
  special_mem _ := by
    change ['n', 'a', 'n'] ∈ _
    decide

end MultiversionBalancer
