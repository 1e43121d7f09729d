import Mathlib.Data.List.OfFn
import Mathlib.Data.Nat.Bitwise

/-!
# Cyclic redundancy checks

A register that is divided by a polynomial, lowest bit first.  A step is linear in exclusive
or, so several steps can be taken at once from a table of what they make of the lowest bits.
-/

namespace MultiversionBalancer.Lib.Crc

variable {w : ℕ} (poly : BitVec w)

/-- One step: the register moves down, and the polynomial is added when a bit falls out. -/
def step (c : BitVec w) : BitVec w := (c >>> 1) ^^^ (if c.getLsbD 0 then poly else 0#w)

def steps : ℕ → BitVec w → BitVec w
  | 0, c => c
  | n + 1, c => step poly (steps n c)

/-- The register after bits of a message. -/
def feed (c : BitVec w) (bits : List Bool) : BitVec w :=
  bits.foldl (fun c b => step poly (c ^^^ (BitVec.ofBool b).setWidth w)) c

theorem step_xor (a b : BitVec w) : step poly (a ^^^ b) = step poly a ^^^ step poly b := by
  apply BitVec.eq_of_getLsbD_eq
  intro i _
  simp only [step, BitVec.getLsbD_xor, BitVec.getLsbD_ushiftRight]
  cases a.getLsbD 0 <;> cases b.getLsbD 0
  all_goals
    cases a.getLsbD (1 + i) <;> cases b.getLsbD (1 + i) <;> cases h : poly.getLsbD i <;>
      simp [h]

theorem steps_xor (n : ℕ) (a b : BitVec w) :
    steps poly n (a ^^^ b) = steps poly n a ^^^ steps poly n b := by
  induction n with
  | zero => rfl
  | succ n ih => rw [steps, ih, step_xor, steps, steps]

theorem steps_add (m n : ℕ) (c : BitVec w) :
    steps poly (m + n) c = steps poly n (steps poly m c) := by
  induction n with
  | zero => rfl
  | succ n ih => rw [← Nat.add_assoc, steps, ih, steps]

/-- A register whose low bits are clear only moves down. -/
theorem steps_of_clear (n : ℕ) (c : BitVec w) (hc : ∀ i < n, c.getLsbD i = false) :
    steps poly n c = c >>> n := by
  induction n with
  | zero => rfl
  | succ n ih =>
      have hbit : (c >>> n).getLsbD 0 = false := by
        rw [BitVec.getLsbD_ushiftRight]
        exact hc n (Nat.lt_succ_self n)
      rw [steps, ih fun i hi => hc i (Nat.lt_succ_of_lt hi), step, hbit, BitVec.shiftRight_add]
      simp

/-- What is added where the register will have moved to is added after the steps. -/
theorem steps_xor_shiftLeft (n : ℕ) (c x : BitVec w) (hx : x <<< n >>> n = x) :
    steps poly n (c ^^^ x <<< n) = steps poly n c ^^^ x := by
  rw [steps_xor, steps_of_clear poly n (x <<< n), hx]
  intro i hi
  rw [BitVec.getLsbD_shiftLeft]
  simp [hi]

/-! ## Tables -/

/-- The lowest bits of a register. -/
def low (n : ℕ) (c : BitVec w) : BitVec w := c &&& BitVec.ofNat w (2 ^ n - 1)

theorem getLsbD_low (n : ℕ) (c : BitVec w) (i : ℕ) :
    (low n c).getLsbD i = (decide (i < n) && c.getLsbD i) := by
  rw [low, BitVec.getLsbD_and, BitVec.getLsbD_ofNat, Nat.testBit_two_pow_sub_one]
  by_cases hi : i < w
  · cases c.getLsbD i <;> simp [hi]
  · rw [BitVec.getLsbD_of_ge c i (Nat.le_of_not_lt hi)]
    simp

theorem low_xor_high (n : ℕ) (c : BitVec w) : c = low n c ^^^ (c >>> n) <<< n := by
  apply BitVec.eq_of_getLsbD_eq
  intro i hi
  rw [BitVec.getLsbD_xor, getLsbD_low, BitVec.getLsbD_shiftLeft, BitVec.getLsbD_ushiftRight]
  by_cases hin : i < n
  · simp [hin]
  · simp [hin, hi, Nat.add_sub_cancel' (Nat.le_of_not_lt hin)]

theorem shiftRight_shiftLeft_shiftRight (n : ℕ) (c : BitVec w) : c >>> n <<< n >>> n = c >>> n := by
  apply BitVec.eq_of_getLsbD_eq
  intro i hi
  rw [BitVec.getLsbD_ushiftRight, BitVec.getLsbD_shiftLeft, BitVec.getLsbD_ushiftRight]
  by_cases hin : n + i < w
  · simp [hin]
  · simp [hin, BitVec.getLsbD_of_ge c (n + i) (Nat.le_of_not_lt hin)]

theorem low_one (c : BitVec w) : low 1 c = (BitVec.ofBool (c.getLsbD 0)).setWidth w := by
  apply BitVec.eq_of_getLsbD_eq
  intro i hi
  rw [getLsbD_low, BitVec.getLsbD_setWidth, BitVec.getLsbD_ofBool]
  by_cases hi0 : i = 0
  · rw [hi0] at hi ⊢
    simp [hi]
  · simp [hi0]

/-- The table has what `n` steps make of `n` bits. -/
def IsTable (n : ℕ) (table : List (BitVec w)) : Prop :=
  ∀ i < 2 ^ n, table.getD i 0 = steps poly n (BitVec.ofNat w i)

theorem IsTable.lookup {n : ℕ} {table : List (BitVec w)} (h : IsTable poly n table)
    (c : BitVec w) :
    table.getD (low n c).toNat 0 ^^^ (c >>> n) = steps poly n c := by
  have hlt : (low n c).toNat < 2 ^ n := by
    rw [low, BitVec.toNat_and, BitVec.toNat_ofNat]
    refine lt_of_le_of_lt Nat.and_le_right (lt_of_le_of_lt (Nat.mod_le _ _) ?_)
    exact Nat.sub_lt (Nat.two_pow_pos n) Nat.one_pos
  rw [h _ hlt, BitVec.ofNat_toNat, BitVec.setWidth_eq]
  conv_rhs => rw [low_xor_high n c]
  rw [steps_xor_shiftLeft poly n _ _ (shiftRight_shiftLeft_shiftRight n c)]

/-! ## Bits of a message -/

theorem feed_append (c : BitVec w) (bits bits' : List Bool) :
    feed poly c (bits ++ bits') = feed poly (feed poly c bits) bits' :=
  List.foldl_append

/-- Adding bits and then dividing is to take in one bit after the other. -/
theorem steps_xor_eq_feed (n : ℕ) (c x : BitVec w) :
    steps poly n (c ^^^ x) =
      feed poly c (List.ofFn fun i : Fin n => x.getLsbD i) ^^^ (x >>> n) := by
  induction n with
  | zero => simp [steps, feed]
  | succ n ih =>
      have hbit : (x >>> n).getLsbD 0 = x.getLsbD n := BitVec.getLsbD_ushiftRight ..
      have hfeed := congrArg (step poly) ih
      rw [low_xor_high 1 (x >>> n), low_one, hbit, ← BitVec.xor_assoc] at hfeed
      have hmove := steps_xor_shiftLeft poly 1
        (feed poly c (List.ofFn fun i : Fin n => x.getLsbD i) ^^^
          (BitVec.ofBool (x.getLsbD n)).setWidth w) (x >>> n >>> 1)
        (shiftRight_shiftLeft_shiftRight 1 (x >>> n))
      rw [steps, hfeed, List.ofFn_succ_last, feed_append, BitVec.shiftRight_add]
      exact hmove

end MultiversionBalancer.Lib.Crc
