import Mathlib.Data.List.Infix
import Mathlib.Data.Nat.Notation
import Mathlib.Algebra.Ring.Nat

/-!
# Bit strings and prefix codes

Numbers as bit strings of a given length, the highest bit first, and codes of which
none is the beginning of another one.
-/

namespace MultiversionBalancer.Lib

/-! ## Numbers -/

/-- The lowest `n` bits of a number, the highest one first. -/
def toBits : ℕ → ℕ → List Bool
  | 0, _ => []
  | n + 1, v => v.testBit n :: toBits n v

@[simp] theorem toBits_length (n v : ℕ) : (toBits n v).length = n := by
  induction n with
  | zero => rfl
  | succ n ih => rw [toBits, List.length_cons, ih]

theorem toBits_append (m n v : ℕ) :
    toBits (m + n) v = toBits m (v / 2 ^ n) ++ toBits n v := by
  induction m with
  | zero => rw [Nat.zero_add, toBits, List.nil_append]
  | succ m ih =>
      rw [Nat.succ_add, toBits, toBits, ih, Nat.testBit_div_two_pow, List.cons_append]

theorem toBits_congr {n v w : ℕ} (h : ∀ i < n, v.testBit i = w.testBit i) :
    toBits n v = toBits n w := by
  induction n with
  | zero => rfl
  | succ n ih =>
      rw [toBits, toBits, h n (Nat.lt_succ_self n),
        ih fun i hi => h i (Nat.lt_succ_of_lt hi)]

theorem toBits_mod (n v : ℕ) : toBits n (v % 2 ^ n) = toBits n v := by
  apply toBits_congr
  intro i hi
  rw [Nat.testBit_mod_two_pow, decide_eq_true hi, Bool.true_and]

theorem toBits_mul_add {m n v w : ℕ} (hw : w < 2 ^ n) :
    toBits (m + n) (v * 2 ^ n + w) = toBits m v ++ toBits n w := by
  have hpos : 0 < 2 ^ n := Nat.two_pow_pos n
  have hdiv : (v * 2 ^ n + w) / 2 ^ n = v := by
    rw [Nat.mul_comm, Nat.mul_add_div hpos, Nat.div_eq_of_lt hw, Nat.add_zero]
  have hmod : (v * 2 ^ n + w) % 2 ^ n = w := by
    rw [Nat.mul_comm, Nat.mul_add_mod, Nat.mod_eq_of_lt hw]
  rw [toBits_append, hdiv, ← toBits_mod n (v * 2 ^ n + w), hmod]

theorem testBit_of_toBits {n v w i : ℕ} (h : toBits n v = toBits n w) (hi : i < n) :
    v.testBit i = w.testBit i := by
  induction n with
  | zero => exact absurd hi (Nat.not_lt_zero i)
  | succ n ih =>
      rw [toBits, toBits, List.cons.injEq] at h
      by_cases hlast : i = n
      · rw [hlast]
        exact h.1
      · exact ih h.2 (by omega)

theorem toBits_inj {n v w : ℕ} (hv : v < 2 ^ n) (hw : w < 2 ^ n)
    (h : toBits n v = toBits n w) : v = w := by
  apply Nat.eq_of_testBit_eq
  intro i
  by_cases hi : i < n
  · exact testBit_of_toBits h hi
  · have hpow : 2 ^ n ≤ 2 ^ i := Nat.pow_le_pow_right (by decide) (Nat.le_of_not_lt hi)
    rw [Nat.testBit_lt_two_pow (by omega), Nat.testBit_lt_two_pow (by omega)]

/-! ## Masks -/

theorem take_toBits_eq_iff {n s v w : ℕ} :
    (toBits n v).take s = (toBits n w).take s ↔
      ∀ i < n, n - s ≤ i → v.testBit i = w.testBit i := by
  induction n generalizing s with
  | zero => exact ⟨fun _ i hi => absurd hi (Nat.not_lt_zero i), fun _ => rfl⟩
  | succ n ih =>
      cases s with
      | zero => exact ⟨fun _ i hi hle => absurd hi (Nat.not_lt.mpr hle), fun _ => rfl⟩
      | succ s =>
          rw [toBits, toBits, List.take_succ_cons, List.take_succ_cons, List.cons.injEq, ih,
            Nat.add_sub_add_right]
          constructor
          · rintro ⟨hfirst, hrest⟩ i hi hle
            by_cases hn : i = n
            · rw [hn, hfirst]
            · exact hrest i (by omega) hle
          · intro h
            exact ⟨h n (Nat.lt_succ_self n) (Nat.sub_le n s),
              fun i hi hle => h i (Nat.lt_succ_of_lt hi) hle⟩

/-- A mask of the highest `s` bits compares the beginnings of two numbers. -/
theorem and_eq_and_iff_take {n s : ℕ} {mask x y : BitVec n}
    (hmask : ∀ i < n, mask.getLsbD i = decide (n - s ≤ i)) :
    x &&& mask = y &&& mask ↔
      (toBits n x.toNat).take s = (toBits n y.toNat).take s := by
  rw [take_toBits_eq_iff]
  constructor
  · intro h i hi hle
    have hbit := congrArg (BitVec.getLsbD · i) h
    simp only [BitVec.getLsbD_and, hmask i hi, decide_eq_true hle, Bool.and_true] at hbit
    rwa [BitVec.testBit_toNat, BitVec.testBit_toNat]
  · intro h
    apply BitVec.eq_of_getLsbD_eq
    intro i hi
    rw [BitVec.getLsbD_and, BitVec.getLsbD_and, hmask i hi]
    by_cases hle : n - s ≤ i
    · have hbit := h i hi hle
      rw [BitVec.testBit_toNat, BitVec.testBit_toNat] at hbit
      rw [hbit]
    · rw [decide_eq_false hle, Bool.and_false, Bool.and_false]

theorem toBits_ones (n : ℕ) : toBits n (2 ^ n - 1) = List.replicate n true := by
  have hset (m : ℕ) (hm : m ≤ n) : toBits m (2 ^ n - 1) = List.replicate m true := by
    induction m with
    | zero => rfl
    | succ m ih =>
        rw [toBits, List.replicate_succ, Nat.testBit_two_pow_sub_one,
          decide_eq_true (by omega), ih (by omega)]
  exact hset n (Nat.le_refl n)

/-- The highest ones of a number whose bits are all set. -/
theorem ones_div (m n : ℕ) : (2 ^ m * 2 ^ n - 1) / 2 ^ n = 2 ^ m - 1 := by
  have hm : 0 < 2 ^ m := Nat.two_pow_pos m
  have hn : 0 < 2 ^ n := Nat.two_pow_pos n
  have hmn : 0 < 2 ^ m * 2 ^ n := Nat.mul_pos hm hn
  refine Nat.div_eq_of_lt_le ?_ ?_
  · rw [Nat.sub_mul]
    omega
  · rw [Nat.sub_add_cancel hm]
    omega

theorem eq_div_of_prefix {m n v w : ℕ} (hv : v < 2 ^ m) (hw : w < 2 ^ n)
    (h : toBits m v <+: toBits n w) : m ≤ n ∧ v = w / 2 ^ (n - m) := by
  have hle : m ≤ n := by
    have hlen := h.length_le
    rwa [toBits_length, toBits_length] at hlen
  refine ⟨hle, ?_⟩
  have hsplit := toBits_append m (n - m) w
  rw [Nat.add_sub_of_le hle] at hsplit
  rw [hsplit] at h
  have hfirst : toBits m v = toBits m (w / 2 ^ (n - m)) := by
    have hprefix := List.prefix_of_prefix_length_le h (List.prefix_append _ _)
      (by rw [toBits_length, toBits_length])
    exact hprefix.eq_of_length (by rw [toBits_length, toBits_length])
  refine toBits_inj hv ?_ hfirst
  rw [Nat.div_lt_iff_lt_mul (Nat.two_pow_pos _), ← Nat.pow_add,
    Nat.add_sub_of_le hle]
  exact hw

/-- The numbers of `k` bits that begin in one way are an interval. -/
theorem interval_of_prefix {k m n v w : ℕ} (hn : n ≤ k) (hv : v < 2 ^ m) (hw : w < 2 ^ n)
    (h : toBits m v <+: toBits n w) :
    v * 2 ^ (k - m) ≤ w * 2 ^ (k - n) ∧ w * 2 ^ (k - n) < (v + 1) * 2 ^ (k - m) := by
  obtain ⟨hle, heq⟩ := eq_div_of_prefix hv hw h
  have hpow : 2 ^ (k - m) = 2 ^ (n - m) * 2 ^ (k - n) := by
    rw [← Nat.pow_add]
    congr 1
    omega
  have hpos : 0 < 2 ^ (n - m) := Nat.two_pow_pos _
  have hlow : v * 2 ^ (n - m) ≤ w := by
    rw [heq]
    exact Nat.div_mul_le_self w _
  have hhigh : w < (v + 1) * 2 ^ (n - m) := by
    rw [heq]
    exact Nat.lt_mul_of_div_lt (Nat.lt_succ_self _) hpos
  rw [hpow, ← Nat.mul_assoc, ← Nat.mul_assoc]
  exact ⟨Nat.mul_le_mul_right _ hlow, Nat.mul_lt_mul_of_pos_right hhigh (Nat.two_pow_pos _)⟩

/-! ## Packed lists -/

/-- A list of numbers of `w` bits as one number, the first one lowest. -/
def pack (w : ℕ) : List ℕ → ℕ
  | [] => 0
  | x :: xs => x + 2 ^ w * pack w xs

/-- The number at the index `i`. -/
def unpack (w n i : ℕ) : ℕ :=
  n / 2 ^ (w * i) % 2 ^ w

theorem unpack_pack {w : ℕ} {xs : List ℕ} (h : ∀ x ∈ xs, x < 2 ^ w) (i : ℕ) :
    unpack w (pack w xs) i = xs.getD i 0 := by
  induction xs generalizing i with
  | nil => simp [pack, unpack]
  | cons x xs ih =>
      have hx : x < 2 ^ w := h x List.mem_cons_self
      have hpos : 0 < 2 ^ w := Nat.two_pow_pos w
      cases i with
      | zero =>
          rw [unpack, pack, Nat.mul_zero, Nat.pow_zero, Nat.div_one, Nat.add_mul_mod_self_left,
            Nat.mod_eq_of_lt hx, List.getD_cons_zero]
      | succ i =>
          have hdrop : (x + 2 ^ w * pack w xs) / 2 ^ w = pack w xs := by
            rw [Nat.add_mul_div_left _ _ hpos, Nat.div_eq_of_lt hx, Nat.zero_add]
          have hpow : 2 ^ (w * (i + 1)) = 2 ^ w * 2 ^ (w * i) := by
            rw [← Nat.pow_add, Nat.mul_succ, Nat.add_comm]
          rw [List.getD_cons_succ, ← ih (fun y hy => h y (List.mem_cons_of_mem x hy)) i,
            unpack, unpack, pack, hpow, ← Nat.div_div_eq_div_mul, hdrop]

/-! ## Prefix codes -/

section Code

variable {α : Type*} {code : α → List Bool}

/-- No code is the beginning of another one. -/
def PrefixFree (code : α → List Bool) : Prop :=
  ∀ a b, code a <+: code b → a = b

/-- The codes of symbols. -/
def encodeBits (code : α → List Bool) (symbols : List α) : List Bool :=
  symbols.flatMap code

theorem encodeBits_cons (a : α) (symbols : List α) :
    encodeBits code (a :: symbols) = code a ++ encodeBits code symbols := by
  simp [encodeBits]

theorem encodeBits_append (symbols symbols' : List α) :
    encodeBits code (symbols ++ symbols') =
      encodeBits code symbols ++ encodeBits code symbols' := by
  simp [encodeBits]

theorem PrefixFree.first (h : PrefixFree code) {a b : α} {x y : List Bool}
    (heq : code a ++ x = code b ++ y) : a = b ∧ x = y := by
  have hsame : a = b := by
    obtain ⟨z, hz, -⟩ | ⟨z, hz, -⟩ := List.append_eq_append_iff.mp heq
    · exact h a b ⟨z, hz.symm⟩
    · exact (h b a ⟨z, hz.symm⟩).symm
  subst hsame
  exact ⟨rfl, List.append_cancel_left heq⟩

theorem length_encodeBits_le {n : ℕ} (h : ∀ a, n ≤ (code a).length) (symbols : List α) :
    n * symbols.length ≤ (encodeBits code symbols).length := by
  induction symbols with
  | nil => exact Nat.zero_le _
  | cons a symbols ih =>
      have ha := h a
      rw [encodeBits_cons, List.length_append, List.length_cons, Nat.mul_succ]
      omega

end Code

end MultiversionBalancer.Lib
