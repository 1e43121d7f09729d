import Mathlib.Algebra.BigOperators.Group.Finset.Basic
import Mathlib.Algebra.BigOperators.Ring.Finset
import Mathlib.Algebra.Order.BigOperators.Group.Finset
import Mathlib.Algebra.Order.Field.Basic
import Mathlib.Data.Fintype.BigOperators
import Mathlib.NumberTheory.Harmonic.Defs
import Mathlib.Tactic.FieldSimp
import Mathlib.Tactic.Linarith
import Mathlib.Tactic.Ring

/-!
# Smooth weighted selection

In each round every level grows by its weight, a greatest one is chosen, and the chosen
one pays the total weight.  The rule by which one of the greatest levels is chosen does
not matter: after as many rounds as the total weight, each index has been chosen as often
as its weight says.  No level grows beyond the total weight times a harmonic number.
-/

namespace MultiversionBalancer.Lib.Smooth

variable {ι : Type*} [Fintype ι] [DecidableEq ι]

/-- The levels after the growth of a round. -/
def raised (w l : ι → ℤ) (i : ι) : ℤ :=
  l i + w i

/-- The levels after a round. -/
def advance (w : ι → ℤ) (pick : (ι → ℤ) → ι) (l : ι → ℤ) (i : ι) : ℤ :=
  raised w l i - if i = pick (raised w l) then ∑ j, w j else 0

/-- The levels after `t` rounds from zero. -/
def levels (w : ι → ℤ) (pick : (ι → ℤ) → ι) : ℕ → ι → ℤ
  | 0 => fun _ => 0
  | t + 1 => advance w pick (levels w pick t)

/-- The index that is chosen in round `t`. -/
def chosen (w : ι → ℤ) (pick : (ι → ℤ) → ι) (t : ℕ) : ι :=
  pick (raised w (levels w pick t))

/-- How often an index is chosen in the first `t` rounds. -/
def count (w : ι → ℤ) (pick : (ι → ℤ) → ι) (t : ℕ) (i : ι) : ℕ :=
  ((List.range t).map (chosen w pick)).count i

variable {w : ι → ℤ} {pick : (ι → ℤ) → ι}

theorem sum_advance (l : ι → ℤ) : ∑ i, advance w pick l i = ∑ i, l i := by
  simp only [advance, raised]
  rw [Finset.sum_sub_distrib, Finset.sum_add_distrib, Finset.sum_ite_eq',
    if_pos (Finset.mem_univ _)]
  ring

theorem sum_levels (t : ℕ) : ∑ i, levels w pick t i = 0 := by
  induction t with
  | zero => exact Finset.sum_const_zero
  | succ t ih => exact (sum_advance _).trans ih

omit [DecidableEq ι] in
/-- A greatest level is positive after the growth of a round. -/
theorem raised_pick_pos (hw : ∀ i, 0 < w i) (hpick : ∀ (l : ι → ℤ) i, l i ≤ l (pick l)) {l : ι → ℤ}
    (hl : ∑ i, l i = 0) : 0 < raised w l (pick (raised w l)) := by
  by_contra hneg
  have hle (i : ι) : raised w l i ≤ 0 :=
    (hpick (raised w l) i).trans (not_lt.mp hneg)
  have hsum : ∑ i, raised w l i ≤ 0 := Finset.sum_nonpos fun i _ => hle i
  have htotal : ∑ i, raised w l i = ∑ i, w i := by
    simp only [raised]
    rw [Finset.sum_add_distrib, hl, zero_add]
  have hpos : 0 < ∑ i, w i :=
    Finset.sum_pos (fun i _ => hw i) ⟨pick (raised w l), Finset.mem_univ _⟩
  omega

theorem levels_gt (hw : ∀ i, 0 < w i) (hpick : ∀ (l : ι → ℤ) i, l i ≤ l (pick l)) (t : ℕ) (i : ι) :
    -∑ j, w j < levels w pick t i := by
  induction t generalizing i with
  | zero =>
      have hpos : 0 < ∑ j, w j := Finset.sum_pos (fun j _ => hw j) ⟨i, Finset.mem_univ i⟩
      simp only [levels]
      omega
  | succ t ih =>
      simp only [levels, advance]
      by_cases hi : i = pick (raised w (levels w pick t))
      · have hsum : ∑ j, levels w pick t j = 0 := sum_levels t
        have hpos := raised_pick_pos hw hpick hsum
        rw [if_pos hi, hi]
        omega
      · have hold := ih i
        have hwi := hw i
        rw [if_neg hi]
        simp only [raised]
        omega

theorem count_succ (t : ℕ) (i : ι) :
    count w pick (t + 1) i = count w pick t i + if chosen w pick t = i then 1 else 0 := by
  simp only [count, List.range_succ, List.map_append, List.count_append, List.map_cons,
    List.map_nil, List.count_singleton, beq_iff_eq]

theorem levels_eq (t : ℕ) (i : ι) :
    levels w pick t i = t * w i - (∑ j, w j) * count w pick t i := by
  induction t with
  | zero => simp [levels, count]
  | succ t ih =>
      have hstep : levels w pick (t + 1) i =
          levels w pick t i + w i - if i = chosen w pick t then ∑ j, w j else 0 := rfl
      rw [hstep, ih, count_succ]
      by_cases hi : i = chosen w pick t
      · rw [if_pos hi, if_pos hi.symm]
        push_cast
        ring
      · rw [if_neg hi, if_neg fun h => hi h.symm]
        push_cast
        ring

theorem sum_count (t : ℕ) : ∑ i, (count w pick t i : ℤ) = t := by
  induction t with
  | zero => simp [count]
  | succ t ih =>
      simp only [count_succ]
      push_cast
      rw [Finset.sum_add_distrib, ih, Finset.sum_ite_eq, if_pos (Finset.mem_univ _)]

section Harmonic

/-- What `k` of the indices hold together is at most the total weight times this. -/
def share (n k : ℕ) : ℚ :=
  k * (harmonic n - harmonic k)

theorem harmonic_mono {m n : ℕ} (h : m ≤ n) : harmonic m ≤ harmonic n := by
  induction n, h using Nat.le_induction with
  | base => exact le_rfl
  | succ n _ ih =>
      have hpos : (0 : ℚ) ≤ ((n + 1 : ℕ) : ℚ)⁻¹ := inv_nonneg.mpr (Nat.cast_nonneg _)
      rw [harmonic_succ]
      linarith

theorem share_nonneg {n k : ℕ} (h : k ≤ n) : 0 ≤ share n k :=
  mul_nonneg (Nat.cast_nonneg k) (sub_nonneg.mpr (harmonic_mono h))

/-- One more index takes part in a round, and the greatest share leaves. -/
theorem share_succ (n k : ℕ) : k * (share n (k + 1) + 1) = (k + 1) * share n k := by
  have hne : ((k : ℚ) + 1) ≠ 0 := by positivity
  rw [share, share, harmonic_succ]
  push_cast
  field_simp
  ring

theorem share_one (n : ℕ) : share n 1 = harmonic n - 1 := by
  have hone : harmonic 1 = 1 := by
    rw [harmonic_succ 0, harmonic_zero, Nat.zero_add, Nat.cast_one, inv_one, zero_add]
  rw [share, hone, Nat.cast_one, one_mul]

omit [DecidableEq ι] in
theorem sum_weights_le (hw : ∀ i, 0 < w i) (S : Finset ι) : ∑ i ∈ S, w i ≤ ∑ i, w i :=
  Finset.sum_le_univ_sum_of_nonneg fun i => (hw i).le

/-- A round when the chosen index is among those that are counted. -/
theorem sum_advance_of_mem (hw : ∀ i, 0 < w i) {l : ι → ℤ} {S : Finset ι}
    (hmem : pick (raised w l) ∈ S) : ∑ i ∈ S, advance w pick l i ≤ ∑ i ∈ S, l i := by
  have hsum := sum_weights_le hw S
  simp only [advance, raised] at hmem ⊢
  rw [Finset.sum_sub_distrib, Finset.sum_add_distrib, Finset.sum_ite_eq', if_pos hmem]
  omega

/-- A round when it is not: the chosen index has at least the average of the others. -/
theorem sum_advance_of_notMem (hw : ∀ i, 0 < w i) (hpick : ∀ (l : ι → ℤ) i, l i ≤ l (pick l))
    {l : ι → ℤ} {S : Finset ι} (hmem : pick (raised w l) ∉ S) :
    (S.card + 1 : ℤ) * ∑ i ∈ S, advance w pick l i ≤
      S.card * (∑ i ∈ insert (pick (raised w l)) S, l i + ∑ i, w i) := by
  have hstay : ∑ i ∈ S, advance w pick l i = ∑ i ∈ S, raised w l i :=
    Finset.sum_congr rfl fun i hi => by
      rw [advance, if_neg (ne_of_mem_of_not_mem hi hmem), sub_zero]
  have hbelow : ∑ i ∈ S, raised w l i ≤ S.card * raised w l (pick (raised w l)) :=
    (Finset.sum_le_card_nsmul S _ _ fun i _ => hpick (raised w l) i).trans_eq (nsmul_eq_mul _ _)
  have hall : ∑ i ∈ insert (pick (raised w l)) S, raised w l i ≤
      ∑ i ∈ insert (pick (raised w l)) S, l i + ∑ i, w i := by
    have hsum := sum_weights_le hw (insert (pick (raised w l)) S)
    simp only [raised] at hsum ⊢
    rw [Finset.sum_add_distrib]
    omega
  rw [Finset.sum_insert hmem] at hall
  rw [hstay]
  calc
    (S.card + 1 : ℤ) * ∑ i ∈ S, raised w l i
        ≤ S.card * (raised w l (pick (raised w l)) + ∑ i ∈ S, raised w l i) := by linarith
    _ ≤ S.card * (∑ i ∈ insert (pick (raised w l)) S, l i + ∑ i, w i) :=
      mul_le_mul_of_nonneg_left hall (Int.natCast_nonneg _)

/-- No set of indices ever holds more than its share. -/
theorem sum_levels_le (hw : ∀ i, 0 < w i) (hpick : ∀ (l : ι → ℤ) i, l i ≤ l (pick l)) (t : ℕ)
    (S : Finset ι) :
    ((∑ i ∈ S, levels w pick t i : ℤ) : ℚ) ≤
      ((∑ i, w i : ℤ) : ℚ) * share (Fintype.card ι) S.card := by
  have htotal : (0 : ℚ) ≤ ((∑ i, w i : ℤ) : ℚ) :=
    Int.cast_nonneg (Finset.sum_nonneg fun i _ => (hw i).le)
  induction t generalizing S with
  | zero =>
      have hsum : ∑ i ∈ S, levels w pick 0 i = 0 := Finset.sum_const_zero
      rw [hsum, Int.cast_zero]
      exact mul_nonneg htotal (share_nonneg (Finset.card_le_univ S))
  | succ t ih =>
      by_cases hmem : pick (raised w (levels w pick t)) ∈ S
      · have hround := sum_advance_of_mem hw hmem
        exact (Int.cast_le.mpr hround).trans (ih S)
      · have hround := (Int.cast_le (R := ℚ)).mpr (sum_advance_of_notMem hw hpick hmem)
        have hall := ih (insert (pick (raised w (levels w pick t))) S)
        rw [Finset.card_insert_of_notMem hmem] at hall
        have hshare := share_succ (Fintype.card ι) S.card
        push_cast at hround hall htotal ⊢
        have hcard : (0 : ℚ) ≤ S.card := Nat.cast_nonneg _
        refine le_of_mul_le_mul_left ?_ (by positivity : (0 : ℚ) < S.card + 1)
        calc
          _ ≤ _ := hround
          _ ≤ (S.card : ℚ) * ((∑ i, (w i : ℚ)) * share (Fintype.card ι) (S.card + 1) +
                ∑ i, (w i : ℚ)) := mul_le_mul_of_nonneg_left (by linarith) hcard
          _ = (∑ i, (w i : ℚ)) * (S.card * (share (Fintype.card ι) (S.card + 1) + 1)) := by ring
          _ = (S.card + 1) * ((∑ i, (w i : ℚ)) * share (Fintype.card ι) S.card) := by
            rw [hshare]
            ring

/-- The greatest level of a round. -/
theorem raised_le (hw : ∀ i, 0 < w i) (hpick : ∀ (l : ι → ℤ) i, l i ≤ l (pick l)) (t : ℕ) (i : ι) :
    (raised w (levels w pick t) i : ℚ) ≤
      ((∑ j, w j : ℤ) : ℚ) * harmonic (Fintype.card ι) := by
  have hlevel := sum_levels_le hw hpick t {i}
  rw [Finset.sum_singleton, Finset.card_singleton, share_one, mul_sub, mul_one] at hlevel
  have hweight : (w i : ℚ) ≤ ((∑ j, w j : ℤ) : ℚ) := by
    have h := sum_weights_le hw {i}
    rw [Finset.sum_singleton] at h
    exact Int.cast_le.mpr h
  have hraised : (raised w (levels w pick t) i : ℚ) = levels w pick t i + w i := by
    rw [raised, Int.cast_add]
  rw [hraised]
  linarith

end Harmonic

section Period

variable (hw : ∀ i, 0 < w i) (hpick : ∀ (l : ι → ℤ) i, l i ≤ l (pick l)) {T : ℕ}
  (hT : (T : ℤ) = ∑ i, w i)

include hw hpick hT

/-- An index is not chosen more often than its weight says. -/
theorem count_le (i : ι) : (count w pick T i : ℤ) ≤ w i := by
  have hpos : 0 < ∑ j, w j := Finset.sum_pos (fun j _ => hw j) ⟨i, Finset.mem_univ i⟩
  have hgt := levels_gt hw hpick T i
  rw [levels_eq, hT] at hgt
  by_contra hlt
  have hmul : (∑ j, w j) * (w i + 1) ≤ (∑ j, w j) * count w pick T i :=
    Int.mul_le_mul_of_nonneg_left (by omega) hpos.le
  have hexpand : (∑ j, w j) * (w i + 1) = (∑ j, w j) * w i + ∑ j, w j := by ring
  omega

theorem count_period (i : ι) : (count w pick T i : ℤ) = w i := by
  have hsum : ∑ j, (count w pick T j : ℤ) = ∑ j, w j := (sum_count T).trans hT
  exact (Finset.sum_eq_sum_iff_of_le fun j _ => count_le hw hpick hT j).mp hsum i
    (Finset.mem_univ i)

theorem levels_period : levels w pick T = fun _ => 0 := by
  funext i
  rw [levels_eq, count_period hw hpick hT, hT]
  ring

theorem levels_add_period (t : ℕ) : levels w pick (t + T) = levels w pick t := by
  induction t with
  | zero => exact (congrArg (levels w pick) (Nat.zero_add T)).trans (levels_period hw hpick hT)
  | succ t ih =>
      have hshift : t + 1 + T = t + T + 1 := by omega
      rw [hshift]
      simp only [levels, ih]

theorem chosen_add_period (t : ℕ) : chosen w pick (t + T) = chosen w pick t := by
  rw [chosen, levels_add_period hw hpick hT, chosen]

end Period

end MultiversionBalancer.Lib.Smooth
