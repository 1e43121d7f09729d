import MultiversionBalancer.Log.RequestTime
import MultiversionBalancer.Core.RatFloat
import Mathlib.Tactic.Linarith
import Mathlib.Tactic.NormNum
import Mathlib.Tactic.Ring

/-!
# The smoothed prediction

A completion replaces the prediction by a weighted mean of the old prediction
and of the response time divided by a number of completions.  In exact
arithmetic that is what the three formulas of the source compute, as long as
the divisor they form from the counters is positive.
-/

namespace MultiversionBalancer

open CFloat RatFloat

/-- `new` is `(1 - w) * old + w * ms / k` for a weight `0 < w ≤ 1` and a
positive number `k`. -/
def ProperAverage (old ms : ℚ) (k : ℤ) (new : RatFloat) : Prop :=
  1 ≤ k ∧ ∃ w : ℚ, 0 < w ∧ w ≤ 1 ∧ new = ofRat ((1 - w) * old + w * (ms / k))

section Mean

variable {w x y b : ℚ}

theorem mean_nonneg (hw : 0 ≤ w) (hw1 : w ≤ 1) (hx : 0 ≤ x) (hy : 0 ≤ y) :
    0 ≤ (1 - w) * x + w * y :=
  add_nonneg (mul_nonneg (sub_nonneg.mpr hw1) hx) (mul_nonneg hw hy)

theorem mean_lt (hw : 0 < w) (hw1 : w ≤ 1) (hx : x < b) (hy : y < b) :
    (1 - w) * x + w * y < b := by
  have hleft : (1 - w) * x ≤ (1 - w) * b :=
    mul_le_mul_of_nonneg_left hx.le (sub_nonneg.mpr hw1)
  have hright : w * y < w * b := mul_lt_mul_of_pos_left hy hw
  have hsum : (1 - w) * b + w * b = b := by ring
  rw [← hsum]
  exact add_lt_add_of_le_of_lt hleft hright

theorem abs_mean_lt (hw : 0 < w) (hw1 : w ≤ 1) (hx : |x| < b)
    (hy : |y| < b) : |(1 - w) * x + w * y| < b := by
  obtain ⟨hx', hx⟩ := abs_lt.mp hx
  obtain ⟨hy', hy⟩ := abs_lt.mp hy
  have hlower := mean_lt hw hw1 (neg_lt.mp hx') (neg_lt.mp hy')
  refine abs_lt.mpr ⟨?_, mean_lt hw hw1 hx hy⟩
  linarith

end Mean

/-- A rational that a `float` object can hold. -/
def InRange (x : ℚ) : Prop := 0 ≤ x ∧ x < 2 ^ 128

theorem InRange.abs_lt {x : ℚ} (h : InRange x) : |x| < 2 ^ 128 := by
  rw [abs_of_nonneg h.1]
  exact h.2

theorem InRange.narrow {x : ℚ} (h : InRange x) : narrow (ofRat x) = ofRat x :=
  narrow_ofRat h.abs_lt

theorem InRange.mean {w x y : ℚ} (hw : 0 < w) (hw1 : w ≤ 1) (hx : InRange x)
    (hy : InRange y) : InRange ((1 - w) * x + w * y) :=
  ⟨mean_nonneg hw.le hw1 hx.1 hy.1, mean_lt hw hw1 hx.2 hy.2⟩

theorem InRange.div {x : ℚ} (hx : InRange x) {k : ℤ} (hk : 1 ≤ k) :
    InRange (x / k) := by
  have hk' : (1 : ℚ) ≤ k := by exact_mod_cast hk
  refine ⟨div_nonneg hx.1 (zero_le_one.trans hk'), ?_⟩
  exact lt_of_le_of_lt (div_le_self hx.1 hk') hx.2

theorem ofRat_div_int {x : ℚ} {k : ℤ} (hk : 1 ≤ k) :
    ofRat x / (ofInt k : RatFloat) = ofRat (x / k) := by
  rw [ofInt_eq]
  refine ofRat_div ?_
  have hk' : k ≠ 0 := by omega
  exact_mod_cast hk'

variable {ms old : ℚ} {r : Request RatFloat} {v : VersionedServer RatFloat}

/-- The mean of the first hundred completions: the weight is one over their
number. -/
theorem smoothPrediction_warmUp (hms : InRange ms) (hold : |old| < 2 ^ 128)
    (hv : v.predictedAvgRt = ofRat old) (hfirst : 1 ≤ v.completedRequests)
    (hfew : v.completedRequests < 100)
    (hk : 1 ≤ v.completedRequests - r.reqFinishBefore) :
    ProperAverage old ms (v.completedRequests - r.reqFinishBefore)
      (smoothPrediction (ofRat ms) r v) := by
  have hc : (1 : ℚ) ≤ v.completedRequests := by exact_mod_cast hfirst
  have hpos : (0 : ℚ) < 1 / v.completedRequests :=
    div_pos one_pos (lt_of_lt_of_le one_pos hc)
  have hone : 1 / (v.completedRequests : ℚ) ≤ 1 :=
    (div_le_one (lt_of_lt_of_le one_pos hc)).mpr hc
  have hcount : InRange (v.completedRequests : ℚ) := by
    refine ⟨zero_le_one.trans hc, ?_⟩
    have hlt : (v.completedRequests : ℚ) < 100 := by exact_mod_cast hfew
    exact hlt.trans (by norm_num)
  have hb : InRange (1 - 1 / (v.completedRequests : ℚ)) :=
    ⟨sub_nonneg.mpr hone, lt_trans (sub_lt_self 1 hpos) (by norm_num)⟩
  refine ⟨hk, 1 / v.completedRequests, hpos, hone, ?_⟩
  unfold smoothPrediction
  rw [if_pos hfew, hv, hms.narrow, ofRat_div_int hk, ofInt_eq, ofInt_eq,
    hcount.narrow, ofRat_div (lt_of_lt_of_le one_pos hc).ne', ofRat_sub]
  dsimp only
  rw [Int.cast_one, hb.narrow, ofRat_mul, ofRat_sub, sub_sub_cancel,
    ofRat_mul, ofRat_add]
  exact narrow_ofRat (abs_mean_lt hpos hone hold (hms.div hk).abs_lt)

theorem smoothing_weight :
    (narrow (lit (5 / 1000)) : RatFloat) = ofRat (5 / 1000) := by
  rw [lit_eq]
  exact InRange.narrow ⟨by norm_num, by norm_num⟩

/-- The smoothed value after a later completion, for a divisor `k`. -/
theorem smooth_mean (hms : InRange ms) (hold : |old| < 2 ^ 128) {k : ℤ}
    (hk : 1 ≤ k) :
    ProperAverage old ms k
      (narrow ((narrow (lit (5 / 1000)) : RatFloat) *
          (narrow (ofRat ms) / ofInt k) +
        (ofInt 1 - narrow (lit (5 / 1000))) * ofRat old)) := by
  refine ⟨hk, 5 / 1000, by norm_num, by norm_num, ?_⟩
  rw [smoothing_weight, hms.narrow, ofRat_div_int hk, ofInt_eq, Int.cast_one,
    ofRat_mul, ofRat_sub, ofRat_mul, ofRat_add, add_comm]
  exact narrow_ofRat
    (abs_mean_lt (by norm_num) (by norm_num) hold (hms.div hk).abs_lt)

/-- After the first hundred completions, when the counter has wrapped since
the request was dispatched. -/
theorem smoothPrediction_wrapped (hms : InRange ms) (hold : |old| < 2 ^ 128)
    (hv : v.predictedAvgRt = ofRat old) (hmany : 100 ≤ v.completedRequests)
    (hwrap : v.completedRequests < r.reqFinishBefore)
    (hk : 1 ≤ v.completedRequests - r.reqFinishBefore + v.reqUpperBound) :
    ProperAverage old ms
      (v.completedRequests - r.reqFinishBefore + v.reqUpperBound)
      (smoothPrediction (ofRat ms) r v) := by
  have hnot : ¬v.completedRequests < 100 := not_lt.mpr hmany
  unfold smoothPrediction
  rw [if_neg hnot, if_pos hwrap, hv]
  exact smooth_mean hms hold hk

/-- After the first hundred completions, when it has not. -/
theorem smoothPrediction_later (hms : InRange ms) (hold : |old| < 2 ^ 128)
    (hv : v.predictedAvgRt = ofRat old) (hmany : 100 ≤ v.completedRequests)
    (hk : 1 ≤ v.completedRequests - r.reqFinishBefore) :
    ProperAverage old ms (v.completedRequests - r.reqFinishBefore)
      (smoothPrediction (ofRat ms) r v) := by
  have hnot : ¬v.completedRequests < 100 := not_lt.mpr hmany
  have hwrap : ¬v.completedRequests < r.reqFinishBefore := by omega
  have hmax : Max.max 1 (v.completedRequests - r.reqFinishBefore) =
      v.completedRequests - r.reqFinishBefore := max_eq_right hk
  unfold smoothPrediction
  rw [if_neg hnot, if_neg hwrap, hv, hmax]
  exact smooth_mean hms hold hk

/-- Without a wrap of the counter the divisor is the number of completions
since the dispatch of the request. -/
theorem smoothPrediction_unwrapped (hms : InRange ms) (hold : |old| < 2 ^ 128)
    (hv : v.predictedAvgRt = ofRat old) (hfirst : 1 ≤ v.completedRequests)
    (hk : 1 ≤ v.completedRequests - r.reqFinishBefore) :
    ProperAverage old ms (v.completedRequests - r.reqFinishBefore)
      (smoothPrediction (ofRat ms) r v) := by
  by_cases hfew : v.completedRequests < 100
  · exact smoothPrediction_warmUp hms hold hv hfirst hfew hk
  · exact smoothPrediction_later hms hold hv (not_lt.mp hfew) hk

theorem ProperAverage.inRange {k : ℤ} {new : RatFloat} (hms : InRange ms)
    (hold : InRange old) (h : ProperAverage old ms k new) :
    ∃ x, new = ofRat x ∧ InRange x := by
  obtain ⟨hk, w, hw, hw1, rfl⟩ := h
  exact ⟨_, rfl, InRange.mean hw hw1 hold (hms.div hk)⟩

theorem ProperAverage.abs_lt {k : ℤ} {new : RatFloat} (hms : InRange ms)
    (hold : |old| < 2 ^ 128) (h : ProperAverage old ms k new) :
    ∃ x, new = ofRat x ∧ |x| < 2 ^ 128 := by
  obtain ⟨hk, w, hw, hw1, rfl⟩ := h
  exact ⟨_, rfl, abs_mean_lt hw hw1 hold (hms.div hk).abs_lt⟩

theorem ProperAverage.nonneg {k : ℤ} {new : RatFloat} (hms : InRange ms)
    (hold : 0 ≤ old) (h : ProperAverage old ms k new) :
    ∃ x, new = ofRat x ∧ 0 ≤ x := by
  obtain ⟨hk, w, hw, hw1, rfl⟩ := h
  exact ⟨_, rfl, mean_nonneg hw.le hw1 hold (hms.div hk).1⟩

/-- The time that a request has taken, when it started at a time of the
clock. -/
theorem requestMs_inRange (tp : NgxTime) {start : NgxTime}
    (hsec : r.startSec = start.sec) (hmsec : r.startMsec = start.msec) :
    ∃ x, requestMs tp r = ofRat x ∧ InRange x ∧
      x = (Max.max (tp.since r.startSec r.startMsec) 0 : ℤ) := by
  have hsec₁ := tp.sec_lt
  have hmsec₁ := tp.msec_lt
  have hsec₂ := start.sec_lt
  have hmsec₂ := start.msec_lt
  have hupper : tp.since r.startSec r.startMsec < 2 ^ 127 := by
    rw [NgxTime.since, hsec, hmsec]
    omega
  have hlower : -2 ^ 127 < tp.since r.startSec r.startMsec := by
    rw [NgxTime.since, hsec, hmsec]
    omega
  have hupper' : (tp.since r.startSec r.startMsec : ℚ) < 2 ^ 127 := by
    exact_mod_cast hupper
  have hlower' : (-2 ^ 127 : ℚ) < tp.since r.startSec r.startMsec := by
    exact_mod_cast hlower
  have hnarrow : narrow (ofRat (tp.since r.startSec r.startMsec)) =
      ofRat (tp.since r.startSec r.startMsec) := by
    refine narrow_ofRat (abs_lt.mpr ⟨?_, ?_⟩)
    · linarith
    · linarith
  refine ⟨_, ?_, ⟨?_, ?_⟩, rfl⟩
  · rw [requestMs, ofInt_eq, ofInt_eq, hnarrow, Int.cast_zero, ofRat_max,
      Int.cast_max, Int.cast_zero]
  · rw [Int.cast_max, Int.cast_zero]
    exact le_max_right _ _
  · rw [Int.cast_max, Int.cast_zero]
    exact max_lt (by linarith) (by norm_num)

end MultiversionBalancer
