import MultiversionBalancer.Autoscaler.ScaleIn
import Mathlib.Data.List.Induction

/-!
# The target of a scale-in

`getMinDownscaleDelta` keeps a running minimum that starts at `-1`, and takes a
minimum of `-1` for one that is not set.  A server whose loss is exactly `-1`
is therefore forgotten at the next server.  No other loss is: a smaller one
stays, and above `-1` the loop is the usual search for a minimum.
-/

namespace MultiversionBalancer.Autoscaler

open Lib CFloat RatFloat

/-- The servers among which the target of a scale-in is looked for. -/
def System.candidates {F : Type} (sys : System F) : List (ServerDescription F) :=
  if 0 < sys.light.length then sys.light else sys.heavy

/-- The pair is a server of the list and its loss, and no server of the list
has a smaller loss. -/
def MinDelta.IsLeast (m : MinDelta RatFloat)
    (l : List (ServerDescription RatFloat)) : Prop :=
  ∃ s ∈ l, m = ⟨some s.capacityDelta, some s⟩ ∧
    ∀ x ∈ l, le s.capacityDelta x.capacityDelta = true

/-- Some loss is `-1` and none is less, but the last one is not `-1`. -/
def Forgotten (l : List (ServerDescription RatFloat)) : Prop :=
  (∃ s ∈ l, s.capacityDelta = ofRat (-1)) ∧
    (∀ s ∈ l, le (ofRat (-1)) s.capacityDelta = true) ∧
    ∀ s, l.getLast? = some s → s.capacityDelta ≠ ofRat (-1)

section Search

variable {f : ServerDescription RatFloat → ℚ}
  {l : List (ServerDescription RatFloat)}

/-- Losses that are numbers compare as the numbers. -/
theorem isLeast_iff {s : ServerDescription RatFloat}
    (hf : ∀ x ∈ l, x.capacityDelta = ofRat (f x)) (hs : s ∈ l) :
    MinDelta.IsLeast ⟨some s.capacityDelta, some s⟩ l ↔
      ∀ x ∈ l, f s ≤ f x := by
  constructor
  · rintro ⟨t, ht, heq, hleast⟩ x hx
    obtain rfl : s = t := Option.some.inj (congrArg MinDelta.server heq)
    have hle := hleast x hx
    rwa [hf s hs, hf x hx, ofRat_le] at hle
  · intro hleast
    refine ⟨s, hs, rfl, fun x hx => ?_⟩
    rw [hf s hs, hf x hx, ofRat_le]
    exact hleast x hx

theorem forgotten_iff (hf : ∀ x ∈ l, x.capacityDelta = ofRat (f x)) :
    Forgotten l ↔ (∃ x ∈ l, f x = -1) ∧ (∀ x ∈ l, -1 ≤ f x) ∧
      ∀ x, l.getLast? = some x → f x ≠ -1 := by
  have hlast : ∀ x, l.getLast? = some x → x ∈ l := fun x hx =>
    List.mem_of_getLast? hx
  unfold Forgotten
  refine and_congr ?_ (and_congr ?_ ?_)
  · refine exists_congr fun x => and_congr_right fun hx => ?_
    rw [hf x hx, ofRat_inj]
  · refine forall₂_congr fun x hx => ?_
    rw [hf x hx, ofRat_le]
  · refine forall₂_congr fun x hx => ?_
    rw [hf x (hlast x hx), Ne, ofRat_inj]

/-- A set minimum is replaced by a smaller loss, and `-1` by every loss. -/
theorem step_set (delta : ServerDescription RatFloat → RatFloat)
    {s y : ServerDescription RatFloat} (hs : s.capacityDelta = ofRat (f s))
    (hy : y.capacityDelta = ofRat (f y)) :
    MinDelta.step delta ⟨some s.capacityDelta, some s⟩ y =
      if f s = -1 ∨ f y < f s then ⟨some (delta y), some y⟩
      else ⟨some s.capacityDelta, some s⟩ := by
  have hneg : (ofInt (-1) : RatFloat) = ofRat (-1) := by simp
  have hcond : ((MinDelta.mk (some s.capacityDelta) (some s)).unset ||
      lt y.capacityDelta
        (MinDelta.mk (some s.capacityDelta) (some s)).value) = true ↔
      f s = -1 ∨ f y < f s := by
    rw [Bool.or_eq_true]
    unfold MinDelta.unset MinDelta.value
    dsimp only [Option.getD_some]
    rw [hs, hy, hneg, ofRat_eq, ofRat_lt]
  unfold MinDelta.step
  simp only [hcond]

/-- The running minimum after a non-empty list: it is the least loss, and `-1`
only when the last one is; or the least loss was `-1` and is forgotten. -/
theorem foldl_minDelta_least (delta : ServerDescription RatFloat → RatFloat)
    (hdelta : ∀ x ∈ l, delta x = x.capacityDelta)
    (hf : ∀ x ∈ l, x.capacityDelta = ofRat (f x)) (hne : l ≠ []) :
    ∃ s ∈ l, l.foldl (MinDelta.step delta) ⟨none, none⟩ =
        ⟨some s.capacityDelta, some s⟩ ∧
      ((∀ x ∈ l, f s ≤ f x) ∧ (f s = -1 → l.getLast? = some s) ∨
        -1 < f s ∧ (∃ x ∈ l, f x = -1) ∧ (∀ x ∈ l, -1 ≤ f x) ∧
          ∀ x, l.getLast? = some x → f x ≠ -1) := by
  induction l using List.reverseRecOn with
  | nil => exact absurd rfl hne
  | append_singleton l y ih =>
      have hy := @List.mem_concat_self _ l y
      have hlast : (l ++ [y]).getLast? = some y := List.getLast?_concat
      rw [List.foldl_append, List.foldl_cons, List.foldl_nil, hlast]
      rcases eq_or_ne l [] with rfl | hl
      · refine ⟨y, hy, ?_, .inl ⟨by simp, fun _ => rfl⟩⟩
        rw [← hdelta y hy]
        rfl
      obtain ⟨s, hs, hfold, hor⟩ := ih
        (fun x hx => hdelta x (List.mem_append_left _ hx))
        (fun x hx => hf x (List.mem_append_left _ hx)) hl
      have hs' := List.mem_append_left [y] hs
      have hall : ∀ {P : ServerDescription RatFloat → Prop},
          (∀ x ∈ l, P x) → P y → ∀ x ∈ l ++ [y], P x := by
        intro P hP hPy
        exact List.forall_mem_append.mpr ⟨hP, by simpa using hPy⟩
      rw [hfold, step_set delta (hf s hs') (hf y hy), hdelta y hy]
      by_cases hreset : f s = -1
      · -- the minimum is taken for one that is not set
        rw [if_pos (.inl hreset)]
        have hleast : ∀ x ∈ l, -1 ≤ f x := by
          rcases hor with ⟨hleast, -⟩ | ⟨-, -, hleast, -⟩
          · rwa [hreset] at hleast
          · exact hleast
        refine ⟨y, hy, rfl, ?_⟩
        rcases le_or_gt (f y) (-1) with hle | hgt
        · exact .inl ⟨hall (fun x hx => hle.trans (hleast x hx)) le_rfl,
            fun _ => rfl⟩
        · refine .inr ⟨hgt, ⟨s, hs', hreset⟩, hall hleast hgt.le, ?_⟩
          intro x hx
          obtain rfl := Option.some.inj hx
          exact hgt.ne'
      · by_cases hless : f y < f s
        · rw [if_pos (.inr hless)]
          refine ⟨y, hy, rfl, ?_⟩
          rcases hor with ⟨hleast, -⟩ | ⟨-, hone, hleast, -⟩
          · exact .inl ⟨hall (fun x hx => hless.le.trans (hleast x hx)) le_rfl,
              fun _ => rfl⟩
          · rcases le_or_gt (f y) (-1) with hle | hgt
            · exact .inl ⟨hall (fun x hx => hle.trans (hleast x hx)) le_rfl,
                fun _ => rfl⟩
            · obtain ⟨x, hx, hone⟩ := hone
              refine .inr ⟨hgt, ⟨x, List.mem_append_left _ hx, hone⟩,
                hall hleast hgt.le, ?_⟩
              intro z hz
              obtain rfl := Option.some.inj hz
              exact hgt.ne'
        · rw [if_neg (by simp [hreset, hless])]
          refine ⟨s, hs', rfl, ?_⟩
          have hle : f s ≤ f y := not_lt.mp hless
          rcases hor with ⟨hleast, -⟩ | ⟨hgt, ⟨x, hx, hone⟩, hleast, -⟩
          · exact .inl ⟨hall hleast hle, fun h => absurd h hreset⟩
          · refine .inr ⟨hgt, ⟨x, List.mem_append_left _ hx, hone⟩,
              hall hleast (hgt.le.trans hle), ?_⟩
            intro z hz
            obtain rfl := Option.some.inj hz
            exact (hgt.trans_le hle).ne'

/-- The search finds the least loss unless it forgets it. -/
theorem foldl_minDelta_isLeast_iff
    (delta : ServerDescription RatFloat → RatFloat)
    (hdelta : ∀ x ∈ l, delta x = x.capacityDelta)
    (hf : ∀ x ∈ l, x.capacityDelta = ofRat (f x)) (hne : l ≠ []) :
    (l.foldl (MinDelta.step delta) ⟨none, none⟩).IsLeast l ↔ ¬Forgotten l := by
  obtain ⟨s, hs, hfold, hor⟩ := foldl_minDelta_least delta hdelta hf hne
  rw [hfold, isLeast_iff hf hs, forgotten_iff hf]
  rcases hor with ⟨hleast, hlast⟩ | ⟨hgt, ⟨x, hx, hone⟩, hforgotten⟩
  · refine iff_of_true hleast ?_
    rintro ⟨⟨x, hx, hone⟩, hlow, hne⟩
    have hle := hleast x hx
    rw [hone] at hle
    have hneg : f s = -1 := le_antisymm hle (hlow s hs)
    exact hne s (hlast hneg) hneg
  · refine iff_of_false ?_ (not_not.mpr ⟨⟨x, hx, hone⟩, hforgotten⟩)
    intro hleast
    have hle := hleast x hx
    rw [hone] at hle
    exact absurd hle (not_le.mpr hgt)

end Search

/-- With capacities that are numbers, `getMinDownscaleDelta` returns a server of
the searched list with the least loss, unless that loss is `-1` and the last
server of the list has another one. -/
theorem downscale_target_least_iff {sys : System RatFloat}
    (hcap : ∀ s ∈ sys.candidates, ∃ h l : ℚ,
      s.capacityH = ofRat h ∧ s.capacityL = ofRat l)
    (hheavy : ∀ s ∈ sys.heavy, s.isHeavy = true) (hne : sys.candidates ≠ []) :
    sys.getMinDownscaleDelta.IsLeast sys.candidates ↔
      ¬Forgotten sys.candidates := by
  have hf : ∀ x ∈ sys.candidates,
      x.capacityDelta = ofRat (capacityRat x.capacityDelta) := by
    intro x hx
    obtain ⟨h, l, hh, hl⟩ := hcap x hx
    unfold ServerDescription.capacityDelta
    rw [hh, hl, ofRat_sub]
    split <;> rfl
  unfold System.candidates at hne hf ⊢
  unfold System.getMinDownscaleDelta
  split
  · next hlight =>
      rw [if_pos hlight] at hne hf
      exact foldl_minDelta_isLeast_iff _ (fun _ _ => rfl) hf hne
  · next hlight =>
      rw [if_neg hlight] at hne hf
      rw [if_pos (List.length_pos_iff.mpr hne)]
      refine foldl_minDelta_isLeast_iff _ (fun x hx => ?_) hf hne
      unfold ServerDescription.capacityDelta
      rw [if_pos (hheavy x hx)]

/-- Two light servers, which lose twenty and five users. -/
def twoLightSystem : System RatFloat where
  heavy := []
  light := [⟨0, [], 8000, ofInt 10, ofInt 30, false⟩,
    ⟨1, [], 8001, ofInt 10, ofInt 15, false⟩]
  loadHistory := []
  fresh := 2

/-- The second one is returned. -/
theorem downscale_target_least_two :
    twoLightSystem.getMinDownscaleDelta.IsLeast twoLightSystem.candidates ∧
      twoLightSystem.getMinDownscaleDelta.server.map (·.id) = some 1 := by
  refine ⟨(downscale_target_least_iff ?_ (by decide) (by decide)).mpr ?_,
    by decide +kernel⟩
  · intro s hs
    rcases List.mem_cons.mp hs with rfl | hs
    · exact ⟨10, 30, by decide +kernel, by decide +kernel⟩
    · obtain rfl := List.mem_singleton.mp hs
      exact ⟨10, 15, by decide +kernel, by decide +kernel⟩
  · rintro ⟨⟨s, hs, hone⟩, -⟩
    rcases List.mem_cons.mp hs with rfl | hs
    · exact absurd hone (by decide +kernel)
    · obtain rfl := List.mem_singleton.mp hs
      exact absurd hone (by decide +kernel)

/-- Two light servers: a new one without a measured capacity, whose heavy
version could take one user, and one that takes thirty. -/
def newLightSystem : System RatFloat where
  heavy := []
  light := [⟨0, [], 8000, ofInt 1, ofInt 0, false⟩,
    ⟨1, [], 8001, ofInt 10, ofInt 30, false⟩]
  loadHistory := []
  fresh := 2

/-- The new server has the least loss, but the other one is returned. -/
theorem downscale_target_forgotten :
    newLightSystem.candidates ≠ [] ∧
    (∀ s ∈ newLightSystem.candidates, ∃ h l : ℚ,
      s.capacityH = ofRat h ∧ s.capacityL = ofRat l) ∧
    newLightSystem.getMinDownscaleDelta.server.map (·.id) = some 1 ∧
    newLightSystem.getMinDownscaleDelta.value = ofRat 20 ∧
    ¬newLightSystem.getMinDownscaleDelta.IsLeast newLightSystem.candidates := by
  have hvalue : newLightSystem.getMinDownscaleDelta.value = ofRat 20 := by
    decide +kernel
  refine ⟨by decide, ?_, by decide +kernel, hvalue, ?_⟩
  · intro s hs
    rcases List.mem_cons.mp hs with rfl | hs
    · exact ⟨1, 0, by decide +kernel, by decide +kernel⟩
    · obtain rfl := List.mem_singleton.mp hs
      exact ⟨10, 30, by decide +kernel, by decide +kernel⟩
  · rintro ⟨s, -, heq, hleast⟩
    have hdelta : s.capacityDelta = ofRat 20 := by
      rw [← hvalue, heq]
      rfl
    have hle := hleast _ (List.mem_cons_self :
      _ ∈ newLightSystem.candidates)
    have hone : (ServerDescription.capacityDelta
        ⟨0, [], 8000, ofInt 1, ofInt 0, false⟩ : RatFloat) = ofRat (-1) := by
      decide +kernel
    rw [hdelta, hone, ofRat_le] at hle
    exact absurd hle (by norm_num)

end MultiversionBalancer.Autoscaler
