import MultiversionBalancer.Autoscaler.Deployment

/-!
# The target of a scaling action

An iteration of the main loop applies the action that the histories decide on
to the server that its last entry chose.  The two agree for a scale-out.  A
scale-in can be decided by the entries before, while the last one asked for
nothing or for the opposite; then its target is missing or is not the one for a
scale-in.
-/

namespace MultiversionBalancer.Autoscaler

open Lib CFloat

variable {F : Type} [CFloat F]

/-- The target that the documentation of the decision names: for a scale-in the
server of `getMinDownscaleDelta`; for a scale-out, which the last entry asked
for, a heavy server of minimal capacity, or none while more servers may be
launched. -/
def TargetChosen (max : ℤ) (sys : System F) (wish : Wish F) :
    Action F → Prop
  | .keep => True
  | .upscale server =>
      wish.upscale = true ∧ (server = none ↔ (sys.total : ℤ) < max) ∧
        ∀ s, server = some s →
          s ∈ sys.heavy ∧ ∀ h ∈ sys.heavy, lt h.capacityH s.capacityH = false
  | .downscale server =>
      server ≠ none ∧ server = sys.getMinDownscaleDelta.server

/-- When the last entry agrees with the decision: it asked for the scale-in
itself, or it asked for a scale-out of a full deployment and both would change
the same server.  A scale-out needs a deployment within its limit. -/
def LastEntryAgrees (max : ℤ) (sys : System F) (wish : Wish F) :
    Action F → Prop
  | .keep => True
  | .upscale _ => (sys.total : ℤ) ≤ max
  | .downscale _ =>
      wish.downscale = true ∨
        wish.upscale = true ∧ (sys.total : ℤ) = max ∧
          sys.cheapestHeavy = sys.getMinDownscaleDelta.server

/-! ## The last entry -/

/-- The histories of a configuration are windows on bits. -/
def Configuration.WellFormed (c : Configuration) : Prop :=
  ∃ up down24 down6, c.Holds up down24 down6

/-- What an entry leaves behind: a wish about the current lists, and a decision
to scale out only if the entry asked for it. -/
structure Processed (max : ℤ) (st : State F) (wish : Wish F)
    (decision : ScaleDecision) : Prop where
  maxReplicas : st.config.maxReplicas = max
  wellFormed : st.config.WellFormed
  wish_eq : ∃ predict capacity, wish = st.system.wish max predict capacity
  asked : decision.upscale = true → wish.upscale = true

theorem processEntry_processed {max : ℤ} {st st' : State F}
    {entry : MonitorEntry F} {wish : Wish F} {decision : ScaleDecision}
    (hmax : st.config.maxReplicas = max) (hwf : st.config.WellFormed)
    (h : st.processEntry entry = .ok (st', wish, decision)) :
    Processed max st' wish decision := by
  obtain ⟨up, down24, down6, hc⟩ := hwf
  obtain ⟨⟨sys, w⟩, hwish, h⟩ := Except.bind_eq_ok.mp h
  obtain ⟨⟨config, d⟩, hdecide, h⟩ := Except.bind_eq_ok.mp h
  obtain ⟨rfl, hpair⟩ := Prod.mk.inj (Except.ok.inj h)
  obtain ⟨rfl, rfl⟩ := Prod.mk.inj hpair
  obtain ⟨c', hdecide', -, hmax', hc'⟩ :=
    hc.applyScalingData w.upscale w.downscale
  obtain ⟨rfl, rfl⟩ :=
    Prod.mk.inj (Except.ok.inj (hdecide.symm.trans hdecide'))
  refine ⟨hmax'.trans hmax, ⟨_, _, _, hc'⟩, ?_, ?_⟩
  · unfold System.calculateScaling at hwish
    dsimp only at hwish
    split at hwish
    · cases hwish
    · split at hwish
      · cases hwish
      · obtain ⟨rfl, rfl⟩ := Prod.mk.inj (Except.ok.inj hwish)
        rw [hmax]
        exact ⟨_, _, rfl⟩
  · intro htwo
    have hsum := of_decide_eq_true htwo
    have hup1 := sum_take_one_le hc.scaleUp.bits
    have hbit := upOn_bit w.upscale
    exact upOn_eq_one_iff.mp (by omega)

theorem processEntries_processed {max : ℤ} {st st' : State F}
    {entries : List (MonitorEntry F)} {last : Option (Wish F × ScaleDecision)}
    {wish : Wish F} {decision : ScaleDecision}
    (hmax : st.config.maxReplicas = max) (hwf : st.config.WellFormed)
    (hlast : ∀ w d, last = some (w, d) → Processed max st w d)
    (h : st.processEntries entries last = .ok (st', some (wish, decision))) :
    Processed max st' wish decision := by
  induction entries generalizing st last with
  | nil =>
      obtain ⟨rfl, hsome⟩ := Prod.mk.inj (Except.ok.inj h)
      exact hlast wish decision hsome
  | cons entry entries ih =>
      obtain ⟨⟨st₁, w, d⟩, hentry, h⟩ := Except.bind_eq_ok.mp h
      have hprocessed := processEntry_processed hmax hwf hentry
      refine ih hprocessed.maxReplicas hprocessed.wellFormed ?_ h
      intro w' d' hsome
      obtain ⟨rfl, rfl⟩ := Prod.mk.inj (Option.some.inj hsome)
      exact hprocessed

/-! ## The two targets -/

/-- The scan keeps a server that no scanned one is below. -/
theorem foldl_cheaperHeavy_min [CFloatOrder F] {seen : List (ServerDescription F)}
    {s t : ServerDescription F} {hs : List (ServerDescription F)}
    (hseen : ∀ p ∈ seen, lt p.capacityH s.capacityH = false)
    (hfold : hs.foldl cheaperHeavy (some s) = some t) :
    ∀ p ∈ seen ++ hs, lt p.capacityH t.capacityH = false := by
  induction hs generalizing seen s with
  | nil =>
      obtain rfl := Option.some.inj hfold
      simpa using hseen
  | cons h hs ih =>
      rw [List.foldl_cons] at hfold
      rw [List.append_cons]
      by_cases hlt : lt h.capacityH s.capacityH = true
      · rw [show cheaperHeavy (some s) h = some h by
          simp [cheaperHeavy, hlt]] at hfold
        apply ih ?_ hfold
        intro p hp
        rcases List.mem_append.mp hp with hp | hp
        · by_contra hnot
          have hps := CFloatOrder.lt_trans p.capacityH h.capacityH s.capacityH
            (by simpa using hnot) hlt
          rw [hseen p hp] at hps
          cases hps
        · rw [List.mem_singleton.mp hp]
          exact CFloatOrder.lt_irrefl h.capacityH
      · rw [show cheaperHeavy (some s) h = some s by
          simp [cheaperHeavy, hlt]] at hfold
        apply ih ?_ hfold
        intro p hp
        rcases List.mem_append.mp hp with hp | hp
        · exact hseen p hp
        · rw [List.mem_singleton.mp hp]
          simpa using hlt

theorem System.cheapestHeavy_min [CFloatOrder F] {sys : System F}
    {s : ServerDescription F} (hs : sys.cheapestHeavy = some s) :
    ∀ h ∈ sys.heavy, lt h.capacityH s.capacityH = false := by
  unfold System.cheapestHeavy at hs
  rcases hheavy : sys.heavy with _ | ⟨first, rest⟩
  · simp
  · have hfirst : ∀ p ∈ [first], lt p.capacityH first.capacityH = false := by
      intro p hp
      rw [List.mem_singleton.mp hp]
      exact CFloatOrder.lt_irrefl first.capacityH
    rw [hheavy] at hs
    exact foldl_cheaperHeavy_min hfirst hs

/-- A full deployment that is not all light has a heavy server to change. -/
theorem System.cheapestHeavy_of_full {max : ℤ} {sys : System F}
    (hlight : (sys.light.length : ℤ) < max) (hfull : (sys.total : ℤ) = max) :
    ∃ s ∈ sys.heavy, sys.cheapestHeavy = some s := by
  apply System.cheapestHeavy_mem
  intro hnil
  simp only [System.total, hnil, List.length_nil] at hfull
  omega

theorem System.getMinDownscaleDelta_some {sys : System F}
    (hmany : 1 < sys.heavy.length ∨ 0 < sys.light.length) :
    sys.getMinDownscaleDelta.server ≠ none := by
  by_cases hlight : sys.light = []
  · have hheavy : 1 < sys.heavy.length := by
      simpa [hlight] using hmany
    obtain ⟨s, -, hmin⟩ := System.getMinDownscaleDelta_heavy hlight
      (List.length_pos_iff.mp (by omega))
    simp [hmin]
  · obtain ⟨s, -, hmin⟩ := System.getMinDownscaleDelta_light hlight
    simp [hmin]

theorem upscale_target_iff [CFloatOrder F] {max : ℤ} {sys : System F}
    (hlight : (sys.light.length : ℤ) < max) (wish : Wish F)
    (hup : wish.upscale = true) :
    TargetChosen max sys wish (.upscale
        (if (sys.total : ℤ) = max then sys.cheapestHeavy else none)) ↔
      (sys.total : ℤ) ≤ max := by
  constructor
  · rintro ⟨-, hnone, -⟩
    by_contra hover
    rw [if_neg (by omega)] at hnone
    have hlt := hnone.mp rfl
    omega
  · intro hle
    refine ⟨hup, ?_, ?_⟩
    · split
      · next hfull =>
          obtain ⟨s, -, hcheapest⟩ := System.cheapestHeavy_of_full hlight hfull
          rw [hcheapest]
          simp [hfull]
      · next hroom => exact ⟨fun _ => by omega, fun _ => rfl⟩
    · intro s hs
      split at hs
      · next hfull =>
          obtain ⟨t, ht, hcheapest⟩ := System.cheapestHeavy_of_full hlight hfull
          obtain rfl : t = s := Option.some.inj (hcheapest.symm.trans hs)
          exact ⟨ht, System.cheapestHeavy_min hcheapest⟩
      · cases hs

theorem downscale_target_iff {max : ℤ} {sys : System F} {wish : Wish F}
    {predict capacity : F} (hwish : wish = sys.wish max predict capacity) :
    TargetChosen max sys wish (.downscale wish.server) ↔
      LastEntryAgrees max sys wish (.downscale wish.server) := by
  have hcases := sys.wish_cases max predict capacity
  rw [← hwish] at hcases
  unfold TargetChosen LastEntryAgrees
  rcases hcases with ⟨hlight, rfl⟩ | ⟨hmany, rfl⟩ | rfl
  · dsimp only
    constructor
    · rintro ⟨hsome, htarget⟩
      by_cases hfull : (sys.total : ℤ) = max
      · rw [if_pos hfull] at htarget
        exact .inr ⟨rfl, hfull, htarget⟩
      · exact absurd (if_neg hfull) hsome
    · rintro (h | ⟨-, hfull, htarget⟩)
      · cases h
      · obtain ⟨s, -, hcheapest⟩ := System.cheapestHeavy_of_full hlight hfull
        rw [if_pos hfull]
        exact ⟨by simp [hcheapest], htarget⟩
  · exact ⟨fun _ => .inl rfl,
      fun _ => ⟨System.getMinDownscaleDelta_some hmany, rfl⟩⟩
  · constructor
    · rintro ⟨hsome, -⟩
      exact absurd rfl hsome
    · rintro (h | ⟨h, -⟩)
      · cases h
      · cases h

/-- For every batch of entries, the action is applied to the target of its
decision exactly if the last entry agrees with it. -/
theorem action_target_iff [CFloatOrder F] {st st' : State F}
    (hwf : st.config.WellFormed) (data : List (MonitorEntry F))
    {wish : Wish F} {decision : ScaleDecision}
    (h : st.processEntries (st.monitorData data) none =
      .ok (st', some (wish, decision))) :
    TargetChosen st.config.maxReplicas st'.system wish
        (chooseAction wish decision) ↔
      LastEntryAgrees st.config.maxReplicas st'.system wish
        (chooseAction wish decision) := by
  obtain ⟨-, -, ⟨predict, capacity, hwish⟩, hasked⟩ :=
    processEntries_processed rfl hwf (by simp) h
  unfold chooseAction
  split
  · next hup =>
      have hcases := st'.system.wish_cases st.config.maxReplicas predict capacity
      rw [← hwish] at hcases
      have hwant := hasked hup
      rcases hcases with ⟨hlight, rfl⟩ | ⟨-, rfl⟩ | rfl
      · exact upscale_target_iff hlight _ rfl
      · cases hwant
      · cases hwant
  · split
    · exact downscale_target_iff hwish
    · exact Iff.rfl

/-- Two entries of one iteration, both with a load above the capacity. -/
theorem action_target_launch :
    ∃ (st' : State RatFloat) (wish : Wish RatFloat) (decision : ScaleDecision),
      (initialState 100 2 [] 8000).processEntries
          ((initialState 100 2 [] 8000).monitorData
            ((loadRound 100 10).data ++ (loadRound 100 10).data)) none =
        .ok (st', some (wish, decision)) ∧
      decision.upscale = true ∧
      TargetChosen 2 st'.system wish (chooseAction wish decision) := by
  obtain ⟨⟨st', last⟩, hproc, hlast⟩ := @Except.exists_ok_of_any _ _
    ((initialState 100 2 [] 8000).processEntries
      ((initialState 100 2 [] 8000).monitorData
        ((loadRound 100 10).data ++ (loadRound 100 10).data)) none)
    (fun res : State RatFloat × Option (Wish RatFloat × ScaleDecision) =>
      res.2.any fun last => last.2.upscale && decide (res.1.system.total ≤ 2))
    (by decide +kernel)
  obtain ⟨⟨wish, decision⟩, rfl, hlast⟩ := (Option.any_eq_true _ _).mp hlast
  obtain ⟨hup, htotal⟩ := Bool.and_eq_true_iff.mp hlast
  refine ⟨st', wish, decision, hproc, hup, ?_⟩
  refine (action_target_iff ⟨[], [], [], Configuration.holds_new 100 2⟩ _
    hproc).mpr ?_
  rw [chooseAction, if_pos hup]
  exact Int.ofNat_le.mpr (of_decide_eq_true htotal)

/-- An entry that reports two servers with a capacity of ten each. -/
def twoServerEntry (load : ℤ) : MonitorEntry RatFloat where
  concRequests := ofInt load
  totalCapacity := ofInt 20
  servers := some [⟨[], 8000, ofInt 10⟩, ⟨[], 8001, ofInt 10⟩]

/-- Three entries that ask for a scale-in and one that asks for nothing, on two
heavy servers: the iteration scales in without a server. -/
theorem action_target_missing :
    ∃ (st st' : State RatFloat) (wish : Wish RatFloat)
      (decision : ScaleDecision),
      (initialState 100 2 [] 8000).run [loadRound 100 10, loadRound 100 10] =
        .ok st ∧
      st.processEntries (st.monitorData
          ([0, 0, 0, 0, 24].map twoServerEntry)) none =
        .ok (st', some (wish, decision)) ∧
      chooseAction wish decision = .downscale none ∧
      st.iteration ⟨[0, 0, 0, 0, 24].map twoServerEntry, 8002⟩ =
        .error .noneServer ∧
      ¬TargetChosen 2 st'.system wish (chooseAction wish decision) := by
  obtain ⟨st, hrun, hst⟩ := @Except.exists_ok_of_any _ _
    ((initialState 100 2 [] 8000).run [loadRound 100 10, loadRound 100 10])
    (fun st : State RatFloat =>
      (st.processEntries (st.monitorData
        ([0, 0, 0, 0, 24].map twoServerEntry)) none).toOption.any fun res =>
          res.2.any fun last => decide (last.2 = ⟨false, true⟩) &&
            last.1.server.isNone)
    (by decide +kernel)
  obtain ⟨⟨st', last⟩, hproc, hlast⟩ := Except.exists_ok_of_any hst
  obtain ⟨⟨wish, decision⟩, rfl, hlast⟩ := (Option.any_eq_true _ _).mp hlast
  obtain ⟨hdecision, hnone⟩ := Bool.and_eq_true_iff.mp hlast
  obtain rfl := of_decide_eq_true hdecision
  have hserver : wish.server = none := Option.isNone_iff_eq_none.mp hnone
  have haction : chooseAction wish ⟨false, true⟩ = .downscale none := by
    simp [chooseAction, hserver]
  refine ⟨st, st', wish, _, hrun, hproc, haction, ?_, ?_⟩
  · simp only [State.iteration, hproc, bind, Except.bind, haction]
    rfl
  · rw [haction]
    rintro ⟨hsome, -⟩
    exact hsome rfl

end MultiversionBalancer.Autoscaler
