import MultiversionBalancer.Autoscaler.Model
import MultiversionBalancer.Lib.Run
import Mathlib.Algebra.Order.BigOperators.Group.List

/-!
# The deployment invariant

With one monitor entry per iteration, the autoscaler keeps between one and
`max_replicas` servers, turns a server light only when no more may be launched,
and always has a target for its action.

The histories are followed through the windows they hold: a history of
scale-outs that reaches its trigger count has just received a one, and so has
one of scale-ins that was below it, so that the action and its target come from
the same entry.
-/

namespace MultiversionBalancer.Autoscaler

open Lib CFloat

/-! ## Histories -/

/-- The histories of a configuration hold these windows. -/
structure Configuration.Holds (c : Configuration) (up down24 down6 : List ℤ) :
    Prop where
  scaleUp : c.scaleUp.HoldsBits 2 up
  scaleDown24 : c.scaleDown24.HoldsBits 24 down24
  scaleDown6 : c.scaleDown6.HoldsBits 6 down6

theorem Configuration.holds_new (pt maxReplicas : ℤ) :
    (Configuration.new pt maxReplicas).Holds [] [] [] where
  scaleUp := IntLinkedList.holdsBits_new 2
  scaleDown24 := IntLinkedList.holdsBits_new 24
  scaleDown6 := IntLinkedList.holdsBits_new 6

theorem Configuration.Holds.applyUpscale {c : Configuration}
    {up down24 down6 : List ℤ} (hc : c.Holds up down24 down6) :
    c.applyUpscale.Holds [] down24 down6 :=
  { hc with scaleUp := IntLinkedList.holdsBits_new 2 }

theorem upOn_bit (up : Bool) : upOn up = 0 ∨ upOn up = 1 := by
  cases up with
  | false => exact .inl rfl
  | true => exact .inr rfl

theorem downOn_bit (up down : Bool) : downOn up down = 0 ∨ downOn up down = 1 := by
  cases up with
  | true => exact .inl rfl
  | false => exact upOn_bit down

theorem upOn_eq_one_iff {up : Bool} : upOn up = 1 ↔ up = true := by
  simp [upOn]

theorem downOn_eq_one_iff {up down : Bool} :
    downOn up down = 1 ↔ up = false ∧ down = true := by
  cases up with
  | true => simp [downOn]
  | false => simp [downOn]

theorem Configuration.Holds.applyScalingData {c : Configuration}
    {up down24 down6 : List ℤ} (hc : c.Holds up down24 down6)
    (scaleUp scaleDown : Bool) :
    ∃ c', c.applyScalingData scaleUp scaleDown = .ok (c',
        { upscale := upOn scaleUp + (up.take 1).sum = 2
          downscale := upOn scaleUp + (up.take 1).sum ≠ 2 ∧
            downOn scaleUp scaleDown + (down6.take 5).sum = 3 }) ∧
      c'.pt = c.pt ∧ c'.maxReplicas = c.maxReplicas ∧
      c'.Holds (upOn scaleUp :: up.take 1)
        (downOn scaleUp scaleDown :: down24.take 23)
        (downOn scaleUp scaleDown :: down6.take 5) := by
  obtain ⟨up', hup, hup'⟩ := hc.scaleUp.add (upOn_bit scaleUp)
  obtain ⟨d24, h24, h24'⟩ := hc.scaleDown24.add (downOn_bit scaleUp scaleDown)
  obtain ⟨d6, h6, h6'⟩ := hc.scaleDown6.add (downOn_bit scaleUp scaleDown)
  refine ⟨{ c with scaleUp := up', scaleDown24 := d24, scaleDown6 := d6 }, ?_,
    rfl, rfl, hup', h24', h6'⟩
  have hcount := hup'.represents.count
  have hcount6 := h6'.represents.count
  rw [List.sum_cons] at hcount hcount6
  rw [← hcount, ← hcount6]
  simp only [Configuration.applyScalingData, hup, h24, h6]
  rfl

theorem take_replicate_zero (n : ℕ) (w : List ℤ) :
    (List.replicate n 0 ++ 0 :: w.take 5).take 6 =
      (List.replicate (n + 1) 0 ++ w).take 6 := by
  rw [List.replicate_succ', List.append_assoc, List.singleton_append,
    List.take_append, List.take_append]
  congr 1
  rw [List.length_replicate]
  cases h : 6 - n with
  | zero => rfl
  | succ k =>
      rw [List.take_succ_cons, List.take_succ_cons, List.take_take,
        Nat.min_eq_left (by omega)]

/-- Zeros push the older values of the short history out. -/
theorem Configuration.Holds.addZeros {c : Configuration}
    {up down24 down6 : List ℤ} (hc : c.Holds up down24 down6) (n : ℕ) :
    ∃ c' down24', c.addZeros n = .ok c' ∧ c'.pt = c.pt ∧
      c'.maxReplicas = c.maxReplicas ∧
      c'.Holds up down24' ((List.replicate n 0 ++ down6).take 6) := by
  induction n generalizing c down24 down6 with
  | zero =>
      have hlen : down6.length ≤ 6 := by
        rw [← hc.scaleDown6.maxLen]
        exact hc.scaleDown6.represents.length_le
      refine ⟨c, down24, rfl, rfl, rfl, ?_⟩
      rw [List.replicate_zero, List.nil_append, List.take_of_length_le hlen]
      exact hc
  | succ n ih =>
      obtain ⟨d6, h6, h6'⟩ := hc.scaleDown6.add (.inl rfl)
      obtain ⟨d24, h24, h24'⟩ := hc.scaleDown24.add (.inl rfl)
      have hnext : Configuration.Holds
          { c with scaleDown6 := d6, scaleDown24 := d24 } up
          (0 :: down24.take 23) (0 :: down6.take 5) :=
        ⟨hc.scaleUp, h24', h6'⟩
      obtain ⟨c', down24', hzeros, hpt, hmax, hholds⟩ := ih hnext
      refine ⟨c', down24', ?_, hpt, hmax, ?_⟩
      · simp only [Configuration.addZeros, h6, h24]
        exact hzeros
      · rw [← take_replicate_zero]
        exact hholds

theorem Configuration.Holds.applyDownscale {c : Configuration}
    {up down24 down6 : List ℤ} (hc : c.Holds up down24 down6) :
    ∃ c' down24', c.applyDownscale = .ok c' ∧
      c'.maxReplicas = c.maxReplicas ∧
      c'.Holds up down24' (List.replicate 6 0) := by
  obtain ⟨c', down24', hzeros, -, hmax, hholds⟩ := hc.addZeros 6
  rw [List.take_left' (List.length_replicate)] at hholds
  exact ⟨c', down24', hzeros, hmax, hholds⟩

theorem sum_take_one_le {w : List ℤ} (hbits : ∀ x ∈ w, x = 0 ∨ x = 1) :
    (w.take 1).sum ≤ 1 := by
  rcases w with _ | ⟨x, w⟩
  · simp
  · have hx := hbits x (by simp)
    simp only [List.take_succ_cons, List.take_zero, List.sum_cons,
      List.sum_nil]
    omega

theorem sum_take_le {w : List ℤ} (hbits : ∀ x ∈ w, x = 0 ∨ x = 1) (n : ℕ) :
    (w.take n).sum ≤ w.sum := by
  have hdrop : 0 ≤ (w.drop n).sum := by
    apply List.sum_nonneg
    intro x hx
    have hbit := hbits x (List.mem_of_mem_drop hx)
    omega
  have hsplit : (w.take n).sum + (w.drop n).sum = w.sum := by
    rw [← List.sum_append, List.take_append_drop]
  omega

/-! ## Targets -/

variable {F : Type} [CFloat F]

/-- What `calculateScaling` can ask for. -/
theorem System.wish_cases (maxScale : ℤ) (predict capacity : F)
    (sys : System F) :
    (sys.light.length : ℤ) < maxScale ∧
        sys.wish maxScale predict capacity =
          ⟨true, false,
            if (sys.total : ℤ) = maxScale then sys.cheapestHeavy else none⟩ ∨
      (1 < sys.heavy.length ∨ 0 < sys.light.length) ∧
        sys.wish maxScale predict capacity =
          ⟨false, true, sys.getMinDownscaleDelta.server⟩ ∨
      sys.wish maxScale predict capacity = ⟨false, false, none⟩ := by
  unfold System.wish
  dsimp only
  split
  · next hup => exact .inl ⟨hup.2, rfl⟩
  · split
    · next hdown => exact .inr (.inl ⟨hdown.2, rfl⟩)
    · exact .inr (.inr rfl)

/-- A scan that starts with a server ends with it or with a later one. -/
theorem foldl_cheaperHeavy_some (s : ServerDescription F)
    (hs : List (ServerDescription F)) :
    ∃ t ∈ s :: hs, hs.foldl cheaperHeavy (some s) = some t := by
  induction hs generalizing s with
  | nil => exact ⟨s, by simp, rfl⟩
  | cons h hs ih =>
      rw [List.foldl_cons]
      unfold cheaperHeavy
      dsimp only
      split
      · obtain ⟨t, ht, hfold⟩ := ih h
        exact ⟨t, List.mem_cons_of_mem _ ht, hfold⟩
      · obtain ⟨t, ht, hfold⟩ := ih s
        refine ⟨t, ?_, hfold⟩
        rcases List.mem_cons.mp ht with rfl | ht
        · simp
        · simp [ht]

theorem System.cheapestHeavy_mem {sys : System F} (hheavy : sys.heavy ≠ []) :
    ∃ s ∈ sys.heavy, sys.cheapestHeavy = some s := by
  obtain ⟨h, hs, hcons⟩ := List.exists_cons_of_ne_nil hheavy
  unfold System.cheapestHeavy
  rw [hcons]
  exact foldl_cheaperHeavy_some h hs

theorem foldl_minDelta_some (delta : ServerDescription F → F)
    (m : MinDelta F) {s : ServerDescription F} (hm : m.server = some s)
    (hs : List (ServerDescription F)) :
    ∃ t ∈ s :: hs, (hs.foldl (MinDelta.step delta) m).server = some t := by
  induction hs generalizing m s with
  | nil => exact ⟨s, by simp, hm⟩
  | cons h hs ih =>
      rw [List.foldl_cons]
      unfold MinDelta.step
      split
      · obtain ⟨t, ht, hfold⟩ := ih ⟨some (delta h), some h⟩ rfl
        exact ⟨t, List.mem_cons_of_mem _ ht, hfold⟩
      · obtain ⟨t, ht, hfold⟩ := ih m hm
        refine ⟨t, ?_, hfold⟩
        rcases List.mem_cons.mp ht with rfl | ht
        · simp
        · simp [ht]

/-- The first server is always taken, whatever its capacity. -/
theorem foldl_minDelta_mem (delta : ServerDescription F → F)
    {hs : List (ServerDescription F)} (hne : hs ≠ []) :
    ∃ t ∈ hs, (hs.foldl (MinDelta.step delta) ⟨none, none⟩).server = some t := by
  rcases hs with _ | ⟨h, hs⟩
  · exact absurd rfl hne
  · exact foldl_minDelta_some delta ⟨some (delta h), some h⟩ rfl hs

theorem System.getMinDownscaleDelta_light {sys : System F}
    (hlight : sys.light ≠ []) :
    ∃ s ∈ sys.light, sys.getMinDownscaleDelta.server = some s := by
  unfold System.getMinDownscaleDelta
  rw [if_pos (List.length_pos_iff.mpr hlight)]
  exact foldl_minDelta_mem _ hlight

theorem System.getMinDownscaleDelta_heavy {sys : System F}
    (hlight : sys.light = []) (hheavy : sys.heavy ≠ []) :
    ∃ s ∈ sys.heavy, sys.getMinDownscaleDelta.server = some s := by
  unfold System.getMinDownscaleDelta
  rw [hlight, if_neg (by simp), if_pos (List.length_pos_iff.mpr hheavy)]
  exact foldl_minDelta_mem _ hheavy

/-! ## Actions -/

/-- Where the servers are: between one and `max` of them, light ones only in a
full deployment, and each in the list of the version it runs. -/
structure System.Placed {F : Type} (max : ℤ) (sys : System F) : Prop where
  one_le : 1 ≤ sys.total
  le_max : (sys.total : ℤ) ≤ max
  full : 0 < sys.light.length → (sys.total : ℤ) = max
  heavy : ∀ s ∈ sys.heavy, s.isHeavy = true
  light : ∀ s ∈ sys.light, s.isHeavy = false

theorem System.Placed.updateCapacities {F : Type} {max : ℤ} {sys : System F}
    (hsys : sys.Placed max) (servers : List (ServerReport F)) :
    (sys.updateCapacities servers).Placed max := by
  have hheavy : (sys.updateCapacities servers).heavy.length =
      sys.heavy.length := by simp [System.updateCapacities]
  have hlight : (sys.updateCapacities servers).light.length =
      sys.light.length := by simp [System.updateCapacities]
  have htotal : (sys.updateCapacities servers).total = sys.total := by
    unfold System.total
    omega
  refine ⟨?_, ?_, ?_, ?_, ?_⟩
  · rw [htotal]
    exact hsys.one_le
  · rw [htotal]
    exact hsys.le_max
  · rw [htotal, hlight]
    exact hsys.full
  · intro s hs
    obtain ⟨h, hmem, rfl⟩ := List.mem_map.mp hs
    exact hsys.heavy h hmem
  · intro s hs
    obtain ⟨l, hmem, rfl⟩ := List.mem_map.mp hs
    exact hsys.light l hmem

theorem removeServer_spec {F : Type} {s : ServerDescription F}
    {l : List (ServerDescription F)} (hs : s ∈ l) :
    ∃ l', removeServer s l = .ok l' ∧ l'.length + 1 = l.length ∧
      ∀ t ∈ l', t ∈ l := by
  have hany : l.any (·.id = s.id) = true :=
    List.any_eq_true.mpr ⟨s, hs, by simp⟩
  have hlen := List.length_pos_of_mem hs
  refine ⟨l.eraseP (·.id = s.id), ?_, ?_, ?_⟩
  · rw [removeServer, if_pos hany]
  · rw [List.length_eraseP, if_pos hany]
    omega
  · intro t ht
    exact List.mem_of_mem_eraseP ht

theorem buildConfigData_spec {F : Type} {sys : System F} (pt : ℤ)
    (htotal : 1 ≤ sys.total) : ∃ data, sys.buildConfigData pt = .ok data := by
  unfold System.buildConfigData
  dsimp only
  split
  · next hnil =>
      have hlen := congrArg List.length hnil
      simp only [List.length_append, List.length_map, List.length_nil] at hlen
      unfold System.total at htotal
      omega
  · exact ⟨_, rfl⟩

theorem upscale_launch {max : ℤ} {st : State F} (port : ℤ)
    (hsys : st.system.Placed max) (hroom : (st.system.total : ℤ) ≠ max) :
    ∃ sys posts, st.upscale port none =
        .ok ({ system := sys, config := st.config.applyUpscale }, posts) ∧
      sys.Placed max := by
  have hle := hsys.le_max
  have hone := hsys.one_le
  have hlight : st.system.light.length = 0 := by
    by_contra hpos
    exact hroom (hsys.full (by omega))
  obtain ⟨first, rest, hcons⟩ : ∃ first rest,
      st.system.heavy = first :: rest := by
    apply List.exists_cons_of_length_pos
    unfold System.total at hone
    omega
  let sys : System F := { st.system with
    heavy := st.system.heavy ++ [st.system.newServer first.ip port]
    fresh := st.system.fresh + 1 }
  have htotal : sys.total = st.system.total + 1 := by
    simp only [sys, System.total, List.length_append, List.length_singleton]
    omega
  have hplaced : sys.Placed max := by
    refine ⟨by omega, by omega, ?_, ?_, hsys.light⟩
    · intro hpos
      exact absurd hpos (by simp [sys, hlight])
    · intro s hs
      rcases List.mem_append.mp hs with hs | hs
      · exact hsys.heavy s hs
      · rw [List.mem_singleton.mp hs]
        rfl
  obtain ⟨data, hdata⟩ := buildConfigData_spec st.config.pt hplaced.one_le
  refine ⟨sys, [{ delayed := true, data := data }], ?_, hplaced⟩
  simp only [sys, hcons] at hdata ⊢
  simp only [State.upscale, hcons, hdata]
  rfl

/-- A heavy server of a full deployment becomes light. -/
theorem upscale_lighten {max : ℤ} {st : State F} (port : ℤ)
    {s : ServerDescription F} (hsys : st.system.Placed max)
    (hfull : (st.system.total : ℤ) = max) (hs : s ∈ st.system.heavy) :
    ∃ sys posts, st.upscale port (some s) =
        .ok ({ system := sys, config := st.config.applyUpscale }, posts) ∧
      sys.Placed max := by
  obtain ⟨heavy, hremove, hlen, hsub⟩ := removeServer_spec hs
  let sys : System F := { st.system with
    heavy := heavy
    light := st.system.light ++ [{ st.system.newServer s.ip port with
      capacityH := s.capacityH
      isHeavy := false }]
    fresh := st.system.fresh + 1 }
  have htotal : sys.total = st.system.total := by
    simp only [sys, System.total, List.length_append, List.length_singleton]
    omega
  have hone := hsys.one_le
  have hplaced : sys.Placed max := by
    refine ⟨by omega, by omega, fun _ => by omega, ?_, ?_⟩
    · intro t ht
      exact hsys.heavy t (hsub t ht)
    · intro t ht
      rcases List.mem_append.mp ht with ht | ht
      · exact hsys.light t ht
      · rw [List.mem_singleton.mp ht]
  obtain ⟨data, hdata⟩ := buildConfigData_spec st.config.pt hplaced.one_le
  refine ⟨sys, [{ delayed := true, data := data },
    { delayed := false, data := data }], ?_, hplaced⟩
  simp only [sys] at hdata
  simp only [State.upscale, hremove, bind, Except.bind, hdata]
  rfl

/-- A light server becomes heavy again. -/
theorem downscale_light {max : ℤ} {st : State F} (port : ℤ)
    {s : ServerDescription F} {config : Configuration}
    (hsys : st.system.Placed max) (hs : s ∈ st.system.light)
    (hconfig : st.config.applyDownscale = .ok config) :
    ∃ sys posts, st.downscale port (some s) =
        .ok ({ system := sys, config := config }, posts) ∧
      sys.Placed max := by
  obtain ⟨light, hremove, hlen, hsub⟩ := removeServer_spec hs
  let sys : System F := { st.system with
    heavy := st.system.heavy ++ [{ st.system.newServer s.ip port with
      capacityH := s.capacityH }]
    light := light
    fresh := st.system.fresh + 1 }
  have htotal : sys.total = st.system.total := by
    simp only [sys, System.total, List.length_append, List.length_singleton]
    omega
  have hone := hsys.one_le
  have hfull := hsys.full (List.length_pos_of_mem hs)
  have hplaced : sys.Placed max := by
    refine ⟨by omega, by omega, fun _ => by omega, ?_, ?_⟩
    · intro t ht
      rcases List.mem_append.mp ht with ht | ht
      · exact hsys.heavy t ht
      · rw [List.mem_singleton.mp ht]
        rfl
    · intro t ht
      exact hsys.light t (hsub t ht)
  obtain ⟨data, hdata⟩ := buildConfigData_spec st.config.pt hplaced.one_le
  refine ⟨sys, [{ delayed := true, data := data },
    { delayed := false, data := data }], ?_, hplaced⟩
  simp only [sys] at hdata
  simp only [State.downscale, hsys.light s hs, Bool.false_eq_true, if_false,
    hremove, bind, Except.bind, hdata, hconfig]
  rfl

/-- A heavy server is shut down, when it is not the last one and none is
light. -/
theorem downscale_heavy {max : ℤ} {st : State F} (port : ℤ)
    {s : ServerDescription F} {config : Configuration}
    (hsys : st.system.Placed max) (hlight : st.system.light = [])
    (hmany : 1 < st.system.heavy.length) (hs : s ∈ st.system.heavy)
    (hconfig : st.config.applyDownscale = .ok config) :
    ∃ sys posts, st.downscale port (some s) =
        .ok ({ system := sys, config := config }, posts) ∧
      sys.Placed max := by
  obtain ⟨heavy, hremove, hlen, hsub⟩ := removeServer_spec hs
  let sys : System F := { st.system with heavy := heavy }
  have htotal : sys.total + 1 = st.system.total := by
    simp only [sys, System.total]
    omega
  have hle := hsys.le_max
  have hplaced : sys.Placed max := by
    refine ⟨?_, by omega, ?_, ?_, hsys.light⟩
    · simp only [sys, System.total]
      omega
    · intro hpos
      exact absurd hpos (by simp [sys, hlight])
    · intro t ht
      exact hsys.heavy t (hsub t ht)
  obtain ⟨data, hdata⟩ := buildConfigData_spec st.config.pt hplaced.one_le
  refine ⟨sys, [{ delayed := false, data := data }], ?_, hplaced⟩
  simp only [sys] at hdata
  simp only [State.downscale, hsys.heavy s hs, if_true, hremove, bind,
    Except.bind, hdata, hconfig]
  rfl

/-! ## Iterations -/

/-- The faults that come from the data of an iteration. -/
def Fault.OfData (e : Fault) : Prop :=
  e = .zeroDivision ∨ e = .missingServers

theorem System.calculateScaling_spec {max : ℤ} {sys : System F}
    (hsys : sys.Placed max) (entry : MonitorEntry F) (c : Configuration) :
    (∃ e : Fault, sys.calculateScaling entry c = .error e ∧ e.OfData) ∨
      ∃ (sys' : System F) (predict : F), sys'.Placed max ∧
        sys.calculateScaling entry c =
          .ok (sys', sys'.wish c.maxReplicas predict entry.totalCapacity) := by
  unfold System.calculateScaling
  by_cases hpt : c.pt = 0
  · exact .inl ⟨.zeroDivision, by simp [hpt], .inl rfl⟩
  · cases entry.servers with
    | none => exact .inl ⟨.missingServers, by simp [hpt], .inr rfl⟩
    | some servers =>
        refine .inr ⟨_, _, ?_, by simp only [hpt, if_false]; rfl⟩
        apply System.Placed.updateCapacities
        exact ⟨hsys.one_le, hsys.le_max, hsys.full, hsys.heavy, hsys.light⟩

/-- The invariant of the scaling program with one entry per iteration. -/
structure State.Steady (max : ℤ) (st : State F) : Prop where
  placed : st.system.Placed max
  maxReplicas : st.config.maxReplicas = max
  windows : ∃ up down24 down6, st.config.Holds up down24 down6 ∧
    up.sum ≤ 1 ∧ down6.sum ≤ 2

theorem steady_initial {pt max : ℤ} (hmax : 1 ≤ max) (ip : Text) (port : ℤ) :
    (initialState pt max ip port : State F).Steady max where
  placed :=
    { one_le := le_refl 1
      le_max := hmax
      full := fun h => absurd h (by simp [initialState])
      heavy := by simp [initialState]
      light := by simp [initialState] }
  maxReplicas := rfl
  windows := ⟨[], [], [], Configuration.holds_new pt max, by simp, by simp⟩

theorem State.monitorData_single {data : List (MonitorEntry F)}
    (hdata : data.length ≤ 1) (st : State F) :
    ∃ entry, st.monitorData data = [entry] := by
  rcases data with _ | ⟨entry, _ | ⟨entry', data⟩⟩
  · exact ⟨_, rfl⟩
  · exact ⟨entry, rfl⟩
  · simp at hdata

theorem State.iteration_single {st : State F} {round : Round F}
    {entry : MonitorEntry F} (hdata : st.monitorData round.data = [entry])
    {sys : System F} {wish : Wish F} {config : Configuration}
    {decision : ScaleDecision}
    (hwish : st.system.calculateScaling entry st.config = .ok (sys, wish))
    (hdecision : st.config.applyScalingData wish.upscale wish.downscale =
      .ok (config, decision)) :
    st.iteration round =
      State.perform round.port (chooseAction wish decision)
        { system := sys, config := config } := by
  simp only [State.iteration, hdata, State.processEntries, State.processEntry,
    hwish, hdecision, bind, Except.bind, pure, Except.pure]

theorem State.iteration_fault {st : State F} {round : Round F}
    {entry : MonitorEntry F} (hdata : st.monitorData round.data = [entry])
    {e : Fault}
    (hwish : st.system.calculateScaling entry st.config = .error e) :
    st.iteration round = .error e := by
  simp only [State.iteration, hdata, State.processEntries, State.processEntry,
    hwish, bind, Except.bind]

theorem scaleOut_steady {max : ℤ} (st : State F) {up down24 down6 : List ℤ}
    (hsys : st.system.Placed max) (hmax : st.config.maxReplicas = max)
    (hc : st.config.Holds up down24 down6) (hdown : down6.sum ≤ 2)
    (hlight : (st.system.light.length : ℤ) < max) (port : ℤ) :
    ∃ st' posts, st.perform port
        (.upscale (if (st.system.total : ℤ) = max
          then st.system.cheapestHeavy else none)) = .ok (st', posts) ∧
      st'.Steady max := by
  have hsteady : ∀ sys : System F, sys.Placed max →
      State.Steady max { system := sys, config := st.config.applyUpscale } := by
    intro sys hplaced
    exact ⟨hplaced, hmax, [], down24, down6, hc.applyUpscale, by simp, hdown⟩
  split
  · next hfull =>
      have hheavy : st.system.heavy ≠ [] := by
        intro hnil
        simp only [System.total, hnil, List.length_nil] at hfull
        omega
      obtain ⟨s, hs, hcheapest⟩ := System.cheapestHeavy_mem hheavy
      rw [hcheapest]
      obtain ⟨sys, posts, hact, hplaced⟩ :=
        upscale_lighten port hsys hfull hs
      exact ⟨_, posts, hact, hsteady sys hplaced⟩
  · next hroom =>
      obtain ⟨sys, posts, hact, hplaced⟩ := upscale_launch port hsys hroom
      exact ⟨_, posts, hact, hsteady sys hplaced⟩

theorem scaleIn_steady {max : ℤ} (st : State F) {up down24 down6 : List ℤ}
    (hsys : st.system.Placed max) (hmax : st.config.maxReplicas = max)
    (hc : st.config.Holds up down24 down6) (hup : up.sum ≤ 1)
    (hmany : 1 < st.system.heavy.length ∨ 0 < st.system.light.length)
    (port : ℤ) :
    ∃ st' posts, st.perform port
        (.downscale st.system.getMinDownscaleDelta.server) =
          .ok (st', posts) ∧
      st'.Steady max := by
  obtain ⟨config, down24', hconfig, hmax', hc'⟩ := hc.applyDownscale
  have hsteady : ∀ sys : System F, sys.Placed max →
      State.Steady max { system := sys, config := config } := by
    intro sys hplaced
    exact ⟨hplaced, hmax'.trans hmax, up, down24', _, hc', hup, by simp⟩
  by_cases hlight : st.system.light = []
  · have hheavy : 1 < st.system.heavy.length := by
      simpa [hlight] using hmany
    obtain ⟨s, hs, hmin⟩ := System.getMinDownscaleDelta_heavy hlight
      (List.length_pos_iff.mp (by omega))
    rw [hmin]
    obtain ⟨sys, posts, hact, hplaced⟩ :=
      downscale_heavy port hsys hlight hheavy hs hconfig
    exact ⟨_, posts, hact, hsteady sys hplaced⟩
  · obtain ⟨s, hs, hmin⟩ := System.getMinDownscaleDelta_light hlight
    rw [hmin]
    obtain ⟨sys, posts, hact, hplaced⟩ :=
      downscale_light port hsys hs hconfig
    exact ⟨_, posts, hact, hsteady sys hplaced⟩

/-- The action that the histories decide on has its target in the entry that
was just added to them. -/
theorem act_steady {max : ℤ} (st : State F) {up down24 down6 : List ℤ}
    (hsys : st.system.Placed max) (hmax : st.config.maxReplicas = max)
    (hc : st.config.Holds up down24 down6) (hdown : down6.sum ≤ 2)
    (predict capacity : F) (port : ℤ) :
    ∃ config decision,
      st.config.applyScalingData
          (st.system.wish max predict capacity).upscale
          (st.system.wish max predict capacity).downscale =
        .ok (config, decision) ∧
      ∃ st' posts, State.perform port
          (chooseAction (st.system.wish max predict capacity) decision)
          { system := st.system, config := config } = .ok (st', posts) ∧
        st'.Steady max := by
  have hup1 := sum_take_one_le hc.scaleUp.bits
  have hdown5 := sum_take_le hc.scaleDown6.bits 5
  have hcases := st.system.wish_cases max predict capacity
  generalize st.system.wish max predict capacity = wish at hcases ⊢
  have hupOn := upOn_bit wish.upscale
  have hdownOn := downOn_bit wish.upscale wish.downscale
  obtain ⟨c', hdecide, -, hmax', hc'⟩ :=
    hc.applyScalingData wish.upscale wish.downscale
  refine ⟨c', _, hdecide, ?_⟩
  unfold chooseAction
  by_cases htwo : upOn wish.upscale + (up.take 1).sum = 2
  · -- the history of scale-outs is full, so this entry asked for one
    have hup : wish.upscale = true := upOn_eq_one_iff.mp (by omega)
    rw [if_pos (decide_eq_true htwo)]
    rcases hcases with ⟨hlight, rfl⟩ | ⟨-, rfl⟩ | rfl
    · exact scaleOut_steady { system := st.system, config := c' } hsys
        (hmax'.trans hmax) hc' (by simp [downOn]; omega) hlight port
    · cases hup
    · cases hup
  · rw [if_neg (by simpa using htwo)]
    by_cases hthree :
        downOn wish.upscale wish.downscale + (down6.take 5).sum = 3
    · -- the history of scale-ins was below its trigger before this entry
      have hone : downOn wish.upscale wish.downscale = 1 := by omega
      have hin := (downOn_eq_one_iff.mp hone).2
      rw [if_pos (decide_eq_true ⟨htwo, hthree⟩)]
      rcases hcases with ⟨-, rfl⟩ | ⟨hmany, rfl⟩ | rfl
      · cases hin
      · exact scaleIn_steady { system := st.system, config := c' } hsys
          (hmax'.trans hmax) hc' (by simp [upOn]; omega) hmany port
      · cases hin
    · rw [if_neg (by simp [hthree])]
      refine ⟨_, _, rfl, hsys, hmax'.trans hmax, _, _, _, hc', ?_, ?_⟩
      · rw [List.sum_cons]
        omega
      · rw [List.sum_cons]
        omega

/-- One iteration on one entry fails on its data or keeps the invariant. -/
theorem iteration_steady {max : ℤ} {st : State F} (hst : st.Steady max)
    (round : Round F) (hdata : round.data.length ≤ 1) :
    (∃ e : Fault, st.iteration round = .error e ∧ e.OfData) ∨
      ∃ st' posts, st.iteration round = .ok (st', posts) ∧
        st'.Steady max := by
  obtain ⟨hsys, hmax, up, down24, down6, hc, -, hdown⟩ := hst
  obtain ⟨entry, hentry⟩ := st.monitorData_single hdata
  rcases System.calculateScaling_spec hsys entry st.config with
    ⟨e, hfault, he⟩ | ⟨sys, predict, hsys', hwish⟩
  · exact .inl ⟨e, State.iteration_fault hentry hfault, he⟩
  · obtain ⟨config, decision, hdecide, st', posts, hact, hst'⟩ :=
      act_steady { system := sys, config := st.config } hsys' hmax hc
        hdown predict entry.totalCapacity round.port
    rw [← hmax] at hdecide hact
    refine .inr ⟨st', posts, ?_, hst'⟩
    rw [State.iteration_single hentry hwish hdecide]
    exact hact

/-- The states of the scaling program when every iteration delivers one
entry. -/
def Scaled (pt max : ℤ) : State F → Prop :=
  Reach (fun st => ∃ ip port, st = initialState pt max ip port)
    (fun _ round => round.data.length ≤ 1)
    (fun st round st' => ∃ posts, st.iteration round = .ok (st', posts))

theorem scaled_run {pt max : ℤ} {st st' : State F} {rounds : List (Round F)}
    (hst : Scaled pt max st) (hdata : ∀ r ∈ rounds, r.data.length ≤ 1)
    (hrun : st.run rounds = .ok st') : Scaled pt max st' := by
  induction rounds generalizing st with
  | nil =>
      obtain rfl := Except.ok.inj hrun
      exact hst
  | cons round rounds ih =>
      obtain ⟨⟨st₁, posts⟩, hiter, hrun⟩ := Except.bind_eq_ok.mp hrun
      refine ih ?_ (fun r hr => hdata r (List.mem_cons_of_mem _ hr)) hrun
      exact .step hst (hdata round (by simp)) ⟨posts, hiter⟩

theorem scaled_steady {pt max : ℤ} (hmax : 1 ≤ max) {st : State F}
    (hst : Scaled pt max st) : st.Steady max := by
  refine Reach.invariant ?_ ?_ hst
  · rintro st ⟨ip, port, rfl⟩
    exact steady_initial hmax ip port
  · rintro st round st' - hsteady hdata ⟨posts, hiter⟩
    rcases iteration_steady hsteady round hdata with
      ⟨e, hfault, -⟩ | ⟨st'', posts', hok, hsteady'⟩
    · rw [hfault] at hiter
      cases hiter
    · rw [hok] at hiter
      obtain ⟨rfl, -⟩ := Prod.mk.inj (Except.ok.inj hiter)
      exact hsteady'

/-- What is deployed in every state, and what the histories count. -/
structure State.Deployed (max : ℤ) (st : State F) : Prop where
  placed : st.system.Placed max
  scaleUp : st.config.scaleUp.count ≤ 1
  scaleDown6 : st.config.scaleDown6.count ≤ 2

/-- In every reachable state the deployment is in bounds, and no iteration from
there indexes an empty list of heavy servers or scales in without a
server. -/
theorem deployment_invariant {pt max : ℤ} (hmax : 1 ≤ max) {st : State F}
    (hst : Scaled pt max st) :
    st.Deployed max ∧
      ∀ round : Round F, round.data.length ≤ 1 →
        st.iteration round ≠ .error .emptyHeavy ∧
        st.iteration round ≠ .error .noneServer := by
  have hsteady := scaled_steady hmax hst
  constructor
  · obtain ⟨up, down24, down6, hc, hup, hdown⟩ := hsteady.windows
    refine ⟨hsteady.placed, ?_, ?_⟩
    · rw [hc.scaleUp.represents.count]
      exact hup
    · rw [hc.scaleDown6.represents.count]
      exact hdown
  · intro round hdata
    rcases iteration_steady hsteady round hdata with
      ⟨e, hfault, rfl | rfl⟩ | ⟨st', posts, hok, -⟩
    · simp [hfault]
    · simp [hfault]
    · simp [hok]

/-- An iteration with one entry that names no server. -/
def loadRound (load capacity : ℤ) : Round RatFloat where
  data := [⟨ofInt load, ofInt capacity, some []⟩]
  port := 8001

/-- Two iterations with a load above the capacity launch a second server. -/
theorem deployment_invariant_two :
    ∃ st : State RatFloat,
      (initialState 100 2 [] 8000).run [loadRound 100 10, loadRound 100 10] =
        .ok st ∧
      st.system.total = 2 ∧ st.Deployed 2 := by
  obtain ⟨st, hrun, htotal⟩ := @Except.exists_ok_of_any _ _
    ((initialState 100 2 [] 8000).run [loadRound 100 10, loadRound 100 10])
    (fun st : State RatFloat => decide (st.system.total = 2))
    (by decide +kernel)
  refine ⟨st, hrun, of_decide_eq_true htotal, ?_⟩
  refine (deployment_invariant (by decide) (scaled_run
    (.init ⟨[], 8000, rfl⟩) ?_ hrun)).1
  decide

end MultiversionBalancer.Autoscaler
