import MultiversionBalancer.Autoscaler.Model
import MultiversionBalancer.Lib.Run

/-!
# Convergence of the pushed configuration

A scaling action changes the deployed servers and posts the new configuration
to the load balancer: at once, by a thread that waits first, or both.  A
delayed post carries the configuration that was built when its action ran, and
nothing orders it against the posts of later actions.

The posts are messages in flight that are delivered in any order, interleaved
with monitor entries and further actions.  Every message keeps the number of
its action.  As long as no message is delivered after one of a later action,
the installed configuration is that of the current servers once all messages
are delivered; without that, an old configuration can have the last word.
-/

namespace MultiversionBalancer.Autoscaler

open Lib CFloat

variable {F : Type} [CFloat F]

/-! ## Messages in flight -/

/-- A post in flight, with the number of the action it belongs to. -/
structure Message where
  action : ℕ
  post : Post
  deriving DecidableEq

/-- The scaling program, the posts in flight and the load balancer.  `actions`
numbers the actions, and `installedBy` is the action of the configuration
installed last. -/
structure Cluster (F : Type) where
  state : State F
  pending : List Message
  actions : ℕ
  installed : List ServerConfig
  installedBy : ℕ

inductive ClusterEvent (F : Type) where
  | entry (e : MonitorEntry F)
  | act (port : ℤ) (action : Action F)
  | deliver (k : ℕ)

/-- `POST_configData` reaches the load balancer: `build_conf` replaces the
whole configuration. -/
def Cluster.install (c : Cluster F) (k : ℕ) (m : Message) : Cluster F :=
  { c with
    pending := c.pending.eraseIdx k
    installed := m.post.data
    installedBy := m.action }

/-- One event; `none` is an exception of the scaling program, or a message
that is not there. -/
def clusterStep (c : Cluster F) : ClusterEvent F → Option (Cluster F)
  | .entry e => do
      let (st, _) ← (c.state.processEntry e).toOption
      pure { c with state := st }
  | .act port action => do
      let (st, posts) ← (c.state.perform port action).toOption
      let n := if posts = [] then c.actions else c.actions + 1
      pure
        { c with
          state := st
          pending := c.pending ++ posts.map fun p => ⟨n, p⟩
          actions := n }
  | .deliver k => do
      let m ← c.pending[k]?
      pure (c.install k m)

/-- The configuration of the current servers. -/
def Cluster.current (c : Cluster F) : Except Fault (List ServerConfig) :=
  c.state.system.buildConfigData c.state.config.pt

/-- The program after its first post has succeeded. -/
def Cluster.Initial (c : Cluster F) : Prop :=
  ∃ pt maxReplicas ip port, c.state = initialState pt maxReplicas ip port ∧
    c.pending = [] ∧ c.actions = 0 ∧ c.current = .ok c.installed ∧
    c.installedBy = 0

/-- A message is not delivered after one of a later action. -/
def inOrder (c : Cluster F) : ClusterEvent F → Bool
  | .deliver k => (c.pending[k]?).all fun m => c.installedBy ≤ m.action
  | _ => true

/-- The states of runs whose events all meet the guard. -/
abbrev ClusterReach (ok : Cluster F → ClusterEvent F → Bool) :
    Cluster F → Prop :=
  Reach Cluster.Initial (fun c e => ok c e = true) fun c e c' =>
    clusterStep c e = some c'

/-! ## What the program does to its configuration -/

omit [CFloat F] in
theorem buildConfigData_updateCapacities (servers : List (ServerReport F))
    (sys : System F) (pt : ℤ) :
    (sys.updateCapacities servers).buildConfigData pt =
      sys.buildConfigData pt := by
  simp [System.buildConfigData, System.updateCapacities, Function.comp_def]

theorem addZeros_pt {n : ℕ} {c c' : Configuration}
    (h : c.addZeros n = .ok c') : c'.pt = c.pt := by
  induction n generalizing c with
  | zero =>
      obtain rfl := Except.ok.inj h
      rfl
  | succ n ih =>
      obtain ⟨down6, -, h⟩ := Except.bind_eq_ok.mp h
      obtain ⟨down24, -, h⟩ := Except.bind_eq_ok.mp h
      rw [ih h]

theorem applyScalingData_pt {up down : Bool} {c c' : Configuration}
    {d : ScaleDecision} (h : c.applyScalingData up down = .ok (c', d)) :
    c'.pt = c.pt := by
  obtain ⟨up', -, h⟩ := Except.bind_eq_ok.mp h
  obtain ⟨down24, -, h⟩ := Except.bind_eq_ok.mp h
  obtain ⟨down6, -, h⟩ := Except.bind_eq_ok.mp h
  obtain ⟨rfl, -⟩ := Prod.mk.inj (Except.ok.inj h)
  rfl

/-- A monitor entry changes neither the servers nor the target. -/
theorem processEntry_config {e : MonitorEntry F} {st st' : State F}
    {wish : Wish F} {d : ScaleDecision}
    (h : st.processEntry e = .ok (st', wish, d)) :
    st'.system.buildConfigData st'.config.pt =
      st.system.buildConfigData st.config.pt := by
  obtain ⟨⟨sys, w⟩, hcalc, h⟩ := Except.bind_eq_ok.mp h
  obtain ⟨⟨config, d'⟩, happly, h⟩ := Except.bind_eq_ok.mp h
  obtain ⟨rfl, -⟩ := Prod.mk.inj (Except.ok.inj h)
  have hsys : sys.buildConfigData st.config.pt =
      st.system.buildConfigData st.config.pt := by
    unfold System.calculateScaling at hcalc
    dsimp only at hcalc
    split at hcalc
    · cases hcalc
    · split at hcalc
      · cases hcalc
      · obtain ⟨rfl, -⟩ := Prod.mk.inj (Except.ok.inj hcalc)
        exact buildConfigData_updateCapacities _ _ _
  rw [applyScalingData_pt happly]
  exact hsys

theorem perform_posts {port : ℤ} {action : Action F} {st st' : State F}
    {posts : List Post} (h : st.perform port action = .ok (st', posts)) :
    posts = [] ∧ st' = st ∨
      posts ≠ [] ∧ ∀ p ∈ posts,
        st'.system.buildConfigData st'.config.pt = .ok p.data := by
  cases action with
  | keep =>
      obtain ⟨rfl, rfl⟩ := Prod.mk.inj (Except.ok.inj h)
      exact .inl ⟨rfl, rfl⟩
  | upscale server =>
      right
      cases server with
      | none =>
          simp only [State.perform, State.upscale] at h
          split at h
          · cases h
          · obtain ⟨data, hdata, h⟩ := Except.bind_eq_ok.mp h
            obtain ⟨rfl, rfl⟩ := Prod.mk.inj (Except.ok.inj h)
            simpa [Configuration.applyUpscale] using hdata
      | some s =>
          obtain ⟨heavy, -, h⟩ := Except.bind_eq_ok.mp h
          obtain ⟨data, hdata, h⟩ := Except.bind_eq_ok.mp h
          obtain ⟨rfl, rfl⟩ := Prod.mk.inj (Except.ok.inj h)
          simpa [Configuration.applyUpscale] using hdata
  | downscale server =>
      right
      cases server with
      | none => cases h
      | some s =>
          simp only [State.perform, State.downscale] at h
          split at h
          · obtain ⟨heavy, -, h⟩ := Except.bind_eq_ok.mp h
            obtain ⟨data, hdata, h⟩ := Except.bind_eq_ok.mp h
            obtain ⟨config, hconfig, h⟩ := Except.bind_eq_ok.mp h
            obtain ⟨rfl, rfl⟩ := Prod.mk.inj (Except.ok.inj h)
            rw [← addZeros_pt hconfig] at hdata
            simpa using hdata
          · obtain ⟨light, -, h⟩ := Except.bind_eq_ok.mp h
            obtain ⟨data, hdata, h⟩ := Except.bind_eq_ok.mp h
            obtain ⟨config, hconfig, h⟩ := Except.bind_eq_ok.mp h
            obtain ⟨rfl, rfl⟩ := Prod.mk.inj (Except.ok.inj h)
            rw [← addZeros_pt hconfig] at hdata
            simpa using hdata

/-! ## The invariant -/

/-- What the last action posted is in flight or installed, and it is the
current configuration. -/
structure ClusterInv (c : Cluster F) : Prop where
  le_actions : ∀ m ∈ c.pending, m.action ≤ c.actions
  last : ∀ m ∈ c.pending, m.action = c.actions →
    c.current = .ok m.post.data
  installedBy_le : c.installedBy ≤ c.actions
  installed : c.installedBy = c.actions → c.current = .ok c.installed
  in_flight : c.installedBy < c.actions →
    ∃ m ∈ c.pending, m.action = c.actions

theorem clusterInv_initial {c : Cluster F} (h : c.Initial) : ClusterInv c := by
  obtain ⟨pt, maxReplicas, ip, port, -, hpending, hactions, hcurrent, hby⟩ := h
  refine ⟨?_, ?_, ?_, fun _ => hcurrent, ?_⟩
  · simp [hpending]
  · simp [hpending]
  · omega
  · intro hlt
    omega

/-- What an event does to the messages and the installed configuration. -/
inductive ClusterCase (c : Cluster F) : ClusterEvent F → Cluster F → Prop where
  | same {e : ClusterEvent F} {st : State F}
      (h : st.system.buildConfigData st.config.pt = c.current) :
      ClusterCase c e { c with state := st }
  | posted {port : ℤ} {action : Action F} {st : State F} {posts : List Post}
      (hposts : posts ≠ [])
      (h : ∀ p ∈ posts, st.system.buildConfigData st.config.pt = .ok p.data) :
      ClusterCase c (.act port action)
        { c with
          state := st
          pending := c.pending ++ posts.map fun p => ⟨c.actions + 1, p⟩
          actions := c.actions + 1 }
  | delivered {k : ℕ} {m : Message} (hk : c.pending[k]? = some m) :
      ClusterCase c (.deliver k) (c.install k m)

theorem clusterStep_cases {c c' : Cluster F} {e : ClusterEvent F}
    (h : clusterStep c e = some c') : ClusterCase c e c' := by
  cases e with
  | entry e =>
      obtain ⟨⟨st, wish, d⟩, hentry, h⟩ := Option.bind_eq_some_iff.mp h
      obtain rfl := Option.some.inj h
      exact .same (processEntry_config (Except.toOption_eq_some.mp hentry))
  | act port action =>
      obtain ⟨⟨st, posts⟩, hperform, h⟩ := Option.bind_eq_some_iff.mp h
      obtain rfl := Option.some.inj h
      rcases perform_posts (Except.toOption_eq_some.mp hperform) with
        ⟨rfl, rfl⟩ | ⟨hposts, hdata⟩
      · simpa using ClusterCase.same (c := c) (e := .act port action) rfl
      · simpa [hposts] using ClusterCase.posted (c := c) hposts hdata
  | deliver k =>
      obtain ⟨m, hk, h⟩ := Option.bind_eq_some_iff.mp h
      obtain rfl := Option.some.inj h
      exact .delivered hk

theorem ClusterInv.step {c c' : Cluster F} {e : ClusterEvent F}
    (hc : ClusterInv c) (hok : inOrder c e = true) (h : clusterStep c e = some c') :
    ClusterInv c' := by
  cases clusterStep_cases h with
  | same hsame =>
      exact
        { le_actions := hc.le_actions
          last := fun m hm hlast => hsame.trans (hc.last m hm hlast)
          installedBy_le := hc.installedBy_le
          installed := fun hby => hsame.trans (hc.installed hby)
          in_flight := hc.in_flight }
  | @posted port action st posts hposts hdata =>
      obtain ⟨p, hp⟩ := List.exists_mem_of_ne_nil _ hposts
      have hnew : ∀ m ∈ posts.map (fun p => (⟨c.actions + 1, p⟩ : Message)),
          m.action = c.actions + 1 ∧
            st.system.buildConfigData st.config.pt = .ok m.post.data := by
        intro m hm
        obtain ⟨q, hq, rfl⟩ := List.mem_map.mp hm
        exact ⟨rfl, hdata q hq⟩
      have hby := hc.installedBy_le
      refine ⟨?_, ?_, ?_, ?_, ?_⟩
      · intro m hm
        rcases List.mem_append.mp hm with hm | hm
        · exact Nat.le_succ_of_le (hc.le_actions m hm)
        · exact (hnew m hm).1.le
      · intro m hm hlast
        rcases List.mem_append.mp hm with hm | hm
        · have hle := hc.le_actions m hm
          dsimp only at hlast
          omega
        · exact (hnew m hm).2
      · exact Nat.le_succ_of_le hby
      · intro heq
        dsimp only at heq
        omega
      · intro _
        refine ⟨⟨c.actions + 1, p⟩, ?_, rfl⟩
        exact List.mem_append_right _ (List.mem_map_of_mem hp)
  | @delivered k m hk =>
      have hmem := List.mem_of_getElem? hk
      have horder : c.installedBy ≤ m.action := by
        simpa [inOrder, hk] using hok
      have hrest : ∀ m' ∈ c.pending.eraseIdx k, m' ∈ c.pending :=
        fun m' hm' => List.mem_of_mem_eraseIdx hm'
      refine ⟨?_, ?_, hc.le_actions m hmem, ?_, ?_⟩
      · exact fun m' hm' => hc.le_actions m' (hrest m' hm')
      · exact fun m' hm' hlast => hc.last m' (hrest m' hm') hlast
      · exact hc.last m hmem
      · intro hlt
        -- an older message is delivered: the last one is still in flight
        have hlt' : m.action < c.actions := hlt
        obtain ⟨m', hm', hlast⟩ := hc.in_flight (by omega)
        refine ⟨m', ?_, hlast⟩
        obtain ⟨j, hj⟩ := List.mem_iff_getElem?.mp hm'
        have hjk : j ≠ k := by
          rintro rfl
          obtain rfl := Option.some.inj (hj.symm.trans hk)
          omega
        exact List.mem_eraseIdx_iff_getElem?.mpr ⟨j, hjk, hj⟩

theorem ClusterInv.reach {c : Cluster F} (h : ClusterReach inOrder c) :
    ClusterInv c := by
  refine Reach.invariant ?_ ?_ h
  · intro c₀ hinit
    exact clusterInv_initial hinit
  · intro c₁ e c₂ _ hc₁ hok hstep
    exact hc₁.step hok hstep

/-! ## Convergence -/

omit [CFloat F] in
/-- A configuration names the current servers, the heavy ones first. -/
theorem buildConfigData_servers {sys : System F} {pt : ℤ}
    {data : List ServerConfig} (h : sys.buildConfigData pt = .ok data) :
    data.map (fun s => (s.server, s.port, s.heavy)) =
      sys.heavy.map (fun s => (s.ip, s.port, true)) ++
        sys.light.map fun s => (s.ip, s.port, false) := by
  unfold System.buildConfigData at h
  dsimp only at h
  split at h
  · cases h
  · next first rest hconfig =>
      obtain rfl := Except.ok.inj h
      have hmap := congrArg
        (List.map fun s : ServerConfig => (s.server, s.port, s.heavy)) hconfig
      simpa [Function.comp_def] using hmap.symm

/-- Once all posts are delivered, in the order of their actions, the installed
configuration is that of the current servers. -/
theorem installed_eq_current_of_inOrder {c : Cluster F}
    (h : ClusterReach inOrder c) (hdone : c.pending = []) :
    c.state.system.buildConfigData c.state.config.pt = .ok c.installed ∧
      c.installed.map (fun s => (s.server, s.port, s.heavy)) =
        c.state.system.heavy.map (fun s => (s.ip, s.port, true)) ++
          c.state.system.light.map fun s => (s.ip, s.port, false) := by
  have hinv := ClusterInv.reach h
  have hby : c.installedBy = c.actions := by
    rcases Nat.lt_or_eq_of_le hinv.installedBy_le with hlt | heq
    · obtain ⟨m, hm, -⟩ := hinv.in_flight hlt
      rw [hdone] at hm
      cases hm
    · exact heq
  have hcurrent := hinv.installed hby
  exact ⟨hcurrent, buildConfigData_servers hcurrent⟩

/-- A run of events that all meet the guard. -/
def clusterRun (ok : Cluster F → ClusterEvent F → Bool) :
    List (ClusterEvent F) → Cluster F → Option (Cluster F)
  | [], c => some c
  | e :: es, c =>
      if ok c e then (clusterStep c e).bind (clusterRun ok es) else none

theorem clusterRun_reach {ok : Cluster F → ClusterEvent F → Bool}
    {es : List (ClusterEvent F)} {c c' : Cluster F} (hc : ClusterReach ok c)
    (h : clusterRun ok es c = some c') : ClusterReach ok c' := by
  induction es generalizing c with
  | nil =>
      obtain rfl := Option.some.inj h
      exact hc
  | cons e es ih =>
      rw [clusterRun] at h
      split at h
      · next hok =>
          obtain ⟨c₁, hstep, hrest⟩ := Option.bind_eq_some_iff.mp h
          exact ih (.step hc hok hstep) hrest
      · cases h

/-- One heavy server, with its configuration installed. -/
def oneHeavy : Cluster RatFloat where
  state := initialState 100 2 "h".toList 1
  pending := []
  actions := 0
  installed := [⟨"h".toList, 1, true, some 100⟩]
  installedBy := 0

theorem oneHeavy_initial : oneHeavy.Initial :=
  ⟨100, 2, "h".toList, 1, rfl, rfl, rfl, rfl, rfl⟩

/-- Launch a second server, then shut the first one down. -/
def launchThenShutDown : List (ClusterEvent RatFloat) :=
  [.act 2 (.upscale none), .act 3 (.downscale oneHeavy.state.system.heavy.head?)]

/-- The two posts of `launchThenShutDown` are delivered in their order. -/
theorem oneHeavy_installed_eq_current :
    ∃ c : Cluster RatFloat, ClusterReach inOrder c ∧ c.pending = [] ∧
      c.actions = 2 ∧
      c.state.system.buildConfigData c.state.config.pt = .ok c.installed := by
  obtain ⟨c, hrun, hc⟩ := (Option.any_eq_true
      (fun c : Cluster RatFloat => decide (c.pending = [] ∧ c.actions = 2))
      (clusterRun inOrder (launchThenShutDown ++ [.deliver 0, .deliver 0])
        oneHeavy)).mp
    (by decide +kernel)
  obtain ⟨hdone, hactions⟩ := of_decide_eq_true hc
  have hreach := clusterRun_reach (.init oneHeavy_initial) hrun
  exact ⟨c, hreach, hdone, hactions,
    (installed_eq_current_of_inOrder hreach hdone).1⟩

/-- The post of the shutdown is delivered at once, and the delayed post of the
launch last: it names the server that was shut down. -/
theorem not_installed_eq_current :
    ¬∀ c : Cluster RatFloat, ClusterReach (fun _ _ => true) c →
      c.pending = [] →
      c.state.system.buildConfigData c.state.config.pt = .ok c.installed := by
  intro hall
  obtain ⟨c, hrun, hc⟩ := (Option.any_eq_true
      (fun c : Cluster RatFloat => decide (c.pending = [] ∧
        c.installed.map (·.port) = [1, 2] ∧
        c.state.system.heavy.map (·.port) = [2] ∧
        c.state.system.light.map (·.port) = []))
      (clusterRun (fun _ _ => true)
        (launchThenShutDown ++ [.deliver 1, .deliver 0]) oneHeavy)).mp
    (by decide +kernel)
  obtain ⟨hdone, hinstalled, hheavy, hlight⟩ := of_decide_eq_true hc
  have hreach := clusterRun_reach (.init oneHeavy_initial) hrun
  have hservers := buildConfigData_servers (hall c hreach hdone)
  have hports := congrArg (List.map fun s => s.2.1) hservers
  simp only [List.map_map, List.map_append, Function.comp_def] at hports
  rw [hinstalled, hheavy, hlight] at hports
  exact absurd hports (by decide)

end MultiversionBalancer.Autoscaler
