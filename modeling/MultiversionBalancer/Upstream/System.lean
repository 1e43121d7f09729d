import MultiversionBalancer.Upstream.Dispatch
import MultiversionBalancer.Lib.Indexed
import Mathlib.Logic.Relation

/-!
# Runs of an upstream

The part of `ngx_http_upstream.c` that drives the balancer: a request arrives
(`ngx_http_upstream_init_request`), is sent to a peer
(`ngx_http_upstream_connect`), may be given up and sent to another one
(`ngx_http_upstream_next`), releases the peer it holds
(`ngx_http_upstream_finalize_request`), and is logged once when it is freed.
Requests interleave in any order.

Every event is made of four kinds of changes: an arrival, a dispatch, a release
and a completion.  `Change` is the relation of one of them, and invariants of
runs are proved change by change.
-/

namespace MultiversionBalancer

open Lib

variable {F : Type} [CFloat F]

/-! ## Events -/

def ngxPeerNext : ℕ := 2

def ftError : ℕ := 0x2

def ftHttp403 : ℕ := 0x100

def ftHttp404 : ℕ := 0x200

def ftNonIdempotent : ℕ := 0x4000

/-- The settings of `ngx_http_upstream_conf_t` that limit retries. -/
structure UpstreamConf where
  nextUpstream : ℕ
  nextUpstreamTries : ℕ

/-- What `ngx_http_upstream_next` is called with and finds: the kind of
failure, `r->connection->error`, `u->peer.cached`, whether a request that must
not be repeated was sent, whether an unbuffered body was sent, and whether
`next_upstream_timeout` has passed. -/
structure NextContext where
  ftType : ℕ
  connectionError : Bool
  cached : Bool
  nonIdempotent : Bool
  unbuffered : Bool
  timedOut : Bool

/-- The upstream and the requests that have arrived so far. -/
structure System (F : Type) where
  upstream : Upstream F
  requests : List (Request F)

inductive Event where
  | arrive (tp : NgxTime)
  | connect (i : ℕ) (tp : NgxTime)
  | next (i : ℕ) (ctx : NextContext) (tp : NgxTime)
  | finalize (i : ℕ) (tp : NgxTime)
  | complete (i : ℕ) (tp : NgxTime)

/-- Release the peer the request holds, if it holds one. -/
def releaseHeld (u : Upstream F) (r : Request F) (state : ℕ) (tp : NgxTime) :
    Except Fault (Upstream F × Request F) :=
  if r.sockaddr then do
    let (u, r) ← ngxHttpUpstreamFreeRoundRobinPeer u r state tp
    pure (u, { r with sockaddr := false })
  else .ok (u, r)

/-- The state a failed attempt is released with. -/
def nextState (ctx : NextContext) : ℕ :=
  if ctx.ftType = ftHttp403 || ctx.ftType = ftHttp404 then ngxPeerNext
  else ngxPeerFailed

/-- `u->peer.tries` after the release of a failed attempt. -/
def nextTries (ctx : NextContext) (r : Request F) : ℕ :=
  if ctx.cached && ctx.ftType == ftError then r.tries + 1 else r.tries

/-- The tests of `ngx_http_upstream_next` that end in another attempt. -/
def retries (conf : UpstreamConf) (ctx : NextContext) (tries : ℕ) : Bool :=
  let ft := if ctx.nonIdempotent then ctx.ftType ||| ftNonIdempotent
    else ctx.ftType
  !ctx.connectionError && tries != 0 && conf.nextUpstream &&& ft == ft &&
    !ctx.unbuffered && !ctx.timedOut

/-- `ngx_http_upstream_connect`.  An answer of busy would lead to
`ngx_http_upstream_next` with a failure that no `next_upstream` setting names,
so it would end the request with no peer held. -/
def ngxHttpUpstreamConnect (s : System F) (i : ℕ) (r : Request F)
    (tp : NgxTime) : Except Fault (System F) := do
  let (_, u, r) ← ngxHttpUpstreamGetRoundRobinPeer s.upstream r tp
  pure { upstream := u, requests := s.requests.set i r }

def ngxHttpUpstreamNext (conf : UpstreamConf) (ctx : NextContext)
    (s : System F) (i : ℕ) (r : Request F) (tp : NgxTime) :
    Except Fault (System F) := do
  let (u, r) ← releaseHeld s.upstream r (nextState ctx) tp
  let r := { r with tries := nextTries ctx r }
  let s := { upstream := u, requests := s.requests.set i r }
  if retries conf ctx r.tries then ngxHttpUpstreamConnect s i r tp
  else pure s

/-- The end of a request: the cleanup handler releases the peer, then the
request is logged, which evaluates `$request_time` once. -/
def completeRequest (s : System F) (i : ℕ) (r : Request F) (tp : NgxTime) :
    Except Fault (System F) := do
  let (u, r) ← releaseHeld s.upstream r 0 tp
  let (u, _) ← ngxHttpLogRequestTime tp u r
  pure
    { upstream := u
      requests := s.requests.set i { r with logged := true } }

/-- One event.  An event that the request is not in a state for is disabled. -/
def step (conf : UpstreamConf) (s : System F) :
    Event → Except Fault (System F)
  | .arrive tp =>
      .ok
        { s with
          requests := s.requests ++
            [ngxHttpUpstreamInitRequest conf.nextUpstreamTries s.upstream tp] }
  | .connect i tp =>
      match s.requests[i]? with
      | none => .error .disabled
      | some r =>
          if r.logged || !r.attempts.isEmpty then .error .disabled
          else ngxHttpUpstreamConnect s i r tp
  | .next i ctx tp =>
      match s.requests[i]? with
      | none => .error .disabled
      | some r =>
          if r.logged || !r.sockaddr then .error .disabled
          else ngxHttpUpstreamNext conf ctx s i r tp
  | .finalize i tp =>
      match s.requests[i]? with
      | none => .error .disabled
      | some r =>
          if r.logged then .error .disabled
          else do
            let (u, r) ← releaseHeld s.upstream r 0 tp
            pure { upstream := u, requests := s.requests.set i r }
  | .complete i tp =>
      match s.requests[i]? with
      | none => .error .disabled
      | some r =>
          if r.logged then .error .disabled
          else completeRequest s i r tp

/-- The initial states: a configured upstream without requests. -/
def Initial (s : System F) : Prop :=
  (∃ us, ngxHttpUpstreamInitRoundRobin us = some s.upstream) ∧ s.requests = []

def run (conf : UpstreamConf) (s : System F) :
    List Event → Except Fault (System F)
  | [] => .ok s
  | e :: es => do
      let s ← step conf s e
      run conf s es

/-- The states of runs whose events all meet the guard. -/
abbrev Reachable (conf : UpstreamConf) (ok : System F → Event → Prop) :
    System F → Prop :=
  Reach Initial ok fun s e s' => step conf s e = .ok s'

/-- The states of all runs. -/
abbrev Reachable.any (_ : System F) (_ : Event) : Prop := True

theorem run_reachable {conf : UpstreamConf} {es : List Event}
    {s s' : System F} (hs : Reachable conf Reachable.any s)
    (h : run conf s es = .ok s') : Reachable conf Reachable.any s' := by
  induction es generalizing s with
  | nil =>
      obtain rfl := Except.ok.inj h
      exact hs
  | cons e es ih =>
      obtain ⟨s₁, hstep, hrest⟩ := Except.bind_eq_ok.mp h
      exact ih (.step hs trivial hstep) hrest

/-- The run ends, in a state with the given property. -/
def runs (conf : UpstreamConf) (s : System F) (es : List Event)
    (p : System F → Bool) : Bool :=
  match run conf s es with
  | .error _ => false
  | .ok s' => p s'

theorem runs_iff {conf : UpstreamConf} {s : System F} {es : List Event}
    {p : System F → Bool} :
    runs conf s es p = true ↔ ∃ s', run conf s es = .ok s' ∧ p s' = true := by
  unfold runs
  cases run conf s es with
  | error e => simp
  | ok s' => simp

/-! ## Changes -/

/-- The changes events are made of. -/
inductive Change (conf : UpstreamConf) : System F → System F → Prop where
  | arrive {s : System F} (tp : NgxTime) :
      Change conf s
        { s with
          requests := s.requests ++
            [ngxHttpUpstreamInitRequest conf.nextUpstreamTries s.upstream tp] }
  | dispatch {s : System F} {i : ℕ} {r r' : Request F} {tp : NgxTime}
      {u : Upstream F} (hi : s.requests[i]? = some r) (hr : r.logged = false)
      (h : ngxHttpUpstreamGetRoundRobinPeer s.upstream r tp = .ok (.ok, u, r')) :
      Change conf s { upstream := u, requests := s.requests.set i r' }
  | release {s : System F} {i state : ℕ} {r r' : Request F} {tp : NgxTime}
      {u : Upstream F} (tries : ℕ) (hi : s.requests[i]? = some r)
      (hr : r.logged = false)
      (h : releaseHeld s.upstream r state tp = .ok (u, r')) :
      Change conf s
        { upstream := u
          requests := s.requests.set i { r' with tries := tries } }
  | complete {s : System F} {i : ℕ} {r : Request F} {tp : NgxTime}
      {u : Upstream F} {t : Text} (hi : s.requests[i]? = some r)
      (hr : r.logged = false)
      (h : ngxHttpLogRequestTime tp s.upstream r = .ok (u, t)) :
      Change conf s
        { upstream := u
          requests := s.requests.set i { r with logged := true } }

theorem connect_changes {conf : UpstreamConf} {s s' : System F} {i : ℕ}
    {r : Request F} {tp : NgxTime} (hi : s.requests[i]? = some r)
    (hr : r.logged = false)
    (h : ngxHttpUpstreamConnect s i r tp = .ok s') : Change conf s s' := by
  obtain ⟨⟨res, u, r'⟩, hget, h⟩ := Except.bind_eq_ok.mp h
  obtain rfl := Except.ok.inj h
  obtain ⟨rfl, -⟩ := getRoundRobinPeer_ok hget
  exact .dispatch hi hr hget

omit [CFloat F] in
theorem releaseHeld_logged {u u' : Upstream F} {r r' : Request F}
    {state : ℕ} {tp : NgxTime} (h : releaseHeld u r state tp = .ok (u', r')) :
    r'.logged = r.logged := by
  unfold releaseHeld ngxHttpUpstreamFreeRoundRobinPeer at h
  split at h
  · split at h
    · have hpair := Except.ok.inj h
      rw [← (Prod.mk.inj hpair).2]
    · cases h
  · rw [← (Prod.mk.inj (Except.ok.inj h)).2]

theorem next_changes {conf : UpstreamConf} {ctx : NextContext}
    {s s' : System F} {i : ℕ} {r : Request F} {tp : NgxTime}
    (hi : s.requests[i]? = some r) (hr : r.logged = false)
    (h : ngxHttpUpstreamNext conf ctx s i r tp = .ok s') :
    Relation.ReflTransGen (Change conf) s s' := by
  obtain ⟨⟨u, r₁⟩, hrel, h⟩ := Except.bind_eq_ok.mp h
  have hlogged := (releaseHeld_logged hrel).trans hr
  have hrelease := @Change.release F _ conf s i _ r r₁ tp u
    (nextTries ctx r₁) hi hr hrel
  dsimp only at h
  split at h
  · refine .tail (.single hrelease) ?_
    exact connect_changes (getElem?_set_of_some _ hi) hlogged h
  · obtain rfl := Except.ok.inj h
    exact .single hrelease

theorem complete_changes {conf : UpstreamConf} {s s' : System F} {i : ℕ}
    {r : Request F} {tp : NgxTime} (hi : s.requests[i]? = some r)
    (hr : r.logged = false) (h : completeRequest s i r tp = .ok s') :
    Relation.ReflTransGen (Change conf) s s' := by
  obtain ⟨⟨u, r₁⟩, hrel, h⟩ := Except.bind_eq_ok.mp h
  obtain ⟨⟨u', t⟩, hlog, h⟩ := Except.bind_eq_ok.mp h
  obtain rfl := Except.ok.inj h
  have hrelease := @Change.release F _ conf s i _ r r₁ tp u r₁.tries hi hr hrel
  have hcomplete := @Change.complete F _ conf
    { upstream := u, requests := s.requests.set i r₁ } i r₁ tp u' t
    (getElem?_set_of_some _ hi) ((releaseHeld_logged hrel).trans hr) hlog
  rw [List.set_set] at hcomplete
  exact .tail (.single hrelease) hcomplete

/-- What an event does in a state that enables it. -/
inductive StepCase (conf : UpstreamConf) (s : System F) :
    Event → System F → Prop where
  | arrive (tp : NgxTime) :
      StepCase conf s (.arrive tp)
        { s with
          requests := s.requests ++
            [ngxHttpUpstreamInitRequest conf.nextUpstreamTries s.upstream tp] }
  | connect {i : ℕ} {r : Request F} {tp : NgxTime} {s' : System F}
      (hi : s.requests[i]? = some r) (hr : r.logged = false)
      (hfirst : r.attempts = [])
      (h : ngxHttpUpstreamConnect s i r tp = .ok s') :
      StepCase conf s (.connect i tp) s'
  | next {i : ℕ} {r : Request F} {ctx : NextContext} {tp : NgxTime}
      {s' : System F} (hi : s.requests[i]? = some r) (hr : r.logged = false)
      (hheld : r.sockaddr = true)
      (h : ngxHttpUpstreamNext conf ctx s i r tp = .ok s') :
      StepCase conf s (.next i ctx tp) s'
  | finalize {i : ℕ} {r r' : Request F} {tp : NgxTime} {u : Upstream F}
      (hi : s.requests[i]? = some r) (hr : r.logged = false)
      (h : releaseHeld s.upstream r 0 tp = .ok (u, r')) :
      StepCase conf s (.finalize i tp)
        { upstream := u, requests := s.requests.set i r' }
  | complete {i : ℕ} {r : Request F} {tp : NgxTime} {s' : System F}
      (hi : s.requests[i]? = some r) (hr : r.logged = false)
      (h : completeRequest s i r tp = .ok s') :
      StepCase conf s (.complete i tp) s'

omit [CFloat F] in
/-- An event for a request that has arrived and is in a state for it. -/
theorem enabled_of_ok {s s' : System F} {i : ℕ} {disabled : Request F → Bool}
    {f : Request F → Except Fault (System F)}
    (h : (match s.requests[i]? with
      | none => .error .disabled
      | some r => if disabled r then .error .disabled else f r) = Except.ok s') :
    ∃ r, s.requests[i]? = some r ∧ disabled r = false ∧ f r = .ok s' := by
  cases hi : s.requests[i]? with
  | none => simp [hi] at h
  | some r =>
      simp only [hi] at h
      split at h
      · cases h
      · next hguard => exact ⟨r, rfl, by simpa using hguard, h⟩

theorem step_cases {conf : UpstreamConf} {s s' : System F} {e : Event}
    (h : step conf s e = .ok s') : StepCase conf s e s' := by
  cases e with
  | arrive tp =>
      obtain rfl := Except.ok.inj h
      exact .arrive tp
  | connect i tp =>
      obtain ⟨r, hi, hguard, h⟩ := enabled_of_ok h
      obtain ⟨hr, hfirst⟩ := Bool.or_eq_false_iff.mp hguard
      exact .connect hi hr (by simpa using hfirst) h
  | next i ctx tp =>
      obtain ⟨r, hi, hguard, h⟩ := enabled_of_ok h
      obtain ⟨hr, hheld⟩ := Bool.or_eq_false_iff.mp hguard
      exact .next hi hr (by simpa using hheld) h
  | finalize i tp =>
      obtain ⟨r, hi, hr, h⟩ := enabled_of_ok h
      obtain ⟨⟨u, r₁⟩, hrel, h⟩ := Except.bind_eq_ok.mp h
      obtain rfl := Except.ok.inj h
      exact .finalize hi hr hrel
  | complete i tp =>
      obtain ⟨r, hi, hr, h⟩ := enabled_of_ok h
      exact .complete hi hr h

theorem step_changes {conf : UpstreamConf} {s s' : System F} {e : Event}
    (h : step conf s e = .ok s') :
    Relation.ReflTransGen (Change conf) s s' := by
  cases step_cases h with
  | arrive tp => exact .single (.arrive tp)
  | connect hi hr hfirst h => exact .single (connect_changes hi hr h)
  | next hi hr hheld h => exact next_changes hi hr h
  | finalize hi hr hrel => exact .single (.release _ hi hr hrel)
  | complete hi hr h => exact complete_changes hi hr h

/-- An invariant of changes holds throughout every run. -/
theorem Reachable.change_invariant {conf : UpstreamConf}
    {ok : System F → Event → Prop} {inv : System F → Prop}
    (hinit : ∀ s, Initial s → inv s)
    (hchange : ∀ s s', inv s → Change conf s s' → inv s')
    {s : System F} (h : Reachable conf ok s) : inv s := by
  refine Reach.invariant hinit ?_ h
  intro s e s' _ hs _ hstep
  have hrun := step_changes hstep
  clear hstep
  induction hrun with
  | refl => exact hs
  | tail _ hc ih => exact hchange _ _ ih hc

theorem run_change_invariant {conf : UpstreamConf} {inv : System F → Prop}
    (hchange : ∀ s s', inv s → Change conf s s' → inv s')
    {es : List Event} {s s' : System F} (hs : inv s)
    (h : run conf s es = .ok s') : inv s' := by
  induction es generalizing s with
  | nil =>
      obtain rfl := Except.ok.inj h
      exact hs
  | cons e es ih =>
      obtain ⟨s₁, hstep, hrest⟩ := Except.bind_eq_ok.mp h
      refine ih ?_ hrest
      have hrun := step_changes hstep
      clear hstep hrest
      induction hrun with
      | refl => exact hs
      | tail _ hc ih => exact hchange _ _ ih hc

/-! ## What the changes do to the upstream -/

/-- The version of the peer at position `i` of a list. -/
def Upstream.versionAt (u : Upstream F) (t : Tier) (i : ℕ) : Option ℕ :=
  (u.tier t).bind fun ps => (ps.peer[i]?).bind (·.version)

/-- `peers->active_req` of a list. -/
def Upstream.activeAt (u : Upstream F) (t : Tier) : ℤ :=
  match u.tier t with
  | none => 0
  | some ps => ps.activeReq

section Tiers

omit [CFloat F]

@[simp] theorem setTier_versions (u : Upstream F) (t : Tier) (ps : Peers F) :
    (u.setTier t ps).versions = u.versions := by
  cases t with
  | primary => rfl
  | backup => rfl

@[simp] theorem tier_setTier_self (u : Upstream F) (t : Tier) (ps : Peers F) :
    (u.setTier t ps).tier t = some ps := by
  cases t with
  | primary => rfl
  | backup => rfl

theorem tier_setTier_of_ne {u : Upstream F} {t t' : Tier} (ps : Peers F)
    (h : t' ≠ t) : (u.setTier t ps).tier t' = u.tier t' := by
  cases t with
  | primary =>
      cases t' with
      | primary => exact absurd rfl h
      | backup => rfl
  | backup =>
      cases t' with
      | primary => rfl
      | backup => exact absurd rfl h

@[simp] theorem tier_withVersions (u : Upstream F) (vs : Versions F)
    (t : Tier) : ({ u with versions := vs } : Upstream F).tier t = u.tier t := by
  cases t with
  | primary => rfl
  | backup => rfl

@[simp] theorem versionAt_withVersions (u : Upstream F) (vs : Versions F) :
    ({ u with versions := vs } : Upstream F).versionAt = u.versionAt := by
  funext t i
  simp [Upstream.versionAt]

@[simp] theorem activeAt_withVersions (u : Upstream F) (vs : Versions F) :
    ({ u with versions := vs } : Upstream F).activeAt = u.activeAt := by
  funext t
  simp [Upstream.activeAt]

theorem versionAt_setTier {u : Upstream F} {t : Tier} {ps ps' : Peers F}
    (hps : u.tier t = some ps)
    (h : ∀ i : ℕ, (ps'.peer[i]?).bind (·.version) =
      (ps.peer[i]?).bind (·.version)) :
    (u.setTier t ps').versionAt = u.versionAt := by
  funext t' i
  unfold Upstream.versionAt
  by_cases ht : t' = t
  · subst ht
    rw [tier_setTier_self, hps]
    exact h i
  · rw [tier_setTier_of_ne ps' ht]

@[simp] theorem activeAt_setTier_self (u : Upstream F) (t : Tier)
    (ps : Peers F) : (u.setTier t ps).activeAt t = ps.activeReq := by
  simp [Upstream.activeAt]

theorem activeAt_setTier_of_ne {u : Upstream F} {t t' : Tier} (ps : Peers F)
    (h : t' ≠ t) : (u.setTier t ps).activeAt t' = u.activeAt t' := by
  simp [Upstream.activeAt, tier_setTier_of_ne ps h]

theorem activeAt_of_tier {u : Upstream F} {t : Tier} {ps : Peers F}
    (h : u.tier t = some ps) : u.activeAt t = ps.activeReq := by
  simp [Upstream.activeAt, h]

end Tiers

theorem modify_bind_version (l : List Peer) (i j : ℕ) {f : Peer → Peer}
    (hf : ∀ p, (f p).version = p.version) :
    ((l.modify i f)[j]?).bind (·.version) = (l[j]?).bind (·.version) := by
  rw [List.getElem?_modify]
  cases hj : l[j]? with
  | none => rfl
  | some p =>
      by_cases hij : i = j
      · simp [hij, hf]
      · simp [hij]

theorem takePeer_version (now : ℤ) (i j : ℕ) (ps : Peers F) :
    ((takePeer now i ps).peer[j]?).bind (·.version) =
      (ps.peer[j]?).bind (·.version) := by
  have htake := modify_bind_version (selectPeers now i ps).peer i j
    (f := fun p => { p with conns := p.conns + 1 }) fun _ => rfl
  have hselect := modify_bind_version ps.peer i j
    (f := fun p => { p with checked := now }) fun _ => rfl
  exact htake.trans hselect

omit [CFloat F] in
theorem releasePeer_version (single failed : Bool) (now : ℤ) (p : Peer) :
    (releasePeer single failed now p).version = p.version := by
  unfold releasePeer
  split
  · rfl
  · split
    · rfl
    · rfl

/-- A dispatch takes a peer of the list of the request, adds a request to the
version of that peer and to the list, and leaves the other versions and lists
alone. -/
theorem dispatch_spec {u u' : Upstream F} {r r' : Request F} {tp : NgxTime}
    (h : ngxHttpUpstreamGetRoundRobinPeer u r tp = .ok (.ok, u', r')) :
    ∃ i a, u.versionAt r.data.peers i = some a ∧
      u'.versionAt = u.versionAt ∧
      u'.activeAt r.data.peers = u.activeAt r.data.peers + 1 ∧
      (∀ t, t ≠ r.data.peers → u'.activeAt t = u.activeAt t) ∧
      (u'.versions a).activeReq = (u.versions a).activeReq + 1 ∧
      (∀ b, b ≠ a → (u'.versions b).activeReq = (u.versions b).activeReq) ∧
      r'.data.peers = r.data.peers ∧ r'.data.tried = r.data.tried ∧
      r'.version = some a ∧ r'.logged = r.logged ∧
      r'.attempts = r.attempts ++ [(r.data.peers, i)] := by
  obtain ⟨-, ps, i, p, a, ws, load, v, hps, hget, -, hver, hsame, rfl, hbuf⟩ :=
    getRoundRobinPeer_ok h
  obtain ⟨-, hactive, -, -, hr⟩ := bufferRequestData_ok hbuf
  refine ⟨i, a, by simp [Upstream.versionAt, hps, hget, hver], ?_, ?_, ?_, ?_,
    ?_, ?_⟩
  · rw [versionAt_withVersions]
    exact versionAt_setTier hps (takePeer_version tp.sec i · ps)
  · simp [activeAt_of_tier hps, takePeer, selectPeers]
  · intro t ht
    simp [activeAt_setTier_of_ne _ ht]
  · simp only [Function.update_self]
    rw [hactive, ← (hsame a).active_eq]
    rfl
  · intro b hb
    simp only [Function.update_of_ne hb]
    exact (hsame b).active_eq
  · rw [hr]
    exact ⟨rfl, rfl, rfl, rfl, rfl⟩

omit [CFloat F] in
/-- A release changes no version and no count of active requests. -/
theorem releaseHeld_spec {u u' : Upstream F} {r r' : Request F} {state : ℕ}
    {tp : NgxTime} (h : releaseHeld u r state tp = .ok (u', r')) :
    u'.versions = u.versions ∧ u'.versionAt = u.versionAt ∧
      u'.activeAt = u.activeAt ∧
      r' = { r with tries := r'.tries, sockaddr := false } := by
  unfold releaseHeld at h
  split at h
  · obtain ⟨⟨u₁, r₁⟩, hfree, h⟩ := Except.bind_eq_ok.mp h
    obtain ⟨rfl, rfl⟩ := Prod.mk.inj (Except.ok.inj h)
    unfold ngxHttpUpstreamFreeRoundRobinPeer at hfree
    split at hfree
    · next ps i hps hcur =>
        obtain ⟨rfl, rfl⟩ := Prod.mk.inj (Except.ok.inj hfree)
        refine ⟨setTier_versions _ _ _, ?_, ?_, rfl⟩
        · exact versionAt_setTier hps fun j =>
            modify_bind_version _ i j (releasePeer_version _ _ _)
        · funext t
          by_cases ht : t = r.data.peers
          · subst ht
            simp [activeAt_of_tier hps]
          · exact activeAt_setTier_of_ne _ ht
    · cases hfree
  · next hheld =>
      obtain ⟨rfl, rfl⟩ := Prod.mk.inj (Except.ok.inj h)
      have hfalse : r.sockaddr = false := by simpa using hheld
      exact ⟨rfl, rfl, rfl, by rw [← hfalse]⟩

theorem completeVersion_ok {tp : NgxTime} {r : Request F}
    {v v' : VersionedServer F} {multiple : Bool}
    (h : completeVersion tp r v = .ok (v', multiple)) :
    v'.activeReq = v.activeReq - 1 ∧
      v'.completedRequests = (v.completedRequests + 1) % v.reqUpperBound ∧
      v'.reqUpperBound = v.reqUpperBound ∧
      completeQueue tp r.enterTime r.no r.startSec r.startMsec
        (v'.completedRequests + v'.activeReq) v'.activeReq v.queue =
          .ok (v'.queue, multiple) := by
  obtain ⟨d, -, h⟩ := Except.bind_eq_ok.mp h
  obtain ⟨⟨q, m⟩, hq, h⟩ := Except.bind_eq_ok.mp h
  obtain ⟨rfl, rfl⟩ := Prod.mk.inj (Except.ok.inj h)
  exact ⟨rfl, rfl, rfl, hq⟩

theorem monitorReport_ok {due : Bool} {tp : NgxTime} {ps ps' : Peers F}
    {vs : Versions F} {t : Text}
    (h : monitorReport due tp ps vs = .ok (t, ps')) :
    ps'.peer = ps.peer ∧ ps'.activeReq = ps.activeReq ∧
      ps'.single = ps.single := by
  unfold monitorReport at h
  split at h
  · obtain ⟨⟨m, ps₁⟩, hmon, h⟩ := Except.bind_eq_ok.mp h
    have hsame : ps₁.peer = ps.peer ∧ ps₁.activeReq = ps.activeReq ∧
        ps₁.single = ps.single := by
      unfold customSystemMonitorCapacity at hmon
      dsimp only at hmon
      split at hmon
      · obtain ⟨-, rfl⟩ := Prod.mk.inj (Except.ok.inj hmon)
        exact ⟨rfl, rfl, rfl⟩
      · obtain ⟨servers, -, hmon⟩ := Except.bind_eq_ok.mp hmon
        obtain ⟨-, rfl⟩ := Prod.mk.inj (Except.ok.inj hmon)
        exact ⟨rfl, rfl, rfl⟩
    cases m with
    | literal t => cases h
    | allocated t =>
        obtain ⟨-, rfl⟩ := Prod.mk.inj (Except.ok.inj h)
        exact hsame
  · obtain ⟨-, rfl⟩ := Prod.mk.inj (Except.ok.inj h)
    exact ⟨rfl, rfl, rfl⟩

omit [CFloat F] in
theorem monitorDue_same (tp : NgxTime) (ps : Peers F) :
    (monitorDue tp ps).2.peer = ps.peer ∧
      (monitorDue tp ps).2.activeReq = ps.activeReq ∧
      (monitorDue tp ps).2.single = ps.single := by
  unfold monitorDue
  split
  · exact ⟨rfl, rfl, rfl⟩
  · exact ⟨rfl, rfl, rfl⟩

/-- A completion takes a request from its version and from its list; a request
that was sent to no version changes nothing. -/
theorem logRequestTime_spec {tp : NgxTime} {u u' : Upstream F}
    {r : Request F} {t : Text}
    (h : ngxHttpLogRequestTime tp u r = .ok (u', t)) :
    r.version = none ∧ u' = u ∨
    ∃ a v m, r.version = some a ∧
      completeVersion tp r (u.versions a) = .ok (v, m) ∧
      u'.versions = Function.update u.versions a v ∧
      u'.versionAt = u.versionAt ∧
      u'.activeAt r.data.peers = u.activeAt r.data.peers - 1 ∧
      ∀ t, t ≠ r.data.peers → u'.activeAt t = u.activeAt t := by
  unfold ngxHttpLogRequestTime at h
  cases hver : r.version with
  | none =>
      rw [hver] at h
      exact .inl ⟨rfl, (Prod.mk.inj (Except.ok.inj h)).1.symm⟩
  | some a =>
      rw [hver] at h
      cases hps : u.tier r.data.peers with
      | none => simp [hps] at h
      | some ps =>
          simp only [hps] at h
          obtain ⟨⟨v, m⟩, hcomplete, h⟩ := Except.bind_eq_ok.mp h
          obtain ⟨⟨report, ps'⟩, hreport, h⟩ := Except.bind_eq_ok.mp h
          obtain ⟨rfl, -⟩ := Prod.mk.inj (Except.ok.inj h)
          obtain ⟨hpeer, hactive, -⟩ := monitorReport_ok hreport
          obtain ⟨hpeer₁, hactive₁, -⟩ := monitorDue_same tp ps
          refine .inr ⟨a, v, m, rfl, hcomplete, rfl, ?_, ?_, ?_⟩
          · rw [versionAt_withVersions]
            refine versionAt_setTier hps fun i => ?_
            rw [hpeer]
            exact congrArg (fun l => (l[i]?).bind (·.version)) hpeer₁
          · rw [activeAt_withVersions, activeAt_setTier_self, hactive,
              activeAt_of_tier hps, ← hactive₁]
          · intro t ht
            rw [activeAt_withVersions, activeAt_setTier_of_ne _ ht]

/-! ## What the events do to the attempts -/

/-- A dispatch selects a peer that is eligible for the request. -/
theorem dispatch_eligible {u u' : Upstream F} {r r' : Request F}
    {tp : NgxTime} {res : GetResult}
    (h : ngxHttpUpstreamGetRoundRobinPeer u r tp = .ok (res, u', r')) :
    ∃ ps i p, u.tier r.data.peers = some ps ∧ ps.peer[i]? = some p ∧
      eligible r.data.tried tp.sec i p = true ∧
      r'.attempts = r.attempts ++ [(r.data.peers, i)] := by
  obtain ⟨-, ps, i, p, a, ws, load, v, hps, hget, hel, -, -, -, hbuf⟩ :=
    getRoundRobinPeer_ok h
  obtain ⟨-, -, -, -, hr⟩ := bufferRequestData_ok hbuf
  refine ⟨ps, i, p, hps, hget, hel, ?_⟩
  rw [hr]
  rfl

/-- The attempts of a request after an event: none, the same as before, a
first one, or one more than before by a retry. -/
inductive NewAttempts (conf : UpstreamConf) (s : System F) :
    Event → Request F → Prop where
  | none {e : Event} {r' : Request F} (h : r'.attempts = []) :
      NewAttempts conf s e r'
  | same {e : Event} {r r' : Request F} (hr : r ∈ s.requests)
      (h : r'.attempts = r.attempts) : NewAttempts conf s e r'
  | first {e : Event} {r' : Request F} {x : Tier × ℕ}
      (h : r'.attempts = [x]) : NewAttempts conf s e r'
  | retry {i : ℕ} {ctx : NextContext} {tp : NgxTime} {r r₁ r' : Request F}
      {u : Upstream F} {ps : Peers F} {j : ℕ} {p : Peer}
      (hi : s.requests[i]? = some r)
      (hrel : releaseHeld s.upstream r (nextState ctx) tp = .ok (u, r₁))
      (hretry : retries conf ctx (nextTries ctx r₁) = true)
      (hps : u.tier r.data.peers = some ps) (hp : ps.peer[j]? = some p)
      (hel : eligible r.data.tried tp.sec j p = true)
      (h : r'.attempts = r.attempts ++ [(r.data.peers, j)]) :
      NewAttempts conf s (.next i ctx tp) r'

omit [CFloat F] in
theorem releaseHeld_attempts {u u' : Upstream F} {r r' : Request F}
    {state : ℕ} {tp : NgxTime} (h : releaseHeld u r state tp = .ok (u', r')) :
    r'.attempts = r.attempts := by
  obtain ⟨-, -, -, hr'⟩ := releaseHeld_spec h
  rw [hr']

theorem next_attempts {conf : UpstreamConf} {ctx : NextContext}
    {s s' : System F} {i : ℕ} {r : Request F} {tp : NgxTime}
    (hi : s.requests[i]? = some r)
    (h : ngxHttpUpstreamNext conf ctx s i r tp = .ok s') :
    ∃ r', s'.requests = s.requests.set i r' ∧
      NewAttempts conf s (.next i ctx tp) r' := by
  obtain ⟨⟨u, r₁⟩, hrel, h⟩ := Except.bind_eq_ok.mp h
  dsimp only at h
  split at h
  · next hretry =>
      obtain ⟨⟨res, u', r'⟩, hget, h⟩ := Except.bind_eq_ok.mp h
      obtain rfl := Except.ok.inj h
      obtain ⟨ps, j, p, hps, hp, hel, hattempts⟩ := dispatch_eligible hget
      obtain ⟨-, -, -, hr₁⟩ := releaseHeld_spec hrel
      rw [hr₁] at hps hel hattempts
      refine ⟨r', ?_, .retry hi hrel hretry hps hp hel hattempts⟩
      exact List.set_set _
  · obtain rfl := Except.ok.inj h
    have hsame := releaseHeld_attempts hrel
    exact ⟨_, rfl, .same (List.mem_of_getElem? hi) hsame⟩

theorem step_attempts {conf : UpstreamConf} {s s' : System F} {e : Event}
    (h : step conf s e = .ok s') :
    ∀ r' ∈ s'.requests, NewAttempts conf s e r' := by
  have hkeep : ∀ r ∈ s.requests, NewAttempts conf s e r :=
    fun r hr => .same hr rfl
  cases step_cases h with
  | arrive tp =>
      intro r hr
      rcases List.mem_append.mp hr with hr | hr
      · exact hkeep r hr
      · rw [List.mem_singleton.mp hr]
        exact .none rfl
  | connect hi hr hfirst h =>
      obtain ⟨⟨res, u, r'⟩, hget, h⟩ := Except.bind_eq_ok.mp h
      obtain rfl := Except.ok.inj h
      obtain ⟨-, j, -, -, -, -, hattempts⟩ := dispatch_eligible hget
      rw [hfirst, List.nil_append] at hattempts
      exact forall_mem_set hkeep (.first hattempts)
  | next hi hr hheld h =>
      obtain ⟨r', hset, hnew⟩ := next_attempts hi h
      rw [hset]
      exact forall_mem_set hkeep hnew
  | finalize hi hr hrel =>
      have hsame := releaseHeld_attempts hrel
      exact forall_mem_set hkeep (.same (List.mem_of_getElem? hi) hsame)
  | complete hi hr h =>
      obtain ⟨⟨u, r₁⟩, hrel, h⟩ := Except.bind_eq_ok.mp h
      obtain ⟨⟨u', t⟩, -, h⟩ := Except.bind_eq_ok.mp h
      obtain rfl := Except.ok.inj h
      have hsame := releaseHeld_attempts hrel
      exact forall_mem_set hkeep (.same (List.mem_of_getElem? hi) hsame)

/-! ## Initial states -/

theorem primaryPeers_versionAt (host : Text) (servers : List UpstreamServer)
    {i a : ℕ} (h : (((primaryPeers host servers : Peers F).peer)[i]?).bind
      (·.version) = some a) : a = i := by
  obtain ⟨p, hp, hver⟩ := Option.bind_eq_some_iff.mp h
  have hp' : ((serverAddrs servers false).mapIdx fun i sa =>
      primaryPeer (scanPt servers) sa.1 sa.2 i)[i]? = some p := hp
  rw [List.getElem?_mapIdx] at hp'
  obtain ⟨sa, -, rfl⟩ := Option.map_eq_some_iff.mp hp'
  exact (Option.some.inj hver).symm

theorem bind_version_of_forall_none {l : List Peer}
    (h : ∀ p ∈ l, p.version = none) (i : ℕ) :
    (l[i]?).bind (·.version) = none := by
  cases hi : l[i]? with
  | none => rfl
  | some p => exact h p (List.mem_of_getElem? hi)

theorem initRoundRobin_versionAt {us : UpstreamSrvConf} {u : Upstream F}
    (h : ngxHttpUpstreamInitRoundRobin us = some u) {t : Tier} {i a : ℕ}
    (hver : u.versionAt t i = some a) : t = .primary ∧ a = i := by
  have hdefault : ∀ addrs : List Text,
      ((addrs.map defaultPeer)[i]?).bind (·.version) = none := by
    intro addrs
    refine bind_version_of_forall_none (fun p hp => ?_) i
    obtain ⟨name, -, rfl⟩ := List.mem_map.mp hp
    rfl
  unfold ngxHttpUpstreamInitRoundRobin at h
  split at h
  · next servers hservers =>
      have hbackup : (((backupPeers us.host servers : Peers F).peer)[i]?).bind
          (·.version) = none := by
        refine bind_version_of_forall_none (fun p hp => ?_) i
        obtain ⟨sa, -, rfl⟩ := List.mem_map.mp hp
        rfl
      split at h
      · cases h
      · dsimp only at h
        split at h
        · obtain rfl := Option.some.inj h
          cases t with
          | primary => exact ⟨rfl, primaryPeers_versionAt (F := F) us.host servers hver⟩
          | backup => cases hver
        · obtain rfl := Option.some.inj h
          cases t with
          | primary => exact ⟨rfl, primaryPeers_versionAt (F := F) us.host servers hver⟩
          | backup =>
              have hnone := hbackup.symm.trans hver
              cases hnone
  · split at h
    · cases h
    · obtain ⟨addrs, -, rfl⟩ := Option.map_eq_some_iff.mp h
      cases t with
      | primary =>
          have hnone := (hdefault addrs).symm.trans hver
          cases hnone
      | backup => cases hver

theorem initRoundRobin_idle {us : UpstreamSrvConf} {u : Upstream F}
    (h : ngxHttpUpstreamInitRoundRobin us = some u) :
    (∀ a, Initialised (u.versions a)) ∧ ∀ t, u.activeAt t = 0 := by
  unfold ngxHttpUpstreamInitRoundRobin at h
  split at h
  · next servers hservers =>
      split at h
      · cases h
      · dsimp only at h
        split at h
        · obtain rfl := Option.some.inj h
          refine ⟨primaryVersions_initialised servers, fun t => ?_⟩
          cases t with
          | primary => rfl
          | backup => rfl
        · obtain rfl := Option.some.inj h
          refine ⟨primaryVersions_initialised servers, fun t => ?_⟩
          cases t with
          | primary => rfl
          | backup => rfl
  · split at h
    · cases h
    · obtain ⟨addrs, -, rfl⟩ := Option.map_eq_some_iff.mp h
      refine ⟨fun a => ⟨rfl, rfl, rfl, rfl, rfl⟩, fun t => ?_⟩
      cases t with
      | primary => rfl
      | backup => rfl

/-- A heavy and a light server, before the first request. -/
def heavyLight : System RatFloat where
  upstream := listed [heavyServer "a:1", lightServer "b:1"]
  requests := []

theorem heavyLight_initial : Initial heavyLight := by
  refine ⟨⟨{
    host := []
    port := 0
    servers := some [heavyServer "a:1", lightServer "b:1"]
    resolved := none }, rfl⟩, rfl⟩

/-- Retry on errors, as often as there are servers. -/
def errorConf : UpstreamConf where
  nextUpstream := ftError
  nextUpstreamTries := 0

/-- A connection error of a request that may be repeated. -/
def errorContext : NextContext where
  ftType := ftError
  connectionError := false
  cached := false
  nonIdempotent := false
  unbuffered := false
  timedOut := false

/-- A request sent to the heavy server of `heavyLight`; its completion can be
recorded, and recorded again. -/
theorem heavyLight_dispatched :
    ∃ (s : System RatFloat) (r : Request RatFloat)
      (u₁ u₂ : Upstream RatFloat) (t₁ t₂ : Text),
      run errorConf heavyLight [.arrive (NgxTime.ofSec 1),
        .connect 0 (NgxTime.ofSec 1)] = .ok s ∧
      s.requests[0]? = some r ∧ r.version = some 0 ∧
      (s.upstream.versions 0).activeReq = 1 ∧
      ngxHttpLogRequestTime (NgxTime.ofSec 2) s.upstream r = .ok (u₁, t₁) ∧
      ngxHttpLogRequestTime (NgxTime.ofSec 2) u₁ r = .ok (u₂, t₂) := by
  obtain ⟨s, hrun, hs⟩ := @runs_iff RatFloat _ errorConf heavyLight
    [.arrive (NgxTime.ofSec 1), .connect 0 (NgxTime.ofSec 1)]
    (fun s => (s.requests[0]?).any fun r : Request RatFloat =>
      decide (r.version = some 0 ∧ (s.upstream.versions 0).activeReq = 1) &&
        (ngxHttpLogRequestTime (NgxTime.ofSec 2) s.upstream r >>= fun res =>
          ngxHttpLogRequestTime (NgxTime.ofSec 2) res.1 r).toOption.any
            fun _ => true) |>.mp
    (by decide +kernel)
  obtain ⟨r, hr, hs⟩ := (Option.any_eq_true _ _).mp hs
  obtain ⟨hver, hlog⟩ := Bool.and_eq_true_iff.mp hs
  obtain ⟨hver, hactive⟩ := of_decide_eq_true hver
  obtain ⟨⟨u₂, t₂⟩, hlog, -⟩ := Except.exists_ok_of_any hlog
  obtain ⟨⟨u₁, t₁⟩, hone, htwo⟩ := Except.bind_eq_ok.mp hlog
  exact ⟨s, r, u₁, u₂, t₁, t₂, hrun, hr, hver, hactive, hone, htwo⟩

end MultiversionBalancer
