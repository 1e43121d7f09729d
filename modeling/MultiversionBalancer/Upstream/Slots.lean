import MultiversionBalancer.Upstream.System

/-!
# Connection slots and failure windows

Any number of requests take peers of one upstream and give them back, in any
order and with any release state, while the clock does not go backwards.  A
request gives back the peer it holds before it takes another one.  The log
entry of a request may be written at any time in between.

A peer that has used up its failures keeps `accessed` and `checked` equal
until it is selected again, so no earlier request that ends well can reset its
failures, and it is not selected before its window is over.
-/

namespace MultiversionBalancer

open Lib

variable {F : Type} [CFloat F]

/-! ## Calls -/

/-- The calls of the balancer hooks, for the request at a position. -/
inductive Call where
  | arrive (tp : NgxTime)
  | get (k : ℕ) (tp : NgxTime)
  | free (k state : ℕ) (tp : NgxTime)
  | log (k : ℕ) (tp : NgxTime)

def Call.time : Call → NgxTime
  | .arrive tp => tp
  | .get _ tp => tp
  | .free _ _ tp => tp
  | .log _ tp => tp

/-- The upstream, its requests and the time of the last call.  `gets` and
`frees` are history variables: the peers that were taken and given back so
far, the last one first. -/
structure SlotSystem (F : Type) where
  upstream : Upstream F
  requests : List (Request F)
  now : ℕ
  gets : List (Tier × ℕ)
  frees : List (Tier × ℕ)

def Request.heldPeer (r : Request F) : Option (Tier × ℕ) :=
  if r.sockaddr then r.data.current.map fun i => (r.data.peers, i) else none

/-- A call for the request at position `k` at the time `tp`. -/
def callOn (s : SlotSystem F) (k : ℕ) (disabled : Request F → Bool)
    (f : Request F → Except Fault (SlotSystem F)) :
    Except Fault (SlotSystem F) :=
  match s.requests[k]? with
  | none => .error .disabled
  | some r => if disabled r then .error .disabled else f r

/-- One call.  A call is disabled when it would set the clock back or the
request is not in a state for it. -/
def callStep (s : SlotSystem F) (c : Call) : Except Fault (SlotSystem F) :=
  if c.time.sec < s.now then .error .disabled
  else
    let s := { s with now := c.time.sec }
    match c with
    | .arrive tp =>
        .ok
          { s with
            requests := s.requests ++
              [ngxHttpUpstreamInitRequest 0 s.upstream tp] }
    | .get k tp =>
        callOn s k (·.sockaddr) fun r => do
          let (_, u, r') ← ngxHttpUpstreamGetRoundRobinPeer s.upstream r tp
          pure
            { s with
              upstream := u
              requests := s.requests.set k r'
              gets := r'.heldPeer.toList ++ s.gets }
    | .free k state tp =>
        callOn s k (!·.sockaddr) fun r => do
          let (u, r') ← releaseHeld s.upstream r state tp
          pure
            { s with
              upstream := u
              requests := s.requests.set k r'
              frees := r.heldPeer.toList ++ s.frees }
    | .log k tp =>
        callOn s k (·.logged) fun r => do
          let (u, _) ← ngxHttpLogRequestTime tp s.upstream r
          pure
            { s with
              upstream := u
              requests := s.requests.set k { r with logged := true } }

/-- The initial states: a configured upstream without requests. -/
def SlotSystem.Initial (u : Upstream F) (s : SlotSystem F) : Prop :=
  s = { upstream := u, requests := [], now := 0, gets := [], frees := [] }

/-- The states that calls lead to from a state with the given property. -/
abbrev CallsFrom (init : SlotSystem F → Prop) : SlotSystem F → Prop :=
  Reach init (fun _ _ => True) fun s c s' => callStep s c = .ok s'

def callRun (s : SlotSystem F) : List Call → Except Fault (SlotSystem F)
  | [] => .ok s
  | c :: cs => do
      let s ← callStep s c
      callRun s cs

theorem callRun_from {init : SlotSystem F → Prop} {cs : List Call}
    {s s' : SlotSystem F} (hs : CallsFrom init s)
    (h : callRun s cs = .ok s') : CallsFrom init s' := by
  induction cs generalizing s with
  | nil =>
      obtain rfl := Except.ok.inj h
      exact hs
  | cons c cs ih =>
      obtain ⟨s₁, hstep, hrest⟩ := Except.bind_eq_ok.mp h
      exact ih (.step hs trivial hstep) hrest

/-- The number of peers of both lists. -/
def Upstream.peerCount (u : Upstream F) : ℕ :=
  u.primary.peer.length + (u.backup.map (·.peer.length)).getD 0

/-- The peer at a position of a list. -/
def Upstream.peerAt (u : Upstream F) (x : Tier × ℕ) : Option Peer :=
  (u.tier x.1).bind (·.peer[x.2]?)

/-- No list is marked as having a single peer. -/
def Upstream.NotSingle (u : Upstream F) : Prop :=
  ∀ t ps, u.tier t = some ps → ps.single = false

/-- What a call does in a state that enables it. -/
inductive CallCase (s : SlotSystem F) : Call → SlotSystem F → Prop where
  | arrive (tp : NgxTime) :
      CallCase s (.arrive tp)
        { s with
          now := tp.sec
          requests := s.requests ++
            [ngxHttpUpstreamInitRequest 0 s.upstream tp] }
  | get {k : ℕ} {r r' : Request F} {tp : NgxTime} {u : Upstream F}
      {res : GetResult} (hk : s.requests[k]? = some r)
      (hr : r.sockaddr = false)
      (h : ngxHttpUpstreamGetRoundRobinPeer s.upstream r tp =
        .ok (res, u, r')) :
      CallCase s (.get k tp)
        { s with
          now := tp.sec
          upstream := u
          requests := s.requests.set k r'
          gets := r'.heldPeer.toList ++ s.gets }
  | free {k state : ℕ} {r r' : Request F} {tp : NgxTime} {u : Upstream F}
      (hk : s.requests[k]? = some r) (hr : r.sockaddr = true)
      (h : releaseHeld s.upstream r state tp = .ok (u, r')) :
      CallCase s (.free k state tp)
        { s with
          now := tp.sec
          upstream := u
          requests := s.requests.set k r'
          frees := r.heldPeer.toList ++ s.frees }
  | log {k : ℕ} {r : Request F} {tp : NgxTime} {u : Upstream F} {t : Text}
      (hk : s.requests[k]? = some r)
      (h : ngxHttpLogRequestTime tp s.upstream r = .ok (u, t)) :
      CallCase s (.log k tp)
        { s with
          now := tp.sec
          upstream := u
          requests := s.requests.set k { r with logged := true } }

omit [CFloat F] in
theorem callOn_ok {s s' : SlotSystem F} {k : ℕ} {disabled : Request F → Bool}
    {f : Request F → Except Fault (SlotSystem F)}
    (h : callOn s k disabled f = .ok s') :
    ∃ r, s.requests[k]? = some r ∧ disabled r = false ∧ f r = .ok s' := by
  unfold callOn at h
  split at h
  · cases h
  · next r hk =>
      split at h
      · cases h
      · next hguard => exact ⟨r, hk, by simpa using hguard, h⟩

theorem callStep_cases {s s' : SlotSystem F} {c : Call}
    (h : callStep s c = .ok s') :
    s.now ≤ c.time.sec ∧ s'.now = c.time.sec ∧ CallCase s c s' := by
  unfold callStep at h
  split at h
  · cases h
  · next hnow =>
      refine ⟨not_lt.mp hnow, ?_⟩
      cases c with
      | arrive tp =>
          obtain rfl := Except.ok.inj h
          exact ⟨rfl, .arrive tp⟩
      | get k tp =>
          obtain ⟨r, hk, hr, h⟩ := callOn_ok h
          obtain ⟨⟨res, u, r'⟩, hget, h⟩ := Except.bind_eq_ok.mp h
          obtain rfl := Except.ok.inj h
          exact ⟨rfl, .get hk hr hget⟩
      | free k state tp =>
          obtain ⟨r, hk, hr, h⟩ := callOn_ok h
          obtain ⟨⟨u, r'⟩, hfree, h⟩ := Except.bind_eq_ok.mp h
          obtain rfl := Except.ok.inj h
          exact ⟨rfl, .free hk (by simpa using hr) hfree⟩
      | log k tp =>
          obtain ⟨r, hk, -, h⟩ := callOn_ok h
          obtain ⟨⟨u, t⟩, hlog, h⟩ := Except.bind_eq_ok.mp h
          obtain rfl := Except.ok.inj h
          exact ⟨rfl, .log hk hlog⟩

/-! ## What a call does to the peers -/

section Peers

omit [CFloat F]

@[simp] theorem peerAt_withVersions (u : Upstream F) (vs : Versions F) :
    ({ u with versions := vs } : Upstream F).peerAt = u.peerAt := by
  funext x
  simp [Upstream.peerAt]

theorem peerAt_setTier_modify {u : Upstream F} {t : Tier} {ps ps' : Peers F}
    {i : ℕ} {f : Peer → Peer} (hps : u.tier t = some ps)
    (h : ps'.peer = ps.peer.modify i f) (x : Tier × ℕ) :
    (u.setTier t ps').peerAt x =
      if x = (t, i) then (u.peerAt x).map f else u.peerAt x := by
  obtain ⟨t', j⟩ := x
  unfold Upstream.peerAt
  by_cases ht : t' = t
  · subst ht
    rw [tier_setTier_self, hps]
    simp only [Option.bind_some, h, List.getElem?_modify, Prod.mk.injEq,
      true_and, eq_comm (a := j)]
    split
    · rfl
    · simp
  · have hne : ¬(t', j) = (t, i) := fun heq => ht (congrArg Prod.fst heq)
    rw [if_neg hne, tier_setTier_of_ne ps' ht]

theorem peerAt_setTier_of_peer_eq {u : Upstream F} {t : Tier}
    {ps ps' : Peers F} (hps : u.tier t = some ps) (h : ps'.peer = ps.peer) :
    (u.setTier t ps').peerAt = u.peerAt := by
  funext ⟨t', j⟩
  unfold Upstream.peerAt
  by_cases ht : t' = t
  · subst ht
    rw [tier_setTier_self, hps, Option.bind_some, Option.bind_some, h]
  · rw [tier_setTier_of_ne ps' ht]

theorem NotSingle.setTier {u : Upstream F} {t : Tier} {ps ps' : Peers F}
    (hu : u.NotSingle) (hps : u.tier t = some ps)
    (h : ps'.single = ps.single) : (u.setTier t ps').NotSingle := by
  intro t' qs hqs
  by_cases ht : t' = t
  · subst ht
    rw [tier_setTier_self] at hqs
    obtain rfl := Option.some.inj hqs
    rw [h]
    exact hu t' ps hps
  · rw [tier_setTier_of_ne ps' ht] at hqs
    exact hu t' qs hqs

theorem NotSingle.withVersions {u : Upstream F} (hu : u.NotSingle)
    (vs : Versions F) : ({ u with versions := vs } : Upstream F).NotSingle := by
  intro t ps hps
  rw [tier_withVersions] at hps
  exact hu t ps hps

end Peers

/-- What selection and the taking of a slot do to a peer. -/
def takenPeer (now : ℤ) (p : Peer) : Peer :=
  { p with checked := now, conns := p.conns + 1 }

theorem takePeer_peer (now : ℤ) (i : ℕ) (ps : Peers F) :
    (takePeer now i ps).peer = ps.peer.modify i (takenPeer now) := by
  have hmodify := List.modify_modify_eq (fun p : Peer => { p with checked := now })
    (fun p => { p with conns := p.conns + 1 }) i ps.peer
  exact hmodify

theorem logRequestTime_peers {tp : NgxTime} {u u' : Upstream F}
    {r : Request F} {t : Text}
    (h : ngxHttpLogRequestTime tp u r = .ok (u', t)) :
    u'.peerAt = u.peerAt ∧ (u.NotSingle → u'.NotSingle) := by
  unfold ngxHttpLogRequestTime at h
  split at h
  · obtain ⟨rfl, -⟩ := Prod.mk.inj (Except.ok.inj h)
    exact ⟨rfl, id⟩
  · split at h
    · cases h
    · next ps hps =>
        obtain ⟨⟨v, m⟩, -, h⟩ := Except.bind_eq_ok.mp h
        obtain ⟨⟨report, ps'⟩, hreport, h⟩ := Except.bind_eq_ok.mp h
        obtain ⟨rfl, -⟩ := Prod.mk.inj (Except.ok.inj h)
        obtain ⟨hpeer, -, hsingle⟩ := monitorReport_ok hreport
        obtain ⟨hpeer₁, -, hsingle₁⟩ := monitorDue_same tp ps
        refine ⟨?_, fun hu => ?_⟩
        · rw [peerAt_withVersions]
          exact peerAt_setTier_of_peer_eq hps (hpeer.trans hpeer₁)
        · apply NotSingle.withVersions
          exact NotSingle.setTier hu hps (hsingle.trans hsingle₁)

/-- A dispatch takes a slot of a peer that is not down, has a free slot and is
not inside a failure window. -/
theorem get_peers {u u' : Upstream F} {r r' : Request F} {tp : NgxTime}
    {res : GetResult} (hr : r.sockaddr = false)
    (h : ngxHttpUpstreamGetRoundRobinPeer u r tp = .ok (res, u', r')) :
    ∃ x p, u.peerAt x = some p ∧ r.heldPeer = none ∧ r'.heldPeer = some x ∧
      p.down = false ∧ (0 < p.maxConns → p.conns < p.maxConns) ∧
      (0 < p.maxFails → p.maxFails ≤ p.fails →
        p.failTimeout < tp.sec - p.checked) ∧
      (∀ y, u'.peerAt y =
        if y = x then some (takenPeer tp.sec p) else u.peerAt y) ∧
      (u.NotSingle → u'.NotSingle) := by
  obtain ⟨-, ps, i, p, a, ws, load, v, hps, hget, hel, -, -, rfl, hbuf⟩ :=
    getRoundRobinPeer_ok h
  obtain ⟨-, -, -, -, hr'⟩ := bufferRequestData_ok hbuf
  have hat : u.peerAt (r.data.peers, i) = some p := by
    simp [Upstream.peerAt, hps, hget]
  simp only [eligible, Bool.and_eq_true, Bool.not_eq_true',
    Bool.and_eq_false_iff, bne_eq_false_iff_eq, decide_eq_false_iff_not,
    not_le] at hel
  obtain ⟨⟨⟨-, hdown⟩, hwindow⟩, hconns⟩ := hel
  refine ⟨(r.data.peers, i), p, hat, by simp [Request.heldPeer, hr], ?_, hdown,
    ?_, ?_, ?_, ?_⟩
  · rw [hr']
    rfl
  · intro hmax
    exact hconns.resolve_left (by omega)
  · intro hmax hfails
    rcases hwindow with (hzero | hless) | hlate
    · omega
    · omega
    · exact hlate
  · intro y
    rw [peerAt_withVersions, peerAt_setTier_modify hps (takePeer_peer _ _ _)]
    split
    · next hy =>
        rw [hy, hat]
        rfl
    · rfl
  · intro hu
    apply NotSingle.withVersions
    exact NotSingle.setTier hu hps rfl

omit [CFloat F] in
/-- A release gives back a slot of the peer the request holds. -/
theorem free_peers {u u' : Upstream F} {r r' : Request F} {state : ℕ}
    {tp : NgxTime} (hu : u.NotSingle) (hr : r.sockaddr = true)
    (h : releaseHeld u r state tp = .ok (u', r')) :
    ∃ x, r.heldPeer = some x ∧ r'.heldPeer = none ∧
      (∀ y, u'.peerAt y =
        if y = x then
          (u.peerAt y).map
            (releasePeer false (state &&& ngxPeerFailed != 0) tp.sec)
        else u.peerAt y) ∧
      u'.NotSingle := by
  rw [releaseHeld, if_pos hr] at h
  obtain ⟨⟨u₁, r₁⟩, hfree, h⟩ := Except.bind_eq_ok.mp h
  obtain ⟨rfl, rfl⟩ := Prod.mk.inj (Except.ok.inj h)
  unfold ngxHttpUpstreamFreeRoundRobinPeer at hfree
  split at hfree
  · next ps i hps hcur =>
      obtain ⟨rfl, rfl⟩ := Prod.mk.inj (Except.ok.inj hfree)
      have hsingle := hu _ ps hps
      refine ⟨(r.data.peers, i), by simp [Request.heldPeer, hr, hcur],
        by simp [Request.heldPeer], ?_, NotSingle.setTier hu hps rfl⟩
      intro y
      rw [peerAt_setTier_modify hps rfl, hsingle]
  · cases hfree

/-! ## The invariant -/

/-- How many requests hold a peer. -/
def SlotSystem.holders (s : SlotSystem F) (x : Tier × ℕ) : ℕ :=
  s.requests.countP fun r => r.heldPeer = some x

/-- Every slot in use belongs to one request that holds it. -/
structure SlotInv (s : SlotSystem F) : Prop where
  notSingle : s.upstream.NotSingle
  conns : ∀ x p, s.upstream.peerAt x = some p → p.conns = s.holders x
  exists_peer : ∀ r ∈ s.requests, ∀ x, r.heldPeer = some x →
    (s.upstream.peerAt x).isSome = true
  balance : ∀ x, s.gets.count x = s.frees.count x + s.holders x
  limit : ∀ x p, s.upstream.peerAt x = some p → 0 < p.maxConns →
    p.conns ≤ p.maxConns

omit [CFloat F] in
theorem holders_set {s s' : SlotSystem F} {k : ℕ} {r r' : Request F}
    (hk : s.requests[k]? = some r) (hs' : s'.requests = s.requests.set k r')
    (x : Tier × ℕ) :
    s'.holders x + (if r.heldPeer = some x then 1 else 0) =
      s.holders x + (if r'.heldPeer = some x then 1 else 0) := by
  obtain ⟨hlt, hget⟩ := List.getElem?_eq_some_iff.mp hk
  have hpos : r.heldPeer = some x →
      0 < s.requests.countP fun q => q.heldPeer = some x := by
    intro hx
    exact List.countP_pos_iff.mpr ⟨r, List.mem_of_getElem? hk, by simpa using hx⟩
  rw [SlotSystem.holders, hs', List.countP_set hlt, hget, SlotSystem.holders]
  by_cases hx : r.heldPeer = some x
  · have hone := hpos hx
    simp only [hx, decide_true, if_true]
    by_cases hx' : r'.heldPeer = some x
    · simp only [hx', decide_true, if_true]
      omega
    · simp only [hx', decide_false, if_false]
      simp
      omega
  · simp [hx]

omit [CFloat F] in
theorem holders_take {s s' : SlotSystem F} {k : ℕ} {r r' : Request F}
    {x : Tier × ℕ} (hk : s.requests[k]? = some r)
    (hs' : s'.requests = s.requests.set k r') (hr : r.heldPeer = none)
    (hr' : r'.heldPeer = some x) (y : Tier × ℕ) :
    s'.holders y = s.holders y + if y = x then 1 else 0 := by
  have hset := holders_set hk hs' y
  simpa [hr, hr', eq_comm] using hset

omit [CFloat F] in
theorem holders_give {s s' : SlotSystem F} {k : ℕ} {r r' : Request F}
    {x : Tier × ℕ} (hk : s.requests[k]? = some r)
    (hs' : s'.requests = s.requests.set k r') (hr : r.heldPeer = some x)
    (hr' : r'.heldPeer = none) (y : Tier × ℕ) :
    s.holders y = s'.holders y + if y = x then 1 else 0 := by
  have hset := holders_set hk hs' y
  simpa [hr, hr', eq_comm] using hset.symm

omit [CFloat F] in
theorem holders_same {s s' : SlotSystem F} {k : ℕ} {r r' : Request F}
    (hk : s.requests[k]? = some r) (hs' : s'.requests = s.requests.set k r')
    (hr : r'.heldPeer = r.heldPeer) : s'.holders = s.holders := by
  funext x
  have hset := holders_set hk hs' x
  rw [hr] at hset
  exact Nat.add_right_cancel hset

/-- What a call does to the slots of a state that keeps the invariant. -/
inductive SlotCase (s : SlotSystem F) : Call → SlotSystem F → Prop where
  | quiet {c : Call} {s' : SlotSystem F}
      (hpeers : s'.upstream.peerAt = s.upstream.peerAt)
      (hholders : s'.holders = s.holders) (hgets : s'.gets = s.gets)
      (hfrees : s'.frees = s.frees) (hc : ∀ k tp, c ≠ .get k tp)
      (hc' : ∀ k state tp, c ≠ .free k state tp) : SlotCase s c s'
  | take {k : ℕ} {tp : NgxTime} {s' : SlotSystem F} {x : Tier × ℕ} {p : Peer}
      (hp : s.upstream.peerAt x = some p) (hdown : p.down = false)
      (hlimit : 0 < p.maxConns → p.conns < p.maxConns)
      (hwindow : 0 < p.maxFails → p.maxFails ≤ p.fails →
        p.failTimeout < tp.sec - p.checked)
      (hpeers : ∀ y, s'.upstream.peerAt y =
        if y = x then some (takenPeer tp.sec p) else s.upstream.peerAt y)
      (hholders : ∀ y, s'.holders y =
        s.holders y + if y = x then 1 else 0)
      (hgets : s'.gets = x :: s.gets) (hfrees : s'.frees = s.frees) :
      SlotCase s (.get k tp) s'
  | give {k state : ℕ} {tp : NgxTime} {s' : SlotSystem F} {x : Tier × ℕ}
      {p : Peer} (hp : s.upstream.peerAt x = some p)
      (hpeers : ∀ y, s'.upstream.peerAt y =
        if y = x then
          some (releasePeer false (state &&& ngxPeerFailed != 0) tp.sec p)
        else s.upstream.peerAt y)
      (hholders : ∀ y, s.holders y =
        s'.holders y + if y = x then 1 else 0)
      (hgets : s'.gets = s.gets) (hfrees : s'.frees = x :: s.frees) :
      SlotCase s (.free k state tp) s'

theorem callStep_slotCase {s s' : SlotSystem F} {c : Call}
    (hs : SlotInv s) (h : callStep s c = .ok s') : SlotCase s c s' := by
  obtain ⟨-, -, hcase⟩ := callStep_cases h
  cases hcase with
  | arrive tp =>
      refine .quiet rfl ?_ rfl rfl (by simp) (by simp)
      funext x
      simp [SlotSystem.holders, List.countP_append, Request.heldPeer,
        ngxHttpUpstreamInitRequest]
  | get hk hr hget =>
      obtain ⟨x, p, hp, hheld, hheld', hdown, hlimit, hwindow, hpeers, -⟩ :=
        get_peers hr hget
      exact .take hp hdown hlimit hwindow hpeers
        (holders_take hk rfl hheld hheld') (by rw [hheld']; rfl) rfl
  | free hk hr hfree =>
      obtain ⟨x, hheld, hheld', hpeers, -⟩ := free_peers hs.notSingle hr hfree
      have hsome := hs.exists_peer _ (List.mem_of_getElem? hk) x hheld
      obtain ⟨p, hp⟩ := Option.isSome_iff_exists.mp hsome
      refine .give hp ?_ (holders_give hk rfl hheld hheld') rfl
        (by rw [hheld]; rfl)
      intro y
      rw [hpeers y]
      split
      · next hy =>
          rw [hy, hp]
          rfl
      · rfl
  | log hk hlog =>
      exact .quiet (logRequestTime_peers hlog).1 (holders_same hk rfl rfl) rfl
        rfl (by simp) (by simp)

/-- The peers that requests hold stay, and no list becomes single. -/
theorem SlotInv.step_rest {s s' : SlotSystem F} {c : Call} (hs : SlotInv s)
    (h : callStep s c = .ok s') :
    s'.upstream.NotSingle ∧
      ∀ r ∈ s'.requests, ∀ x, r.heldPeer = some x →
        (s'.upstream.peerAt x).isSome = true := by
  obtain ⟨-, -, hcase⟩ := callStep_cases h
  cases hcase with
  | arrive tp =>
      refine ⟨hs.notSingle, fun r hr x hx => ?_⟩
      rcases List.mem_append.mp hr with hr | hr
      · exact hs.exists_peer r hr x hx
      · rw [List.mem_singleton.mp hr] at hx
        simp [Request.heldPeer, ngxHttpUpstreamInitRequest] at hx
  | get hk hr hget =>
      obtain ⟨x, p, hp, -, hheld', -, -, -, hpeers, hsingle⟩ :=
        get_peers hr hget
      refine ⟨hsingle hs.notSingle, forall_mem_set ?_ ?_⟩
      · intro r hr y hy
        have hold := hs.exists_peer r hr y hy
        rw [hpeers y]
        split
        · rfl
        · exact hold
      · intro y hy
        obtain rfl := Option.some.inj (hheld'.symm.trans hy)
        simp [hpeers]
  | free hk hr hfree =>
      obtain ⟨x, hheld, hheld', hpeers, hsingle⟩ :=
        free_peers hs.notSingle hr hfree
      refine ⟨hsingle, forall_mem_set ?_ ?_⟩
      · intro r hr y hy
        have hold := hs.exists_peer r hr y hy
        rw [hpeers y]
        split
        · rw [Option.isSome_map]
          exact hold
        · exact hold
      · intro y hy
        rw [hheld'] at hy
        cases hy
  | log hk hlog =>
      obtain ⟨hpeers, hsingle⟩ := logRequestTime_peers hlog
      refine ⟨hsingle hs.notSingle, ?_⟩
      dsimp only
      rw [hpeers]
      have hold := hs.exists_peer _ (List.mem_of_getElem? hk)
      exact forall_mem_set hs.exists_peer hold

theorem releasePeer_conns (failed : Bool) (now : ℤ) (p : Peer) :
    (releasePeer false failed now p).conns = decrUInt p.conns ∧
      (releasePeer false failed now p).maxConns = p.maxConns := by
  cases failed with
  | false => exact ⟨rfl, rfl⟩
  | true => exact ⟨rfl, rfl⟩

theorem SlotInv.step {s s' : SlotSystem F} {c : Call} (hs : SlotInv s)
    (h : callStep s c = .ok s') : SlotInv s' := by
  obtain ⟨hsingle, hexists⟩ := hs.step_rest h
  cases callStep_slotCase hs h with
  | quiet hpeers hholders hgets hfrees _ _ =>
      exact
        { notSingle := hsingle
          conns := by rw [hpeers, hholders]; exact hs.conns
          exists_peer := hexists
          balance := by rw [hgets, hfrees, hholders]; exact hs.balance
          limit := by rw [hpeers]; exact hs.limit }
  | @take k tp _ x p hp hdown hlimit hwindow hpeers hholders hgets hfrees =>
      refine ⟨hsingle, ?_, hexists, ?_, ?_⟩
      · intro y q hq
        rw [hpeers y] at hq
        rw [hholders y]
        split at hq
        · next hy =>
            obtain rfl := Option.some.inj hq
            rw [if_pos hy, hy, ← hs.conns x p hp]
            rfl
        · next hy =>
            rw [if_neg hy]
            exact hs.conns y q hq
      · intro y
        rw [hgets, hfrees, hholders y, List.count_cons, hs.balance y]
        simp only [beq_iff_eq, eq_comm (a := x)]
        omega
      · intro y q hq hmax
        rw [hpeers y] at hq
        split at hq
        · obtain rfl := Option.some.inj hq
          exact hlimit hmax
        · exact hs.limit y q hq hmax
  | @give k state tp _ x p hp hpeers hholders hgets hfrees =>
      obtain ⟨hconns, hmaxConns⟩ :=
        releasePeer_conns (state &&& ngxPeerFailed != 0) tp.sec p
      have hone : p.conns = s'.holders x + 1 := by
        rw [hs.conns x p hp, hholders x, if_pos rfl]
      have hdecr : decrUInt p.conns = s'.holders x := by
        simp [decrUInt, hone]
      refine ⟨hsingle, ?_, hexists, ?_, ?_⟩
      · intro y q hq
        rw [hpeers y] at hq
        split at hq
        · next hy =>
            obtain rfl := Option.some.inj hq
            rw [hconns, hdecr, hy]
        · next hy =>
            rw [hs.conns y q hq, hholders y, if_neg hy, Nat.add_zero]
      · intro y
        have hbalance := hs.balance y
        rw [hholders y] at hbalance
        rw [hgets, hfrees, List.count_cons, hbalance]
        simp only [beq_iff_eq, eq_comm (a := x)]
        omega
      · intro y q hq hmax
        rw [hpeers y] at hq
        split at hq
        · obtain rfl := Option.some.inj hq
          rw [hmaxConns] at hmax ⊢
          have hle := hs.limit x p hp hmax
          rw [hconns, hdecr]
          omega
        · exact hs.limit y q hq hmax

/-! ## Failure windows -/

/-- A peer whose failures are used up, with the last one not before `T` and no
selection since. -/
structure Disabled (T : ℤ) (p : Peer) : Prop where
  limited : 0 < p.maxFails
  used : p.maxFails ≤ p.fails
  unchecked : p.accessed = p.checked
  since : T ≤ p.checked

/-- No request that ends makes a disabled peer available again. -/
theorem Disabled.release {T now : ℤ} {p : Peer} (hp : Disabled T p)
    (hT : T ≤ now) (failed : Bool) : Disabled T (releasePeer false failed now p) := by
  cases failed with
  | true =>
      exact
        { limited := hp.limited
          used := Nat.le_succ_of_le hp.used
          unchecked := rfl
          since := hT }
  | false =>
      have hkept : ¬p.accessed < p.checked := by
        rw [hp.unchecked]
        exact lt_irrefl _
      refine ⟨hp.limited, ?_, hp.unchecked, hp.since⟩
      simpa [releasePeer, hkept] using hp.used

theorem releasePeer_failTimeout (failed : Bool) (now : ℤ) (p : Peer) :
    (releasePeer false failed now p).failTimeout = p.failTimeout := by
  cases failed with
  | false => rfl
  | true => rfl

/-- The window of the failure recorded at `T` is over, or the peer has not been
selected since. -/
structure WindowInv (x : Tier × ℕ) (T timeout : ℤ) (s : SlotSystem F) :
    Prop where
  slots : SlotInv s
  recorded : T ≤ s.now
  closed : timeout < s.now - T ∨
    ∃ p, s.upstream.peerAt x = some p ∧ p.failTimeout = timeout ∧ Disabled T p

theorem WindowInv.step {x : Tier × ℕ} {T timeout : ℤ} {s s' : SlotSystem F}
    {c : Call} (hs : WindowInv x T timeout s) (h : callStep s c = .ok s') :
    WindowInv x T timeout s' := by
  obtain ⟨hclock, hnow, -⟩ := callStep_cases h
  have hmono : (s.now : ℤ) ≤ s'.now := by
    rw [hnow]
    exact_mod_cast hclock
  refine ⟨hs.slots.step h, hs.recorded.trans hmono, ?_⟩
  rcases hs.closed with hover | ⟨p, hp, htimeout, hdis⟩
  · exact .inl (by omega)
  · cases callStep_slotCase hs.slots h with
    | quiet hpeers _ _ _ _ _ =>
        refine .inr ⟨p, ?_, htimeout, hdis⟩
        rw [hpeers]
        exact hp
    | @take k tp _ y q hq _ _ hwindow hpeers _ _ _ =>
        by_cases hxy : x = y
        · -- the peer is selected: its window is over
          subst hxy
          obtain rfl := Option.some.inj (hp.symm.trans hq)
          have hlate := hwindow hdis.limited hdis.used
          have hsince := hdis.since
          left
          rw [hnow, Call.time]
          omega
        · refine .inr ⟨p, ?_, htimeout, hdis⟩
          rw [hpeers x, if_neg hxy]
          exact hp
    | @give k state tp _ y q hq hpeers _ _ _ =>
        by_cases hxy : x = y
        · subst hxy
          obtain rfl := Option.some.inj (hp.symm.trans hq)
          have hT : T ≤ tp.sec := by
            have hrec := hs.recorded.trans hmono
            rw [hnow] at hrec
            exact hrec
          have hx := hpeers x
          rw [if_pos rfl] at hx
          refine .inr ⟨_, hx, ?_, hdis.release hT _⟩
          rw [releasePeer_failTimeout]
          exact htimeout
        · refine .inr ⟨p, ?_, htimeout, hdis⟩
          rw [hpeers x, if_neg hxy]
          exact hp

theorem WindowInv.calls {x : Tier × ℕ} {T timeout : ℤ} {s s' : SlotSystem F}
    (hs : WindowInv x T timeout s) (h : CallsFrom (· = s) s') :
    WindowInv x T timeout s' := by
  refine Reach.invariant ?_ ?_ h
  · rintro _ rfl
    exact hs
  · intro s₁ c s₂ _ hs₁ _ hstep
    exact hs₁.step hstep

/-- The failure that uses the failures of a peer up opens its window. -/
theorem SlotInv.openWindow {s s' : SlotSystem F} {k state : ℕ} {tp : NgxTime}
    {x : Tier × ℕ} {p : Peer} (hs : SlotInv s)
    (h : callStep s (.free k state tp) = .ok s')
    (hstate : state &&& ngxPeerFailed ≠ 0) (hfrees : s'.frees = x :: s.frees)
    (hp : s'.upstream.peerAt x = some p) (hmax : 0 < p.maxFails)
    (hused : p.maxFails ≤ p.fails) : WindowInv x tp.sec p.failTimeout s' := by
  obtain ⟨-, hnow, -⟩ := callStep_cases h
  suffices hchecked : p.accessed = p.checked ∧ tp.sec ≤ p.checked from
    { slots := hs.step h
      recorded := by rw [hnow]; rfl
      closed := .inr ⟨p, hp, rfl, hmax, hused, hchecked.1, hchecked.2⟩ }
  cases callStep_slotCase hs h with
  | quiet _ _ _ _ _ hc' => exact absurd rfl (hc' k state tp)
  | @give _ _ _ _ y q hq hpeers _ _ hfrees' =>
      obtain ⟨rfl, -⟩ := List.cons.inj (hfrees.symm.trans hfrees')
      rw [hpeers x, if_pos rfl] at hp
      obtain rfl := Option.some.inj hp
      have hfailed : (state &&& ngxPeerFailed != 0) = true := by
        simpa using hstate
      rw [hfailed]
      exact ⟨rfl, le_refl _⟩

/-- A peer inside its failure window is not selected. -/
theorem WindowInv.not_selected {x : Tier × ℕ} {T timeout : ℤ}
    {s s' : SlotSystem F} {k : ℕ} {tp : NgxTime}
    (hs : WindowInv x T timeout s) (h : callStep s (.get k tp) = .ok s')
    (htime : tp.sec - T ≤ timeout) : s'.gets ≠ x :: s.gets := by
  intro hgets
  obtain ⟨hclock, -, -⟩ := callStep_cases h
  have hclock' : s.now ≤ tp.sec := hclock
  rcases hs.closed with hover | ⟨p, hp, htimeout, hdis⟩
  · omega
  · cases callStep_slotCase hs.slots h with
    | quiet _ _ _ _ hc _ => exact absurd rfl (hc k tp)
    | take hq _ _ hwindow _ _ hgets' _ =>
        obtain ⟨rfl, -⟩ := List.cons.inj (hgets.symm.trans hgets')
        obtain rfl := Option.some.inj (hp.symm.trans hq)
        have hlate := hwindow hdis.limited hdis.used
        have hsince := hdis.since
        omega

/-! ## Initial states -/

/-- A configured upstream has no slot in use, and a list is single only when
there is one peer altogether. -/
theorem initRoundRobin_slots {us : UpstreamSrvConf} {u : Upstream F}
    (h : ngxHttpUpstreamInitRoundRobin us = some u) :
    (∀ x p, u.peerAt x = some p → p.conns = 0) ∧
      (1 < u.peerCount → u.NotSingle) := by
  have hconns : ∀ (ps : Peers F) (i : ℕ) (p : Peer),
      (∀ q ∈ ps.peer, q.conns = 0) → ps.peer[i]? = some p → p.conns = 0 :=
    fun ps i p hall hp => hall p (List.mem_of_getElem? hp)
  have hprimary : ∀ servers : List UpstreamServer,
      ∀ q ∈ (primaryPeers us.host servers : Peers F).peer, q.conns = 0 := by
    intro servers q hq
    obtain ⟨i, hi, rfl⟩ := List.mem_mapIdx.mp hq
    rfl
  unfold ngxHttpUpstreamInitRoundRobin at h
  split at h
  · next servers hservers =>
      split at h
      · cases h
      · dsimp only at h
        split at h
        · obtain rfl := Option.some.inj h
          refine ⟨?_, ?_⟩
          · rintro ⟨t, i⟩ p hp
            cases t with
            | primary => exact hconns _ i p (hprimary servers) hp
            | backup => cases hp
          · intro hcount t ps hps
            cases t with
            | primary =>
                obtain rfl := Option.some.inj hps
                have hlen : 1 < (serverAddrs servers false).length := by
                  simpa [Upstream.peerCount, primaryPeers, zeroPeers] using hcount
                simp [primaryPeers]
                omega
            | backup => cases hps
        · obtain rfl := Option.some.inj h
          refine ⟨?_, ?_⟩
          · rintro ⟨t, i⟩ p hp
            cases t with
            | primary => exact hconns _ i p (hprimary servers) hp
            | backup =>
                refine hconns (backupPeers us.host servers) i p ?_ hp
                intro q hq
                obtain ⟨sa, -, rfl⟩ := List.mem_map.mp hq
                rfl
          · intro _ t ps hps
            cases t with
            | primary =>
                obtain rfl := Option.some.inj hps
                rfl
            | backup =>
                obtain rfl := Option.some.inj hps
                rfl
  · split at h
    · cases h
    · obtain ⟨addrs, -, rfl⟩ := Option.map_eq_some_iff.mp h
      refine ⟨?_, ?_⟩
      · rintro ⟨t, i⟩ p hp
        cases t with
        | primary =>
            refine hconns (defaultPeers us.host addrs) i p ?_ hp
            intro q hq
            obtain ⟨name, -, rfl⟩ := List.mem_map.mp hq
            rfl
        | backup => cases hp
      · intro hcount t ps hps
        cases t with
        | primary =>
            obtain rfl := Option.some.inj hps
            have hlen : 1 < addrs.length := by
              simpa [Upstream.peerCount, defaultPeers, zeroPeers] using hcount
            simp [defaultPeers]
            omega
        | backup => cases hps

theorem slotInv_initial {us : UpstreamSrvConf} {u : Upstream F}
    (h : ngxHttpUpstreamInitRoundRobin us = some u) (hcount : 1 < u.peerCount)
    {s : SlotSystem F} (hs : s.Initial u) : SlotInv s := by
  obtain ⟨hconns, hsingle⟩ := initRoundRobin_slots h
  rw [hs]
  exact
    { notSingle := hsingle hcount
      conns := hconns
      exists_peer := fun r hr => by cases hr
      balance := fun x => rfl
      limit := fun x p hp _ => by rw [hconns x p hp]; exact Nat.zero_le _ }

/-! ## The discipline -/

/-- Slots and failure windows of one state and of the calls from it on. -/
structure SlotDiscipline (s : SlotSystem F) : Prop where
  /-- `conns` counts the gets of a peer that have not been freed. -/
  conns_eq : ∀ x p, s.upstream.peerAt x = some p →
    p.conns + s.frees.count x = s.gets.count x
  conns_le : ∀ x p, s.upstream.peerAt x = some p → 0 < p.maxConns →
    p.conns ≤ p.maxConns
  /-- A release decrements a positive count. -/
  free_pos : ∀ k state tp s', callStep s (.free k state tp) = .ok s' →
    ∃ x p, s'.frees = x :: s.frees ∧ s.upstream.peerAt x = some p ∧
      0 < p.conns
  get_up : ∀ k tp s', callStep s (.get k tp) = .ok s' →
    ∃ x p, s'.gets = x :: s.gets ∧ s.upstream.peerAt x = some p ∧
      p.down = false
  /-- After a failure that leaves no failures to a peer, no get returns it
  before the timeout has passed. -/
  window : ∀ k state tp s₁ x p, callStep s (.free k state tp) = .ok s₁ →
    state &&& ngxPeerFailed ≠ 0 → s₁.frees = x :: s.frees →
    s₁.upstream.peerAt x = some p → 0 < p.maxFails → p.maxFails ≤ p.fails →
    ∀ s₂, CallsFrom (· = s₁) s₂ → ∀ k' tp' s₃,
      callStep s₂ (.get k' tp') = .ok s₃ →
      (tp'.sec : ℤ) - tp.sec ≤ p.failTimeout → s₃.gets ≠ x :: s₂.gets

theorem SlotInv.discipline {s : SlotSystem F} (hs : SlotInv s) :
    SlotDiscipline s where
  conns_eq := by
    intro x p hp
    rw [hs.conns x p hp, hs.balance x, Nat.add_comm]
  conns_le := hs.limit
  free_pos := by
    intro k state tp s' h
    cases callStep_slotCase hs h with
    | quiet _ _ _ _ _ hc' => exact absurd rfl (hc' k state tp)
    | @give _ _ _ _ x p hp _ hholders _ hfrees =>
        refine ⟨x, p, hfrees, hp, ?_⟩
        rw [hs.conns x p hp, hholders x, if_pos rfl]
        exact Nat.succ_pos _
  get_up := by
    intro k tp s' h
    cases callStep_slotCase hs h with
    | quiet _ _ _ _ hc _ => exact absurd rfl (hc k tp)
    | take hp hdown _ _ _ _ hgets _ => exact ⟨_, _, hgets, hp, hdown⟩
  window := by
    intro k state tp s₁ x p h hstate hfrees hp hmax hused s₂ hcalls k' tp' s₃
      hget htime
    have hwindow := hs.openWindow h hstate hfrees hp hmax hused
    exact (hwindow.calls hcalls).not_selected hget htime

/-- Every run of gets and frees on an upstream with more than one peer accounts
for its connection slots and respects its failure windows. -/
theorem calls_slotDiscipline {us : UpstreamSrvConf} {u : Upstream F}
    (h : ngxHttpUpstreamInitRoundRobin us = some u) (hcount : 1 < u.peerCount)
    {s : SlotSystem F} (hs : CallsFrom (·.Initial u) s) : SlotDiscipline s := by
  have hinv : SlotInv s := by
    refine Reach.invariant ?_ ?_ hs
    · intro s₀ hinit
      exact slotInv_initial h hcount hinit
    · intro s₁ c s₂ _ hs₁ _ hstep
      exact hs₁.step hstep
  exact hinv.discipline

/-- Two requests are sent to the heavy server of `heavyLight`; the failure of
the first one uses the failures of that server up. -/
theorem heavyLight_slotDiscipline :
    ∃ s s₁ : SlotSystem RatFloat,
      CallsFrom (·.Initial heavyLight.upstream) s ∧
      s.gets = [(.primary, 0), (.primary, 0)] ∧
      callStep s (.free 0 ngxPeerFailed (NgxTime.ofSec 2)) = .ok s₁ ∧
      s₁.frees = [(.primary, 0)] ∧
      (∃ p, s₁.upstream.peerAt (.primary, 0) = some p ∧ p.conns = 1 ∧
        0 < p.maxFails ∧ p.maxFails ≤ p.fails) ∧ SlotDiscipline s := by
  obtain ⟨⟨us, hus⟩, -⟩ := heavyLight_initial
  obtain ⟨s, hrun, hs⟩ := Except.exists_ok_of_any (x := callRun
      ({ upstream := heavyLight.upstream, requests := [], now := 0,
         gets := [], frees := [] } : SlotSystem RatFloat)
      [.arrive (NgxTime.ofSec 1), .get 0 (NgxTime.ofSec 1),
        .arrive (NgxTime.ofSec 1), .get 1 (NgxTime.ofSec 1)])
    (p := fun s : SlotSystem RatFloat =>
      decide (s.gets = [(.primary, 0), (.primary, 0)]) &&
      (callStep s (.free 0 ngxPeerFailed (NgxTime.ofSec 2))).toOption.any
        fun s₁ : SlotSystem RatFloat => decide (s₁.frees = [(.primary, 0)]) &&
          (s₁.upstream.peerAt (.primary, 0)).any fun p : Peer =>
            decide (p.conns = 1 ∧ 0 < p.maxFails ∧ p.maxFails ≤ p.fails))
    (by decide +kernel)
  obtain ⟨hgets, hs⟩ := Bool.and_eq_true_iff.mp hs
  obtain ⟨s₁, hstep, hs₁⟩ := Except.exists_ok_of_any hs
  obtain ⟨hfrees, hs₁⟩ := Bool.and_eq_true_iff.mp hs₁
  obtain ⟨p, hp, hfails⟩ := (Option.any_eq_true _ _).mp hs₁
  have hreach : CallsFrom (·.Initial heavyLight.upstream) s :=
    callRun_from (.init rfl) hrun
  exact ⟨s, s₁, hreach, of_decide_eq_true hgets, hstep,
    of_decide_eq_true hfrees, ⟨p, hp, of_decide_eq_true hfails⟩,
    calls_slotDiscipline hus (by decide) hreach⟩

end MultiversionBalancer
