import MultiversionBalancer.Upstream.System

/-!
# Balancer stacks

The record behind `peer.data` of a request depends on the modules of its
upstream.  The hash balancer has a record of its own that begins with the
round-robin record; the keepalive module replaces `peer.data` by a record of
its own and passes the record it found there on to the balancer it wraps.

`ngx_http_upstream_get_round_robin_peer` selects through the record it is
called with, but `ngx_http_upstream_buffer_request_data` and
`ngx_http_log_request_time` read `peer.data` again and take it for a
round-robin record.
-/

namespace MultiversionBalancer

open Lib

variable {F : Type} [CFloat F]

/-! ## Records -/

/-- What stops an attempt: a fault of the balancer, a division by zero, or a
record of another type read as a round-robin record. -/
inductive StackFault where
  | balancer (f : Fault)
  | zeroDivision
  | wrongRecord
  deriving DecidableEq

/-- A computation of the balancer inside a stack. -/
def liftFault {α : Type} (x : Except Fault α) : Except StackFault α :=
  x.mapError .balancer

/-- The record a pointer leads to: that of the balancer, which is or begins
with a round-robin record, or that of the keepalive module. -/
inductive PeerPtr where
  | balancer
  | keepalive
  deriving DecidableEq

/-- `ngx_http_upstream_hash_peer_data_t` after the round-robin record it begins
with. -/
structure HashPeerData where
  key : Text
  tries : ℕ
  rehash : ℕ
  hash : UInt32
  deriving DecidableEq

/-- A request with the records of its stack.  Its field `data` is the
round-robin record, alone or at the head of the hash record.  `keepalive` is
`kp->data`, when there is a keepalive record, and `peerData` is
`r->upstream->peer.data`, which is also `pc->data`. -/
structure StackedRequest (F : Type) where
  request : Request F
  hash : Option HashPeerData
  keepalive : Option PeerPtr
  peerData : PeerPtr

/-- The modules of an upstream; the hash balancer comes with the key of the
request. -/
structure Stack where
  hashKey : Option Text
  keepalive : Bool

/-- `peer.init`: the balancer makes its record, and the keepalive module then
wraps what it finds. -/
def Stack.initPeer (stack : Stack) (r : Request F) : StackedRequest F where
  request := r
  hash := stack.hashKey.map fun key =>
    { key := key, tries := 0, rehash := 0, hash := 0 }
  keepalive := if stack.keepalive then some .balancer else none
  peerData := if stack.keepalive then .keepalive else .balancer

/-- Read a record as `ngx_http_upstream_rr_peer_data_t`. -/
def StackedRequest.rrp (m : StackedRequest F) :
    PeerPtr → Except StackFault RRPeerData
  | .balancer => .ok m.request.data
  | .keepalive => .error .wrongRecord

/-! ## The round-robin hook -/

/-- `ngx_http_upstream_get_round_robin_peer` up to the increment of `conns`:
select a peer through the record of the balancer and take it.  The flag tells
whether a peer was found. -/
def takeRoundRobin (u : Upstream F) (r : Request F) (tp : NgxTime) :
    Except Fault (Bool × Upstream F × Request F) :=
  match u.tier r.data.peers with
  | none => .error .nullPeers
  | some ps => do
      let sel ← ngxHttpUpstreamGetPeer ps u.versions r.data tp
      match sel.best with
      | none =>
          pure (false,
            { u.setTier r.data.peers sel.peers with versions := sel.versions },
            r)
      | some i =>
          let ps := { sel.peers with
            peer := sel.peers.peer.modify i fun p =>
              { p with conns := p.conns + 1 } }
          pure (true,
            { u.setTier r.data.peers ps with versions := sel.versions },
            r.take i)

/-- `rrp->current->version`, where `rrp` is read through a pointer. -/
def versionVia (u : Upstream F) (m : StackedRequest F) (ptr : PeerPtr) :
    Except StackFault ℕ := do
  let rrp ← m.rrp ptr
  match rrp.current.bind (u.versionAt rrp.peers) with
  | none => .error (.balancer .nullVersion)
  | some a => pure a

/-- `ngx_http_upstream_buffer_request_data`: the version is read through
`pc->data`. -/
def bufferVia (u : Upstream F) (m : StackedRequest F) (tp : NgxTime) :
    Except StackFault (Upstream F × StackedRequest F) := do
  let a ← versionVia u m m.peerData
  let (v, r) ← liftFault
    (ngxHttpUpstreamBufferRequestData tp a (u.versions a) m.request)
  pure ({ u with versions := Function.update u.versions a v },
    { m with request := r })

/-- The outcome of the `get` hook; `done` is a cached connection. -/
inductive GetCode where
  | ok
  | busy
  | done
  deriving DecidableEq

def getRoundRobinVia (u : Upstream F) (m : StackedRequest F) (tp : NgxTime) :
    Except StackFault (GetCode × Upstream F × StackedRequest F) := do
  let (found, u, r) ← liftFault (takeRoundRobin u m.request tp)
  let m := { m with request := r }
  if found then do
    let (u, m) ← bufferVia u m tp
    pure (.ok, u, m)
  else
    match m.request.data.peers, u.backup with
    | .primary, some b => do
        let (found, u, r) ← liftFault
          (takeRoundRobin u (fallBack b m.request) tp)
        let m := { m with request := r }
        if found then do
          let (u, m) ← bufferVia u m tp
          pure (.ok, u, m)
        else pure (.busy, u, m)
    | _, _ => pure (.busy, u, m)

/-! ## The hash hook -/

/-- The weighted walk of the hash balancer. -/
def walkWeights : List Peer → ℤ → ℕ → Except StackFault (ℕ × Peer)
  | [], _, _ => .error (.balancer .nullPeers)
  | p :: ps, w, i =>
      if p.weight ≤ w then walkWeights ps (w - p.weight) (i + 1)
      else .ok (i, p)

/-- The hash of one iteration: the key, after the number of the iteration from
the second one on. -/
def HashPeerData.next (crc32 : Text → UInt32) (h : HashPeerData) :
    HashPeerData :=
  let text := if 0 < h.rehash then ngxSprintfInt h.rehash ++ h.key else h.key
  { h with
    hash := h.hash + (crc32 text >>> 16 &&& 0x7fff)
    rehash := h.rehash + 1 }

/-- The loop of `ngx_http_upstream_get_hash_peer`; the number bounds the
iterations that are left until `tries` exceeds 20. -/
def hashLoop (crc32 : Text → UInt32) (ps : Peers F) (tried : List (BitVec 64))
    (now : ℤ) : ℕ → HashPeerData → Except StackFault (HashPeerData × Option ℕ)
  | 0, h => .ok (h, none)
  | n + 1, h =>
      let h := h.next crc32
      if ps.totalWeight = 0 then .error .zeroDivision
      else do
        let (i, p) ← walkWeights ps.peer (h.hash.toNat % ps.totalWeight : ℕ) 0
        if eligible tried now i p then .ok (h, some i)
        else
          let h := { h with tries := h.tries + 1 }
          if h.tries > 20 then .ok (h, none)
          else hashLoop crc32 ps tried now n h

/-- What the hash balancer does to the peer it picks. -/
def pickPeer (now : ℤ) (p : Peer) : Peer :=
  { p with
    conns := p.conns + 1
    checked := if p.failTimeout < now - p.checked then now else p.checked }

def markTried (i : ℕ) (tried : List (BitVec 64)) : List (BitVec 64) :=
  tried.modify (i / 64) fun w => w ||| BitVec.twoPow 64 (i % 64)

/-- A request after the hash balancer has picked the peer at position `i`. -/
def Request.pick (r : Request F) (i : ℕ) : Request F :=
  let r := r.take i
  { r with data := { r.data with tried := markTried i r.data.tried } }

/-- What the hook of the balancer comes to: it calls
`ngx_http_upstream_get_round_robin_peer`, or it picks a peer itself. -/
inductive Hook (F : Type) where
  | roundRobin (m : StackedRequest F)
  | picked (u : Upstream F) (m : StackedRequest F)

/-- The `get` hook of the balancer up to the call of the round-robin hook:
`ngx_http_upstream_get_hash_peer` when the request has a hash record. -/
def balancerHook (crc32 : Text → UInt32) (u : Upstream F)
    (m : StackedRequest F) (tp : NgxTime) : Except StackFault (Hook F) :=
  match m.hash, u.tier m.request.data.peers with
  | none, _ => .ok (.roundRobin m)
  | some _, none => .error (.balancer .nullPeers)
  | some h, some ps =>
      if h.tries > 20 || ps.single || h.key.isEmpty then .ok (.roundRobin m)
      else do
        let (h, picked) ← hashLoop crc32 ps m.request.data.tried tp.sec
          (21 - h.tries) h
        let m := { m with hash := some h }
        match picked with
        | none => pure (.roundRobin m)
        | some i =>
            let ps := { ps with peer := ps.peer.modify i (pickPeer tp.sec) }
            pure (.picked (u.setTier m.request.data.peers ps)
              { m with request := m.request.pick i })

/-! ## The stack -/

/-- The name of the peer a request has taken. -/
def takenName (u : Upstream F) (r : Request F) : Option Text :=
  (r.data.current.bind fun i =>
    (u.tier r.data.peers).bind (·.peer[i]?)).map (·.name)

def balancerGet (crc32 : Text → UInt32) (u : Upstream F)
    (m : StackedRequest F) (tp : NgxTime) :
    Except StackFault (GetCode × Upstream F × StackedRequest F) := do
  match ← balancerHook crc32 u m tp with
  | .roundRobin m => getRoundRobinVia u m tp
  | .picked u m => pure (.ok, u, m)

/-- `u->peer.get`.  The keepalive hook asks the balancer first and then looks
for an idle connection to the address; `cache` holds the addresses of the idle
connections. -/
def getVia (crc32 : Text → UInt32) (cache : List Text) (u : Upstream F)
    (m : StackedRequest F) (tp : NgxTime) :
    Except StackFault (GetCode × Upstream F × StackedRequest F) := do
  let (code, u, m) ← balancerGet crc32 u m tp
  let idle := (takenName u m.request).any fun name => name ∈ cache
  if m.keepalive.isSome && code == .ok && idle then pure (.done, u, m)
  else pure (code, u, m)

/-- `u->peer.free`: every hook passes the record of the balancer down to
`ngx_http_upstream_free_round_robin_peer`. -/
def freeVia (u : Upstream F) (m : StackedRequest F) (state : ℕ)
    (tp : NgxTime) : Except StackFault (Upstream F × StackedRequest F) := do
  let (u, r) ← liftFault
    (ngxHttpUpstreamFreeRoundRobinPeer u m.request state tp)
  pure (u, { m with request := { r with sockaddr := false } })

/-- The list whose `active_req` `ngx_http_log_request_time` decrements, read
through `r->upstream->peer.data`. -/
def StackedRequest.logPeers (m : StackedRequest F) : Except StackFault Tier :=
  (m.rrp m.peerData).map (·.peers)

/-- A call of a hook for a request, on the upstream as the other requests have
left it. -/
inductive StackCall (F : Type) where
  | get (cache : List Text) (u : Upstream F) (tp : NgxTime)
  | free (u : Upstream F) (state : ℕ) (tp : NgxTime)

/-- The request after a call. -/
def stackStep (crc32 : Text → UInt32) (m : StackedRequest F) :
    StackCall F → Except StackFault (StackedRequest F)
  | .get cache u tp => (getVia crc32 cache u m tp).map (·.2.2)
  | .free u state tp => (freeVia u m state tp).map (·.2)

/-- The states of a request that calls lead to from a state with the given
property. -/
abbrev StackReach (crc32 : Text → UInt32) (init : StackedRequest F → Prop) :
    StackedRequest F → Prop :=
  Reach init (fun _ _ => True) fun m c m' => stackStep crc32 m c = .ok m'

/-! ## What the hooks do -/

theorem liftFault_ok {α : Type} {x : Except Fault α} {a : α}
    (h : liftFault x = .ok a) : x = .ok a := by
  cases x with
  | error e => cases h
  | ok b => exact congrArg Except.ok (Except.ok.inj h)

/-- A selection that returns has found a peer, counts a request on the list it
is from, and leaves its position and its version in the record. -/
theorem takeRoundRobin_ok {u u' : Upstream F} {r r' : Request F}
    {tp : NgxTime} {found : Bool}
    (h : takeRoundRobin u r tp = .ok (found, u', r')) :
    found = true ∧ ∃ i a, r' = r.take i ∧
      u'.versionAt r.data.peers i = some a ∧
      u'.activeAt r.data.peers = u.activeAt r.data.peers + 1 ∧
      ∀ t, t ≠ r.data.peers → u'.activeAt t = u.activeAt t := by
  unfold takeRoundRobin at h
  split at h
  · cases h
  · next ps hps =>
      obtain ⟨sel, hsel, h⟩ := Except.bind_eq_ok.mp h
      obtain ⟨i, p, a, ws, load, hbest, hget, -, hver, -, hpeers, -⟩ :=
        getPeer_ok hsel
      rw [hbest, hpeers] at h
      have hpair : (true,
          { u.setTier r.data.peers (takePeer tp.sec i ps) with
            versions := sel.versions }, r.take i) = (found, u', r') :=
        Except.ok.inj h
      cases hpair
      refine ⟨rfl, i, a, rfl, ?_, ?_, ?_⟩
      · rw [versionAt_withVersions]
        have hat := takePeer_version tp.sec i i ps
        simp [Upstream.versionAt, hat, hget, hver]
      · simp [activeAt_of_tier hps, takePeer, selectPeers]
      · intro t ht
        simp [activeAt_setTier_of_ne _ ht]

theorem bufferVia_ok {u u' : Upstream F} {m m' : StackedRequest F}
    {tp : NgxTime} (h : bufferVia u m tp = .ok (u', m')) :
    ∃ a, versionVia u m m.peerData = .ok a ∧ m'.request.version = some a ∧
      m'.request.data = m.request.data ∧ m'.peerData = m.peerData := by
  obtain ⟨a, ha, h⟩ := Except.bind_eq_ok.mp h
  obtain ⟨⟨v, r⟩, hbuf, h⟩ := Except.bind_eq_ok.mp h
  obtain ⟨-, rfl⟩ := Prod.mk.inj (Except.ok.inj h)
  obtain ⟨-, -, -, -, hr⟩ := bufferRequestData_ok (liftFault_ok hbuf)
  refine ⟨a, ha, ?_, ?_, rfl⟩
  · rw [hr]
  · rw [hr]

/-- A request through all calls: where `peer.data` points and which list its
record is on. -/
structure SamePlace (m m' : StackedRequest F) : Prop where
  peerData : m'.peerData = m.peerData
  peers : m'.request.data.peers = m.request.data.peers

omit [CFloat F] in
theorem SamePlace.trans {m₁ m₂ m₃ : StackedRequest F} (h : SamePlace m₁ m₂)
    (h' : SamePlace m₂ m₃) : SamePlace m₁ m₃ :=
  ⟨h'.peerData.trans h.peerData, h'.peers.trans h.peers⟩

theorem getRoundRobinVia_same {u u' : Upstream F} {m m' : StackedRequest F}
    {tp : NgxTime} {code : GetCode}
    (h : getRoundRobinVia u m tp = .ok (code, u', m')) : SamePlace m m' := by
  obtain ⟨⟨found, u₁, r₁⟩, htake, h⟩ := Except.bind_eq_ok.mp h
  obtain ⟨rfl, i, a, rfl, -⟩ := takeRoundRobin_ok (liftFault_ok htake)
  simp only [if_true] at h
  obtain ⟨⟨u₂, m₂⟩, hbuf, h⟩ := Except.bind_eq_ok.mp h
  obtain ⟨-, hpair⟩ := Prod.mk.inj (Except.ok.inj h)
  obtain ⟨rfl, rfl⟩ := Prod.mk.inj hpair
  obtain ⟨-, -, -, hdata, hpeerData⟩ := bufferVia_ok hbuf
  refine ⟨hpeerData, ?_⟩
  rw [hdata]
  rfl

omit [CFloat F] in
theorem balancerHook_same {crc32 : Text → UInt32} {u : Upstream F}
    {m : StackedRequest F} {tp : NgxTime} {hook : Hook F}
    (h : balancerHook crc32 u m tp = .ok hook) :
    match hook with
    | .roundRobin m' => SamePlace m m' ∧ m'.request = m.request
    | .picked _ m' => SamePlace m m' := by
  unfold balancerHook at h
  split at h
  · obtain rfl := Except.ok.inj h
    exact ⟨⟨rfl, rfl⟩, rfl⟩
  · cases h
  · split at h
    · obtain rfl := Except.ok.inj h
      exact ⟨⟨rfl, rfl⟩, rfl⟩
    · obtain ⟨⟨h', picked⟩, -, h⟩ := Except.bind_eq_ok.mp h
      cases picked with
      | none =>
          obtain rfl := Except.ok.inj h
          exact ⟨⟨rfl, rfl⟩, rfl⟩
      | some i =>
          obtain rfl := Except.ok.inj h
          exact ⟨rfl, rfl⟩

theorem getVia_same {crc32 : Text → UInt32} {cache : List Text}
    {u u' : Upstream F} {m m' : StackedRequest F} {tp : NgxTime}
    {code : GetCode} (h : getVia crc32 cache u m tp = .ok (code, u', m')) :
    SamePlace m m' := by
  obtain ⟨⟨code₁, u₁, m₁⟩, hhook, h⟩ := Except.bind_eq_ok.mp h
  have hm₁ : m₁ = m' := by
    dsimp only at h
    split at h
    · exact (Prod.mk.inj (Prod.mk.inj (Except.ok.inj h)).2).2
    · exact (Prod.mk.inj (Prod.mk.inj (Except.ok.inj h)).2).2
  subst hm₁
  obtain ⟨hook, hhook, hrest⟩ := Except.bind_eq_ok.mp hhook
  have hsame := balancerHook_same hhook
  cases hook with
  | roundRobin m₂ => exact hsame.1.trans (getRoundRobinVia_same hrest)
  | picked u₂ m₂ =>
      obtain ⟨-, hpair⟩ := Prod.mk.inj (Except.ok.inj hrest)
      obtain ⟨rfl, rfl⟩ := Prod.mk.inj hpair
      exact hsame

omit [CFloat F] in
theorem freeVia_same {u u' : Upstream F} {m m' : StackedRequest F}
    {state : ℕ} {tp : NgxTime} (h : freeVia u m state tp = .ok (u', m')) :
    SamePlace m m' := by
  obtain ⟨⟨u₁, r₁⟩, hfree, h⟩ := Except.bind_eq_ok.mp h
  obtain ⟨-, rfl⟩ := Prod.mk.inj (Except.ok.inj h)
  have hfree := liftFault_ok hfree
  unfold ngxHttpUpstreamFreeRoundRobinPeer at hfree
  split at hfree
  · obtain ⟨-, rfl⟩ := Prod.mk.inj (Except.ok.inj hfree)
    exact ⟨rfl, rfl⟩
  · cases hfree

theorem stackStep_same {crc32 : Text → UInt32} {m m' : StackedRequest F}
    {c : StackCall F} (h : stackStep crc32 m c = .ok m') : SamePlace m m' := by
  cases c with
  | get cache u tp =>
      obtain ⟨⟨code, u', m₁⟩, hget, rfl⟩ := Except.map_eq_ok.mp h
      exact getVia_same hget
  | free u state tp =>
      obtain ⟨⟨u', m₁⟩, hfree, rfl⟩ := Except.map_eq_ok.mp h
      exact freeVia_same hfree

theorem stackReach_same {crc32 : Text → UInt32} {m m' : StackedRequest F}
    (h : StackReach crc32 (· = m) m') : SamePlace m m' := by
  refine @Reach.invariant _ _ _ _ _ (SamePlace m) ?_ ?_ _ h
  · rintro _ rfl
    exact ⟨rfl, rfl⟩
  · intro m₁ c m₂ _ hm₁ _ hstep
    exact hm₁.trans (stackStep_same hstep)

/-! ## Bookkeeping -/

/-- The bookkeeping of a selection that has led from `u` to `u'` and left the
request in `m`: the version recorded through `pc->data` is that of the selected
peer, and the log entry, whatever hooks are called before it, takes the request
from the list that the selection added it to. -/
structure Bookkeeping (crc32 : Text → UInt32) (u u' : Upstream F)
    (m : StackedRequest F) (tp : NgxTime) : Prop where
  version : ∃ a, versionVia u' m .balancer = .ok a ∧
    versionVia u' m m.peerData = .ok a ∧
    ∀ u'' m', bufferVia u' m tp = .ok (u'', m') → m'.request.version = some a
  peers : ∃ t, u'.activeAt t = u.activeAt t + 1 ∧
    (∀ t', t' ≠ t → u'.activeAt t' = u.activeAt t') ∧
    ∀ u'' m', bufferVia u' m tp = .ok (u'', m') →
      ∀ m'', StackReach crc32 (· = m') m'' → m''.logPeers = .ok t

omit [CFloat F] in
/-- The keepalive record is not a round-robin record. -/
theorem versionVia_keepalive {u : Upstream F} {m : StackedRequest F}
    (h : m.peerData = .keepalive) :
    versionVia u m m.peerData = .error .wrongRecord := by
  rw [h]
  rfl

theorem not_bookkeeping_of_keepalive {crc32 : Text → UInt32}
    {u u' : Upstream F} {m : StackedRequest F} {tp : NgxTime}
    (h : m.peerData = .keepalive) : ¬Bookkeeping crc32 u u' m tp := by
  intro hbook
  obtain ⟨a, -, ha, -⟩ := hbook.version
  rw [versionVia_keepalive h] at ha
  cases ha

theorem bookkeeping_of_balancer {crc32 : Text → UInt32} {u u' : Upstream F}
    {m : StackedRequest F} {r : Request F} {tp : NgxTime}
    (hm : m.peerData = .balancer)
    (h : takeRoundRobin u m.request tp = .ok (true, u', r)) :
    Bookkeeping crc32 u u' { m with request := r } tp := by
  obtain ⟨-, i, a, rfl, hver, hactive, hother⟩ := takeRoundRobin_ok h
  have hvia : ∀ ptr, ptr = .balancer →
      versionVia u' { m with request := m.request.take i } ptr = .ok a := by
    rintro _ rfl
    simp [versionVia, StackedRequest.rrp, Request.take, hver, bind,
      Except.bind, pure, Except.pure]
  refine ⟨⟨a, hvia _ rfl, hvia _ hm, ?_⟩,
    m.request.data.peers, hactive, hother, ?_⟩
  · intro u'' m' hbuf
    obtain ⟨b, hb, hver', -⟩ := bufferVia_ok hbuf
    rw [hver', Except.ok.inj ((hvia _ hm).symm.trans hb)]
  · intro u'' m' hbuf m'' hreach
    obtain ⟨-, -, -, hdata, hpeerData⟩ := bufferVia_ok hbuf
    have hsame := stackReach_same hreach
    have hplace : m''.peerData = .balancer :=
      hsame.peerData.trans (hpeerData.trans hm)
    have hpeers : m''.request.data.peers = m.request.data.peers := by
      rw [hsame.peers, hdata]
      rfl
    rw [StackedRequest.logPeers, hplace, ← hpeers]
    rfl

theorem bufferVia_keepalive {u : Upstream F} {m : StackedRequest F}
    {tp : NgxTime} (h : m.peerData = .keepalive) :
    bufferVia u m tp = .error .wrongRecord := by
  unfold bufferVia
  rw [versionVia_keepalive h]
  rfl

/-- An attempt that selects a peer under the keepalive module goes wrong when
the request is buffered. -/
theorem getRoundRobinVia_keepalive {u u' : Upstream F} {m : StackedRequest F}
    {r : Request F} {tp : NgxTime} (hm : m.peerData = .keepalive)
    (h : takeRoundRobin u m.request tp = .ok (true, u', r)) :
    getRoundRobinVia u m tp = .error .wrongRecord := by
  have hbuf : bufferVia u' { m with request := r } tp = .error .wrongRecord :=
    bufferVia_keepalive hm
  unfold getRoundRobinVia
  rw [h]
  change bufferVia u' { m with request := r } tp >>= _ = _
  rw [hbuf]
  rfl

/-- The upstream once the peer at position `i` is taken, with the versions as
the selection has left them. -/
def takenUpstream (u : Upstream F) (t : Tier) (ps : Peers F) (now : ℤ) (i : ℕ)
    (vs : Versions F) : Upstream F :=
  { u.setTier t (takePeer now i ps) with versions := vs }

/-- A dispatch is a selection followed by the buffering of the request at the
selected version. -/
theorem getFromPeers_eq {t : Tier} {ps : Peers F} {vs : Versions F}
    {r : Request F} {tp : NgxTime} {sel : Selection F} {i a : ℕ}
    (ht : r.data.peers = t)
    (hsel : ngxHttpUpstreamGetPeer ps vs r.data tp = .ok sel)
    (hbest : sel.best = some i) (hpeers : sel.peers = selectPeers tp.sec i ps)
    (htaken : ((takePeer tp.sec i ps).peer[i]?).bind (·.version) = some a) :
    getFromPeers t ps vs r tp =
      (ngxHttpUpstreamBufferRequestData tp a (sel.versions a) (r.take i)).map
        fun vr => (true, takePeer tp.sec i ps,
          Function.update sel.versions a vr.1, vr.2) := by
  subst ht
  obtain ⟨best, peers, versions, zero⟩ := sel
  subst hbest hpeers
  rw [takePeer] at htaken
  simp only [getFromPeers, hsel, bind, Except.bind, htaken]
  rfl

theorem takeRoundRobin_eq {u : Upstream F} {ps : Peers F} {r : Request F}
    {tp : NgxTime} {sel : Selection F} {i : ℕ}
    (hps : u.tier r.data.peers = some ps)
    (hsel : ngxHttpUpstreamGetPeer ps u.versions r.data tp = .ok sel)
    (hbest : sel.best = some i)
    (hpeers : sel.peers = selectPeers tp.sec i ps) :
    takeRoundRobin u r tp = .ok (true,
      takenUpstream u r.data.peers ps tp.sec i sel.versions, r.take i) := by
  obtain ⟨best, peers, versions, zero⟩ := sel
  subst hbest hpeers
  simp only [takeRoundRobin, hps, hsel, bind, Except.bind]
  rfl

/-- Without the keepalive module the request is buffered at the version of the
selected peer. -/
theorem bufferVia_balancer {u : Upstream F} {m : StackedRequest F}
    (tp : NgxTime) {i a : ℕ} (hm : m.peerData = .balancer)
    (hver : u.versionAt m.request.data.peers i = some a) :
    bufferVia u { m with request := m.request.take i } tp =
      (liftFault (ngxHttpUpstreamBufferRequestData tp a (u.versions a)
        (m.request.take i))).map fun vr =>
          ({ u with versions := Function.update u.versions a vr.1 },
            { m with request := vr.2 }) := by
  have hvia : versionVia u { m with request := m.request.take i } m.peerData =
      .ok a := by
    rw [hm]
    simp [versionVia, StackedRequest.rrp, Request.take, hver, bind,
      Except.bind, pure, Except.pure]
  simp only [bufferVia, hvia]
  rfl

/-- Without the keepalive module an attempt is the dispatch of the request. -/
theorem getRoundRobinVia_balancer {u : Upstream F} {m : StackedRequest F}
    {tp : NgxTime} (hm : m.peerData = .balancer) :
    (getRoundRobinVia u m tp).map (fun x => (x.2.1, x.2.2.request)) =
      liftFault ((ngxHttpUpstreamGetRoundRobinPeer u m.request tp).map
        fun x => (x.2.1, x.2.2)) := by
  cases hps : u.tier m.request.data.peers with
  | none =>
      simp only [getRoundRobinVia, takeRoundRobin,
        ngxHttpUpstreamGetRoundRobinPeer, hps]
      rfl
  | some ps =>
      cases hsel : ngxHttpUpstreamGetPeer ps u.versions m.request.data tp with
      | error e =>
          simp only [getRoundRobinVia, takeRoundRobin,
            ngxHttpUpstreamGetRoundRobinPeer, getFromPeers, hps, hsel]
          rfl
      | ok sel =>
          obtain ⟨i, p, a, ws, load, hbest, hget, -, hver, -, hpeers, -⟩ :=
            getPeer_ok hsel
          have htaken : ((takePeer tp.sec i ps).peer[i]?).bind (·.version) =
              some a := by
            rw [takePeer_version, hget]
            exact hver
          have hat : (takenUpstream u m.request.data.peers ps tp.sec i
              sel.versions).versionAt m.request.data.peers i = some a := by
            rw [takenUpstream, versionAt_withVersions]
            simp [Upstream.versionAt, htaken]
          have hbuf := bufferVia_balancer tp hm hat
          have hget := getFromPeers_eq rfl hsel hbest hpeers htaken
          rw [getRoundRobinVia, takeRoundRobin_eq hps hsel hbest hpeers,
            ngxHttpUpstreamGetRoundRobinPeer, hps]
          change (bufferVia _ _ _ >>= _).map _ =
            liftFault ((getFromPeers _ _ _ _ _ >>= _).map _)
          rw [hbuf, hget]
          cases hres : ngxHttpUpstreamBufferRequestData tp a (sel.versions a)
              (m.request.take i) with
          | error e =>
              rw [takenUpstream, hres]
              rfl
          | ok vr =>
              obtain ⟨-, -, -, -, hr⟩ := bufferRequestData_ok hres
              have hdata : vr.2.data.peers = m.request.data.peers := by
                rw [hr]
                rfl
              rw [takenUpstream, hres]
              simp only [Except.map, liftFault, Except.mapError, bind,
                Except.bind, pure, Except.pure, if_true, hdata]

/-- The places of the records do not change. -/
theorem stackReach_peerData {crc32 : Text → UInt32} {stack : Stack}
    {m : StackedRequest F}
    (h : StackReach crc32 (fun m => ∃ r, m = stack.initPeer r) m) :
    m.peerData = if stack.keepalive then .keepalive else .balancer := by
  refine @Reach.invariant _ _ _ _ _ (fun m => m.peerData = _) ?_ ?_ _ h
  · rintro _ ⟨r, rfl⟩
    rfl
  · intro m₁ c m₂ _ hm₁ _ hstep
    exact (stackStep_same hstep).peerData.trans hm₁

/-- Whenever an attempt reaches the round-robin hook and a peer is selected
there, the bookkeeping follows the selection exactly when the keepalive module
is not part of the stack; the attempt is then the one of the round-robin hook
alone. -/
theorem bookkeeping_iff {crc32 : Text → UInt32} {stack : Stack}
    {m m₁ : StackedRequest F} {u u' : Upstream F} {r : Request F}
    {tp : NgxTime}
    (hm : StackReach crc32 (fun m => ∃ r, m = stack.initPeer r) m)
    (hhook : balancerHook crc32 u m tp = .ok (.roundRobin m₁))
    (htake : takeRoundRobin u m₁.request tp = .ok (true, u', r)) :
    (Bookkeeping crc32 u u' { m₁ with request := r } tp ↔
      stack.keepalive = false) ∧
    (stack.keepalive = false →
      (getRoundRobinVia u m₁ tp).map (fun x => (x.2.1, x.2.2.request)) =
        liftFault ((ngxHttpUpstreamGetRoundRobinPeer u m₁.request tp).map
          fun x => (x.2.1, x.2.2))) := by
  have hplace : m₁.peerData =
      if stack.keepalive then .keepalive else .balancer :=
    (balancerHook_same hhook).1.peerData.trans (stackReach_peerData hm)
  cases hstack : stack.keepalive with
  | false =>
      rw [hstack] at hplace
      exact ⟨iff_of_true (bookkeeping_of_balancer hplace htake) rfl,
        fun _ => getRoundRobinVia_balancer hplace⟩
  | true =>
      rw [hstack] at hplace
      exact ⟨iff_of_false (not_bookkeeping_of_keepalive hplace) (by simp),
        fun hfalse => absurd hfalse (by simp)⟩

def heavyLightRequest : Request RatFloat :=
  ngxHttpUpstreamInitRequest 0 heavyLight.upstream (NgxTime.ofSec 1)

/-- The first attempt of that request selects a peer. -/
theorem heavyLight_takes :
    ∃ u r, takeRoundRobin heavyLight.upstream heavyLightRequest
      (NgxTime.ofSec 1) = .ok (true, u, r) := by
  obtain ⟨⟨found, u, r⟩, htake, -⟩ := Except.exists_ok_of_any
    (x := takeRoundRobin heavyLight.upstream heavyLightRequest
      (NgxTime.ofSec 1)) (p := fun _ => true) (by decide +kernel)
  obtain ⟨rfl, -⟩ := takeRoundRobin_ok htake
  exact ⟨u, r, htake⟩

/-- With the hash balancer and an empty key, the attempt reaches the
round-robin hook and its bookkeeping is right. -/
theorem heavyLight_bookkeeping :
    ∃ u r, Bookkeeping (fun _ => 0) heavyLight.upstream u
      { (Stack.mk (some []) false).initPeer heavyLightRequest with
        request := r } (NgxTime.ofSec 1) := by
  obtain ⟨u, r, htake⟩ := heavyLight_takes
  have hinit : StackReach (fun _ => 0)
      (fun m => ∃ r, m = (Stack.mk (some []) false).initPeer r)
      ((Stack.mk (some []) false).initPeer heavyLightRequest) :=
    .init ⟨heavyLightRequest, rfl⟩
  exact ⟨u, r, (bookkeeping_iff hinit rfl htake).1.mpr rfl⟩

/-- With the keepalive module around the round-robin balancer, the first
attempt reads the keepalive record as a round-robin record. -/
theorem heavyLight_keepalive_not_bookkeeping :
    ∃ m : StackedRequest RatFloat,
      m = (Stack.mk none true).initPeer heavyLightRequest ∧
      balancerHook (fun _ => 0) heavyLight.upstream m (NgxTime.ofSec 1) =
        .ok (.roundRobin m) ∧
      getVia (fun _ => 0) [] heavyLight.upstream m (NgxTime.ofSec 1) =
        .error .wrongRecord ∧
      ∃ u r, takeRoundRobin heavyLight.upstream m.request (NgxTime.ofSec 1) =
          .ok (true, u, r) ∧
        ¬Bookkeeping (fun _ => 0) heavyLight.upstream u
          { m with request := r } (NgxTime.ofSec 1) := by
  obtain ⟨u, r, htake⟩ := heavyLight_takes
  refine ⟨_, rfl, rfl, ?_, u, r, htake, not_bookkeeping_of_keepalive rfl⟩
  have hget := getRoundRobinVia_keepalive
    (m := (Stack.mk none true).initPeer heavyLightRequest) rfl htake
  change getRoundRobinVia _ _ _ >>= _ = _
  rw [hget]
  rfl

end MultiversionBalancer
