import MultiversionBalancer.Upstream.Construct

/-!
# The versioned round-robin balancer

`ngx_http_upstream_get_peer`, `ngx_http_upstream_buffer_request_data`,
`ngx_http_upstream_get_round_robin_peer` and
`ngx_http_upstream_free_round_robin_peer`.

A `while` loop over a request queue is bounded by the number of nodes ever
allocated in it; running out of that bound is the fault `nonTermination`.
-/

namespace MultiversionBalancer

open Lib CFloat

/-- The pruning loop at the head of the selection loop: completed requests
leave the queue, and the summary forgets a node that is released.  The first
argument bounds the number of iterations. -/
def pruneHead : ℕ → RequestQueue → Except Fault RequestQueue
  | 0, _ => .error .nonTermination
  | fuel + 1, q =>
      match q.reqTimes with
      | none => .ok q
      | some a =>
          match q.nodes.cell a with
          | none => .error .useAfterFree
          | some node =>
              if node.val.sec = -1 then
                pruneHead fuel
                  { q with
                    nodes := q.nodes.free a
                    reqTimes := node.next
                    oldRequests :=
                      if q.oldRequests.recentReq = some a then
                        { q.oldRequests with recentReq := none }
                      else q.oldRequests }
              else .ok q

/-- Start the summary with the head of the queue when it is empty. -/
def seedOldest (tp : NgxTime) (q : RequestQueue) :
    Except Fault RequestQueue :=
  match q.oldRequests.recentReq, q.reqTimes with
  | none, some a =>
      match q.nodes.cell a with
      | none => .error .useAfterFree
      | some node =>
          .ok
            { q with
              oldRequests :=
                { recentReq := some a
                  reqCount := q.oldRequests.reqCount + 1
                  timeSum := q.oldRequests.timeSum +
                    tp.since node.val.sec node.val.msec
                  updatedSec := tp.sec
                  updatedMsec := tp.msec
                  recentReqNum := node.val.no } }
  | _, _ => .ok q

/-- What the selection loop does to the queue of an eligible peer. -/
def refreshQueue (tp : NgxTime) (q : RequestQueue) :
    Except Fault RequestQueue := do
  let q ← pruneHead (q.nodes.fresh + 1) q
  seedOldest tp q

variable {F : Type} [CFloat F]

/-- The prediction is capped below the performance target. -/
def capPrediction (pt : ℤ) (v : VersionedServer F) : VersionedServer F :=
  if le (ofInt pt) v.maxPrediction then
    { v with
      predictedAvgRt := narrow (ofInt (pt - 1))
      maxPrediction := narrow (ofInt (pt - 1)) }
  else v

/-- Charge the time since the last update to the active requests. -/
def accrueService (tp : NgxTime) (v : VersionedServer F) :
    VersionedServer F :=
  { v with
    serviceTime := v.serviceTime +
      tp.since v.serviceTimeUpdateSec v.serviceTimeUpdateMsec * v.activeReq
    serviceTimeUpdateSec := tp.sec
    serviceTimeUpdateMsec := tp.msec }

/-- The load of a version as the selection loop computes it: the predicted
response time of one more request, corrected by the burst factor once enough
requests have completed. -/
def versionLoad (v : VersionedServer F) : F :=
  let load := narrow (v.predictedAvgRt * ofInt (v.activeReq + 1))
  let serviceReqCount : F :=
    narrow (ofInt (v.activeReq - v.queue.oldRequests.reqCount))
  let currService : F :=
    narrow (ofInt (v.serviceTime - v.queue.oldRequests.timeSum) /
      CFloat.max (ofInt 1) (serviceReqCount * serviceReqCount))
  if v.completedRequests > 200 then
    let burstFactor : F :=
      narrow ((v.avgServiceTime - currService) / (ofInt 3 * v.avgServiceTime))
    if le (lit (-33 / 100)) burstFactor && le burstFactor (lit (33 / 100)) then
      narrow (load * (lit 1 + burstFactor))
    else load
  else load

/-- The prediction decays while a version has seen few requests. -/
def decayPrediction (v : VersionedServer F) : VersionedServer F :=
  if v.completedRequests + v.activeReq < 200 then
    { v with predictedAvgRt := narrow (v.predictedAvgRt * lit (995 / 1000)) }
  else v

/-- The body of the selection loop up to the comparison of loads: the updated
version and its load. -/
def examineVersion (tp : NgxTime) (pt : ℤ) (v : VersionedServer F) :
    Except Fault (VersionedServer F × F) := do
  let q ← refreshQueue tp v.queue
  let v := accrueService tp (capPrediction pt { v with queue := q })
  pure (decayPrediction v, versionLoad v)

/-- A peer the selection loop does not skip: its bit in `tried` is clear, it
is not down, not inside a failure window and has a free connection slot. -/
def eligible (tried : List (BitVec 64)) (now : ℤ) (i : ℕ) (p : Peer) : Bool :=
  !((tried.getD (i / 64) 0).getLsbD (i % 64)) &&
    !p.down &&
    !(p.maxFails != 0 && p.maxFails ≤ p.fails &&
      decide (now - p.checked ≤ p.failTimeout)) &&
    !(p.maxConns != 0 && p.maxConns ≤ p.conns)

/-- The two running candidates of the selection loop with their loads.
`zeroDivisor` records that a `req_count` of zero has been divided by. -/
structure Candidates (F : Type) where
  heavy : Option (ℕ × Peer)
  light : Option (ℕ × Peer)
  heavyLoad : F
  lightLoad : F
  zeroDivisor : Bool

def noCandidates : Candidates F where
  heavy := none
  light := none
  heavyLoad := ofInt 0
  lightLoad := ofInt 0
  zeroDivisor := false

/-- `(float) time_sum / (float) req_count`, converted to `ngx_int_t`.  Where the
quotient is not a number or does not fit, as it is for a `req_count` of zero,
the instruction that converts it leaves the least `ngx_int_t`. -/
def avgOldest (F : Type) [CFloat F] (old : OldRequests) : ℤ :=
  (toInt (narrow (ofInt old.timeSum : F) / narrow (ofInt old.reqCount : F))).getD
    (-2 ^ 63)

/-- The comparison of a further peer of a class with its candidate; `hOld` and
`pOld` are the summaries of the heavy candidate and of the peer. -/
def contest (pt : ℤ) (hOld pOld : OldRequests) (c : Candidates F)
    (i : ℕ) (p : Peer) (load : F) : Candidates F :=
  let c := { c with
    zeroDivisor :=
      c.zeroDivisor || hOld.reqCount == 0 || pOld.reqCount == 0 }
  let late := decide (pt ≤ avgOldest F hOld) && decide (avgOldest F pOld < pt)
  if p.heavy.isSome && (lt load c.heavyLoad || late) then
    { c with heavy := some (i, p), heavyLoad := load }
  else if p.light.isSome && lt load c.lightLoad then
    { c with light := some (i, p), lightLoad := load }
  else c

/-- The comparison of an examined peer with the candidates.  The branch for a
further peer of a class reads through the heavy candidate before it looks at
the class of the peer. -/
def considerPeer (pt : ℤ) (vs : Versions F) (c : Candidates F)
    (i : ℕ) (p : Peer) (load : F) : Except Fault (Candidates F) :=
  if c.heavy.isNone && p.heavy.isSome then
    .ok { c with heavy := some (i, p), heavyLoad := load }
  else if c.light.isNone && p.light.isSome then
    .ok { c with light := some (i, p), lightLoad := load }
  else
    match c.heavy with
    | none => .error .nullHeavy
    | some (_, h) => do
        let hv ← vs.deref h.version
        let pv ← vs.deref p.version
        pure (contest pt hv.queue.oldRequests pv.queue.oldRequests c i p load)

/-- One iteration of the selection loop. -/
def scanPeer (tried : List (BitVec 64)) (tp : NgxTime) (pt : ℤ)
    (s : Versions F × Candidates F) (i : ℕ) (p : Peer) :
    Except Fault (Versions F × Candidates F) :=
  if eligible tried tp.sec i p then
    match p.version with
    | none => .error .nullVersion
    | some a => do
        let (v, load) ← examineVersion tp pt (s.1 a)
        let vs : Versions F := Function.update s.1 a v
        let c ← considerPeer pt vs s.2 i p load
        pure (vs, c)
  else .ok s

/-- The selection loop over the peers from position `i` on. -/
def scanPeers (tried : List (BitVec 64)) (tp : NgxTime) (pt : ℤ) :
    ℕ → List Peer → Versions F × Candidates F →
      Except Fault (Versions F × Candidates F)
  | _, [], s => .ok s
  | i, p :: ps, s => do
      let s ← scanPeer tried tp pt s i p
      scanPeers tried tp pt (i + 1) ps s

/-- The performance target of a peer list: the last positive one. -/
def peersPt (ps : List Peer) : ℤ :=
  ps.foldl (fun pt p => if 0 < p.pt then (p.pt : ℤ) else pt) 0

/-- The choice between the two candidates. -/
def chooseBest (pt : ℤ) (vs : Versions F) (c : Candidates F) :
    Except Fault (Option (ℕ × Peer)) :=
  match c.heavy, c.light with
  | none, light => .ok light
  | heavy, none => .ok heavy
  | some h, some l => do
      let hv ← vs.deref h.2.version
      let old := hv.queue.oldRequests
      let oldest : ℤ :=
        cast (narrow (ofInt old.timeSum : F) /
          ofInt (Max.max 1 old.reqCount))
      if le (lit (3 / 2) * ofInt pt : F) (ofInt oldest) then .ok (some l)
      else if le (ofInt pt) c.heavyLoad then .ok (some l)
      else .ok (some h)

/-- `max(1, active_req - req_count)`. -/
def serviceReqNum (v : VersionedServer F) : ℤ :=
  Max.max 1 (v.activeReq - v.queue.oldRequests.reqCount)

/-- The average service time of the requests the summary does not cover. -/
def currServiceTime (v : VersionedServer F) : F :=
  narrow (narrow (ofInt (v.serviceTime - v.queue.oldRequests.timeSum)) /
    narrow (ofInt (serviceReqNum v * serviceReqNum v)))

def selectVersion (tp : NgxTime) (load : F) (v : VersionedServer F) :
    VersionedServer F :=
  { v with
    avgServiceTime :=
      if eq v.avgServiceTime (ofInt 0) then currServiceTime v
      else narrow (lit (995 / 1000) * v.avgServiceTime +
        lit (5 / 1000) * currServiceTime v)
    serviceTimeUpdateSec := tp.sec
    serviceTimeUpdateMsec := tp.msec
    currLoad := load
    predict := cast load
    activeReq := v.activeReq + 1 }

def selectPeers (now : ℤ) (i : ℕ) (ps : Peers F) : Peers F :=
  let active := ps.activeReq + 1
  let diff : F := narrow (ps.avgActiveReq - ofInt active)
  { ps with
    peer := ps.peer.modify i fun p => { p with checked := now }
    activeReq := active
    avgActiveReq := narrow (lit (995 / 1000) * ps.avgActiveReq +
      lit (5 / 1000) * ofInt active)
    avgReqVar := narrow (lit (995 / 1000) * ps.avgReqVar +
      lit (5 / 1000) * (diff * diff))
    maxReq := Max.max active ps.maxReq
    reqCount := ps.reqCount + 1 }

/-- The outcome of a selection: the position of the chosen peer, the updated
peers object and versions, and whether a zero `req_count` was divided by. -/
structure Selection (F : Type) where
  best : Option ℕ
  peers : Peers F
  versions : Versions F
  zeroDivisor : Bool

/-- `ngx_http_upstream_get_peer`.  The chosen peer is read through before it
is compared with `NULL`. -/
def ngxHttpUpstreamGetPeer (ps : Peers F) (vs : Versions F)
    (rrp : RRPeerData) (tp : NgxTime) : Except Fault (Selection F) := do
  let pt := peersPt ps.peer
  let (vs, c) ← scanPeers rrp.tried tp pt 0 ps.peer
    (vs, noCandidates)
  match ← chooseBest pt vs c with
  | none => .error .nullBest
  | some (i, p) =>
      match p.version with
      | none => .error .nullVersion
      | some a =>
          let load :=
            if c.heavy.map (·.1) = some i then c.heavyLoad else c.lightLoad
          pure
            { best := some i
              peers := selectPeers tp.sec i ps
              versions := Function.update vs a (selectVersion tp load (vs a))
              zeroDivisor := c.zeroDivisor }

/-- Append a node to the queue of a version. -/
def appendNode (x : ReqTime) (q : RequestQueue) : Except Fault RequestQueue :=
  let a := q.nodes.fresh
  let nodes := q.nodes.alloc { val := x, next := none }
  match q.reqTimes with
  | none =>
      .ok { q with nodes := nodes, reqTimes := some a, reqTail := some a }
  | some _ =>
      match q.reqTail with
      | none => .error .nullNode
      | some t =>
          match nodes.cell t with
          | none => .error .useAfterFree
          | some last =>
              .ok
                { q with
                  nodes := nodes.store t { last with next := some a }
                  reqTail := some a }

/-- `ngx_http_upstream_buffer_request_data`: record on the request the version
it was sent to, and enqueue it there.  `a` is the address of
`rrp->current->version`. -/
def ngxHttpUpstreamBufferRequestData (tp : NgxTime) (a : ℕ)
    (v : VersionedServer F) (r : Request F) :
    Except Fault (VersionedServer F × Request F) := do
  let v := { v with
    serviceTime := v.serviceTime +
      tp.since v.serviceTimeUpdateSec v.serviceTimeUpdateMsec *
        (v.activeReq - 1) +
      tp.since r.startSec r.startMsec
    serviceTimeUpdateSec := tp.sec
    serviceTimeUpdateMsec := tp.msec }
  let no := v.completedRequests + v.activeReq
  let q ← appendNode { sec := r.startSec, msec := r.startMsec, no := no }
    v.queue
  let enter := v.queue.nodes.fresh
  let v := { v with queue := q }
  pure (v,
    { r with
      version := some a
      reqFinishBefore := v.completedRequests
      no := no
      lastComplete := v.latest
      predict := v.predict
      enterTime := some enter
      serviceTimeRecord := currServiceTime v })

/-- Return codes of the `get` hook. -/
inductive GetResult where
  | ok
  | busy
  deriving DecidableEq

/-- `ngx_http_upstream_get_round_robin_peer` up to its label `failed`: select
from one list and take the selected peer.  The flag tells whether a peer was
found. -/
def getFromPeers (t : Tier) (ps : Peers F) (vs : Versions F)
    (r : Request F) (tp : NgxTime) :
    Except Fault (Bool × Peers F × Versions F × Request F) := do
  let sel ← ngxHttpUpstreamGetPeer ps vs r.data tp
  match sel.best with
  | none => pure (false, sel.peers, sel.versions, r)
  | some i =>
      let ps := { sel.peers with
        peer := sel.peers.peer.modify i fun p => { p with conns := p.conns + 1 } }
      match (ps.peer[i]?).bind (·.version) with
      | none => .error .nullVersion
      | some a => do
          let r := { r with
            data := { r.data with current := some i }
            sockaddr := true
            attempts := r.attempts ++ [(t, i)] }
          let (v, r) ← ngxHttpUpstreamBufferRequestData tp a (sel.versions a) r
          pure (true, ps, Function.update sel.versions a v, r)

/-- Point the record to the backup list and clear its bits. -/
def fallBack (b : Peers F) (r : Request F) : Request F :=
  { r with
    data := { r.data with
      peers := .backup
      tried := r.data.tried.mapIdx fun i w =>
        if i < (b.number + 63) / 64 then 0 else w } }

def ngxHttpUpstreamGetRoundRobinPeer (u : Upstream F) (r : Request F)
    (tp : NgxTime) : Except Fault (GetResult × Upstream F × Request F) :=
  match u.tier r.data.peers with
  | none => .error .nullPeers
  | some ps => do
      let (found, ps, vs, r) ← getFromPeers r.data.peers ps u.versions r tp
      let u := { u.setTier r.data.peers ps with versions := vs }
      if found then pure (.ok, u, r)
      else
        match r.data.peers, u.backup with
        | .primary, some b => do
            let (found, b, vs, r) ←
              getFromPeers .backup b u.versions (fallBack b r) tp
            let u := { u with backup := some b, versions := vs }
            pure (if found then .ok else .busy, u, r)
        | _, _ => pure (.busy, u, r)

def decrUInt (n : ℕ) : ℕ :=
  if n = 0 then 2 ^ 64 - 1 else n - 1

/-- The bit `NGX_PEER_FAILED` of a release state. -/
def ngxPeerFailed : ℕ := 4

def releasePeer (single failed : Bool) (now : ℤ) (p : Peer) : Peer :=
  if single then { p with conns := decrUInt p.conns }
  else if failed then
    let w := if p.maxFails = 0 then p.effectiveWeight
      else p.effectiveWeight - p.weight / p.maxFails
    { p with
      fails := p.fails + 1
      accessed := now
      checked := now
      effectiveWeight := Max.max w 0
      conns := decrUInt p.conns }
  else
    { p with
      fails := if p.accessed < p.checked then 0 else p.fails
      conns := decrUInt p.conns }

def ngxHttpUpstreamFreeRoundRobinPeer (u : Upstream F) (r : Request F)
    (state : ℕ) (tp : NgxTime) : Except Fault (Upstream F × Request F) :=
  match u.tier r.data.peers, r.data.current with
  | some ps, some i =>
      let failed := state &&& ngxPeerFailed != 0
      let ps' := { ps with
        peer := ps.peer.modify i (releasePeer ps.single failed tp.sec) }
      .ok (u.setTier r.data.peers ps',
        { r with tries := if ps.single then 0 else r.tries - 1 })
  | _, _ => .error .nullPeers

end MultiversionBalancer
