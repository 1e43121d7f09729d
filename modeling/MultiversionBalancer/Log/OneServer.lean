import MultiversionBalancer.Log.ErrorWindow
import MultiversionBalancer.Upstream.Ledger

/-!
# One server, one request after another

An upstream of one heavy server serves a request to its end, any number of
times, so every value of its completion counter is reached.
-/

namespace MultiversionBalancer

open Lib CFloat

variable {F : Type} [CFloat F]

/-- A heavy peer of the first version that nothing keeps from being eligible. -/
structure Peer.Open (p : Peer) : Prop where
  version : p.version = some 0
  heavy : p.heavy.isSome = true
  down : p.down = false
  fails : p.fails = 0
  maxConns : p.maxConns = 0

/-- One open server; no report falls due during its first second. -/
structure OneServer (s : System F) : Prop where
  peer : ∃ p, s.upstream.primary.peer = [p] ∧ p.Open
  clock : s.upstream.primary.logTimeSec = -1 ∨
    s.upstream.primary.logTimeSec = 1
  window : ∃ ns, WindowOk (s.upstream.versions 0).basicProbability ns

theorem Peer.Open.eligible {p : Peer} (h : p.Open) {tried : List (BitVec 64)}
    (htried : tried.getD 0 0 = 0) (now : ℤ) : eligible tried now 0 p = true := by
  have hnotFailed : (p.maxFails != 0 && decide (p.maxFails ≤ 0)) = false := by
    by_cases hzero : p.maxFails = 0
    · simp [hzero]
    · simp [hzero]
  unfold MultiversionBalancer.eligible
  rw [h.down, h.fails, h.maxConns, hnotFailed, Nat.zero_div, htried]
  simp

/-! ## A dispatch -/

theorem openServer_dispatch {u : Upstream F} {r : Request F} {p : Peer}
    (tp : NgxTime) (hpeer : u.primary.peer = [p]) (hp : p.Open)
    (htier : r.data.peers = .primary) (htried : r.data.tried.getD 0 0 = 0)
    (hstart : 0 ≤ r.startSec) {ns : QueueNodes}
    (hqueue : QueueInv (u.versions 0).activeReq
      ((u.versions 0).completedRequests + (u.versions 0).activeReq)
      (u.versions 0).queue ns) :
    ∃ u' r', ngxHttpUpstreamGetRoundRobinPeer u r tp = .ok (.ok, u', r') := by
  obtain ⟨w, load, hexam, -⟩ :=
    examineVersion_spec tp (peersPt [p]) hqueue
  have hsame := examineVersion_same hexam
  obtain ⟨ms, hms, -⟩ := hsame.queue_inv _ ns hqueue
  have hlive : (⟨r.startSec, r.startMsec,
      w.completedRequests + (w.activeReq + 1)⟩ : ReqTime).live = true := by
    simp only [ReqTime.live, bne_iff_ne, ne_eq]
    omega
  have hno : w.completedRequests + (w.activeReq + 1) =
      (u.versions 0).completedRequests + (u.versions 0).activeReq + 1 := by
    rw [hsame.completed_eq, hsame.active_eq]
    ring
  obtain ⟨q, happend, -⟩ := appendNode_spec hms hlive hno
  have hscan : scanPeers r.data.tried tp (peersPt [p]) 0 [p]
      (u.versions, noCandidates) =
        .ok (Function.update u.versions 0 w,
          ⟨some (0, p), none, load, ofInt 0, false⟩) := by
    simp only [scanPeers, scanPeer, hp.eligible htried, if_true, hp.version,
      hexam, considerPeer, noCandidates, hp.heavy]
    rfl
  have hselect : ngxHttpUpstreamGetPeer u.primary u.versions r.data tp =
      .ok
        { best := some 0
          peers := selectPeers tp.sec 0 u.primary
          versions := Function.update (Function.update u.versions 0 w) 0
            (selectVersion tp load (Function.update u.versions 0 w 0))
          zeroDivisor := false } := by
    unfold ngxHttpUpstreamGetPeer
    rw [hpeer]
    simp only [hscan, bind, Except.bind, chooseBest, hp.version, Option.map_some,
      if_true]
    rfl
  have htaken : ((takePeer tp.sec 0 u.primary).peer[0]?).bind (·.version) =
      some 0 := by
    simp [takePeer, selectPeers, hpeer, hp.version]
  rw [takePeer] at htaken
  unfold ngxHttpUpstreamGetRoundRobinPeer getFromPeers
  simp only [htier, Upstream.tier, hselect, bind, Except.bind, htaken,
    Function.update_self, ngxHttpUpstreamBufferRequestData, selectVersion,
    happend]
  exact ⟨_, _, rfl⟩

theorem appendNode_oldRequests {x : ReqTime} {q q' : RequestQueue}
    (h : appendNode x q = .ok q') : q'.oldRequests = q.oldRequests := by
  unfold appendNode at h
  dsimp only at h
  split at h
  · obtain rfl := Except.ok.inj h
    rfl
  · split at h
    · cases h
    · split at h
      · cases h
      · obtain rfl := Except.ok.inj h
        rfl

/-- After a dispatch to a busy version the summary ends with one of the nodes
that were there before. -/
theorem dispatch_recent {u u' : Upstream F} {r r' : Request F} {tp : NgxTime}
    {a b : ℕ} {total : ℤ} {ns : QueueNodes}
    (hget : ngxHttpUpstreamGetRoundRobinPeer u r tp = .ok (.ok, u', r'))
    (ha : r'.version = some a) (hb : r'.enterTime = some b)
    (hqueue : QueueInv (u.versions a).activeReq total (u.versions a).queue ns)
    (hactive : (u.versions a).activeReq ≠ 0) :
    ∃ c, (u'.versions a).queue.oldRequests.recentReq = some c ∧ c ≠ b := by
  obtain ⟨-, ps, j, p, a', ws, load, v, -, hp, hel, ha', hscan, rfl, hbuf⟩ :=
    getRoundRobinPeer_scanned hget
  obtain ⟨happend, -, -, -, hr'⟩ := bufferRequestData_ok hbuf
  obtain rfl : a = a' := by
    rw [hr'] at ha
    exact (Option.some.inj ha).symm
  obtain rfl : (ws a).queue.nodes.fresh = b := by
    rw [hr'] at hb
    exact Option.some.inj hb
  obtain ⟨x, hfirst, load', hlast⟩ :=
    Relation.TransGen.tail'_iff.mp (hscan.each j p a hp hel ha')
  have hsame := sameRequests_of_examined hfirst
  obtain ⟨ms, hms, -⟩ := hsame.queue_inv total ns hqueue
  rw [← hsame.active_eq] at hactive
  obtain ⟨w, load'', hexam, hcount⟩ :=
    examineVersion_spec tp (peersPt ps.peer) hms
  obtain ⟨rfl, -⟩ := Prod.mk.inj (Except.ok.inj (hexam.symm.trans hlast))
  obtain ⟨ks, hks, -⟩ := (examineVersion_same hlast).queue_inv total ms hms
  have hold : v.queue.oldRequests = (ws a).queue.oldRequests :=
    appendNode_oldRequests happend
  dsimp only
  rw [Function.update_self, hold]
  cases hrecent : (ws a).queue.oldRequests.recentReq with
  | none =>
      exact absurd (hcount.mp (hks.summary.recent_none_iff.mp hrecent)) hactive
  | some c =>
      obtain ⟨y, hy, -⟩ := hks.summary.recent_mem c hrecent
      exact ⟨c, rfl, (hks.linked.lt_fresh hy).ne⟩

theorem examined_window {tp : NgxTime} {pt : ℤ} {v w : VersionedServer F}
    (h : Relation.ReflTransGen (Examined tp pt) v w) :
    w.basicProbability = v.basicProbability := by
  induction h with
  | refl => rfl
  | tail _ hexam ih =>
      obtain ⟨load, hexam⟩ := hexam
      obtain ⟨q, -, rfl⟩ := examineVersion_eq_ok hexam
      rw [← ih]
      unfold decayPrediction capPrediction
      split
      · split <;> rfl
      · split <;> rfl

/-- What a dispatch on the primary list leaves of the server, and what the
request holds afterwards. -/
theorem OneServer.dispatch {s : System F} {i : ℕ} {r r' : Request F}
    {u : Upstream F} {tp : NgxTime} (h : OneServer s)
    (htier : r.data.peers = .primary)
    (hget : ngxHttpUpstreamGetRoundRobinPeer s.upstream r tp =
      .ok (.ok, u, r')) :
    OneServer { upstream := u, requests := s.requests.set i r' } ∧
      r'.version = some 0 ∧ r'.logged = r.logged ∧
      r'.data.peers = .primary ∧ r'.data.current = some 0 := by
  obtain ⟨p, hpeer, hp⟩ := h.peer
  obtain ⟨-, ps, j, p', a, ws, load, v, hps, hj, -, ha, hscan, rfl, hbuf⟩ :=
    getRoundRobinPeer_scanned hget
  rw [htier] at hps
  obtain rfl : s.upstream.primary = ps := Option.some.inj hps
  rw [hpeer] at hj
  obtain ⟨rfl, rfl⟩ : j = 0 ∧ p' = p := by
    cases j with
    | zero => exact ⟨rfl, (Option.some.inj hj).symm⟩
    | succ j => cases hj
  obtain rfl : a = 0 := Option.some.inj (ha.symm.trans hp.version)
  obtain ⟨-, -, -, -, hr'⟩ := bufferRequestData_ok hbuf
  have hwindow : v.basicProbability = (ws 0).basicProbability := by
    obtain ⟨q, -, hbuf⟩ := Except.bind_eq_ok.mp hbuf
    obtain ⟨rfl, -⟩ := Prod.mk.inj (Except.ok.inj hbuf)
    rfl
  rw [htier]
  refine ⟨⟨?_, h.clock, ?_⟩, ?_, ?_, ?_, ?_⟩
  · refine ⟨{ p' with checked := tp.sec, conns := p'.conns + 1 }, ?_, ?_⟩
    · simp only [Upstream.setTier, takePeer, selectPeers, hpeer]
      rfl
    · exact ⟨hp.version, hp.heavy, hp.down, hp.fails, hp.maxConns⟩
  · dsimp only
    rw [Function.update_self, hwindow, examined_window (hscan.all 0)]
    exact h.window
  · rw [hr']
  · rw [hr']
    rfl
  · rw [hr']
    exact htier
  · rw [hr']
    rfl

/-! ## A completion -/

/-- An empty summary is extended to the first live node. -/
theorem topUp_first_live {active : ℤ} {fuel : ℕ} {multiple : Bool}
    {q : RequestQueue} {ns : QueueNodes} (h : Linked active q ns)
    (hrecent : q.oldRequests.recentReq = none)
    (hcount : q.oldRequests.reqCount = 0) (hlive : liveNodes ns ≠ [])
    (hfuel : ns.length < fuel) : ∃ res, topUp 1 fuel multiple q = .ok res := by
  induction ns generalizing fuel q with
  | nil => exact absurd rfl hlive
  | cons n ns ih =>
      obtain ⟨a, x⟩ := n
      obtain ⟨htimes, next, hcell, -⟩ := h.chain
      obtain ⟨fuel, rfl⟩ : ∃ k, fuel = k + 1 := ⟨fuel - 1, by omega⟩
      have hless : 5 * q.oldRequests.reqCount < 1 := by omega
      cases hx : x.live with
      | false =>
          have hdead := live_eq_false_iff.mp hx
          rw [liveNodes_cons_dead ns hx] at hlive
          have hdrop := h.drop_dead_head q.oldRequests hx hcell
            (fun c hc => by rw [hrecent] at hc; cases hc) rfl
          obtain ⟨res, hres⟩ := ih hdrop hrecent hcount hlive
            (Nat.lt_of_succ_lt_succ hfuel)
          refine ⟨res, ?_⟩
          simp only [topUp, hless, if_true, hrecent, htimes, hcell, hdead]
          exact hres
      | true =>
          have hsec : ¬x.sec = -1 := by
            intro hsec
            rw [live_eq_false_iff.mpr hsec] at hx
            cases hx
          have hcover : ¬5 * (coverNode a x q.oldRequests).reqCount < 1 := by
            dsimp only [coverNode]
            omega
          simp only [topUp, hless, if_true, hrecent, htimes, hcell, hsec,
            if_false]
          exact ⟨_, topUp_stop _ _ hcover⟩

/-- The completion of one of at most two active requests of a queue, whatever
its number and the counters are. -/
theorem completeQueue_few (tp : NgxTime) (no sec msec total' : ℤ) {a : ℕ}
    {x : ReqTime} {active total : ℤ} {q : RequestQueue} {ns : QueueNodes}
    (h : QueueInv active total q ns) (hfew : active ≤ 2)
    (hmem : (a, x) ∈ ns) (hlive : x.live = true) :
    ∃ res, completeQueue tp (some a) no sec msec total' (active - 1) q =
      .ok res := by
  obtain ⟨pre, post, rfl⟩ := List.append_of_mem hmem
  obtain ⟨next, hcell⟩ := h.chain.cell_of_mem hmem
  have hmark := h.linked.mark
    (advanceOldest tp (dropOldest no sec msec total' q.oldRequests)) hlive hcell
    fun c hc => Linked.dropOldest_recent hc
  have hcount := h.summary.reqCount_nonneg
  have hnone := h.summary.recent_none_iff
  -- the summary is empty afterwards, or covers a request
  have hdrop : (dropOldest no sec msec total' q.oldRequests).reqCount = 0 ∧
        (dropOldest no sec msec total' q.oldRequests).recentReq = none ∨
      1 ≤ (dropOldest no sec msec total' q.oldRequests).reqCount := by
    unfold dropOldest
    split
    · next hcond =>
        have hsome := (Bool.and_eq_true_iff.mp hcond).1
        have hne : q.oldRequests.reqCount ≠ 0 := by
          intro hzero
          rw [hnone.mpr hzero] at hsome
          cases hsome
        dsimp only
        by_cases hone : q.oldRequests.reqCount - 1 = 0
        · exact .inl ⟨hone, if_pos hone⟩
        · exact .inr (by omega)
    · by_cases hzero : q.oldRequests.reqCount = 0
      · exact .inl ⟨hzero, hnone.mpr hzero⟩
      · exact .inr (by omega)
  simp only [completeQueue, markNode, hcell, bind, Except.bind]
  by_cases hstop : 5 * (dropOldest no sec msec total' q.oldRequests).reqCount <
      active - 1
  · obtain ⟨hzero, hrecent⟩ : _ ∧ _ := hdrop.resolve_right (by omega)
    obtain rfl : active = 2 := by omega
    refine topUp_first_live hmark hrecent hzero ?_ ?_
    · intro hnil
      have hlength := hmark.live_count
      rw [hnil] at hlength
      cases hlength
    · exact Nat.lt_succ_of_le
        (hmark.chain.length_le_fresh hmark.bounded hmark.nodup)
  · exact ⟨_, topUp_stop _ _ hstop⟩

omit [CFloat F] in
/-- The release of the peer keeps the server open. -/
theorem OneServer.release {s : System F} {r : Request F} (tp : NgxTime)
    (h : OneServer s) (htier : r.data.peers = .primary)
    (hcurrent : r.data.current = some 0) :
    ∃ u r', releaseHeld s.upstream r 0 tp = .ok (u, r') ∧
      OneServer { s with upstream := u } := by
  obtain ⟨p, hpeer, hp⟩ := h.peer
  unfold releaseHeld
  split
  · simp only [ngxHttpUpstreamFreeRoundRobinPeer, htier, hcurrent,
      Upstream.tier]
    refine ⟨_, _, rfl, ⟨?_, h.clock, h.window⟩⟩
    refine ⟨releasePeer s.upstream.primary.single false tp.sec p, ?_, ?_⟩
    · simp only [Upstream.setTier, hpeer]
      rfl
    · unfold releasePeer
      split
      · exact ⟨hp.version, hp.heavy, hp.down, hp.fails, hp.maxConns⟩
      · refine ⟨hp.version, hp.heavy, hp.down, ?_, hp.maxConns⟩
        dsimp only
        rw [hp.fails]
        exact ite_self 0
  · exact ⟨_, _, rfl, h⟩

/-- During the first second the completion of one of at most two active
requests succeeds. -/
theorem OneServer.complete {s : System F} {r : Request F} {b : ℕ}
    {total : ℤ} {ns : QueueNodes} (h : OneServer s)
    (hversion : r.version = some 0) (htier : r.data.peers = .primary)
    (henter : r.enterTime = some b)
    (hactive : (s.upstream.versions 0).activeReq ≤ 2)
    (hqueue : QueueInv (s.upstream.versions 0).activeReq total
      (s.upstream.versions 0).queue ns)
    (hmem : (b, r.node) ∈ ns) (hlive : r.node.live = true) :
    ∃ u t, ngxHttpLogRequestTime (NgxTime.ofSec 1) s.upstream r = .ok (u, t) ∧
      OneServer { s with upstream := u } := by
  obtain ⟨p, hpeer, hp⟩ := h.peer
  obtain ⟨es, hwindow⟩ := h.window
  have hdue : (monitorDue (NgxTime.ofSec 1) s.upstream.primary).1 = false ∧
      (monitorDue (NgxTime.ofSec 1) s.upstream.primary).2.logTimeSec = 1 := by
    unfold monitorDue
    rcases h.clock with hclock | hclock
    · rw [if_pos hclock]
      exact ⟨rfl, rfl⟩
    · rw [hclock]
      exact ⟨rfl, hclock⟩
  obtain ⟨d, ds, hpush, hd⟩ := hwindow.pushError
    (predictionError (requestMs (NgxTime.ofSec 1) r) r
      (countCompletion (NgxTime.ofSec 1) r (s.upstream.versions 0)))
  obtain ⟨⟨q, m⟩, hq⟩ := completeQueue_few (NgxTime.ofSec 1) r.no r.startSec
    r.startMsec ((countCompletion (NgxTime.ofSec 1) r
        (s.upstream.versions 0)).completedRequests +
      ((s.upstream.versions 0).activeReq - 1)) hqueue hactive hmem hlive
  obtain ⟨v, hcomplete, hv⟩ : ∃ v, completeVersion (NgxTime.ofSec 1) r
      (s.upstream.versions 0) = .ok (v, m) ∧ v.basicProbability = d := by
    refine ⟨_, Except.bind_eq_ok.mpr ⟨d, hpush,
      Except.bind_eq_ok.mpr ⟨(q, m), ?_, rfl⟩⟩, rfl⟩
    rw [henter]
    exact hq
  unfold ngxHttpLogRequestTime
  simp only [hversion, htier, Upstream.tier, bind, Except.bind, hcomplete,
    monitorReport, hdue.1]
  refine ⟨_, _, rfl, ⟨p, ?_, hp⟩, .inr hdue.2, ds, ?_⟩
  · exact (monitorDue_same (NgxTime.ofSec 1) s.upstream.primary).1.trans hpeer
  · dsimp only
    rw [Function.update_self, hv]
    exact hd

/-! ## Runs -/

/-- A request that the server is working on, with its node. -/
structure Serving (r : Request F) (b : ℕ) : Prop where
  waiting : r.Waiting 0
  enterTime : r.enterTime = some b
  tier : r.data.peers = .primary
  current : r.data.current = some 0

/-- A further request arrives and is sent to the server. -/
theorem OneServer.send {conf : UpstreamConf}
    {ok : Ledger × System F → Event → Prop} {l : Ledger} {s : System F}
    (h : OneServer s) (hrun : Ledgered conf ok (l, s))
    (hfew : loggedCount s < 2147483642)
    (hok : ∀ x e, (∀ i tp, e ≠ .complete i tp) → ok x e) :
    ∃ s' r b, Ledgered conf ok (l.dispatch 0 b, s') ∧
      OneServer s' ∧ s'.requests = s.requests ++ [r] ∧ Serving r b ∧
      ((s.upstream.versions 0).activeReq ≠ 0 →
        ∃ c, (s'.upstream.versions 0).queue.oldRequests.recentReq = some c ∧
          c ≠ b) := by
  obtain ⟨p, hpeer, hp⟩ := h.peer
  have hqueues := (queuesOk_of_few hrun.reachable hfew).arrive conf
    (NgxTime.ofSec 1)
  have harrived : Ledgered conf ok
      (l, { s with
        requests := s.requests ++
          [ngxHttpUpstreamInitRequest conf.nextUpstreamTries s.upstream
            (NgxTime.ofSec 1)] }) :=
    Reach.step (e := .arrive (NgxTime.ofSec 1)) hrun
      (hok _ _ fun _ _ => by simp) ⟨rfl, rfl⟩
  obtain ⟨ns, hns, -⟩ := hqueues.queue 0
  have hlast : (s.requests ++
      [ngxHttpUpstreamInitRequest conf.nextUpstreamTries s.upstream
        (NgxTime.ofSec 1)])[s.requests.length]? =
      some (ngxHttpUpstreamInitRequest conf.nextUpstreamTries s.upstream
        (NgxTime.ofSec 1)) := List.getElem?_concat_length
  have hclear : ∀ n, (List.replicate n (0 : BitVec 64)).getD 0 0 = 0 := by
    intro n
    cases n with
    | zero => rfl
    | succ n => rfl
  obtain ⟨u, r, hget⟩ := openServer_dispatch (NgxTime.ofSec 1) hpeer hp
    (r := ngxHttpUpstreamInitRequest conf.nextUpstreamTries s.upstream
      (NgxTime.ofSec 1)) rfl (hclear _) (Int.natCast_nonneg _) hns
  obtain ⟨a, b, ha, hb, hmore⟩ := getRoundRobinPeer_attempt hget
  obtain ⟨hone, hversion, hlogged, htier, hcurrent⟩ :=
    OneServer.dispatch (s := { s with
      requests := s.requests ++
        [ngxHttpUpstreamInitRequest conf.nextUpstreamTries s.upstream
          (NgxTime.ofSec 1)] }) (i := s.requests.length)
      ⟨h.peer, h.clock, h.window⟩ rfl hget
  obtain rfl := Option.some.inj (ha.symm.trans hversion)
  refine ⟨_, r, b, ?_, hone, ?_, ⟨⟨hlogged, ha⟩, hb, htier, hcurrent⟩,
    dispatch_recent hget ha hb hns⟩
  · refine Reach.step (e := .connect s.requests.length (NgxTime.ofSec 1))
      harrived (hok _ _ fun _ _ => by simp) ⟨?_, ?_⟩
    · simp only [step, hlast, ngxHttpUpstreamConnect]
      rw [hget]
      rfl
    · exact (Ledger.attemptAt_dispatch hlast (getElem?_set_of_some r hlast)
        hmore ha hb).symm
  · simp

/-- One of at most two active requests completes. -/
theorem OneServer.finish {conf : UpstreamConf}
    {ok : Ledger × System F → Event → Prop} {l : Ledger} {s : System F}
    {i b : ℕ} {r : Request F} (h : OneServer s)
    (hrun : Ledgered conf ok (l, s))
    (hok : ok (l, s) (.complete i (NgxTime.ofSec 1)))
    (hfew : loggedCount s < 2147483642) (hi : s.requests[i]? = some r)
    (hr : Serving r b) (hactive : l.sent 0 ≤ l.done 0 + 2) :
    ∃ s', step conf s (.complete i (NgxTime.ofSec 1)) = .ok s' ∧
      Ledgered conf ok (l.complete (some 0), s') ∧
      OneServer s' ∧ loggedCount s' = loggedCount s + 1 := by
  obtain ⟨hlogged, hversion⟩ := hr.waiting
  obtain ⟨ns, hqueue, hnodes⟩ := (queuesOk_of_few hrun.reachable hfew).queue 0
  obtain ⟨b', henter, hmem⟩ := hnodes.mem i r hi hr.waiting
  obtain ⟨hmem, hlive⟩ := mem_liveNodes.mp hmem
  obtain ⟨ms, -, -, hlabelled⟩ := (ledgered_ok hrun).linked.queue 0
  have hfew : (s.upstream.versions 0).activeReq ≤ 2 := by
    rw [hlabelled.active]
    exact sub_le_iff_le_add'.mpr hactive
  obtain ⟨u, r', hrel, hopen⟩ :=
    h.release (NgxTime.ofSec 1) hr.tier hr.current
  obtain ⟨hversions, -, -, hr'⟩ := releaseHeld_spec hrel
  obtain ⟨u', t, hlog, hdone⟩ := hopen.complete (r := r') (b := b')
    (by rw [hr']; exact hversion) (by rw [hr']; exact hr.tier)
    (by rw [hr']; exact henter) (by rw [hversions]; exact hfew)
    (by rw [hversions]; exact hqueue) (by rw [hr']; exact hmem)
    (by rw [hr']; exact hlive)
  have hstep : step conf s (.complete i (NgxTime.ofSec 1)) =
      .ok { upstream := u'
            requests := s.requests.set i { r' with logged := true } } := by
    simp only [step, hi, hlogged, completeRequest, hrel, bind, Except.bind,
      hlog]
    rfl
  refine ⟨_, hstep, ?_, ⟨hdone.peer, hdone.clock, hdone.window⟩, ?_⟩
  · refine Reach.step hrun hok ⟨hstep, ?_⟩
    rw [Ledger.record, hi, Option.bind_some, hversion]
  · rw [loggedCount_set _ _ hi, hlogged]
    simp

theorem oneHeavySystem_oneServer : OneServer (oneHeavySystem F) where
  peer := ⟨_, rfl, rfl, rfl, rfl, rfl, rfl⟩
  clock := .inl rfl
  window := ⟨[], rfl, Heap.bounded_empty, List.nodup_nil, by simp, rfl⟩

/-- Any number of requests, up to the wrap of the counter, served one after
another. -/
theorem oneServer_count (conf : UpstreamConf) (n : ℕ) (hn : n < 2147483642) :
    ∃ (l : Ledger) (s : System F), Ledgered conf (fun _ _ => True) (l, s) ∧
      OneServer s ∧ loggedCount s = n ∧ l.sent 0 = n ∧ l.done 0 = n := by
  induction n with
  | zero =>
      exact ⟨Ledger.empty, oneHeavySystem F,
        .init ⟨rfl, oneHeavySystem_initial⟩, oneHeavySystem_oneServer, rfl, rfl,
        rfl⟩
  | succ n ih =>
      obtain ⟨l, s, hrun, hone, hcount, hsent, hdone⟩ := ih (by omega)
      obtain ⟨s₁, r, b, hrun₁, hone₁, hrequests, hr, -⟩ :=
        hone.send hrun (by omega) fun _ _ _ => trivial
      have hcount₁ : loggedCount s₁ = n := by
        rw [← hcount, loggedCount, hrequests, List.countP_append, loggedCount]
        simp [hr.waiting.1]
      obtain ⟨s₂, -, hrun₂, hone₂, hcount₂⟩ := hone₁.finish hrun₁ trivial (by omega)
        (i := s.requests.length) (by rw [hrequests]; simp) hr
        (by simp [Ledger.dispatch, hsent, hdone])
      refine ⟨_, s₂, hrun₂, hone₂, by omega, ?_, ?_⟩
      · simp [Ledger.complete, Ledger.dispatch, hsent]
      · simp [Ledger.complete, Ledger.dispatch, hdone]

end MultiversionBalancer
