import MultiversionBalancer.Upstream.Selection

/-!
# Dispatch

`ngx_http_upstream_get_round_robin_peer` selects a peer and enqueues the
request at its version.  A selection that returns at all returns a peer, so a
dispatch stays on the list it starts from: the code after the label `failed`
is never reached.
-/

namespace MultiversionBalancer

open Lib

variable {F : Type} [CFloat F]

/-! ## What a dispatch does -/

/-- The request of an attempt on the peer at position `i`, before it is
buffered. -/
def Request.take (r : Request F) (i : ℕ) : Request F :=
  { r with
    data := { r.data with current := some i }
    sockaddr := true
    attempts := r.attempts ++ [(r.data.peers, i)] }

/-- The peers object after the peer at position `i` was selected and taken. -/
def takePeer (now : ℤ) (i : ℕ) (ps : Peers F) : Peers F :=
  let ps := selectPeers now i ps
  { ps with peer := ps.peer.modify i fun p => { p with conns := p.conns + 1 } }

theorem bufferRequestData_ok {tp : NgxTime} {a : ℕ}
    {v v' : VersionedServer F} {r r' : Request F}
    (h : ngxHttpUpstreamBufferRequestData tp a v r = .ok (v', r')) :
    appendNode ⟨r.startSec, r.startMsec, v.completedRequests + v.activeReq⟩
        v.queue = .ok v'.queue ∧
      v'.activeReq = v.activeReq ∧
      v'.completedRequests = v.completedRequests ∧
      v'.reqUpperBound = v.reqUpperBound ∧
      r' = { r with
        version := some a
        reqFinishBefore := v.completedRequests
        no := v.completedRequests + v.activeReq
        lastComplete := v.latest
        predict := v.predict
        enterTime := some v.queue.nodes.fresh
        serviceTimeRecord := currServiceTime v' } := by
  obtain ⟨q, hq, h⟩ := Except.bind_eq_ok.mp h
  obtain ⟨rfl, rfl⟩ := Prod.mk.inj (Except.ok.inj h)
  exact ⟨hq, rfl, rfl, rfl, rfl⟩

/-- The versions `ws` that a selection from `vs` leaves behind before it
changes the chosen one. -/
structure ScannedTo (ps : Peers F) (tried : List (BitVec 64)) (tp : NgxTime)
    (vs ws : Versions F) : Prop where
  all : ∀ b, Relation.ReflTransGen (Examined tp (peersPt ps.peer)) (vs b)
    (ws b)
  each : ∀ (j : ℕ) (q : Peer) (b : ℕ), ps.peer[j]? = some q →
    eligible tried tp.sec j q = true → q.version = some b →
    Relation.TransGen (Examined tp (peersPt ps.peer)) (vs b) (ws b)

theorem getFromPeers_ok {t : Tier} {ps ps' : Peers F} {vs vs' : Versions F}
    {r r' : Request F} {tp : NgxTime} {found : Bool}
    (ht : r.data.peers = t)
    (h : getFromPeers t ps vs r tp = .ok (found, ps', vs', r')) :
    found = true ∧ ∃ i p a ws load v, ps.peer[i]? = some p ∧
      eligible r.data.tried tp.sec i p = true ∧ p.version = some a ∧
      ScannedTo ps r.data.tried tp vs ws ∧
      ps' = takePeer tp.sec i ps ∧ vs' = Function.update ws a v ∧
      ngxHttpUpstreamBufferRequestData tp a (selectVersion tp load (ws a))
        (r.take i) = .ok (v, r') := by
  subst ht
  obtain ⟨sel, hsel, h⟩ := Except.bind_eq_ok.mp h
  obtain ⟨i, p, a, ws, load, hbest, hget, hel, hver, hall, heach, hpeers,
    hvs⟩ := getPeer_examined hsel
  have htaken : ((takePeer tp.sec i ps).peer[i]?).bind (·.version) = some a := by
    simp [takePeer, selectPeers, hget, hver]
  simp only [hbest, hpeers] at h
  rw [takePeer] at htaken
  simp only [htaken] at h
  obtain ⟨⟨v, r₁⟩, hbuf, h⟩ := Except.bind_eq_ok.mp h
  have hpair : (true, takePeer tp.sec i ps,
      Function.update sel.versions a v, r₁) = (found, ps', vs', r') :=
    Except.ok.inj h
  cases hpair
  refine ⟨rfl, i, p, a, ws, load, v, hget, hel, hver, ⟨hall, heach⟩, rfl, ?_,
    ?_⟩
  · rw [hvs, Function.update_idem]
  · rw [hvs, Function.update_self] at hbuf
    exact hbuf

/-- A dispatch that returns has found a peer of the list it started from. -/
theorem getRoundRobinPeer_scanned {u u' : Upstream F} {r r' : Request F}
    {tp : NgxTime} {res : GetResult}
    (h : ngxHttpUpstreamGetRoundRobinPeer u r tp = .ok (res, u', r')) :
    res = .ok ∧ ∃ ps i p a ws load v, u.tier r.data.peers = some ps ∧
      ps.peer[i]? = some p ∧ eligible r.data.tried tp.sec i p = true ∧
      p.version = some a ∧
      ScannedTo ps r.data.tried tp u.versions ws ∧
      u' = { u.setTier r.data.peers (takePeer tp.sec i ps) with
        versions := Function.update ws a v } ∧
      ngxHttpUpstreamBufferRequestData tp a (selectVersion tp load (ws a))
        (r.take i) = .ok (v, r') := by
  unfold ngxHttpUpstreamGetRoundRobinPeer at h
  cases hps : u.tier r.data.peers with
  | none =>
      rw [hps] at h
      cases h
  | some ps =>
      rw [hps] at h
      obtain ⟨⟨found, ps', vs', r₁⟩, hget, h⟩ := Except.bind_eq_ok.mp h
      obtain ⟨rfl, i, p, a, ws, load, v, hi, hel, hver, hscan, rfl, rfl, hbuf⟩ :=
        getFromPeers_ok rfl hget
      have hdata : r₁.data.peers = r.data.peers := by
        obtain ⟨-, -, -, -, hr⟩ := bufferRequestData_ok hbuf
        rw [hr]
        rfl
      simp only [if_true, hdata] at h
      have hpair : (GetResult.ok,
          { u.setTier r.data.peers (takePeer tp.sec i ps) with
            versions := Function.update ws a v }, r₁) = (res, u', r') :=
        Except.ok.inj h
      cases hpair
      exact ⟨rfl, ps, i, p, a, ws, load, v, rfl, hi, hel, hver, hscan, rfl,
        hbuf⟩

/-- What a dispatch does to the requests: nothing but on the version of the
peer it has taken. -/
theorem getRoundRobinPeer_ok {u u' : Upstream F} {r r' : Request F}
    {tp : NgxTime} {res : GetResult}
    (h : ngxHttpUpstreamGetRoundRobinPeer u r tp = .ok (res, u', r')) :
    res = .ok ∧ ∃ ps i p a ws load v, u.tier r.data.peers = some ps ∧
      ps.peer[i]? = some p ∧ eligible r.data.tried tp.sec i p = true ∧
      p.version = some a ∧ (∀ b, SameRequests (u.versions b) (ws b)) ∧
      u' = { u.setTier r.data.peers (takePeer tp.sec i ps) with
        versions := Function.update ws a v } ∧
      ngxHttpUpstreamBufferRequestData tp a (selectVersion tp load (ws a))
        (r.take i) = .ok (v, r') := by
  obtain ⟨hres, ps, i, p, a, ws, load, v, hps, hget, hel, hver, hscan, hu,
    hbuf⟩ := getRoundRobinPeer_scanned h
  exact ⟨hres, ps, i, p, a, ws, load, v, hps, hget, hel, hver,
    fun b => sameRequests_of_examined (hscan.all b), hu, hbuf⟩

/-! ## The busy path -/

/-- The list behind the `next` pointer of a list. -/
def Upstream.next (u : Upstream F) : Tier → Option (Peers F)
  | .primary => u.backup
  | .backup => none

/-- The counters that a dispatch without a peer must leave alone: those of the
lists, and those of the versions. -/
structure SameCounters (u u' : Upstream F) : Prop where
  lists : ∀ t, (u'.tier t).map (fun ps =>
      (ps.peer.map (·.conns), ps.activeReq, ps.reqCount, ps.maxReq)) =
    (u.tier t).map fun ps =>
      (ps.peer.map (·.conns), ps.activeReq, ps.reqCount, ps.maxReq)
  active : ∀ a, (u'.versions a).activeReq = (u.versions a).activeReq
  queue : ∀ a, (u'.versions a).queue = (u.versions a).queue
  serviceTime : ∀ a, (u'.versions a).serviceTime = (u.versions a).serviceTime

/-- The eligible peers of the list the request is on. -/
def Upstream.eligibleNow (u : Upstream F) (r : Request F) (tp : NgxTime) :
    List (ℕ × Peer) :=
  match u.tier r.data.peers with
  | none => []
  | some ps => eligiblePeers r.data.tried tp.sec 0 ps.peer

/-- The dispatch reaches the label `failed`. -/
def FallsBack (u : Upstream F) (r : Request F) (tp : NgxTime) : Prop :=
  ∃ ps ps' vs' r', u.tier r.data.peers = some ps ∧
    getFromPeers r.data.peers ps u.versions r tp = .ok (false, ps', vs', r')

/-- What a dispatch is to do about a missing peer: busy exactly when neither
its list nor the one behind it has an eligible peer, on to the list behind it
exactly when its own has none, and no counter changed when busy. -/
structure BusyPath (u : Upstream F) (r : Request F) (tp : NgxTime) :
    Prop where
  busy_iff : (∃ u' r', ngxHttpUpstreamGetRoundRobinPeer u r tp =
      .ok (.busy, u', r')) ↔
    u.eligibleNow r tp = [] ∧ ∀ b, u.next r.data.peers = some b →
      eligiblePeers (fallBack b r).data.tried tp.sec 0 b.peer = []
  fallBack_iff : ∀ b, u.next r.data.peers = some b →
    (FallsBack u r tp ↔ u.eligibleNow r tp = [])
  unchanged : ∀ u' r', ngxHttpUpstreamGetRoundRobinPeer u r tp =
    .ok (.busy, u', r') → SameCounters u u'

theorem getRoundRobinPeer_not_busy (u : Upstream F) (r : Request F)
    (tp : NgxTime) :
    ¬∃ u' r', ngxHttpUpstreamGetRoundRobinPeer u r tp = .ok (.busy, u', r') := by
  rintro ⟨u', r', h⟩
  cases (getRoundRobinPeer_ok h).1

/-- A dispatch never reaches the label `failed`. -/
theorem not_fallsBack (u : Upstream F) (r : Request F) (tp : NgxTime) :
    ¬FallsBack u r tp := by
  rintro ⟨ps, ps', vs', r', -, h⟩
  cases (getFromPeers_ok rfl h).1

omit [CFloat F] in
theorem eligibleNow_ne_nil_iff {u : Upstream F} {r : Request F}
    {tp : NgxTime} :
    u.eligibleNow r tp ≠ [] ↔
      ∃ ps i p, u.tier r.data.peers = some ps ∧ ps.peer[i]? = some p ∧
        eligible r.data.tried tp.sec i p = true := by
  unfold Upstream.eligibleNow
  cases hps : u.tier r.data.peers with
  | none => simp
  | some ps =>
      constructor
      · intro hne
        obtain ⟨⟨i, p⟩, hmem⟩ := List.exists_mem_of_ne_nil _ hne
        exact ⟨ps, i, p, rfl, mem_eligiblePeers_zero.mp hmem⟩
      · rintro ⟨ps', i, p, hps', hip⟩
        obtain rfl := Option.some.inj hps'
        have hmem : (i, p) ∈ eligiblePeers r.data.tried tp.sec 0 ps.peer :=
          mem_eligiblePeers_zero.mpr hip
        exact List.ne_nil_of_mem hmem

/-- The busy path is as it should be exactly when it is not needed: when the
list of the request has an eligible peer. -/
theorem busyPath_iff (u : Upstream F) (r : Request F) (tp : NgxTime) :
    BusyPath u r tp ↔
      ∃ ps i p, u.tier r.data.peers = some ps ∧ ps.peer[i]? = some p ∧
        eligible r.data.tried tp.sec i p = true := by
  have hbusy := getRoundRobinPeer_not_busy u r tp
  have hback := not_fallsBack u r tp
  rw [← eligibleNow_ne_nil_iff]
  constructor
  · intro h hnone
    cases hnext : u.next r.data.peers with
    | none =>
        apply hbusy
        refine h.busy_iff.mpr ⟨hnone, ?_⟩
        intro b hb
        rw [hnext] at hb
        cases hb
    | some b =>
        apply hback
        exact (h.fallBack_iff b hnext).mpr hnone
  · intro hne
    exact
      { busy_iff := iff_of_false hbusy fun h => hne h.1
        fallBack_iff := fun b _ => iff_of_false hback hne
        unchanged := fun u' r' h => absurd ⟨u', r', h⟩ hbusy }

def listed (servers : List UpstreamServer) : Upstream F where
  primary := primaryPeers [] servers
  backup := none
  versions := primaryVersions servers

/-- The only server is down: no peer is eligible, and the missing peer is read
through instead of being reported as busy. -/
theorem not_busyPath_down :
    ngxHttpUpstreamGetRoundRobinPeer
        (listed [{ heavyServer "a:1" with down := true }] : Upstream RatFloat)
        (ngxHttpUpstreamInitRequest 0
          (listed [{ heavyServer "a:1" with down := true }])
          (NgxTime.ofSec 1))
        (NgxTime.ofSec 1) = .error .nullBest ∧
      ¬BusyPath
        (listed [{ heavyServer "a:1" with down := true }] : Upstream RatFloat)
        (ngxHttpUpstreamInitRequest 0
          (listed [{ heavyServer "a:1" with down := true }])
          (NgxTime.ofSec 1))
        (NgxTime.ofSec 1) := by
  refine ⟨rfl, ?_⟩
  intro h
  have hbusy := h.busy_iff.mpr ⟨rfl, fun b hb => by cases hb⟩
  exact getRoundRobinPeer_not_busy _ _ _ hbusy

end MultiversionBalancer
