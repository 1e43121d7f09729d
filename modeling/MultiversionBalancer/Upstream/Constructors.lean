import MultiversionBalancer.Upstream.Dispatch

/-!
# What the constructors establish

Selection, dispatch and logging read through `peer->version` without a test.
`PeersSound` is what they rely on.  Only the constructor of explicitly listed
primary servers establishes it: the backup list, an implicit upstream and a
run-time resolution leave the version of every peer `NULL`.
-/

namespace MultiversionBalancer

open Lib

variable {F : Type} [CFloat F]

/-- What the consumers of a peer list rely on. -/
structure PeersSound (vs : Versions F) (ps : Peers F) : Prop where
  version : ∀ p ∈ ps.peer, ∃ a, p.version = some a ∧ Initialised (vs a)
  versioned : ∀ p ∈ ps.peer, p.Versioned
  target : ∀ p ∈ ps.peer, ∀ q ∈ ps.peer, p.pt = q.pt

/-- No consumer reads through a missing version of the list, whatever has
become of the versions. -/
structure ConsumersSafe (ps : Peers F) : Prop where
  getPeer : ∀ vs rrp tp, ngxHttpUpstreamGetPeer ps vs rrp tp ≠
    .error .nullVersion
  getFromPeers : ∀ t vs r tp, getFromPeers t ps vs r tp ≠ .error .nullVersion
  logRequestTime : ∀ u r tp, u.tier r.data.peers = some ps →
    ngxHttpLogRequestTime tp u r ≠ .error .nullVersion

/-! ## The consumers -/

theorem pruneHead_ne_nullVersion (fuel : ℕ) (q : RequestQueue) :
    pruneHead fuel q ≠ .error .nullVersion := by
  induction fuel generalizing q with
  | zero => simp [pruneHead]
  | succ fuel ih =>
      rw [pruneHead]
      split
      · simp
      · split
        · simp
        · split
          · exact ih _
          · simp

theorem seedOldest_ne_nullVersion (tp : NgxTime) (q : RequestQueue) :
    seedOldest tp q ≠ .error .nullVersion := by
  unfold seedOldest
  split
  · split
    · simp
    · simp
  · simp

theorem examineVersion_ne_nullVersion (tp : NgxTime) (pt : ℤ)
    (v : VersionedServer F) :
    examineVersion tp pt v ≠ .error .nullVersion := by
  refine Except.bind_ne_error ?_ fun q _ => by simp [pure, Except.pure]
  exact Except.bind_ne_error (pruneHead_ne_nullVersion _ _)
    fun q _ => seedOldest_ne_nullVersion tp q

/-- The heavy and the light candidate have versions. -/
def Candidates.Versioned (c : Candidates F) : Prop :=
  (∀ n, c.heavy = some n → n.2.version.isSome = true) ∧
    ∀ n, c.light = some n → n.2.version.isSome = true

omit [CFloat F] in
theorem deref_ne_nullVersion {vs : Versions F} {p : Option ℕ}
    (h : p.isSome = true) : vs.deref p ≠ .error .nullVersion := by
  cases p with
  | none => cases h
  | some a => simp [Versions.deref]

theorem considerPeer_ne_nullVersion {pt : ℤ} {vs : Versions F}
    {c : Candidates F} {i : ℕ} {p : Peer} {load : F} (hc : c.Versioned)
    (hp : p.version.isSome = true) :
    considerPeer pt vs c i p load ≠ .error .nullVersion := by
  unfold considerPeer
  split
  · simp
  · split
    · simp
    · split
      · simp
      · next j h hheavy =>
          refine Except.bind_ne_error (deref_ne_nullVersion ?_) fun hv _ => ?_
          · exact hc.1 (j, h) hheavy
          · exact Except.bind_ne_error (deref_ne_nullVersion hp)
              fun pv _ => by simp [pure, Except.pure]

theorem Candidates.Versioned.step {pt : ℤ} {vs : Versions F}
    {c c' : Candidates F} {i : ℕ} {p : Peer} {load : F} (hc : c.Versioned)
    (hp : p.version.isSome = true)
    (h : considerPeer pt vs c i p load = .ok c') : c'.Versioned := by
  obtain ⟨hheavy, hlight, -⟩ := considerPeer_ok h
  constructor
  · intro n hn
    rcases hheavy with heq | ⟨-, heq⟩
    · rw [heq] at hn
      exact hc.1 n hn
    · obtain rfl := Option.some.inj (heq.symm.trans hn)
      exact hp
  · intro n hn
    rcases hlight with heq | ⟨-, heq⟩
    · rw [heq] at hn
      exact hc.2 n hn
    · obtain rfl := Option.some.inj (heq.symm.trans hn)
      exact hp

theorem scanPeer_ne_nullVersion {tried : List (BitVec 64)} {tp : NgxTime}
    {pt : ℤ} {s : Versions F × Candidates F} {i : ℕ} {p : Peer}
    (hs : s.2.Versioned) (hp : p.version.isSome = true) :
    scanPeer tried tp pt s i p ≠ .error .nullVersion := by
  obtain ⟨a, ha⟩ := Option.isSome_iff_exists.mp hp
  unfold scanPeer
  split
  · simp only [ha]
    refine Except.bind_ne_error (examineVersion_ne_nullVersion tp pt _) ?_
    intro vl _
    exact Except.bind_ne_error (considerPeer_ne_nullVersion hs hp)
      fun c _ => by simp [pure, Except.pure]
  · simp

theorem scanPeers_ne_nullVersion {tried : List (BitVec 64)} {tp : NgxTime}
    {pt : ℤ} {ps : List Peer} {i : ℕ} {s : Versions F × Candidates F}
    (hs : s.2.Versioned) (hps : ∀ p ∈ ps, p.version.isSome = true) :
    scanPeers tried tp pt i ps s ≠ .error .nullVersion := by
  induction ps generalizing i s with
  | nil => simp [scanPeers]
  | cons p ps ih =>
      have hp := hps p (by simp)
      refine Except.bind_ne_error (scanPeer_ne_nullVersion hs hp) ?_
      intro s' hstep
      refine ih ?_ fun q hq => hps q (List.mem_cons_of_mem p hq)
      by_cases hel : eligible tried tp.sec i p = true
      · obtain ⟨_, _, _, _, _, _, hcons⟩ := scanPeer_ok hel hstep
        exact hs.step hp hcons
      · rw [scanPeer, if_neg hel] at hstep
        obtain rfl := Except.ok.inj hstep
        exact hs

theorem chooseBest_ne_nullVersion {pt : ℤ} {vs : Versions F}
    {c : Candidates F} (hc : c.Versioned) :
    chooseBest pt vs c ≠ .error .nullVersion := by
  unfold chooseBest
  split
  · simp
  · simp
  · next h l hheavy hlight =>
      refine Except.bind_ne_error (deref_ne_nullVersion ?_) fun hv _ => ?_
      · exact hc.1 h hheavy
      · dsimp only
        split
        · simp
        · split
          · simp
          · simp

theorem getPeer_ne_nullVersion {ps : Peers F}
    (hps : ∀ p ∈ ps.peer, p.version.isSome = true) (vs : Versions F)
    (rrp : RRPeerData) (tp : NgxTime) :
    ngxHttpUpstreamGetPeer ps vs rrp tp ≠ .error .nullVersion := by
  refine Except.bind_ne_error (scanPeers_ne_nullVersion ?_ hps) ?_
  · exact ⟨by simp [noCandidates], by simp [noCandidates]⟩
  · intro s hscan
    have hs := (Scanned.start vs).scanPeers hscan
    have hc : s.2.Versioned :=
      ⟨fun n hn => hs.versioned n (hs.heavy_mem n hn),
        fun n hn => hs.versioned n (hs.light_mem n hn)⟩
    refine Except.bind_ne_error (chooseBest_ne_nullVersion hc) ?_
    intro best hbest
    cases best with
    | none => simp
    | some n =>
        have hver : n.2.version.isSome = true := by
          rcases chooseBest_mem hbest with hn | hn
          · exact hc.1 n hn
          · exact hc.2 n hn
        obtain ⟨a, ha⟩ := Option.isSome_iff_exists.mp hver
        simp [ha, pure, Except.pure]

theorem appendNode_ne_nullVersion (x : ReqTime) (q : RequestQueue) :
    appendNode x q ≠ .error .nullVersion := by
  unfold appendNode
  dsimp only
  split
  · simp
  · split
    · simp
    · split
      · simp
      · simp

theorem getFromPeers_ne_nullVersion {ps : Peers F}
    (hps : ∀ p ∈ ps.peer, p.version.isSome = true) (t : Tier)
    (vs : Versions F) (r : Request F) (tp : NgxTime) :
    getFromPeers t ps vs r tp ≠ .error .nullVersion := by
  refine Except.bind_ne_error (getPeer_ne_nullVersion hps vs r.data tp) ?_
  intro sel hsel
  obtain ⟨i, p, a, ws, load, hbest, hget, -, hver, -, hpeers, -⟩ :=
    getPeer_ok hsel
  have htaken : ((takePeer tp.sec i ps).peer[i]?).bind (·.version) = some a := by
    simp [takePeer, selectPeers, hget, hver]
  rw [takePeer] at htaken
  simp only [hbest, hpeers, htaken]
  refine Except.bind_ne_error ?_ fun vr _ => by simp [pure, Except.pure]
  exact Except.bind_ne_error (appendNode_ne_nullVersion _ _)
    fun q _ => by simp [pure, Except.pure]

theorem topUp_ne_nullVersion (active : ℤ) (fuel : ℕ) (multiple : Bool)
    (q : RequestQueue) : topUp active fuel multiple q ≠ .error .nullVersion := by
  induction fuel generalizing multiple q with
  | zero =>
      rw [topUp]
      split
      · simp
      · simp
  | succ fuel ih =>
      rw [topUp]
      split
      · split
        · split
          · simp
          · split
            · simp
            · split
              · exact ih _ _
              · exact ih _ _
        · split
          · simp
          · split
            · simp
            · split
              · simp
              · split
                · exact ih _ _
                · exact ih _ _
      · simp

theorem markNode_ne_nullVersion (enter : Option ℕ) (q : RequestQueue) :
    markNode enter q ≠ .error .nullVersion := by
  unfold markNode
  split
  · simp
  · split
    · simp
    · simp

theorem pushError_ne_nullVersion (val : F) (d : ProbabilityDistribution F) :
    pushError val d ≠ .error .nullVersion := by
  refine Except.bind_ne_error ?_ fun nodes _ => ?_
  · unfold linkError
    dsimp only
    split
    · simp
    · split
      · simp
      · split
        · simp
        · simp
  · dsimp only
    split
    · split
      · simp
      · split
        · simp
        · simp [pure, Except.pure]
    · simp [pure, Except.pure]

theorem completeVersion_ne_nullVersion (tp : NgxTime) (r : Request F)
    (v : VersionedServer F) :
    completeVersion tp r v ≠ .error .nullVersion := by
  refine Except.bind_ne_error (pushError_ne_nullVersion _ _) fun d _ => ?_
  refine Except.bind_ne_error ?_ fun qm _ => by simp [pure, Except.pure]
  exact Except.bind_ne_error (markNode_ne_nullVersion _ _)
    fun q _ => topUp_ne_nullVersion _ _ _ _

omit [CFloat F] in
theorem derefAll_ne_nullVersion {ps : List Peer}
    (hps : ∀ p ∈ ps, p.version.isSome = true) (vs : Versions F) :
    derefAll vs ps ≠ .error .nullVersion := by
  induction ps with
  | nil => simp [derefAll, pure, Except.pure]
  | cons p ps ih =>
      rw [derefAll, List.mapM_cons]
      refine Except.bind_ne_error (deref_ne_nullVersion (hps p (by simp))) ?_
      intro v _
      refine Except.bind_ne_error ?_ fun l _ => by simp [pure, Except.pure]
      exact ih fun q hq => hps q (List.mem_cons_of_mem p hq)

theorem monitorReport_ne_nullVersion {ps : Peers F}
    (hps : ∀ p ∈ ps.peer, p.version.isSome = true) (due : Bool)
    (tp : NgxTime) (vs : Versions F) :
    monitorReport due tp ps vs ≠ .error .nullVersion := by
  unfold monitorReport
  split
  · refine Except.bind_ne_error ?_ fun x _ => ?_
    · unfold customSystemMonitorCapacity
      dsimp only
      split
      · simp
      · exact Except.bind_ne_error (derefAll_ne_nullVersion hps vs)
          fun l _ => by simp [pure, Except.pure]
    · split
      · simp
      · simp [pure, Except.pure]
  · simp

theorem logRequestTime_ne_nullVersion {ps : Peers F}
    (hps : ∀ p ∈ ps.peer, p.version.isSome = true) {u : Upstream F}
    {r : Request F} (tp : NgxTime) (htier : u.tier r.data.peers = some ps) :
    ngxHttpLogRequestTime tp u r ≠ .error .nullVersion := by
  unfold ngxHttpLogRequestTime
  split
  · simp
  · simp only [htier]
    refine Except.bind_ne_error (completeVersion_ne_nullVersion tp r _) ?_
    intro vm _
    refine Except.bind_ne_error ?_ fun rp _ => by simp [pure, Except.pure]
    refine monitorReport_ne_nullVersion ?_ _ tp _
    unfold monitorDue
    split
    · exact hps
    · exact hps

theorem consumersSafe_of_versions {ps : Peers F}
    (hps : ∀ p ∈ ps.peer, p.version.isSome = true) : ConsumersSafe ps where
  getPeer := getPeer_ne_nullVersion hps
  getFromPeers := getFromPeers_ne_nullVersion hps
  logRequestTime := fun _ _ tp htier =>
    logRequestTime_ne_nullVersion hps tp htier

/-! ## The constructors -/

/-- What a peer list is built from: an upstream block, or an address resolved
at run time. -/
inductive PeerSource where
  | conf (us : UpstreamSrvConf)
  | resolved (ur : UpstreamResolved)

/-- The constructor for a source; `none` is `NGX_ERROR`. -/
def PeerSource.build : PeerSource → Option (Upstream F)
  | .conf us => ngxHttpUpstreamInitRoundRobin us
  | .resolved ur => some (ngxHttpUpstreamCreateRoundRobinPeer ur)

/-- The addresses that do not come from an explicitly listed primary server:
those of backup servers, of an implicit upstream and of a run-time
resolution. -/
def PeerSource.unlisted : PeerSource → List Text
  | .conf us =>
      match us.servers with
      | some servers => (serverAddrs servers true).map (·.2)
      | none => us.resolved.getD []
  | .resolved ur =>
      if ur.sockaddr then [ur.name.getD ur.host] else ur.addrs

def UpstreamSound (u : Upstream F) : Prop :=
  ∀ t ps, u.tier t = some ps → PeersSound u.versions ps ∧ ConsumersSafe ps

theorem primaryPeers_sound (host : Text) (servers : List UpstreamServer) :
    PeersSound (primaryVersions servers)
      (primaryPeers host servers : Peers F) where
  version := by
    intro p hp
    obtain ⟨i, s, name, rfl⟩ := mem_primaryPeers hp
    exact ⟨i, rfl, primaryVersions_initialised servers i⟩
  versioned := primaryPeers_versioned host servers
  target := by
    intro p hp q hq
    obtain ⟨i, s, name, rfl⟩ := mem_primaryPeers hp
    obtain ⟨j, s', name', rfl⟩ := mem_primaryPeers hq
    rfl

theorem PeersSound.consumersSafe {vs : Versions F} {ps : Peers F}
    (h : PeersSound vs ps) : ConsumersSafe ps := by
  apply consumersSafe_of_versions
  intro p hp
  obtain ⟨a, ha, -⟩ := h.version p hp
  rw [ha]
  rfl

theorem not_upstreamSound {u : Upstream F} {t : Tier} {ps : Peers F}
    {p : Peer} (htier : u.tier t = some ps) (hp : p ∈ ps.peer)
    (hnull : p.version = none) : ¬UpstreamSound u := by
  intro h
  obtain ⟨a, ha, -⟩ := (h t ps htier).1.version p hp
  rw [hnull] at ha
  cases ha

/-- A list of peers without versions is sound exactly when it is empty. -/
theorem upstreamSound_default_iff (u : Upstream F) (addrs : List Text)
    (hpeer : u.primary.peer = addrs.map defaultPeer)
    (hbackup : u.backup = none) : UpstreamSound u ↔ addrs = [] := by
  constructor
  · intro h
    cases addrs with
    | nil => rfl
    | cons addr addrs =>
        have hmem : defaultPeer addr ∈ u.primary.peer := by simp [hpeer]
        exact absurd h (not_upstreamSound (t := .primary) rfl hmem rfl)
  · rintro rfl t ps ht
    cases t with
    | backup =>
        rw [Upstream.tier, hbackup] at ht
        cases ht
    | primary =>
        obtain rfl := Option.some.inj ht
        have hnil : u.primary.peer = [] := hpeer
        have hsound : PeersSound u.versions u.primary :=
          { version := by simp [hnil]
            versioned := by simp [hnil]
            target := by simp [hnil] }
        exact ⟨hsound, hsound.consumersSafe⟩

/-- The constructors establish what the consumers rely on exactly when every
address comes from an explicitly listed primary server. -/
theorem build_sound_iff (src : PeerSource) (u : Upstream F)
    (h : src.build = some u) : UpstreamSound u ↔ src.unlisted = [] := by
  cases src with
  | resolved ur =>
      obtain rfl := Option.some.inj h
      exact upstreamSound_default_iff _ _ rfl rfl
  | conf us =>
      rw [PeerSource.build, ngxHttpUpstreamInitRoundRobin] at h
      cases hservers : us.servers with
      | none =>
          rw [hservers] at h
          dsimp only at h
          split at h
          · cases h
          · obtain ⟨addrs, haddrs, rfl⟩ := Option.map_eq_some_iff.mp h
            have hunlisted : (PeerSource.conf us).unlisted = addrs := by
              simp [PeerSource.unlisted, hservers, haddrs]
            rw [hunlisted]
            exact upstreamSound_default_iff _ _ rfl rfl
      | some servers =>
          rw [hservers] at h
          have hunlisted : (PeerSource.conf us).unlisted =
              (serverAddrs servers true).map (·.2) := by
            simp [PeerSource.unlisted, hservers]
          rw [hunlisted, List.map_eq_nil_iff]
          dsimp only at h
          split at h
          · cases h
          · split at h
            · next hnil =>
                obtain rfl := Option.some.inj h
                refine ⟨fun _ => hnil, fun _ t ps ht => ?_⟩
                cases t with
                | backup => cases ht
                | primary =>
                    obtain rfl := Option.some.inj ht
                    have hsound := primaryPeers_sound (F := F) us.host servers
                    exact ⟨hsound, hsound.consumersSafe⟩
            · next hne =>
                obtain rfl := Option.some.inj h
                refine ⟨fun hsound => ?_, fun hnil => absurd hnil hne⟩
                obtain ⟨sa, hsa⟩ := List.exists_mem_of_ne_nil _ hne
                have hmem : serverPeer sa.1 sa.2 ∈
                    (backupPeers us.host servers : Peers F).peer :=
                  List.mem_map_of_mem hsa
                exact absurd hsound
                  (not_upstreamSound (t := .backup) rfl hmem rfl)

/-- An upstream block with one heavy and one light server. -/
def listedConf : UpstreamSrvConf where
  host := []
  port := 0
  servers := some [heavyServer "a:1", lightServer "b:1"]
  resolved := none

theorem build_sound_listed :
    UpstreamSound
      (listed [heavyServer "a:1", lightServer "b:1"] : Upstream RatFloat) :=
  (build_sound_iff (.conf listedConf) _ rfl).mpr rfl

/-- An upstream that `proxy_pass` defines implicitly. -/
def implicitConf : UpstreamSrvConf where
  host := "localhost".toList
  port := 80
  servers := none
  resolved := some ["127.0.0.1:80".toList]

/-- The first selection from an implicit upstream reads through a missing
version. -/
theorem build_unsound_implicit :
    ∃ u : Upstream RatFloat, (PeerSource.conf implicitConf).build = some u ∧
      ngxHttpUpstreamGetPeer u.primary u.versions freshRecord
        (NgxTime.ofSec 1) = .error .nullVersion ∧
      ¬UpstreamSound u := by
  refine ⟨_, rfl, rfl, ?_⟩
  exact not_upstreamSound (t := .primary) rfl (List.mem_singleton_self _) rfl

end MultiversionBalancer
