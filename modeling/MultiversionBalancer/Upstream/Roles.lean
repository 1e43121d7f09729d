import MultiversionBalancer.Upstream.System

/-!
# The roles of the peers

No event changes the class of a peer, its version or its performance target.
So in every run the peer lists have the roles the constructor gave them: a
primary peer is heavy or light, its version is at its own position, and all
of them have the same target.
-/

namespace MultiversionBalancer

open Lib

variable {F : Type}

/-- What no event changes in a peer. -/
structure Role where
  heavy : Option ℕ
  light : Option ℕ
  version : Option ℕ
  pt : ℕ

def Peer.role (p : Peer) : Role where
  heavy := p.heavy
  light := p.light
  version := p.version
  pt := p.pt

/-- The roles of the peers of a tier. -/
def Upstream.roles (u : Upstream F) (t : Tier) : Option (List Role) :=
  (u.tier t).map fun ps => ps.peer.map Peer.role

/-- The performance target of a list only depends on the roles. -/
theorem peersPt_eq_of_roles {l m : List Peer}
    (h : l.map Peer.role = m.map Peer.role) : peersPt l = peersPt m := by
  have hfold : ∀ l : List Peer, peersPt l = (l.map Peer.role).foldl
      (fun pt p => if 0 < p.pt then (p.pt : ℤ) else pt) 0 := by
    intro l
    rw [List.foldl_map]
    rfl
  rw [hfold, hfold, h]

theorem roles_modify (l : List Peer) (i : ℕ) {f : Peer → Peer}
    (hf : ∀ p, (f p).role = p.role) :
    (l.modify i f).map Peer.role = l.map Peer.role := by
  refine List.ext_getElem? fun j => ?_
  rw [List.getElem?_map, List.getElem?_map, List.getElem?_modify]
  cases l[j]? with
  | none => rfl
  | some p =>
      by_cases hij : i = j
      · simp [hij, hf]
      · simp [hij]

@[simp] theorem roles_withVersions (u : Upstream F) (vs : Versions F) :
    ({ u with versions := vs } : Upstream F).roles = u.roles := by
  funext t
  simp [Upstream.roles]

theorem roles_setTier {u : Upstream F} {t : Tier} {ps ps' : Peers F}
    (hps : u.tier t = some ps)
    (h : ps'.peer.map Peer.role = ps.peer.map Peer.role) :
    (u.setTier t ps').roles = u.roles := by
  funext t'
  unfold Upstream.roles
  by_cases ht : t' = t
  · subst ht
    rw [tier_setTier_self, hps, Option.map_some, Option.map_some, h]
  · rw [tier_setTier_of_ne ps' ht]

theorem releaseHeld_roles {u u' : Upstream F} {r r' : Request F} {state : ℕ}
    {tp : NgxTime} (h : releaseHeld u r state tp = .ok (u', r')) :
    u'.roles = u.roles := by
  unfold releaseHeld at h
  split at h
  · obtain ⟨⟨u₁, r₁⟩, hfree, h⟩ := Except.bind_eq_ok.mp h
    obtain ⟨rfl, rfl⟩ := Prod.mk.inj (Except.ok.inj h)
    unfold ngxHttpUpstreamFreeRoundRobinPeer at hfree
    split at hfree
    · next ps i hps hcur =>
        obtain ⟨rfl, rfl⟩ := Prod.mk.inj (Except.ok.inj hfree)
        refine roles_setTier hps (roles_modify _ i fun p => ?_)
        unfold releasePeer
        split
        · rfl
        · split <;> rfl
    · cases hfree
  · obtain ⟨rfl, rfl⟩ := Prod.mk.inj (Except.ok.inj h)
    rfl

variable [CFloat F]

theorem takePeer_roles (now : ℤ) (i : ℕ) (ps : Peers F) :
    (takePeer now i ps).peer.map Peer.role = ps.peer.map Peer.role := by
  have htake := roles_modify (selectPeers now i ps).peer i
    (f := fun p => { p with conns := p.conns + 1 }) fun _ => rfl
  have hselect := roles_modify ps.peer i
    (f := fun p => { p with checked := now }) fun _ => rfl
  exact htake.trans hselect

theorem dispatch_roles {u u' : Upstream F} {r r' : Request F} {tp : NgxTime}
    {res : GetResult}
    (h : ngxHttpUpstreamGetRoundRobinPeer u r tp = .ok (res, u', r')) :
    u'.roles = u.roles := by
  obtain ⟨-, ps, i, p, a, ws, load, v, hps, -, -, -, -, rfl, -⟩ :=
    getRoundRobinPeer_ok h
  rw [roles_withVersions]
  exact roles_setTier hps (takePeer_roles tp.sec i ps)

theorem logRequestTime_roles {tp : NgxTime} {u u' : Upstream F}
    {r : Request F} {t : Text}
    (h : ngxHttpLogRequestTime tp u r = .ok (u', t)) : u'.roles = u.roles := by
  unfold ngxHttpLogRequestTime at h
  split at h
  · rw [← (Prod.mk.inj (Except.ok.inj h)).1]
  · split at h
    · cases h
    · next ps hps =>
        obtain ⟨⟨v, m⟩, -, h⟩ := Except.bind_eq_ok.mp h
        obtain ⟨⟨report, ps'⟩, hreport, h⟩ := Except.bind_eq_ok.mp h
        obtain ⟨rfl, -⟩ := Prod.mk.inj (Except.ok.inj h)
        obtain ⟨hpeer, -⟩ := monitorReport_ok hreport
        obtain ⟨hpeer₁, -⟩ := monitorDue_same tp ps
        rw [roles_withVersions]
        refine roles_setTier hps (congrArg (List.map Peer.role) ?_)
        exact hpeer.trans hpeer₁

theorem Change.roles {conf : UpstreamConf} {s s' : System F}
    (hc : Change conf s s') : s'.upstream.roles = s.upstream.roles := by
  cases hc with
  | arrive tp => rfl
  | dispatch hi hr hget => exact dispatch_roles hget
  | release tries hi hr hrel => exact releaseHeld_roles hrel
  | complete hi hr hlog => exact logRequestTime_roles hlog

/-! ## The roles the constructor gives -/

/-- The roles of a list: the version of a peer is at its own position, and a
peer with a version is either heavy or light. -/
structure RolesOk (l : List Role) : Prop where
  position : ∀ (i : ℕ) (x : Role) (a : ℕ), l[i]? = some x →
    x.version = some a → a = i
  class_iff : ∀ x ∈ l, x.version.isSome = true →
    (x.heavy.isSome = true ↔ x.light.isSome = false)

theorem rolesOk_of_unversioned {l : List Role}
    (h : ∀ x ∈ l, x.version = none) : RolesOk l where
  position := by
    intro i x a hi ha
    rw [h x (List.mem_of_getElem? hi)] at ha
    cases ha
  class_iff := by
    intro x hx hver
    rw [h x hx] at hver
    cases hver

theorem primaryPeers_roles (host : Text) (servers : List UpstreamServer) :
    RolesOk ((primaryPeers host servers : Peers F).peer.map Peer.role) := by
  have hrole : ∀ (i : ℕ) (x : Role),
      ((primaryPeers host servers : Peers F).peer.map Peer.role)[i]? =
        some x → ∃ sa : UpstreamServer × Text,
          x = (primaryPeer (scanPt servers) sa.1 sa.2 i).role := by
    intro i x hi
    rw [List.getElem?_map] at hi
    obtain ⟨p, hp, rfl⟩ := Option.map_eq_some_iff.mp hi
    have hp' : ((serverAddrs servers false).mapIdx fun i sa =>
        primaryPeer (scanPt servers) sa.1 sa.2 i)[i]? = some p := hp
    rw [List.getElem?_mapIdx] at hp'
    obtain ⟨sa, -, rfl⟩ := Option.map_eq_some_iff.mp hp'
    exact ⟨sa, rfl⟩
  constructor
  · intro i x a hi ha
    obtain ⟨sa, rfl⟩ := hrole i x hi
    exact (Option.some.inj ha).symm
  · intro x hx _
    obtain ⟨i, hi⟩ := List.mem_iff_getElem?.mp hx
    obtain ⟨sa, rfl⟩ := hrole i x hi
    simp only [Peer.role, primaryPeer]
    by_cases hw : sa.1.weight = 2
    · simp [hw]
    · simp [hw]

theorem peersPt_of_forall {l : List Peer} {c : ℕ} (hl : l ≠ [])
    (h : ∀ p ∈ l, p.pt = c) : peersPt l = c := by
  have hfold : ∀ (l : List Peer) (acc : ℤ), (∀ p ∈ l, p.pt = c) →
      (acc = c ∨ acc = 0 ∧ (l ≠ [] ∨ c = 0)) →
      l.foldl (fun pt p => if 0 < p.pt then (p.pt : ℤ) else pt) acc = c := by
    intro l
    induction l with
    | nil =>
        intro acc _ hacc
        rcases hacc with hacc | ⟨rfl, hne | rfl⟩
        · exact hacc
        · exact absurd rfl hne
        · rfl
    | cons p l ih =>
        intro acc hp hacc
        rw [List.foldl_cons, hp p (by simp)]
        refine ih _ (fun q hq => hp q (List.mem_cons_of_mem p hq)) ?_
        by_cases hc : 0 < c
        · rw [if_pos hc]
          exact .inl rfl
        · rw [if_neg hc]
          omega
  exact hfold l 0 h (.inr ⟨rfl, .inl hl⟩)

theorem scanPt_pos {servers : List UpstreamServer}
    (h : ∃ sv ∈ servers, sv.backup = false ∧ 0 < sv.pt) :
    0 < scanPt servers := by
  have hfold : ∀ (l : List UpstreamServer) (acc : ℕ),
      (0 < acc ∨ ∃ sv ∈ l, sv.backup = false ∧ 0 < sv.pt) →
      0 < l.foldl (fun pt s => if !s.backup && 0 < s.pt then s.pt else pt)
        acc := by
    intro l
    induction l with
    | nil =>
        intro acc hacc
        simpa using hacc
    | cons sv l ih =>
        intro acc hacc
        rw [List.foldl_cons]
        refine ih _ ?_
        by_cases hsv : sv.backup = false ∧ 0 < sv.pt
        · left
          simp [hsv.1, hsv.2]
        · rcases hacc with hacc | ⟨x, hx, hxb⟩
          · left
            split
            · next hcond => exact absurd (by simpa using hcond) hsv
            · exact hacc
          · rcases List.mem_cons.mp hx with rfl | hx
            · exact absurd hxb hsv
            · exact .inr ⟨x, hx, hxb⟩
  exact hfold servers 0 (.inr h)

/-- The roles of an upstream: only primary peers have versions. -/
structure Placed (u : Upstream F) : Prop where
  primary : ∀ l, u.roles .primary = some l → RolesOk l
  backup : ∀ l, u.roles .backup = some l → ∀ x ∈ l, x.version = none

theorem initRoundRobin_placed {us : UpstreamSrvConf} {u : Upstream F}
    (h : ngxHttpUpstreamInitRoundRobin us = some u) : Placed u := by
  have hdefault : ∀ addrs : List Text, ∀ x ∈ (addrs.map defaultPeer).map
      Peer.role, x.version = none := by
    intro addrs x hx
    obtain ⟨p, hp, rfl⟩ := List.mem_map.mp hx
    obtain ⟨name, -, rfl⟩ := List.mem_map.mp hp
    rfl
  unfold ngxHttpUpstreamInitRoundRobin at h
  split at h
  · next servers hservers =>
      have hprimary := primaryPeers_roles (F := F) us.host servers
      have hbackup : ∀ x ∈ (backupPeers us.host servers : Peers F).peer.map
          Peer.role, x.version = none := by
        intro x hx
        obtain ⟨p, hp, rfl⟩ := List.mem_map.mp hx
        obtain ⟨sa, -, rfl⟩ := List.mem_map.mp hp
        rfl
      split at h
      · cases h
      · dsimp only at h
        split at h
        · obtain rfl := Option.some.inj h
          refine ⟨fun l hl => ?_, fun l hl => by cases hl⟩
          obtain rfl := Option.some.inj hl
          exact hprimary
        · obtain rfl := Option.some.inj h
          refine ⟨fun l hl => ?_, fun l hl => ?_⟩
          · obtain rfl := Option.some.inj hl
            exact hprimary
          · obtain rfl := Option.some.inj hl
            exact hbackup
  · split at h
    · cases h
    · obtain ⟨addrs, -, rfl⟩ := Option.map_eq_some_iff.mp h
      refine ⟨fun l hl => ?_, fun l hl => by cases hl⟩
      obtain rfl := Option.some.inj hl
      exact rolesOk_of_unversioned (hdefault addrs)

/-- A target given on a primary server is the target of the primary list. -/
theorem initRoundRobin_target {us : UpstreamSrvConf} {u : Upstream F}
    (h : ngxHttpUpstreamInitRoundRobin us = some u)
    (hpt : ∀ servers, us.servers = some servers →
      ∃ sv ∈ servers, sv.backup = false ∧ 0 < sv.pt) :
    (∃ p ∈ u.primary.peer, p.version.isSome = true) →
      1 ≤ peersPt u.primary.peer := by
  have hall : ∀ (host : Text) (servers : List UpstreamServer),
      serverAddrs servers false ≠ [] → 0 < scanPt servers →
      1 ≤ peersPt (primaryPeers host servers : Peers F).peer := by
    intro host servers hne hscan
    have hpeers : (primaryPeers host servers : Peers F).peer =
        (serverAddrs servers false).mapIdx fun i sa =>
          primaryPeer (scanPt servers) sa.1 sa.2 i := rfl
    have hsame : ∀ p ∈ (primaryPeers host servers : Peers F).peer,
        p.pt = scanPt servers := by
      rw [hpeers]
      intro p hp
      obtain ⟨i, hi, rfl⟩ := List.mem_mapIdx.mp hp
      rfl
    have htarget := peersPt_of_forall (by rw [hpeers]; simpa using hne) hsame
    omega
  unfold ngxHttpUpstreamInitRoundRobin at h
  split at h
  · next servers hservers =>
      have hscan := scanPt_pos (hpt servers hservers)
      split at h
      · cases h
      · next hne =>
          dsimp only at h
          split at h
          · obtain rfl := Option.some.inj h
            exact fun _ => hall us.host servers hne hscan
          · obtain rfl := Option.some.inj h
            exact fun _ => hall us.host servers hne hscan
  · split at h
    · cases h
    · obtain ⟨addrs, -, rfl⟩ := Option.map_eq_some_iff.mp h
      rintro ⟨p, hp, hver⟩
      obtain ⟨name, -, rfl⟩ := List.mem_map.mp hp
      cases hver

/-- A version is allocated by `custom_server_init`, but for its address. -/
theorem initRoundRobin_fresh {us : UpstreamSrvConf} {u : Upstream F}
    (h : ngxHttpUpstreamInitRoundRobin us = some u) (a : ℕ) :
    ∃ id ip port, u.versions a =
      { (customServerInit id : VersionedServer F) with
        ip := ip
        port := port } := by
  have hfresh : ∀ id : ℤ, ∃ id' ip port,
      (customServerInit id : VersionedServer F) =
        { (customServerInit id' : VersionedServer F) with
          ip := ip
          port := port } := fun id => ⟨id, none, none, rfl⟩
  have hprimary : ∀ servers : List UpstreamServer, ∃ id ip port,
      primaryVersions servers a =
        { (customServerInit id : VersionedServer F) with
          ip := ip
          port := port } := by
    intro servers
    unfold primaryVersions
    split
    · unfold primaryVersion
      dsimp only
      split
      · exact hfresh _
      · exact ⟨_, _, _, rfl⟩
    · exact hfresh 0
  unfold ngxHttpUpstreamInitRoundRobin at h
  split at h
  · next servers hservers =>
      split at h
      · cases h
      · dsimp only at h
        split at h
        · obtain rfl := Option.some.inj h
          exact hprimary servers
        · obtain rfl := Option.some.inj h
          exact hprimary servers
  · split at h
    · cases h
    · obtain ⟨addrs, -, rfl⟩ := Option.map_eq_some_iff.mp h
      exact hfresh 0

/-! ## The roles in every run -/

omit [CFloat F] in
theorem Placed.of_roles {u u' : Upstream F} (h : Placed u)
    (hroles : u'.roles = u.roles) : Placed u' where
  primary := by
    rw [hroles]
    exact h.primary
  backup := by
    rw [hroles]
    exact h.backup

theorem reachable_placed {conf : UpstreamConf} {ok : System F → Event → Prop}
    {s : System F} (h : Reachable conf ok s) : Placed s.upstream := by
  have hinit : ∀ s : System F, Initial s → Placed s.upstream := by
    rintro s ⟨⟨us, hus⟩, -⟩
    exact initRoundRobin_placed hus
  refine h.change_invariant hinit ?_
  intro s s' hs hc
  exact hs.of_roles hc.roles

omit [CFloat F] in
/-- A versioned peer is a primary one, and its version is at its position. -/
theorem Placed.version {u : Upstream F} (h : Placed u) {t : Tier}
    {ps : Peers F} {i a : ℕ} {p : Peer} (hps : u.tier t = some ps)
    (hp : ps.peer[i]? = some p) (ha : p.version = some a) :
    t = .primary ∧ a = i := by
  have hroles : u.roles t = some (ps.peer.map Peer.role) := by
    rw [Upstream.roles, hps]
    rfl
  have hrole : (ps.peer.map Peer.role)[i]? = some p.role := by
    rw [List.getElem?_map, hp]
    rfl
  cases t with
  | primary => exact ⟨rfl, (h.primary _ hroles).position i p.role a hrole ha⟩
  | backup =>
      have hnone := h.backup _ hroles p.role (List.mem_of_getElem? hrole)
      have hsome : p.role.version = some a := ha
      rw [hnone] at hsome
      cases hsome

/-- The configuration of one heavy server with the given target. -/
def oneHeavy (pt : ℕ) : UpstreamSrvConf where
  host := []
  port := 0
  servers := some [.ofAddr "a:1" 2 pt]
  resolved := none

/-- One heavy server, before the first request. -/
def oneHeavySystem (F : Type) [CFloat F] : System F where
  upstream := listed [.ofAddr "a:1" 2 100]
  requests := []

theorem oneHeavySystem_initial : Initial (oneHeavySystem F) :=
  ⟨⟨oneHeavy 100, rfl⟩, rfl⟩

end MultiversionBalancer
