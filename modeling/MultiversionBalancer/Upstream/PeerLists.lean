import MultiversionBalancer.Upstream.Queue

/-!
# Peers of a built list

What the constructor of explicitly listed servers establishes: each of its
peers has a version of its own, of exactly one class, and that version is
freshly initialised.
-/

namespace MultiversionBalancer

open Lib

variable {F : Type} [CFloat F]

/-- A peer with a version, of exactly one class. -/
def Peer.Versioned (p : Peer) : Prop :=
  ∃ a, p.version = some a ∧
    (p.heavy = some a ∧ p.light = none ∨ p.heavy = none ∧ p.light = some a)

theorem Peer.Versioned.light_isSome {p : Peer} (hp : p.Versioned) :
    p.light.isSome = !p.heavy.isSome := by
  obtain ⟨a, -, ⟨hh, hl⟩ | ⟨hh, hl⟩⟩ := hp
  · simp [hh, hl]
  · simp [hh, hl]

theorem mem_primaryPeers {host : Text} {servers : List UpstreamServer}
    {p : Peer} (h : p ∈ (primaryPeers host servers : Peers F).peer) :
    ∃ (i : ℕ) (s : UpstreamServer) (name : Text),
      p = primaryPeer (scanPt servers) s name i := by
  obtain ⟨i, hi, rfl⟩ := List.mem_mapIdx.mp h
  exact ⟨i, _, _, rfl⟩

theorem primaryPeers_versioned (host : Text) (servers : List UpstreamServer) :
    ∀ p ∈ (primaryPeers host servers : Peers F).peer, p.Versioned := by
  intro p hp
  obtain ⟨i, s, name, rfl⟩ := mem_primaryPeers hp
  refine ⟨i, rfl, ?_⟩
  by_cases hw : s.weight = 2
  · exact .inl ⟨by simp [primaryPeer, hw], by simp [primaryPeer, hw]⟩
  · exact .inr ⟨by simp [primaryPeer, hw], by simp [primaryPeer, hw]⟩

/-- The parts of a fresh version that do not depend on its address. -/
structure Initialised (v : VersionedServer F) : Prop where
  completed : v.completedRequests = 0
  bound : v.reqUpperBound = 2147483642
  active : v.activeReq = 0
  queue : v.queue = (customServerInit 0 : VersionedServer F).queue
  probability : v.basicProbability =
    (customServerInit 0 : VersionedServer F).basicProbability

theorem primaryVersion_initialised (weight : ℕ) (name : Text) :
    Initialised (primaryVersion weight name : VersionedServer F) := by
  unfold primaryVersion
  dsimp only
  split
  · exact ⟨rfl, rfl, rfl, rfl, rfl⟩
  · exact ⟨rfl, rfl, rfl, rfl, rfl⟩

theorem primaryVersions_initialised (servers : List UpstreamServer) (a : ℕ) :
    Initialised (primaryVersions servers a : VersionedServer F) := by
  unfold primaryVersions
  split
  · exact primaryVersion_initialised _ _
  · exact ⟨rfl, rfl, rfl, rfl, rfl⟩

theorem Initialised.queueInv {v : VersionedServer F} (h : Initialised v) :
    QueueInv v.activeReq v.completedRequests v.queue [] := by
  rw [h.active, h.completed, h.queue]
  exact queueInv_customServerInit 0

def lightServer (addr : String) : UpstreamServer := .ofAddr addr 1 100

def heavyServer (addr : String) : UpstreamServer := .ofAddr addr 2 100

/-- A fresh version after the dispatch of a request that started in the second
`sec`, with another predicted response time. -/
def VersionedServer.busy (sec : ℤ) (rt : F) (v : VersionedServer F) : VersionedServer F :=
  { v with
    activeReq := 1
    predictedAvgRt := rt
    queue :=
      { v.queue with
        nodes := v.queue.nodes.alloc { val := ⟨sec, 0, 1⟩, next := none }
        reqTimes := some v.queue.nodes.fresh
        reqTail := some v.queue.nodes.fresh } }

theorem Initialised.busy_queueInv {v : VersionedServer F} (h : Initialised v) {sec : ℤ}
    (hsec : sec ≠ -1) (rt : F) :
    QueueInv (v.busy sec rt).activeReq 1 (v.busy sec rt).queue
      [(v.queue.nodes.fresh, ⟨sec, 0, 1⟩)] := by
  have hinv := h.queueInv
  rw [h.active, h.completed] at hinv
  have hnone : v.queue.reqTimes = none := hinv.chain
  have hlive : (⟨sec, 0, 1⟩ : ReqTime).live = true := by
    rw [ReqTime.live]
    exact bne_iff_ne.mpr hsec
  obtain ⟨q, hq, hinv'⟩ := appendNode_spec hinv hlive rfl
  have hqueue : appendNode ⟨sec, 0, 1⟩ v.queue = .ok (v.busy sec rt).queue := by
    rw [appendNode, hnone]
    rfl
  obtain rfl := Except.ok.inj (hqueue.symm.trans hq)
  exact hinv'

/-- The record of a request that has tried no peer yet. -/
def freshRecord : RRPeerData where
  peers := .primary
  current := none
  tried := [0]

end MultiversionBalancer
