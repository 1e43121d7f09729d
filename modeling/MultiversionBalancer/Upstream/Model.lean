import MultiversionBalancer.Core.Sprintf
import MultiversionBalancer.Lib.Heap

/-!
# Data model of the versioned upstream

The structures of `ngx_http_request.h` and `ngx_http_upstream_round_robin.h`
that the balancer reads and writes.  Pointers to versions are addresses into
the version store of an `Upstream`; pointers to request nodes are addresses
into the heap of the version that owns them (a node is only ever reached
through its version, or through `enter_time` of a request whose `version` is
that version).  Pointers to peers are positions in the peer list.

`ngx_int_t` counters are integers, `float` fields have an arbitrary `CFloat`
type.
-/

namespace MultiversionBalancer

open Lib

/-- What stops the program: a memory error, a loop that does not end, or an
event that cannot happen in the given state. -/
inductive Fault where
  /-- `peer->version` or `r->version` is read through while it is `NULL`. -/
  | nullVersion
  /-- The heavy candidate is read through while it is `NULL`. -/
  | nullHeavy
  /-- The chosen peer is read through while it is `NULL`. -/
  | nullBest
  /-- A `NULL` request node is read through. -/
  | nullNode
  /-- A peer list that does not exist is read. -/
  | nullPeers
  /-- A released request node is read or written. -/
  | useAfterFree
  /-- `free` is called on memory that `malloc` did not return. -/
  | invalidFree
  /-- A loop of the source does not terminate. -/
  | nonTermination
  /-- The event is not enabled. -/
  | disabled
  deriving DecidableEq

/-- The cached time of day with its two log texts, as `ngx_time_update` stores
them: the texts are always copied with these lengths. -/
structure NgxTime where
  sec : ℕ
  msec : ℕ
  httpLogTime : Text
  httpLogIso8601 : Text
  sec_lt : sec < 2 ^ 63
  msec_lt : msec < 1000
  httpLogTime_length : httpLogTime.length = 26
  httpLogIso8601_length : httpLogIso8601.length = 25

/-- A whole second of the cached clock, with blank texts. -/
def NgxTime.ofSec (sec : UInt32) : NgxTime where
  sec := sec.toNat
  msec := 0
  httpLogTime := List.replicate 26 ' '
  httpLogIso8601 := List.replicate 25 ' '
  sec_lt := lt_trans sec.toNat_lt (by decide)
  msec_lt := by decide
  httpLogTime_length := by decide
  httpLogIso8601_length := by decide

/-- `1000 * (tp->sec - sec) + (tp->msec - msec)`, the milliseconds from a
recorded time to `tp`. -/
def NgxTime.since (tp : NgxTime) (sec msec : ℤ) : ℤ :=
  1000 * (tp.sec - sec) + (tp.msec - msec)

/-- `req_time_t` without its link; `sec = -1` marks a completed request. -/
structure ReqTime where
  sec : ℤ
  msec : ℤ
  no : ℤ
  deriving DecidableEq

/-- A node whose request has not completed. -/
def ReqTime.live (x : ReqTime) : Bool :=
  x.sec != -1

/-- `old_requests_t`: the summary of the oldest requests of a version. -/
structure OldRequests where
  timeSum : ℤ
  reqCount : ℤ
  recentReq : Option ℕ
  recentReqNum : ℤ
  updatedSec : ℤ
  updatedMsec : ℤ
  deriving DecidableEq

/-- The request queue of a version: `*req_times`, `*req_tail`, the nodes they
lead to, and `old_requests`. -/
structure RequestQueue where
  nodes : Heap ReqTime
  reqTimes : Option ℕ
  reqTail : Option ℕ
  oldRequests : OldRequests

/-- `probability_distribution_t`: the window of recent squared errors. -/
structure ProbabilityDistribution (F : Type) where
  nodes : Heap F
  listHead : Option ℕ
  listTail : Option ℕ
  sum : ℤ
  squaredErrorSum : F
  sizeCount : ℤ

structure VersionedServer (F : Type) where
  id : ℤ
  ip : Option Text
  port : Option ℤ
  completedRequests : ℤ
  reqUpperBound : ℤ
  activeReq : ℤ
  predictedAvgRt : F
  maxPrediction : F
  predict : ℤ
  latest : ℤ
  avgServiceTime : F
  serviceTime : ℤ
  serviceTimeUpdateSec : ℤ
  serviceTimeUpdateMsec : ℤ
  currLoad : F
  queue : RequestQueue
  basicProbability : ProbabilityDistribution F

abbrev Versions (F : Type) := ℕ → VersionedServer F

structure Peer where
  name : Text
  server : Text
  currentWeight : ℤ
  effectiveWeight : ℤ
  weight : ℤ
  light : Option ℕ
  heavy : Option ℕ
  version : Option ℕ
  pt : ℕ
  conns : ℕ
  maxConns : ℕ
  fails : ℕ
  accessed : ℤ
  checked : ℤ
  maxFails : ℕ
  failTimeout : ℤ
  down : Bool
  deriving DecidableEq

/-- `ngx_http_upstream_rr_peers_t`, without the link to the backup list. -/
structure Peers (F : Type) where
  number : ℕ
  totalWeight : ℕ
  tries : ℕ
  single : Bool
  weighted : Bool
  name : Text
  peer : List Peer
  logTimeSec : ℤ
  logTimeMsec : ℤ
  maxReq : ℤ
  activeReq : ℤ
  reqCount : ℤ
  avgActiveReq : F
  avgReqVar : F

/-- The list a round-robin record points to: the primary list, or the backup
list behind its `next` pointer. -/
inductive Tier where
  | primary
  | backup
  deriving DecidableEq

/-- An upstream: the primary list, the backup list if there is one, and the
versions the peers point to. -/
structure Upstream (F : Type) where
  primary : Peers F
  backup : Option (Peers F)
  versions : Versions F

/-- `ngx_http_upstream_rr_peer_data_t`: the balancer's record of a request. -/
structure RRPeerData where
  peers : Tier
  current : Option ℕ
  tried : List (BitVec 64)
  deriving DecidableEq

/-- The fields of `ngx_http_request_t` and of its `ngx_peer_connection_t` that
the balancer uses.  `attempts` is a history variable: the peers selected for
the request so far, in order (the source keeps one `upstream_states` entry per
attempt). -/
structure Request (F : Type) where
  startSec : ℤ
  startMsec : ℤ
  version : Option ℕ
  reqFinishBefore : ℤ
  predict : ℤ
  no : ℤ
  lastComplete : ℤ
  enterTime : Option ℕ
  serviceTimeRecord : F
  data : RRPeerData
  /-- `pc->sockaddr != NULL`: a peer is held. -/
  sockaddr : Bool
  tries : ℕ
  logged : Bool
  attempts : List (Tier × ℕ)

variable {F : Type}

/-- The list a tier stands for. -/
def Upstream.tier (u : Upstream F) : Tier → Option (Peers F)
  | .primary => some u.primary
  | .backup => u.backup

/-- Replace the list of a tier. -/
def Upstream.setTier (u : Upstream F) (t : Tier) (p : Peers F) : Upstream F :=
  match t with
  | .primary => { u with primary := p }
  | .backup => { u with backup := some p }

/-- Read through a version pointer. -/
def Versions.deref (vs : Versions F) (p : Option ℕ) :
    Except Fault (VersionedServer F) :=
  match p with
  | none => .error .nullVersion
  | some a => .ok (vs a)

end MultiversionBalancer
