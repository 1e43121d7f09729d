import MultiversionBalancer.Upstream.Model
import Mathlib.Algebra.Ring.Nat

/-!
# Building peer lists

`custom_server_init`, `ngx_http_upstream_init_round_robin`,
`ngx_http_upstream_init_round_robin_peer` and
`ngx_http_upstream_create_round_robin_peer` of
`ngx_http_upstream_round_robin.c`.  `ngx_pcalloc` memory starts as zero, so a
pointer field that a constructor does not assign is `NULL`.  Pool allocations
succeed.
-/

namespace MultiversionBalancer

open Lib

variable {F : Type} [CFloat F]

/-- `custom_server_init`.  The address fields are filled in by the caller. -/
def customServerInit (id : ℤ) : VersionedServer F where
  id := id
  ip := none
  port := none
  completedRequests := 0
  maxPrediction := CFloat.ofInt 0
  reqUpperBound := 2147483647 - 5
  activeReq := 0
  predictedAvgRt := CFloat.ofInt 0
  predict := 0
  latest := 0
  avgServiceTime := CFloat.ofInt 0
  queue :=
    { nodes := Heap.empty
      reqTimes := none
      reqTail := none
      oldRequests :=
        { timeSum := 0
          reqCount := 0
          recentReq := none
          updatedSec := 0
          updatedMsec := 0
          recentReqNum := 0 } }
  basicProbability :=
    { nodes := Heap.empty
      listHead := none
      listTail := none
      sum := 0
      squaredErrorSum := CFloat.ofInt 0
      sizeCount := 0 }
  serviceTime := 0
  serviceTimeUpdateSec := 0
  serviceTimeUpdateMsec := 0
  currLoad := CFloat.ofInt 0

/-- `strtok(s, ":")` followed by `strtok(NULL, "")`: the first token and the
text after its delimiter. -/
def strtokColon (s : Text) : Option (Text × Text) :=
  match s.dropWhile (· == ':') with
  | [] => none
  | t => some (t.takeWhile (· != ':'), (t.dropWhile (· != ':')).drop 1)

def atoi (s : Text) : ℤ :=
  let digits (t : Text) : ℕ :=
    (t.takeWhile Char.isDigit).foldl
      (fun n c => 10 * n + (c.toNat - '0'.toNat)) 0
  match s.dropWhile Char.isWhitespace with
  | '-' :: t => -(digits t : ℤ)
  | '+' :: t => digits t
  | t => digits t

/-- The version of a primary peer: weight 2 makes it heavy.  The address is
cut out of a copy of the peer's name.  `name.data` has no NUL of its own, and
`strcpy` is taken to end the copy where the name ends. -/
def primaryVersion (weight : ℕ) (name : Text) : VersionedServer F :=
  let version := customServerInit (if weight = 2 then 4 else 2)
  match strtokColon name with
  | none => version
  | some (ip, rest) =>
      { version with
        ip := some ip
        port := if rest = [] then none else some (atoi rest) }

/-- The fields of `ngx_http_upstream_server_t` that the constructor reads.
`addrs` holds the texts of the resolved addresses. -/
structure UpstreamServer where
  name : Text
  addrs : List Text
  weight : ℕ
  maxConns : ℕ
  maxFails : ℕ
  failTimeout : ℤ
  pt : ℕ
  down : Bool
  backup : Bool
  deriving DecidableEq

def UpstreamServer.ofAddr (addr : String) (weight pt : ℕ) : UpstreamServer where
  name := addr.toList
  addrs := [addr.toList]
  weight := weight
  maxConns := 0
  maxFails := 1
  failTimeout := 10
  pt := pt
  down := false
  backup := false

/-- The fields of `ngx_http_upstream_srv_conf_t` that the constructor reads.
`resolved` is the outcome of `ngx_inet_resolve_host` for the host. -/
structure UpstreamSrvConf where
  host : Text
  port : ℕ
  servers : Option (List UpstreamServer)
  resolved : Option (List Text)

def zeroPeer (name : Text) : Peer where
  name := name
  server := []
  currentWeight := 0
  effectiveWeight := 0
  weight := 0
  light := none
  heavy := none
  version := none
  pt := 0
  conns := 0
  maxConns := 0
  fails := 0
  accessed := 0
  checked := 0
  maxFails := 0
  failTimeout := 0
  down := false

/-- The parameters every explicitly listed peer takes from its server. -/
def serverPeer (s : UpstreamServer) (name : Text) : Peer :=
  { zeroPeer name with
    weight := s.weight
    effectiveWeight := s.weight
    currentWeight := 0
    maxConns := s.maxConns
    maxFails := s.maxFails
    failTimeout := s.failTimeout
    down := s.down
    server := s.name }

/-- A primary peer; `n` is the address of its freshly allocated version. -/
def primaryPeer (pt : ℕ) (s : UpstreamServer) (name : Text) (n : ℕ) : Peer :=
  { serverPeer s name with
    heavy := if s.weight = 2 then some n else none
    light := if s.weight = 2 then none else some n
    version := some n
    pt := pt }

/-- A peer of a list without server parameters. -/
def defaultPeer (name : Text) : Peer :=
  { zeroPeer name with
    weight := 1
    effectiveWeight := 1
    currentWeight := 0
    maxConns := 0
    maxFails := 1
    failTimeout := 10 }

/-- The servers of one list, one entry per address. -/
def serverAddrs (servers : List UpstreamServer) (backup : Bool) :
    List (UpstreamServer × Text) :=
  (servers.filter fun s => s.backup == backup).flatMap fun s =>
    s.addrs.map fun a => (s, a)

/-- The sum of `naddrs * weight` over one list. -/
def sumWeights (servers : List UpstreamServer) (backup : Bool) : ℕ :=
  ((servers.filter fun s => s.backup == backup).map fun s =>
    s.addrs.length * s.weight).sum

/-- The number of addresses of one list that are not down. -/
def countTries (servers : List UpstreamServer) (backup : Bool) : ℕ :=
  ((servers.filter fun s => s.backup == backup && !s.down).map fun s =>
    s.addrs.length).sum

/-- The performance target: the last one given on a primary server. -/
def scanPt (servers : List UpstreamServer) : ℕ :=
  servers.foldl (fun pt s => if !s.backup && 0 < s.pt then s.pt else pt) 0

/-- A zeroed `ngx_http_upstream_rr_peers_t` around a list of peers. -/
def zeroPeers (name : Text) (peer : List Peer) : Peers F where
  number := peer.length
  totalWeight := 0
  tries := 0
  single := false
  weighted := false
  name := name
  peer := peer
  logTimeSec := 0
  logTimeMsec := 0
  maxReq := 0
  activeReq := 0
  reqCount := 0
  avgActiveReq := CFloat.ofInt 0
  avgReqVar := CFloat.ofInt 0

/-- The primary list of explicitly listed servers. -/
def primaryPeers (host : Text) (servers : List UpstreamServer) : Peers F :=
  let addrs := serverAddrs servers false
  let n := addrs.length
  let w := sumWeights servers false
  { zeroPeers host
      (addrs.mapIdx fun i sa => primaryPeer (scanPt servers) sa.1 sa.2 i) with
    single := n == 1
    weighted := w != n
    totalWeight := w
    tries := countTries servers false
    logTimeSec := -1
    logTimeMsec := -1 }

/-- The backup list.  Its peers get neither a version nor a performance
target. -/
def backupPeers (host : Text) (servers : List UpstreamServer) : Peers F :=
  let addrs := serverAddrs servers true
  let n := addrs.length
  let w := sumWeights servers true
  { zeroPeers host (addrs.map fun sa => serverPeer sa.1 sa.2) with
    single := false
    weighted := w != n
    totalWeight := w
    tries := countTries servers true }

/-- The versions allocated for the primary list. -/
def primaryVersions (servers : List UpstreamServer) : Versions F := fun i =>
  match (serverAddrs servers false)[i]? with
  | some (s, name) => primaryVersion s.weight name
  | none => customServerInit 0

/-- The list of an upstream that `proxy_pass` defines implicitly, or that a
run-time resolution creates: default parameters, no versions. -/
def defaultPeers (name : Text) (addrs : List Text) : Peers F :=
  let n := addrs.length
  { zeroPeers name (addrs.map defaultPeer) with
    single := n == 1
    totalWeight := n
    tries := n }

/-- `ngx_http_upstream_init_round_robin`; `none` is `NGX_ERROR`. -/
def ngxHttpUpstreamInitRoundRobin (us : UpstreamSrvConf) :
    Option (Upstream F) :=
  match us.servers with
  | some servers =>
      if serverAddrs servers false = [] then none
      else
        let peers := primaryPeers us.host servers
        let versions := primaryVersions servers
        if serverAddrs servers true = [] then
          some { primary := peers, backup := none, versions := versions }
        else
          some
            { primary := { peers with single := false }
              backup := some (backupPeers us.host servers)
              versions := versions }
  | none =>
      if us.port = 0 then none
      else
        us.resolved.map fun addrs =>
          { primary := defaultPeers us.host addrs
            backup := none
            versions := fun _ => customServerInit 0 }

/-- The fields of `ngx_http_upstream_resolved_t` that the run-time constructor
reads.  `sockaddr` is set when the host is an address literal; `name` may
override its text. -/
structure UpstreamResolved where
  host : Text
  sockaddr : Bool
  name : Option Text
  addrs : List Text

def ngxHttpUpstreamCreateRoundRobinPeer (ur : UpstreamResolved) :
    Upstream F :=
  let addrs := if ur.sockaddr then [ur.name.getD ur.host] else ur.addrs
  { primary := { defaultPeers ur.host addrs with totalWeight := 0 }
    backup := none
    versions := fun _ => customServerInit 0 }

/-- The number of words of the `tried` bitmap for `n` peers. -/
def triedWords (n : ℕ) : ℕ :=
  if n ≤ 64 then 1 else (n + 63) / 64

/-- `ngx_http_upstream_init_round_robin_peer`: the fresh record of a request,
with room in the bitmap for the longer list, and the number of tries. -/
def ngxHttpUpstreamInitRoundRobinPeer (u : Upstream F) : RRPeerData × ℕ :=
  let n := Nat.max u.primary.number ((u.backup.map (·.number)).getD 0)
  ({ peers := .primary
     current := none
     tried := List.replicate (triedWords n) 0 },
    u.primary.tries + (u.backup.map (·.tries)).getD 0)

/-- A request that started at `tp`, as `ngx_http_alloc_request` and
`ngx_http_upstream_init_request` leave it before its first attempt. -/
def ngxHttpUpstreamInitRequest (nextUpstreamTries : ℕ) (u : Upstream F)
    (tp : NgxTime) : Request F :=
  let (data, tries) := ngxHttpUpstreamInitRoundRobinPeer u
  { startSec := tp.sec
    startMsec := tp.msec
    version := none
    reqFinishBefore := 0
    predict := 0
    no := 0
    lastComplete := 0
    enterTime := none
    serviceTimeRecord := CFloat.ofInt 0
    data := data
    sockaddr := false
    tries :=
      if nextUpstreamTries != 0 && nextUpstreamTries < tries then
        nextUpstreamTries
      else tries
    logged := false
    attempts := [] }

end MultiversionBalancer
