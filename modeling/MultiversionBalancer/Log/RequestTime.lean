import MultiversionBalancer.Upstream.RoundRobin

/-!
# Completion of a request

`ngx_http_log_request_time` of `ngx_http_log_module.c` formats the variable
`$request_time` and, as a side effect, records the completion of the request
in the balancer: counters, service time, error window, request queue, summary
of the oldest requests and prediction.  Every fifteen seconds it also appends
the report of `custom_system_monitor_capacity`.
-/

namespace MultiversionBalancer

open Lib CFloat

/-- `r->enter_time->sec = -1; r->enter_time->msec = -1`. -/
def markNode (enter : Option ℕ) (q : RequestQueue) :
    Except Fault RequestQueue :=
  match enter with
  | none => .error .nullNode
  | some a =>
      match q.nodes.cell a with
      | none => .error .useAfterFree
      | some node =>
          .ok
            { q with
              nodes := q.nodes.store a
                { node with val := { node.val with sec := -1, msec := -1 } } }

/-- A completed request leaves the summary: `no`, `sec` and `msec` are its
number and start time, `total` is `completed_requests + active_req`. -/
def dropOldest (no sec msec total : ℤ) (old : OldRequests) : OldRequests :=
  if old.recentReq.isSome && (no ≤ old.recentReqNum || total < no) then
    let count := old.reqCount - 1
    { old with
      timeSum := old.timeSum -
        (1000 * (old.updatedSec - sec) + (old.updatedMsec - msec))
      reqCount := count
      recentReq := if count = 0 then none else old.recentReq }
  else old

/-- Bring the summary up to the current time. -/
def advanceOldest (tp : NgxTime) (old : OldRequests) : OldRequests :=
  { old with
    timeSum := old.timeSum +
      old.reqCount * tp.since old.updatedSec old.updatedMsec
    updatedSec := tp.sec
    updatedMsec := tp.msec }

/-- Take a node into the summary. -/
def coverNode (a : ℕ) (x : ReqTime) (old : OldRequests) : OldRequests :=
  { old with
    reqCount := old.reqCount + 1
    timeSum := old.timeSum +
      (1000 * (old.updatedSec - x.sec) + (old.updatedMsec - x.msec))
    recentReq := some a
    recentReqNum := x.no }

/-- The top-up loop: extend the summary until it covers a fifth of the active
requests, releasing completed nodes on the way.  The loop compares `req_count`
with the `double` product `0.2 * active_req`, which for counts below `2 ^ 50`
is the comparison of `5 * req_count` with `active_req`.  The flag is the
source's `multiple`; the first argument bounds the number of iterations. -/
def topUp (active : ℤ) :
    ℕ → Bool → RequestQueue → Except Fault (RequestQueue × Bool)
  | 0, multiple, q =>
      if 5 * q.oldRequests.reqCount < active then .error .nonTermination
      else .ok (q, multiple)
  | fuel + 1, multiple, q =>
      if 5 * q.oldRequests.reqCount < active then
        match q.oldRequests.recentReq with
        | none =>
            match q.reqTimes with
            | none => .error .nullNode
            | some a =>
                match q.nodes.cell a with
                | none => .error .useAfterFree
                | some node =>
                    if node.val.sec = -1 then
                      topUp active fuel multiple
                        { q with
                          reqTimes := node.next
                          nodes := q.nodes.free a }
                    else
                      topUp active fuel multiple
                        { q with
                          oldRequests := coverNode a node.val q.oldRequests }
        | some c =>
            match q.nodes.cell c with
            | none => .error .useAfterFree
            | some curr =>
                match curr.next with
                | none => .error .nullNode
                | some a =>
                    match q.nodes.cell a with
                    | none => .error .useAfterFree
                    | some node =>
                        if node.val.sec = -1 then
                          topUp active fuel true
                            { q with
                              nodes := (q.nodes.store c
                                { curr with next := node.next }).free a }
                        else
                          topUp active fuel true
                            { q with
                              oldRequests :=
                                coverNode a node.val q.oldRequests }
      else .ok (q, multiple)

/-- What a completion does to the request queue; `total` and `active` are
`completed_requests + active_req` and `active_req` after the completion. -/
def completeQueue (tp : NgxTime) (enter : Option ℕ) (no sec msec : ℤ)
    (total active : ℤ) (q : RequestQueue) :
    Except Fault (RequestQueue × Bool) := do
  let q ← markNode enter q
  let q := { q with
    oldRequests :=
      advanceOldest tp (dropOldest no sec msec total q.oldRequests) }
  topUp active (q.nodes.fresh + 1) false q

variable {F : Type} [CFloat F]

/-- `ms`: the milliseconds since the request started, at least zero. -/
def requestMs (tp : NgxTime) (r : Request F) : F :=
  CFloat.max (narrow (ofInt (tp.since r.startSec r.startMsec))) (ofInt 0)

/-- Allocate a node of the error window and link it behind the tail. -/
def linkError (val : F) (d : ProbabilityDistribution F) :
    Except Fault (Heap F) :=
  let nodes := d.nodes.alloc { val := val, next := none }
  if d.sizeCount = 0 then .ok nodes
  else
    match d.listTail with
    | none => .error .nullNode
    | some t =>
        match nodes.cell t with
        | none => .error .useAfterFree
        | some last =>
            .ok (nodes.store t { last with next := some d.nodes.fresh })

/-- Append a squared error to the window, which keeps the last 200. -/
def pushError (val : F) (d : ProbabilityDistribution F) :
    Except Fault (ProbabilityDistribution F) := do
  let a := d.nodes.fresh
  let val := if d.sizeCount = 0 then ofInt 0 else val
  let nodes ← linkError val d
  let head := if d.sizeCount = 0 then some a else d.listHead
  let sum : F := narrow (d.squaredErrorSum + val)
  if d.sizeCount ≥ 200 then
    match head with
    | none => .error .nullNode
    | some b =>
        match nodes.cell b with
        | none => .error .useAfterFree
        | some first =>
            pure
              { d with
                nodes := nodes.free b
                listHead := first.next
                listTail := some a
                squaredErrorSum := narrow (sum - first.val) }
  else
    pure
      { d with
        nodes := nodes
        listHead := head
        listTail := some a
        squaredErrorSum := sum
        sizeCount := d.sizeCount + 1 }

def predictionError (ms : F) (r : Request F) (v : VersionedServer F) : F :=
  let share : F :=
    if v.completedRequests < r.reqFinishBefore then
      narrow ms /
        ofInt (v.completedRequests - r.reqFinishBefore + v.reqUpperBound)
    else
      narrow ms / ofInt (Max.max 1 (v.completedRequests - r.reqFinishBefore))
  let val : F := narrow (share - narrow v.predictedAvgRt)
  narrow (val * val)

/-- The exponentially smoothed prediction after a completion. -/
def smoothPrediction (ms : F) (r : Request F) (v : VersionedServer F) : F :=
  let a : F := narrow (lit (5 / 1000))
  if v.completedRequests < 100 then
    let b : F := narrow (ofInt 1 - ofInt 1 / narrow (ofInt v.completedRequests))
    narrow (b * v.predictedAvgRt +
      (ofInt 1 - b) *
        (narrow ms / ofInt (v.completedRequests - r.reqFinishBefore)))
  else if v.completedRequests < r.reqFinishBefore then
    narrow (a *
        (narrow ms /
          ofInt (v.completedRequests - r.reqFinishBefore + v.reqUpperBound)) +
      (ofInt 1 - a) * v.predictedAvgRt)
  else
    narrow (a *
        (narrow ms /
          ofInt (Max.max 1 (v.completedRequests - r.reqFinishBefore))) +
      (ofInt 1 - a) * v.predictedAvgRt)

def countCompletion (tp : NgxTime) (r : Request F) (v : VersionedServer F) :
    VersionedServer F :=
  let active := v.activeReq - 1
  let service := v.serviceTime +
    (active + 1) * tp.since v.serviceTimeUpdateSec v.serviceTimeUpdateMsec
  { v with
    completedRequests := (v.completedRequests + 1) % v.reqUpperBound
    activeReq := active
    latest := r.no
    serviceTime := cast (ofInt service - requestMs tp r)
    serviceTimeUpdateSec := tp.sec
    serviceTimeUpdateMsec := tp.msec }

/-- What a completion does to the version of the request, with the flag
`multiple` of the top-up loop. -/
def completeVersion (tp : NgxTime) (r : Request F) (v : VersionedServer F) :
    Except Fault (VersionedServer F × Bool) := do
  let ms := requestMs tp r
  let v := countCompletion tp r v
  let prob ← pushError (predictionError ms r v) v.basicProbability
  let (q, multiple) ← completeQueue tp r.enterTime r.no r.startSec r.startMsec
    (v.completedRequests + v.activeReq) v.activeReq v.queue
  let rt := smoothPrediction ms r v
  pure
    ({ v with
       basicProbability := prob
       queue := q
       predictedAvgRt := rt
       maxPrediction := narrow (CFloat.max v.maxPrediction rt) },
      multiple)

/-- What `custom_system_monitor_capacity` returns: a string literal, or
memory from `malloc`. -/
inductive MonitorText where
  | literal (t : Text)
  | allocated (t : Text)

/-- The part of the report about one peer; nothing while there is no
prediction. -/
def monitorEntry (pt : ℤ) (v : VersionedServer F) : Text :=
  if eq v.predictedAvgRt (ofInt 0) then []
  else
    "server:(".toList ++ v.ip.getD "(null)".toList ++ ":".toList ++
      ngxSprintfInt (toInt32 (v.port.getD 0)) ++ ")-".toList ++
      sprintfFixed2 (narrow (narrow (ofInt pt) / v.predictedAvgRt)) ++
      ",".toList

/-- The sum of the capacities of the peers that have a prediction. -/
def monitorCapacity (pt : ℤ) (vs : List (VersionedServer F)) : F :=
  vs.foldl
    (fun c v =>
      if eq v.predictedAvgRt (ofInt 0) then c
      else narrow (c + narrow (ofInt pt) / v.predictedAvgRt))
    (narrow (ofInt 0))

/-- The arrival rate since the last report. -/
def monitorArrivalRate (tp : NgxTime) (ps : Peers F) : F :=
  narrow (ofInt ps.reqCount /
    (ofInt tp.sec + ofInt tp.msec / lit 1000 - ofInt ps.logTimeSec -
      ofInt ps.logTimeMsec / lit 1000))

def monitorHeader (tp : NgxTime) : Text :=
  "[".toList ++ tp.httpLogTime ++ "] System State:".toList

/-- The totals at the end of the report. -/
def monitorTotals (capacity : F) (maxReq : ℤ) (rate : F) : Text :=
  "total:".toList ++ sprintfFixed2 capacity ++ ",request_load:".toList ++
    ngxSprintfInt (toInt32 maxReq) ++ ",arrival_rate:".toList ++
    sprintfFixed2 rate

/-- Read through the version pointers of a peer list. -/
def derefAll (vs : Versions F) (ps : List Peer) :
    Except Fault (List (VersionedServer F)) :=
  ps.mapM fun p => vs.deref p.version

def customSystemMonitorCapacity (tp : NgxTime) (ps : Peers F)
    (vs : Versions F) : Except Fault (MonitorText × Peers F) :=
  let pt := peersPt ps.peer
  if pt = 0 then
    .ok (.literal "[Issue] Performance Target Not Set!".toList, ps)
  else do
    let servers ← derefAll vs ps.peer
    let res := monitorHeader tp ++
      (servers.map (monitorEntry pt)).flatten ++
      monitorTotals (monitorCapacity pt servers) ps.maxReq
        (monitorArrivalRate tp ps)
    pure (.allocated res,
      { ps with
        logTimeSec := tp.sec
        logTimeMsec := tp.msec
        reqCount := 0
        maxReq := 0 })

/-- The decision to report: the first completion only starts the clock. -/
def monitorDue (tp : NgxTime) (ps : Peers F) : Bool × Peers F :=
  if ps.logTimeSec = -1 then
    (false, { ps with logTimeSec := tp.sec, logTimeMsec := tp.msec })
  else (decide ((tp.sec : ℤ) - ps.logTimeSec ≥ 15), ps)

/-- The report, when it is due.  The caller releases the returned text, so a
string literal is a fault. -/
def monitorReport (due : Bool) (tp : NgxTime) (ps : Peers F)
    (vs : Versions F) : Except Fault (Text × Peers F) :=
  if due then do
    match ← customSystemMonitorCapacity tp ps vs with
    | (.literal _, _) => .error .invalidFree
    | (.allocated t, ps) => pure (t, ps)
  else .ok ([], ps)

/-- The text of `$request_time` for a request that was sent to a version. -/
def customLine (tp : NgxTime) (r : Request F) (v : VersionedServer F)
    (multiple : Bool) (ps : Peers F) (report : Text) : Text :=
  let ms := castInt (requestMs tp r)
  let old := v.queue.oldRequests
  "custom: ".toList ++ ngxSprintfInt (ms.tdiv 1000) ++ ".".toList ++
    ngxSprintfNum (ms.tmod 1000).toNat '0' 3 ++
    " avg:".toList ++ ngxSprintfFloat 3 v.predictedAvgRt ++
    " var1:".toList ++
    ngxSprintfFloat 3
      (sqrt (narrow v.basicProbability.squaredErrorSum /
        narrow (ofInt v.basicProbability.sizeCount) : F)) ++
    " oldest:".toList ++
    ngxSprintfFloat 3
      (narrow (ofInt old.timeSum) /
        narrow (ofInt (Max.max 1 old.reqCount)) : F) ++
    " predict:".toList ++
    ngxSprintfFloat 3 (narrow (ofInt r.predict) : F) ++
    " service:".toList ++ ngxSprintfFloat 3 r.serviceTimeRecord ++
    " active:".toList ++ ngxSprintfInt (toInt32 v.activeReq) ++
    " (".toList ++ ngxSprintfInt (if multiple then 1 else 0) ++
    ") v:".toList ++ ngxSprintfInt v.id ++
    "(:".toList ++ ngxSprintfInt (v.port.getD 0) ++ ") ".toList ++
    ngxSprintfFloat 2
      (ofInt ps.logTimeSec + ofInt ps.logTimeMsec / lit 1000 : F) ++
    " ".toList ++
    ngxSprintfFloat 2 (ofInt tp.sec + ofInt tp.msec / lit 1000 : F) ++
    " ".toList ++ ngxSprintfInt (toInt32 ps.reqCount) ++
    " \n".toList ++ report

/-- The text of `$request_time` for a request that was sent to no version. -/
def plainLine (tp : NgxTime) (r : Request F) : Text :=
  let ms := requestMs tp r
  "h".toList ++ ngxSprintfInt ((cast ms).tdiv 1000) ++ ".".toList ++
    ngxSprintfNum ((castInt ms).tmod 1000).toNat '0' 3

/-- `ngx_http_log_request_time`: the updated balancer state and the text. -/
def ngxHttpLogRequestTime (tp : NgxTime) (u : Upstream F) (r : Request F) :
    Except Fault (Upstream F × Text) :=
  match r.version with
  | none => .ok (u, plainLine tp r)
  | some a =>
      match u.tier r.data.peers with
      | none => .error .nullPeers
      | some ps => do
          let (due, ps) := monitorDue tp ps
          let ps := { ps with activeReq := ps.activeReq - 1 }
          let (v, multiple) ← completeVersion tp r (u.versions a)
          let vs : Versions F := Function.update u.versions a v
          let (report, ps) ← monitorReport due tp ps vs
          pure ({ u.setTier r.data.peers ps with versions := vs },
            customLine tp r v multiple ps report)

end MultiversionBalancer
