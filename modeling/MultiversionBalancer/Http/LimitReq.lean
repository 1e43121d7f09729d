import MultiversionBalancer.Lib.Run
import Mathlib.Algebra.Order.Group.Abs
import Mathlib.Algebra.Order.Group.Int
import Mathlib.Data.Int.Basic
import Mathlib.Data.List.Nodup
import Mathlib.Logic.Function.Basic
import Mathlib.Order.Basic

/-!
# Limits on the rate of requests

`ngx_http_limit_req_module.c`.  A zone in shared memory holds a node for each key it has
seen lately.  The red-black tree and the queue of a zone hold the same nodes, so a zone is
the list of its nodes in the order of the queue, and the search in the tree is the search
for the node with this key.  Nodes are numbered as they are allocated and a number is never
used again, so a handler that keeps the number of a freed node finds nothing.

The handler of a request goes through the limits of the location one by one.  Each of its
steps is one critical section under the mutex of a zone; a handler is a machine that makes
these steps, and the workers of a system take turns.  Times are in milliseconds, rates,
bursts and levels in thousandths of a request.
-/

namespace MultiversionBalancer.Http

/-! ## Zones -/

/-- `ngx_http_limit_req_node_t` with the number of the node. -/
structure LimitNode where
  id : ℕ
  key : List UInt8
  last : ℤ
  excess : ℤ
  count : ℤ
  deriving DecidableEq

/-- `ngx_http_limit_req_shctx_t`: the nodes from the head of the queue on. -/
structure LimitZone where
  nodes : List LimitNode
  fresh : ℕ
  deriving DecidableEq

/-- The results of `ngx_http_limit_req_lookup`. -/
inductive LimitRc where
  | declined
  | again
  | ok
  | busy
  | error
  deriving DecidableEq

/-- The time since `last`, in which small steps back do not count. -/
def limitMs (now last : ℤ) : ℤ :=
  if now - last < -60000 then 1 else if now - last < 0 then 0 else now - last

/-- `ctx->rate * ms / 1000`, whose product is a 64-bit number. -/
def limitDrain (rate : ℕ) (ms : ℤ) : ℤ :=
  rate * ms % 2 ^ 64 / 1000

/-- The level of a node with one more request. -/
def limitLevel (rate : ℕ) (now : ℤ) (lr : LimitNode) : ℤ :=
  max 0 (lr.excess - limitDrain rate (limitMs now lr.last) + 1000)

def LimitNode.charge (rate : ℕ) (now : ℤ) (lr : LimitNode) : LimitNode :=
  { lr with
    excess := limitLevel rate now lr
    last := if limitMs now lr.last ≠ 0 then now else lr.last }

namespace LimitZone

/-- The node with this number, if it has not been freed. -/
def get (z : LimitZone) (id : ℕ) : Option LimitNode :=
  z.nodes.find? (·.id = id)

/-- The node with this number is changed. -/
def modify (z : LimitZone) (id : ℕ) (f : LimitNode → LimitNode) : LimitZone :=
  { z with nodes := z.nodes.map fun lr => if lr.id = id then f lr else lr }

/-- The loop of `ngx_http_limit_req_expire` with `3 - n` rounds left. -/
def expireLoop (rate : ℕ) (now : ℤ) : ℕ → List LimitNode → List LimitNode
  | 0, nodes => nodes
  | left + 1, nodes =>
    match nodes.getLast? with
    | none => nodes
    | some lr =>
      if lr.count ≠ 0 then nodes
      -- only with `n == 0` the oldest node goes by force
      else if left + 1 < 3 ∧ (|now - lr.last| < 60000 ∨
          0 < lr.excess - limitDrain rate |now - lr.last|) then nodes
      else expireLoop rate now left nodes.dropLast

def ngxHttpLimitReqExpire (rate : ℕ) (now : ℤ) (z : LimitZone) (n : ℕ) : LimitZone :=
  { z with nodes := expireLoop rate now (3 - n) z.nodes }

/-- A new node at the head of the queue. -/
def create (z : LimitZone) (key : List UInt8) (now : ℤ) (account : Bool) : LimitZone where
  nodes := ⟨z.fresh, key, if account then now else 0, 0, if account then 0 else 1⟩ :: z.nodes
  fresh := z.fresh + 1

/-- `ngx_http_limit_req_lookup`: the zone, the result, `*ep` and the node that `ctx->node`
is set to.  `alloc` says whether the two attempts to allocate a node succeed. -/
def ngxHttpLimitReqLookup (rate burst : ℕ) (now : ℤ) (alloc : Bool × Bool) (key : List UInt8)
    (account : Bool) (z : LimitZone) : LimitZone × LimitRc × ℤ × Option ℕ :=
  match z.nodes.find? (·.key = key) with
  | some lr =>
    let z := { z with nodes := lr :: z.nodes.filter (·.id ≠ lr.id) }
    let excess := limitLevel rate now lr
    if excess > burst then (z, .busy, excess, none)
    else if account then (z.modify lr.id (·.charge rate now), .ok, excess, none)
    else (z.modify lr.id fun lr => { lr with count := lr.count + 1 }, .again, excess, some lr.id)
  | none =>
    let z := z.ngxHttpLimitReqExpire rate now 1
    if alloc.1 then
      (z.create key now account, if account then .ok else .again, 0,
        if account then none else some z.fresh)
    else
      let z := z.ngxHttpLimitReqExpire rate now 0
      if alloc.2 then
        (z.create key now account, if account then .ok else .again, 0,
          if account then none else some z.fresh)
      else (z, .error, 0, none)

end LimitZone

/-! ## Handlers -/

structure Limit where
  zone : ℕ
  burst : ℕ
  delay : ℕ
  deriving DecidableEq

/-- The limits of a location; `ngx_http_limit_req` refuses a zone that is already there. -/
structure LimitLocation where
  limits : List Limit
  distinct : (limits.map Limit.zone).Nodup
  dryRun : Bool

/-- A request: `limited` says that `limit_req_status` has been set before, `key` is the
value of the key of a zone, if it can be computed, and `alloc` what the allocations in a
zone will find. -/
structure LimitRequest where
  location : LimitLocation
  limited : Bool
  key : ℕ → Option (List UInt8)
  alloc : ℕ → Bool × Bool

/-- How a handler ends; a delay comes with the level and the zone that are logged. -/
inductive LimitOutcome where
  | declined
  | passed
  | delayed (delay excess : ℤ) (zone : Option ℕ)
  | delayedDryRun (delay excess : ℤ) (zone : Option ℕ)
  | rejected
  | rejectedDryRun
  | failed
  deriving DecidableEq

/-- Where a handler stands: `rest` are the limits to look up, `seen` those before, the last
one first.  `limit` is the limit that the variable of the handler points to. -/
inductive LimitPhase where
  | idle (outcome : LimitOutcome)
  | looking (rest seen : List Limit) (rc : LimitRc) (limit : Option Limit)
  | accounting (seen : List Limit) (maxDelay excess : ℤ) (limit : Option Limit)
  | unlocking (seen : List Limit) (outcome : LimitOutcome)
  deriving DecidableEq

/-- A worker: `node` is `ctx->node` of each zone, which every worker has of its own, and
`now` is `ngx_current_msec`, which stands while a handler runs.  `pending` notes the nodes
that the handler has looked up and neither charged nor released. -/
structure LimitWorker where
  phase : LimitPhase
  node : ℕ → Option ℕ
  now : ℤ
  request : LimitRequest
  pending : List (ℕ × ℕ)

def limitDelay (rate : ℕ → ℕ) (excess : ℤ) : Option Limit → ℤ
  | none => 0
  | some limit =>
    if excess ≤ limit.delay then 0 else (excess - limit.delay) * 1000 / rate limit.zone

/-- The start of `ngx_http_limit_req_account`. -/
def startAccount (rate : ℕ → ℕ) (seen : List Limit) (excess : ℤ) (limit : Option Limit) :
    LimitPhase :=
  .accounting seen (limitDelay rate excess limit) excess limit

/-- The end of a handler that lets the request through. -/
def letThrough (dryRun : Bool) (maxDelay excess : ℤ) (limit : Option Limit) : LimitOutcome :=
  if maxDelay = 0 then .passed
  else if dryRun then .delayedDryRun maxDelay excess (limit.map Limit.zone)
  else .delayed maxDelay excess (limit.map Limit.zone)

namespace LimitWorker

/-- The keys that are not looked up. -/
def skipped (key : List UInt8) : Prop :=
  key.length = 0 ∨ 65535 < key.length

instance (key : List UInt8) : Decidable (skipped key) :=
  inferInstanceAs (Decidable (_ ∨ _))

def start (w : LimitWorker) (request : LimitRequest) (now : ℤ) : LimitWorker :=
  { w with
    phase := if request.limited then .idle .declined
      else .looking request.location.limits [] .declined none
    now := now
    request := request }

/-- What follows a lookup: the next limit, the charges or the way back. -/
def afterLookup (w : LimitWorker) (rate : ℕ → ℕ) (limit : Limit) (rest seen : List Limit) :
    LimitRc × ℤ × Option ℕ → LimitWorker
  | (.again, _, node) =>
    { w with
      phase := .looking rest (limit :: seen) .again (some limit)
      node := Function.update w.node limit.zone node
      pending := node.toList.map (limit.zone, ·) ++ w.pending }
  | (.ok, excess, _) => { w with phase := startAccount rate seen excess (some limit) }
  | (_, _, _) =>
    { w with
      phase := .unlocking seen
        (if w.request.location.dryRun then .rejectedDryRun else .rejected) }

/-- `ctx->node` of a zone is cleared after the node has been charged or released. -/
def clear (w : LimitWorker) (zone id : ℕ) : LimitWorker :=
  { w with
    node := Function.update w.node zone none
    pending := w.pending.erase (zone, id) }

/-- One step of the loop of `ngx_http_limit_req_account`, for the limit `limit`. -/
def accountStep (w : LimitWorker) (rate : ℕ → ℕ) (zones : ℕ → LimitZone) (limit : Limit)
    (seen : List Limit) (maxDelay excess : ℤ) (longest : Option Limit) :
    Option (LimitWorker × (ℕ → LimitZone)) :=
  match w.node limit.zone with
  | none => some ({ w with phase := .accounting seen maxDelay excess longest }, zones)
  | some id => do
    let lr ← (zones limit.zone).get id
    let level := limitLevel (rate limit.zone) w.now lr
    let zone := (zones limit.zone).modify id fun lr =>
      { lr.charge (rate limit.zone) w.now with count := lr.count - 1 }
    let delay := limitDelay rate level (some limit)
    let phase := if maxDelay < delay then .accounting seen delay level (some limit)
      else .accounting seen maxDelay excess longest
    some ({ w.clear limit.zone id with phase := phase }, Function.update zones limit.zone zone)

/-- One step of the loop of `ngx_http_limit_req_unlock`, for the limit `limit`. -/
def unlockStep (w : LimitWorker) (zones : ℕ → LimitZone) (limit : Limit) (seen : List Limit)
    (outcome : LimitOutcome) : Option (LimitWorker × (ℕ → LimitZone)) :=
  match w.node limit.zone with
  | none => some ({ w with phase := .unlocking seen outcome }, zones)
  | some id => do
    let _ ← (zones limit.zone).get id
    let zone := (zones limit.zone).modify id fun lr => { lr with count := lr.count - 1 }
    some ({ w.clear limit.zone id with phase := .unlocking seen outcome },
      Function.update zones limit.zone zone)

/-- One step of the loop of `ngx_http_limit_req_handler`, for the limit `limit`. -/
def lookStep (w : LimitWorker) (rate : ℕ → ℕ) (zones : ℕ → LimitZone) (limit : Limit)
    (rest seen : List Limit) (rc : LimitRc) : LimitWorker × (ℕ → LimitZone) :=
  match w.request.key limit.zone with
  | none => ({ w with phase := .unlocking seen .failed }, zones)
  | some key =>
    if skipped key then
      ({ w with phase := .looking rest (limit :: seen) rc (some limit) }, zones)
    else
      let (zone, result) := (zones limit.zone).ngxHttpLimitReqLookup (rate limit.zone)
        limit.burst w.now (w.request.alloc limit.zone) key rest.isEmpty
      (w.afterLookup rate limit rest seen result, Function.update zones limit.zone zone)

/-- One step of `ngx_http_limit_req_handler`.  There is none when the handler has ended or
would touch a node that has been freed. -/
def step (rate : ℕ → ℕ) (w : LimitWorker) (zones : ℕ → LimitZone) :
    Option (LimitWorker × (ℕ → LimitZone)) :=
  match w.phase with
  | .idle _ => none
  | .looking (limit :: rest) seen rc _ => some (w.lookStep rate zones limit rest seen rc)
  | .looking [] seen rc limit =>
    if rc = .declined then some ({ w with phase := .idle .declined }, zones)
    else some ({ w with phase := startAccount rate seen 0 limit }, zones)
  | .accounting (limit :: seen) maxDelay excess longest =>
    w.accountStep rate zones limit seen maxDelay excess longest
  | .accounting [] maxDelay excess limit =>
    some ({ w with phase := .idle (letThrough w.request.location.dryRun maxDelay excess limit) },
      zones)
  | .unlocking (limit :: seen) outcome => w.unlockStep zones limit seen outcome
  | .unlocking [] outcome => some ({ w with phase := .idle outcome }, zones)

end LimitWorker

/-! ## What a lookup does -/

namespace LimitZone

variable {z z' : LimitZone} {rate burst : ℕ} {now : ℤ} {key : List UInt8} {account : Bool}

/-- The nodes of a zone have numbers of their own. -/
structure Numbered (z : LimitZone) : Prop where
  ids : (z.nodes.map LimitNode.id).Nodup
  lt : ∀ lr ∈ z.nodes, lr.id < z.fresh

/-- Nodes that nobody holds have been taken out of the zone `z`. -/
structure Kept (z z' : LimitZone) : Prop where
  fresh : z'.fresh = z.fresh
  sub : z'.nodes.Sublist z.nodes
  counted : ∀ lr ∈ z.nodes, lr.count ≠ 0 → lr ∈ z'.nodes

theorem Kept.trans {z'' : LimitZone} (h : Kept z z') (h' : Kept z' z'') : Kept z z'' where
  fresh := h'.fresh.trans h.fresh
  sub := h'.sub.trans h.sub
  counted lr hlr hc := h'.counted lr (h.counted lr hlr hc) hc

theorem eq_dropLast_append {nodes : List LimitNode} {lr : LimitNode}
    (h : nodes.getLast? = some lr) : nodes = nodes.dropLast ++ [lr] := by
  obtain ⟨ys, rfl⟩ := List.getLast?_eq_some_iff.mp h
  simp

theorem expireLoop_sublist (rate : ℕ) (now : ℤ) (left : ℕ) (nodes : List LimitNode) :
    (expireLoop rate now left nodes).Sublist nodes := by
  induction left generalizing nodes with
  | zero => exact List.Sublist.refl _
  | succ left ih =>
    rw [expireLoop]
    split
    · exact List.Sublist.refl _
    · split_ifs
      · exact List.Sublist.refl _
      · exact List.Sublist.refl _
      · exact (ih _).trans (List.dropLast_sublist _)

/-- A node that somebody holds is not taken out, and neither are those before it. -/
theorem mem_expireLoop {left : ℕ} {nodes : List LimitNode} {lr : LimitNode} (h : lr ∈ nodes)
    (hc : lr.count ≠ 0) : lr ∈ expireLoop rate now left nodes := by
  induction left generalizing nodes with
  | zero => exact h
  | succ left ih =>
    rw [expireLoop]
    split
    · exact h
    · rename_i last hlast
      split_ifs with hcount
      · exact h
      · exact h
      · refine ih ?_
        rw [eq_dropLast_append hlast, List.mem_append, List.mem_singleton] at h
        obtain h | rfl := h
        · exact h
        · exact absurd hc hcount

theorem kept_expire (z : LimitZone) (rate : ℕ) (now : ℤ) (n : ℕ) :
    Kept z (z.ngxHttpLimitReqExpire rate now n) where
  fresh := rfl
  sub := expireLoop_sublist rate now (3 - n) z.nodes
  counted _ hlr hc := mem_expireLoop hlr hc

/-- What a lookup can do.  The order of the nodes is left open. -/
inductive Looked (rate burst : ℕ) (now : ℤ) (key : List UInt8) (account : Bool)
    (z : LimitZone) : LimitZone → LimitRc × ℤ × Option ℕ → Prop
  | busy (z' : LimitZone) (lr : LimitNode) (hlr : lr ∈ z.nodes) (hkey : lr.key = key)
      (hlevel : burst < limitLevel rate now lr) (hfresh : z'.fresh = z.fresh)
      (hperm : z'.nodes.Perm z.nodes) :
      Looked rate burst now key account z z' (.busy, limitLevel rate now lr, none)
  | charged (z' : LimitZone) (lr : LimitNode) (hlr : lr ∈ z.nodes) (hkey : lr.key = key)
      (hlevel : limitLevel rate now lr ≤ burst) (haccount : account = true)
      (hfresh : z'.fresh = z.fresh)
      (hperm : z'.nodes.Perm (z.modify lr.id (·.charge rate now)).nodes) :
      Looked rate burst now key account z z' (.ok, limitLevel rate now lr, none)
  | held (z' : LimitZone) (lr : LimitNode) (hlr : lr ∈ z.nodes) (hkey : lr.key = key)
      (hlevel : limitLevel rate now lr ≤ burst) (haccount : account = false)
      (hfresh : z'.fresh = z.fresh)
      (hperm : z'.nodes.Perm
        (z.modify lr.id fun lr => { lr with count := lr.count + 1 }).nodes) :
      Looked rate burst now key account z z' (.again, limitLevel rate now lr, some lr.id)
  | created (z₁ : LimitZone) (hkey : ∀ lr ∈ z.nodes, lr.key ≠ key) (hkept : Kept z z₁) :
      Looked rate burst now key account z (z₁.create key now account)
        (if account then .ok else .again, 0, if account then none else some z.fresh)
  | error (z₁ : LimitZone) (hkey : ∀ lr ∈ z.nodes, lr.key ≠ key) (hkept : Kept z z₁) :
      Looked rate burst now key account z z₁ (.error, 0, none)

theorem Numbered.eq_of_id (h : z.Numbered) {lr lr' : LimitNode} (hlr : lr ∈ z.nodes)
    (hlr' : lr' ∈ z.nodes) (hid : lr.id = lr'.id) : lr = lr' :=
  List.inj_on_of_nodup_map h.ids hlr hlr' hid

/-- A node that is moved to the head of the queue. -/
theorem Numbered.bump (h : z.Numbered) {lr : LimitNode} (hlr : lr ∈ z.nodes) :
    (lr :: z.nodes.filter (·.id ≠ lr.id)).Perm z.nodes := by
  have hnodup : z.nodes.Nodup := List.Nodup.of_map _ h.ids
  rw [List.perm_ext_iff_of_nodup _ hnodup]
  · intro a
    simp only [List.mem_cons, List.mem_filter, decide_eq_true_eq]
    constructor
    · rintro (rfl | ⟨ha, -⟩)
      · exact hlr
      · exact ha
    · intro ha
      by_cases hid : a.id = lr.id
      · exact .inl (h.eq_of_id ha hlr hid)
      · exact .inr ⟨ha, hid⟩
  · rw [List.nodup_cons]
    exact ⟨by simp, hnodup.filter _⟩

theorem modify_perm (h : z.nodes.Perm z'.nodes) (id : ℕ) (f : LimitNode → LimitNode) :
    (z.modify id f).nodes.Perm (z'.modify id f).nodes :=
  h.map _

theorem Numbered.looked (h : z.Numbered) (rate burst : ℕ) (now : ℤ) (alloc : Bool × Bool)
    (key : List UInt8) (account : Bool) :
    Looked rate burst now key account z
      (z.ngxHttpLimitReqLookup rate burst now alloc key account).1
      (z.ngxHttpLimitReqLookup rate burst now alloc key account).2 := by
  rw [ngxHttpLimitReqLookup]
  cases hfind : z.nodes.find? (·.key = key) with
  | some lr =>
    have hlr := List.mem_of_find?_eq_some hfind
    have hkey : lr.key = key := by simpa using List.find?_some hfind
    have hperm := h.bump hlr
    dsimp only
    split_ifs with hlevel haccount
    · exact .busy _ lr hlr hkey hlevel rfl hperm
    · refine .charged _ lr hlr hkey (not_lt.mp hlevel) haccount rfl ?_
      exact modify_perm (z := ⟨_, z.fresh⟩) hperm lr.id _
    · refine .held _ lr hlr hkey (not_lt.mp hlevel) (by simpa using haccount) rfl ?_
      exact modify_perm (z := ⟨_, z.fresh⟩) hperm lr.id _
  | none =>
    have hkey : ∀ lr ∈ z.nodes, lr.key ≠ key := by simpa using hfind
    have hkept := kept_expire z rate now 1
    have hkept' := hkept.trans (kept_expire (z.ngxHttpLimitReqExpire rate now 1) rate now 0)
    obtain ⟨first, second⟩ := alloc
    cases first with
    | true => exact .created _ hkey hkept
    | false =>
      cases second with
      | true => exact .created _ hkey hkept'
      | false => exact .error _ hkey hkept'

end LimitZone

end MultiversionBalancer.Http
