import MultiversionBalancer.Upstream.QueueRuns

/-!
# The top-up loop in runs

`ngx_http_log_request_time` extends the summary of the oldest requests in a
loop without an end-of-list test.  In every run the loop ends with a summary
that covers a fifth of the active requests, no iteration reads through a
missing node, and none releases the tail of the queue or the node the summary
ends with.
-/

namespace MultiversionBalancer

open Lib

/-- The request queue as the top-up loop finds it. -/
def topUpEntry (tp : NgxTime) (enter : Option ℕ) (no sec msec total : ℤ)
    (q : RequestQueue) : Except Fault RequestQueue := do
  let q ← markNode enter q
  pure { q with
    oldRequests :=
      advanceOldest tp (dropOldest no sec msec total q.oldRequests) }

theorem completeQueue_eq (tp : NgxTime) (enter : Option ℕ)
    (no sec msec total active : ℤ) (q : RequestQueue) :
    completeQueue tp enter no sec msec total active q =
      topUpEntry tp enter no sec msec total q >>= fun q =>
        topUp active (q.nodes.fresh + 1) false q := by
  unfold completeQueue topUpEntry
  cases markNode enter q with
  | error e => rfl
  | ok q => rfl

/-- The loop continues in `q` and its body leads to `q'`. -/
def TopUpNext (active : ℤ) (q q' : RequestQueue) : Prop :=
  5 * q.oldRequests.reqCount < active ∧
    ∃ multiple t, topUpBody multiple q = .ok t ∧ t.queue = q'

/-- The body of the loop runs in `q` without a fault, and what it releases is
neither the tail of the queue nor the node the summary ends with. -/
def SafeTurn (q : RequestQueue) : Prop :=
  ∀ multiple, ∃ t, topUpBody multiple q = .ok t ∧
    ∀ a, t.freed = some a →
      q.reqTail ≠ some a ∧ q.oldRequests.recentReq ≠ some a

variable {active total : ℤ} {q : RequestQueue} {ns : QueueNodes}

/-- While the loop continues, its body finds a node to visit. -/
theorem topUpBody_ok (h : QueueInv active total q ns)
    (hless : 5 * q.oldRequests.reqCount < active) (multiple : Bool) :
    ∃ t ms, topUpBody multiple q = .ok t ∧ QueueInv active total t.queue ms ∧
      ∀ a, t.freed = some a →
        q.reqTail ≠ some a ∧ q.oldRequests.recentReq ≠ some a := by
  obtain ⟨post, hpost, -⟩ := h.exists_unvisited
  have hlive := h.exists_live_unvisited hpost hless
  cases post with
  | nil => exact absurd rfl hlive
  | cons n post =>
      obtain ⟨t, ms, hbody, hinv, -, -, hfreed⟩ :=
        topUpBody_spec multiple h hpost hless
      exact ⟨t, ms, hbody, hinv, hfreed⟩

/-- Every state of the loop keeps the invariant of the queue. -/
theorem queueInv_of_topUpNext {q' : RequestQueue}
    (h : QueueInv active total q ns)
    (hrun : Relation.ReflTransGen (TopUpNext active) q q') :
    ∃ ms, QueueInv active total q' ms := by
  induction hrun with
  | refl => exact ⟨ns, h⟩
  | tail _ hnext ih =>
      obtain ⟨ms, hinv⟩ := ih
      obtain ⟨hless, multiple, t, hbody, rfl⟩ := hnext
      obtain ⟨t', ms', hbody', hinv', -⟩ := topUpBody_ok hinv hless multiple
      obtain rfl : t = t' := Except.ok.inj (hbody.symm.trans hbody')
      exact ⟨ms', hinv'⟩

theorem QueueInv.safeTurn (h : QueueInv active total q ns)
    (hless : 5 * q.oldRequests.reqCount < active) : SafeTurn q := by
  intro multiple
  obtain ⟨t, -, hbody, -, hfreed⟩ := topUpBody_ok h hless multiple
  exact ⟨t, hbody, hfreed⟩

/-- The loop starts from a queue without the completed request. -/
theorem topUpEntry_spec {a : ℕ} {x : ReqTime} (tp : NgxTime)
    (h : QueueInv active total q ns) (hmem : (a, x) ∈ ns)
    (hlive : x.live = true) :
    ∃ q₀ ms, topUpEntry tp (some a) x.no x.sec x.msec total q = .ok q₀ ∧
      QueueInv (active - 1) total q₀ ms := by
  obtain ⟨pre, post, rfl⟩ := List.append_of_mem hmem
  obtain ⟨next, hcell⟩ := h.chain.cell_of_mem hmem
  refine ⟨_, _, ?_, h.mark tp hlive hcell⟩
  simp only [topUpEntry, markNode, hcell]
  rfl

variable {F : Type} [CFloat F]

/-- In every run with fewer than `req_upper_bound` completions, the completion
of a waiting request enters the top-up loop, the loop ends with a summary that
covers a fifth of the active requests, and every iteration on the way is
safe. -/
theorem topUp_loop_safe (conf : UpstreamConf) (s : System F)
    (h : Reachable conf Reachable.any s)
    (hfew : loggedCount s + 1 < 2147483642) (i a : ℕ) (r : Request F)
    (tp : NgxTime) (hi : s.requests[i]? = some r) (hwait : r.Waiting a) :
    let v := countCompletion tp r (s.upstream.versions a)
    ∃ q₀, topUpEntry tp r.enterTime r.no r.startSec r.startMsec
        (v.completedRequests + v.activeReq) v.queue = .ok q₀ ∧
      completeQueue tp r.enterTime r.no r.startSec r.startMsec
          (v.completedRequests + v.activeReq) v.activeReq v.queue =
        topUp v.activeReq (q₀.nodes.fresh + 1) false q₀ ∧
      (∃ q m, topUp v.activeReq (q₀.nodes.fresh + 1) false q₀ = .ok (q, m) ∧
        v.activeReq ≤ 5 * q.oldRequests.reqCount) ∧
      ∀ q, Relation.ReflTransGen (TopUpNext v.activeReq) q₀ q →
        5 * q.oldRequests.reqCount < v.activeReq → SafeTurn q := by
  intro v
  have hok := queuesOk_of_few h (Nat.lt_of_succ_lt hfew)
  obtain ⟨ns, hinv, hnodes⟩ := hok.queue a
  obtain ⟨b, hb, hmem⟩ := hnodes.mem i r hi hwait
  obtain ⟨hin, hlive⟩ := mem_liveNodes.mp hmem
  have hwrap : v.completedRequests =
      (s.upstream.versions a).completedRequests + 1 := hok.no_wrap hfew a
  have hactive : v.activeReq = (s.upstream.versions a).activeReq - 1 := rfl
  have htotal : v.completedRequests + v.activeReq =
      (s.upstream.versions a).completedRequests +
        (s.upstream.versions a).activeReq := by
    rw [hwrap, hactive]
    ring
  obtain ⟨q₀, ms, hentry, hinv₀⟩ := topUpEntry_spec tp hinv hin hlive
  rw [← hb, ← htotal] at hentry
  refine ⟨q₀, hentry, ?_, ?_, ?_⟩
  · rw [completeQueue_eq]
    exact congrArg (· >>= _) hentry
  · obtain ⟨post, hpost, hlen⟩ := hinv₀.exists_unvisited
    obtain ⟨q, -, m, hrun, -, -, hcover⟩ := topUp_spec hinv₀ hpost
      (le_trans hlen (le_trans hinv₀.length_le_fresh (Nat.le_succ _)))
    exact ⟨q, m, hrun, hcover⟩
  · intro q hrun hless
    obtain ⟨ks, hks⟩ := queueInv_of_topUpNext hinv₀ hrun
    exact hks.safeTurn hless

/-- Two requests on the heavy server, the first of which completes. -/
theorem topUp_loop_safe_two :
    ∃ (s : System RatFloat) (r : Request RatFloat),
      run errorConf heavyLight [.arrive (NgxTime.ofSec 1),
        .connect 0 (NgxTime.ofSec 1), .arrive (NgxTime.ofSec 1),
        .connect 1 (NgxTime.ofSec 1)] = .ok s ∧
      s.requests[0]? = some r ∧ r.Waiting 0 ∧
      let v := countCompletion (NgxTime.ofSec 3) r (s.upstream.versions 0)
      ∃ q₀, topUpEntry (NgxTime.ofSec 3) r.enterTime r.no r.startSec
          r.startMsec (v.completedRequests + v.activeReq) v.queue = .ok q₀ ∧
        completeQueue (NgxTime.ofSec 3) r.enterTime r.no r.startSec r.startMsec
            (v.completedRequests + v.activeReq) v.activeReq v.queue =
          topUp v.activeReq (q₀.nodes.fresh + 1) false q₀ ∧
        (∃ q m, topUp v.activeReq (q₀.nodes.fresh + 1) false q₀ =
            .ok (q, m) ∧ v.activeReq ≤ 5 * q.oldRequests.reqCount) ∧
        ∀ q, Relation.ReflTransGen (TopUpNext v.activeReq) q₀ q →
          5 * q.oldRequests.reqCount < v.activeReq → SafeTurn q := by
  obtain ⟨s, hrun, hs⟩ := @runs_iff RatFloat _ errorConf heavyLight
    [.arrive (NgxTime.ofSec 1), .connect 0 (NgxTime.ofSec 1),
      .arrive (NgxTime.ofSec 1), .connect 1 (NgxTime.ofSec 1)]
    (fun s => (s.requests[0]?).any fun r : Request RatFloat =>
      decide ((r.logged = false ∧ r.version = some 0) ∧ loggedCount s = 0))
    |>.mp (by decide +kernel)
  obtain ⟨r, hr, hs⟩ := (Option.any_eq_true _ _).mp hs
  obtain ⟨hwait, hcount⟩ := of_decide_eq_true hs
  have hreach := run_reachable (.init heavyLight_initial) hrun
  exact ⟨s, r, hrun, hr, hwait,
    topUp_loop_safe errorConf s hreach (by omega) 0 0 r (NgxTime.ofSec 3) hr
      hwait⟩

end MultiversionBalancer
