import MultiversionBalancer.Upstream.System

/-!
# Request queues in runs

In every run every version keeps the invariant of its request queue.  A
completion finds the node of its request through the pointer the request was
given at its last dispatch; `NodesOf` says that this pointer is still good:
requests that wait at a version have live nodes there, each its own.
-/

namespace MultiversionBalancer

open Lib

variable {F : Type}

/-- The request was sent to the version and has not completed. -/
def Request.Waiting (r : Request F) (a : ℕ) : Prop :=
  r.logged = false ∧ r.version = some a

def Request.node (r : Request F) : ReqTime :=
  ⟨r.startSec, r.startMsec, r.no⟩

/-- The requests that wait at the version `a` have distinct live nodes among
`ns`. -/
structure NodesOf (requests : List (Request F)) (a : ℕ) (ns : QueueNodes) :
    Prop where
  mem : ∀ (i : ℕ) (r : Request F), requests[i]? = some r → r.Waiting a →
    ∃ b, r.enterTime = some b ∧ (b, r.node) ∈ liveNodes ns
  inj : ∀ (i j : ℕ) (r r' : Request F), requests[i]? = some r →
    requests[j]? = some r' → r.Waiting a → r'.Waiting a →
    r.enterTime = r'.enterTime → i = j

namespace NodesOf

variable {requests : List (Request F)} {a : ℕ} {ns ms : QueueNodes}

/-- The waiting requests after a replacement, when the new one does not wait
at `a`. -/
theorem old_of_set {i : ℕ} {r' : Request F} (hr' : ¬r'.Waiting a) {j : ℕ}
    {q : Request F} (hj : (requests.set i r')[j]? = some q)
    (hq : q.Waiting a) : i ≠ j ∧ requests[j]? = some q := by
  by_cases hij : i = j
  · subst hij
    obtain ⟨hlt, -⟩ := List.getElem?_eq_some_iff.mp hj
    rw [List.length_set] at hlt
    rw [List.getElem?_set_self hlt] at hj
    obtain rfl := Option.some.inj hj
    exact absurd hq hr'
  · rw [List.getElem?_set_ne hij] at hj
    exact ⟨hij, hj⟩

theorem set_other (h : NodesOf requests a ns) (i : ℕ) {r' : Request F}
    (hr' : ¬r'.Waiting a) : NodesOf (requests.set i r') a ns where
  mem := by
    intro j q hj hq
    exact h.mem j q (old_of_set hr' hj hq).2 hq
  inj := by
    intro j k q q' hj hk hq hq' heq
    exact h.inj j k q q' (old_of_set hr' hj hq).2 (old_of_set hr' hk hq').2
      hq hq' heq

theorem set_same (h : NodesOf requests a ns) {i : ℕ} {r r' : Request F}
    (hi : requests[i]? = some r) (hwait : r'.Waiting a → r.Waiting a)
    (henter : r'.enterTime = r.enterTime) (hnode : r'.node = r.node) :
    NodesOf (requests.set i r') a ns := by
  have hold : ∀ (j : ℕ) (q : Request F), (requests.set i r')[j]? = some q → q.Waiting a →
      ∃ p, requests[j]? = some p ∧ p.Waiting a ∧
        q.enterTime = p.enterTime ∧ q.node = p.node := by
    intro j q hj hq
    by_cases hij : i = j
    · subst hij
      rw [getElem?_set_of_some _ hi] at hj
      obtain rfl := Option.some.inj hj
      exact ⟨r, hi, hwait hq, henter, hnode⟩
    · rw [List.getElem?_set_ne hij] at hj
      exact ⟨q, hj, hq, rfl, rfl⟩
  constructor
  · intro j q hj hq
    obtain ⟨p, hp, hpw, hpe, hpn⟩ := hold j q hj hq
    rw [hpe, hpn]
    exact h.mem j p hp hpw
  · intro j k q q' hj hk hq hq' heq
    obtain ⟨p, hp, hpw, hpe, -⟩ := hold j q hj hq
    obtain ⟨p', hp', hpw', hpe', -⟩ := hold k q' hk hq'
    exact h.inj j k p p' hp hp' hpw hpw' (by rw [← hpe, ← hpe', heq])

theorem congr_live (h : NodesOf requests a ns)
    (hlive : liveNodes ms = liveNodes ns) : NodesOf requests a ms where
  mem := by
    rw [hlive]
    exact h.mem
  inj := h.inj

theorem append_request (h : NodesOf requests a ns) {r : Request F}
    (hr : ¬r.Waiting a) : NodesOf (requests ++ [r]) a ns := by
  have hold : ∀ (j : ℕ) (q : Request F), (requests ++ [r])[j]? = some q → q.Waiting a →
      requests[j]? = some q := by
    intro j q hj hq
    by_cases hlt : j < requests.length
    · rwa [List.getElem?_append_left hlt] at hj
    · rw [List.getElem?_append_right (Nat.le_of_not_lt hlt)] at hj
      obtain rfl := List.mem_singleton.mp (List.mem_of_getElem? hj)
      exact absurd hq hr
  constructor
  · intro j q hj hq
    exact h.mem j q (hold j q hj hq) hq
  · intro j k q q' hj hk hq hq' heq
    exact h.inj j k q q' (hold j q hj hq) (hold k q' hk hq') hq hq' heq

/-- A dispatch gives the request a node with a new address. -/
theorem enqueue (h : NodesOf requests a ns) {i b : ℕ} {r' : Request F}
    (hi : i < requests.length) (henter : r'.enterTime = some b)
    (hlive : r'.node.live = true) (hfresh : ∀ n ∈ ns, n.1 ≠ b) :
    NodesOf (requests.set i r') a (ns ++ [(b, r'.node)]) := by
  have hnew : ∀ (j : ℕ) (q : Request F), (requests.set i r')[j]? = some q →
      i = j ∧ q = r' ∨ i ≠ j ∧ requests[j]? = some q := by
    intro j q hj
    by_cases hij : i = j
    · subst hij
      rw [List.getElem?_set_self hi] at hj
      exact .inl ⟨rfl, (Option.some.inj hj).symm⟩
    · rw [List.getElem?_set_ne hij] at hj
      exact .inr ⟨hij, hj⟩
  have hne : ∀ (j : ℕ) (q : Request F), requests[j]? = some q →
      q.Waiting a → q.enterTime ≠ some b := by
    intro j q hj hq heq
    obtain ⟨c, hc, hmem⟩ := h.mem j q hj hq
    obtain rfl := Option.some.inj (hc.symm.trans heq)
    exact hfresh _ (mem_liveNodes.mp hmem).1 rfl
  constructor
  · intro j q hj hq
    rcases hnew j q hj with ⟨-, rfl⟩ | ⟨-, hj⟩
    · refine ⟨b, henter, mem_liveNodes.mpr ⟨by simp, hlive⟩⟩
    · obtain ⟨c, hc, hmem⟩ := h.mem j q hj hq
      refine ⟨c, hc, ?_⟩
      rw [liveNodes_append]
      exact List.mem_append_left _ hmem
  · intro j k q q' hj hk hq hq' heq
    rcases hnew j q hj with ⟨hij, hqr⟩ | ⟨-, hjold⟩
    · rcases hnew k q' hk with ⟨hik, -⟩ | ⟨-, hkold⟩
      · exact hij.symm.trans hik
      · rw [hqr, henter] at heq
        exact absurd heq.symm (hne k q' hkold hq')
    · rcases hnew k q' hk with ⟨-, hqr⟩ | ⟨-, hkold⟩
      · rw [hqr, henter] at heq
        exact absurd heq (hne j q hjold hq)
      · exact h.inj j k q q' hjold hkold hq hq' heq

/-- A completion takes away the node of the completed request only. -/
theorem complete (h : NodesOf requests a ns) {i b : ℕ} {r r' : Request F}
    (hi : requests[i]? = some r) (hwait : r.Waiting a)
    (henter : r.enterTime = some b) (hr' : ¬r'.Waiting a)
    (hlive : ∀ n, n ∈ liveNodes ms ↔ n ∈ liveNodes ns ∧ n.1 ≠ b) :
    NodesOf (requests.set i r') a ms := by
  constructor
  · intro j q hj hq
    obtain ⟨hij, hj⟩ := old_of_set hr' hj hq
    obtain ⟨c, hc, hmem⟩ := h.mem j q hj hq
    refine ⟨c, hc, (hlive _).mpr ⟨hmem, ?_⟩⟩
    rintro rfl
    exact hij (h.inj i j r q hi hj hwait hq (henter.trans hc.symm))
  · exact (h.set_other i hr').inj

end NodesOf

/-! ## The invariant of runs -/

/-- The number of completed requests. -/
def loggedCount (s : System F) : ℕ :=
  s.requests.countP (·.logged)

theorem loggedCount_set {s : System F} {i : ℕ} {r : Request F}
    (u : Upstream F) (r' : Request F) (hi : s.requests[i]? = some r) :
    loggedCount { upstream := u, requests := s.requests.set i r' } =
      loggedCount s - (if r.logged then 1 else 0) +
        if r'.logged then 1 else 0 := by
  obtain ⟨hlt, rfl⟩ := List.getElem?_eq_some_iff.mp hi
  exact List.countP_set hlt

/-- The queue of a version, with the nodes of the requests that wait there. -/
def VersionOk (v : VersionedServer F) (requests : List (Request F)) (a : ℕ) :
    Prop :=
  ∃ ns, QueueInv v.activeReq (v.completedRequests + v.activeReq) v.queue ns ∧
    NodesOf requests a ns

/-- What every run keeps while fewer than `req_upper_bound` requests have
completed. -/
structure QueuesOk (s : System F) : Prop where
  started : ∀ r ∈ s.requests, 0 ≤ r.startSec
  bound : ∀ a, (s.upstream.versions a).reqUpperBound = 2147483642
  completed : ∀ a, 0 ≤ (s.upstream.versions a).completedRequests ∧
    (s.upstream.versions a).completedRequests ≤ loggedCount s
  queue : ∀ a, VersionOk (s.upstream.versions a) s.requests a

variable [CFloat F]

theorem queuesOk_initial (s : System F) (h : Initial s) : QueuesOk s := by
  obtain ⟨⟨us, hus⟩, hnil⟩ := h
  obtain ⟨hinit, -⟩ := initRoundRobin_idle hus
  refine
    { started := by simp [hnil]
      bound := fun a => (hinit a).bound
      completed := fun a => by simp [(hinit a).completed]
      queue := fun a => ⟨[], ?_, ?_⟩ }
  · have hinv := (hinit a).queueInv
    rw [(hinit a).active] at hinv ⊢
    rwa [add_zero]
  · rw [hnil]
    exact ⟨by simp, by simp⟩

theorem QueuesOk.arrive {s : System F} (conf : UpstreamConf) (tp : NgxTime)
    (h : QueuesOk s) :
    QueuesOk
      { s with
        requests := s.requests ++
          [ngxHttpUpstreamInitRequest conf.nextUpstreamTries s.upstream tp] } where
  started := by
    intro r hr
    rcases List.mem_append.mp hr with hr | hr
    · exact h.started r hr
    · rw [List.mem_singleton.mp hr]
      exact Int.natCast_nonneg tp.sec
  bound := h.bound
  completed := by
    intro a
    obtain ⟨hnonneg, hle⟩ := h.completed a
    refine ⟨hnonneg, le_trans hle ?_⟩
    simp [loggedCount, ngxHttpUpstreamInitRequest]
  queue := by
    intro a
    obtain ⟨ns, hinv, hnodes⟩ := h.queue a
    refine ⟨ns, hinv, hnodes.append_request ?_⟩
    rintro ⟨-, hver⟩
    cases hver

omit [CFloat F] in
/-- Examining a version changes nothing the invariant speaks of. -/
theorem VersionOk.same {v w : VersionedServer F}
    {requests : List (Request F)} {a : ℕ} (h : VersionOk v requests a)
    (hsame : SameRequests v w) : VersionOk w requests a := by
  obtain ⟨ns, hinv, hnodes⟩ := h
  obtain ⟨ms, hinv', hlive⟩ := hsame.queue_inv _ ns hinv
  refine ⟨ms, ?_, hnodes.congr_live hlive⟩
  rwa [hsame.completed_eq, hsame.active_eq] at *

omit [CFloat F] in
/-- A request that does not wait for a version does not touch its queue. -/
theorem VersionOk.set_other {v : VersionedServer F}
    {requests : List (Request F)} {a : ℕ} {r' : Request F}
    (h : VersionOk v requests a) (i : ℕ) (hr' : ¬r'.Waiting a) :
    VersionOk v (requests.set i r') a := by
  obtain ⟨ns, hinv, hnodes⟩ := h
  exact ⟨ns, hinv, hnodes.set_other i hr'⟩

theorem VersionOk.dispatch {v v' : VersionedServer F}
    {requests : List (Request F)} {a i : ℕ} {r r' : Request F}
    {tp : NgxTime} {load : F} (h : VersionOk v requests a)
    (hi : i < requests.length) (hstart : 0 ≤ r.startSec)
    (hbuf : ngxHttpUpstreamBufferRequestData tp a (selectVersion tp load v) r =
      .ok (v', r')) :
    VersionOk v' (requests.set i r') a := by
  obtain ⟨ns, hinv, hnodes⟩ := h
  obtain ⟨happend, hactive, hcompleted, -, hr'⟩ := bufferRequestData_ok hbuf
  have hnode : r'.node = ⟨r.startSec, r.startMsec,
      v.completedRequests + (v.activeReq + 1)⟩ := by
    rw [hr']
    rfl
  have hlive : r'.node.live = true := by
    rw [hnode]
    simp only [ReqTime.live, bne_iff_ne, ne_eq]
    omega
  have hno : r'.node.no = v.completedRequests + v.activeReq + 1 := by
    rw [hnode]
    ring
  obtain ⟨q, hq, hinv'⟩ := appendNode_spec hinv hlive hno
  have happend' : appendNode r'.node v.queue = .ok v'.queue := by
    rw [hnode]
    exact happend
  obtain rfl : v'.queue = q := Except.ok.inj (happend'.symm.trans hq)
  have henter : r'.enterTime = some v.queue.nodes.fresh := by
    rw [hr']
    rfl
  refine ⟨ns ++ [(v.queue.nodes.fresh, r'.node)], ?_,
    hnodes.enqueue hi henter hlive ?_⟩
  · have hactive' : v'.activeReq = v.activeReq + 1 := hactive
    have hcompleted' : v'.completedRequests = v.completedRequests := hcompleted
    rw [hactive', hcompleted', ← add_assoc]
    exact hinv'
  · intro n hn heq
    obtain ⟨next, hcell⟩ := hinv.chain.cell_of_mem hn
    have hlt := hinv.bounded.lt_fresh hcell
    omega

theorem QueuesOk.dispatch {s : System F} {i : ℕ} {r r' : Request F}
    {tp : NgxTime} {u : Upstream F} (h : QueuesOk s)
    (hi : s.requests[i]? = some r) (hr : r.logged = false)
    (hget : ngxHttpUpstreamGetRoundRobinPeer s.upstream r tp =
      .ok (.ok, u, r')) :
    QueuesOk { upstream := u, requests := s.requests.set i r' } := by
  obtain ⟨-, ps, j, p, a, ws, load, v, -, -, -, -, hsame, rfl, hbuf⟩ :=
    getRoundRobinPeer_ok hget
  obtain ⟨-, -, hcompleted, hbound, hr'⟩ := bufferRequestData_ok hbuf
  have hmem := List.mem_of_getElem? hi
  obtain ⟨hlt, -⟩ := List.getElem?_eq_some_iff.mp hi
  have hlogged : r'.logged = false := by
    rw [hr']
    exact hr
  have hother : ∀ b, b ≠ a → ¬r'.Waiting b := by
    rintro b hb ⟨-, hver⟩
    rw [hr'] at hver
    exact hb (Option.some.inj hver).symm
  refine
    { started := forall_mem_set h.started ?_
      bound := ?_
      completed := ?_
      queue := ?_ }
  · rw [hr']
    exact h.started r hmem
  · refine (Function.forall_update_iff ws fun _ w =>
      w.reqUpperBound = 2147483642).mpr ⟨?_, fun b _ => ?_⟩
    · exact (hbound.trans (hsame a).bound_eq).trans (h.bound a)
    · exact (hsame b).bound_eq.trans (h.bound b)
  · rw [loggedCount_set _ r' hi, hr, hlogged]
    refine (Function.forall_update_iff ws fun _ w =>
      0 ≤ w.completedRequests ∧ w.completedRequests ≤ loggedCount s).mpr
      ⟨?_, fun b _ => ?_⟩
    · have heq := hcompleted.trans (hsame a).completed_eq
      rw [heq]
      exact h.completed a
    · rw [(hsame b).completed_eq]
      exact h.completed b
  · refine (Function.forall_update_iff ws fun b w =>
      VersionOk w (s.requests.set i r') b).mpr ⟨?_, fun b hb => ?_⟩
    · have hstart : 0 ≤ (r.take j).startSec := h.started r hmem
      exact ((h.queue a).same (hsame a)).dispatch hlt hstart hbuf
    · exact ((h.queue b).same (hsame b)).set_other i (hother b hb)

omit [CFloat F] in
theorem QueuesOk.release {s : System F} {i state : ℕ} {r r' : Request F}
    {tp : NgxTime} {u : Upstream F} (h : QueuesOk s) (tries : ℕ)
    (hi : s.requests[i]? = some r) (hr : r.logged = false)
    (hrel : releaseHeld s.upstream r state tp = .ok (u, r')) :
    QueuesOk
      { upstream := u
        requests := s.requests.set i { r' with tries := tries } } := by
  obtain ⟨hversions, -, -, hr'⟩ := releaseHeld_spec hrel
  refine
    { started := forall_mem_set h.started ?_
      bound := by rw [hversions]; exact h.bound
      completed := fun a => ?_
      queue := fun a => ?_ }
  · rw [hr']
    exact h.started r (List.mem_of_getElem? hi)
  · have hlogged : r'.logged = false := by
      rw [hr']
      exact hr
    rw [loggedCount_set _ _ hi, hr, hversions]
    simp only [hlogged]
    exact h.completed a
  · obtain ⟨ns, hinv, hnodes⟩ := h.queue a
    dsimp only
    rw [hversions]
    refine ⟨ns, hinv, hnodes.set_same hi ?_ ?_ ?_⟩
    · rw [hr']
      exact id
    · rw [hr']
    · rw [hr']
      rfl

theorem VersionOk.complete {v v' : VersionedServer F}
    {requests : List (Request F)} {a i : ℕ} {r r' : Request F}
    {tp : NgxTime} {m : Bool} (h : VersionOk v requests a)
    (hi : requests[i]? = some r) (hwait : r.Waiting a)
    (hr' : ¬r'.Waiting a)
    (hwrap : (v.completedRequests + 1) % v.reqUpperBound =
      v.completedRequests + 1)
    (hcomplete : completeVersion tp r v = .ok (v', m)) :
    VersionOk v' (requests.set i r') a := by
  obtain ⟨ns, hinv, hnodes⟩ := h
  obtain ⟨b, hb, hmem⟩ := hnodes.mem i r hi hwait
  obtain ⟨hin, hlive⟩ := mem_liveNodes.mp hmem
  obtain ⟨hactive, hcompleted, -, hqueue⟩ := completeVersion_ok hcomplete
  obtain ⟨q, ms, m', hrun, hinv', hlives, -⟩ :=
    completeQueue_spec tp hinv hin hlive
  have htotal : v'.completedRequests + v'.activeReq =
      v.completedRequests + v.activeReq := by
    rw [hactive, hcompleted, hwrap]
    ring
  rw [htotal, hactive, hb] at hqueue
  obtain ⟨rfl, -⟩ := Prod.mk.inj (Except.ok.inj (hqueue.symm.trans hrun))
  refine ⟨ms, ?_, hnodes.complete hi hwait hb hr' hlives⟩
  rw [htotal, hactive]
  exact hinv'

omit [CFloat F] in
/-- The counter of a version does not wrap while few requests have
completed. -/
theorem QueuesOk.no_wrap {s : System F} (h : QueuesOk s)
    (hfew : loggedCount s + 1 < 2147483642) (a : ℕ) :
    ((s.upstream.versions a).completedRequests + 1) %
        (s.upstream.versions a).reqUpperBound =
      (s.upstream.versions a).completedRequests + 1 := by
  obtain ⟨hnonneg, hbelow⟩ := h.completed a
  rw [h.bound a]
  exact Int.emod_eq_of_lt (by omega) (by omega)

theorem QueuesOk.complete {s : System F} {i : ℕ} {r : Request F}
    {tp : NgxTime} {u : Upstream F} {t : Text} (h : QueuesOk s)
    (hi : s.requests[i]? = some r) (hr : r.logged = false)
    (hlog : ngxHttpLogRequestTime tp s.upstream r = .ok (u, t))
    (hfew : loggedCount s + 1 < 2147483642) :
    QueuesOk
      { upstream := u
        requests := s.requests.set i { r with logged := true } } := by
  have hcount : loggedCount ({
      upstream := u
      requests := s.requests.set i { r with logged := true } } : System F) =
      loggedCount s + 1 := by
    rw [loggedCount_set _ _ hi, hr]
    simp
  have hnot : ∀ a, ¬({ r with logged := true } : Request F).Waiting a := by
    rintro a ⟨hlogged, -⟩
    cases hlogged
  have hstarted := forall_mem_set (i := i)
    (y := { r with logged := true }) h.started
    (h.started r (List.mem_of_getElem? hi))
  have hle : ∀ b, 0 ≤ (s.upstream.versions b).completedRequests ∧
      (s.upstream.versions b).completedRequests ≤ (loggedCount s + 1 : ℕ) := by
    intro b
    obtain ⟨hnonneg, hle⟩ := h.completed b
    exact ⟨hnonneg, by push_cast; omega⟩
  rcases logRequestTime_spec hlog with ⟨hver, rfl⟩ |
    ⟨a, v, m, hver, hcomplete, hversions, -⟩
  · exact
      { started := hstarted
        bound := h.bound
        completed := by rw [hcount]; exact hle
        queue := fun b => (h.queue b).set_other i (hnot b) }
  · obtain ⟨-, hcompleted, hbound, -⟩ := completeVersion_ok hcomplete
    obtain ⟨hnonneg, hbelow⟩ := h.completed a
    have hwrap := h.no_wrap hfew a
    refine
      { started := hstarted
        bound := ?_
        completed := ?_
        queue := ?_ }
    · rw [hversions]
      exact (Function.forall_update_iff s.upstream.versions fun _ w =>
        w.reqUpperBound = 2147483642).mpr
          ⟨hbound.trans (h.bound a), fun b _ => h.bound b⟩
    · rw [hcount, hversions]
      refine (Function.forall_update_iff s.upstream.versions fun _ w =>
        0 ≤ w.completedRequests ∧
          w.completedRequests ≤ (loggedCount s + 1 : ℕ)).mpr
        ⟨?_, fun b _ => hle b⟩
      rw [hcompleted, hwrap]
      push_cast
      omega
    · rw [hversions]
      refine (Function.forall_update_iff _ fun b w => VersionOk w _ b).mpr
        ⟨?_, fun b _ => (h.queue b).set_other i (hnot b)⟩
      exact (h.queue a).complete hi ⟨hr, hver⟩ (hnot a) hwrap hcomplete

/-- Completions are only ever added. -/
theorem loggedCount_change {conf : UpstreamConf} {s s' : System F}
    (hc : Change conf s s') : loggedCount s ≤ loggedCount s' := by
  cases hc with
  | arrive tp => simp [loggedCount]
  | dispatch hi hr _ =>
      rw [loggedCount_set _ _ hi, hr]
      simp
  | release tries hi hr _ =>
      rw [loggedCount_set _ _ hi, hr]
      simp
  | complete hi hr _ =>
      rw [loggedCount_set _ _ hi, hr]
      simp

theorem QueuesOk.change {conf : UpstreamConf} {s s' : System F}
    (h : QueuesOk s) (hfew : loggedCount s' < 2147483642)
    (hc : Change conf s s') : QueuesOk s' := by
  cases hc with
  | arrive tp => exact h.arrive conf tp
  | dispatch hi hr hget => exact h.dispatch hi hr hget
  | release tries hi hr hrel => exact h.release tries hi hr hrel
  | complete hi hr hlog =>
      rw [loggedCount_set _ _ hi, hr] at hfew
      exact h.complete hi hr hlog (by simpa using hfew)

theorem queuesOk_of_few {conf : UpstreamConf} {s : System F}
    (h : Reachable conf Reachable.any s)
    (hfew : loggedCount s < 2147483642) : QueuesOk s := by
  have hinit : ∀ s : System F, Initial s →
      loggedCount s < 2147483642 → QueuesOk s :=
    fun s hs _ => queuesOk_initial s hs
  refine h.change_invariant hinit ?_ hfew
  intro s s' hs hc hfew'
  exact (hs (lt_of_le_of_lt (loggedCount_change hc) hfew')).change hfew' hc

/-- In every run with fewer than `req_upper_bound` completions, every version
keeps the invariant of its request queue. -/
theorem request_queues_wellFormed (conf : UpstreamConf) (s : System F)
    (h : Reachable conf Reachable.any s)
    (hfew : loggedCount s < 2147483642) (a : ℕ) :
    ∃ ns, QueueInv (s.upstream.versions a).activeReq
      ((s.upstream.versions a).completedRequests +
        (s.upstream.versions a).activeReq)
      (s.upstream.versions a).queue ns := by
  obtain ⟨ns, hns, -⟩ := (queuesOk_of_few h hfew).queue a
  exact ⟨ns, hns⟩

/-- Two requests on the heavy server, the first of which has completed. -/
theorem request_queues_wellFormed_two :
    ∃ s : System RatFloat,
      run errorConf heavyLight [.arrive (NgxTime.ofSec 1),
        .connect 0 (NgxTime.ofSec 1), .arrive (NgxTime.ofSec 1),
        .connect 1 (NgxTime.ofSec 1), .complete 0 (NgxTime.ofSec 3)] = .ok s ∧
      (s.upstream.versions 0).activeReq = 1 ∧
      ∃ ns, QueueInv (s.upstream.versions 0).activeReq
        ((s.upstream.versions 0).completedRequests +
          (s.upstream.versions 0).activeReq)
        (s.upstream.versions 0).queue ns := by
  obtain ⟨s, hrun, hs⟩ := @runs_iff RatFloat _ errorConf heavyLight
    [.arrive (NgxTime.ofSec 1), .connect 0 (NgxTime.ofSec 1),
      .arrive (NgxTime.ofSec 1), .connect 1 (NgxTime.ofSec 1),
      .complete 0 (NgxTime.ofSec 3)]
    (fun s => decide ((s.upstream.versions 0).activeReq = 1 ∧
      loggedCount s = 1)) |>.mp (by decide +kernel)
  obtain ⟨hactive, hcount⟩ := of_decide_eq_true hs
  have hreach := run_reachable (.init heavyLight_initial) hrun
  exact ⟨s, hrun, hactive,
    request_queues_wellFormed errorConf s hreach (by omega) 0⟩

end MultiversionBalancer
