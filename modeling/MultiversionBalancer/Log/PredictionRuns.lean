import MultiversionBalancer.Upstream.QueueRuns
import MultiversionBalancer.Upstream.Roles
import MultiversionBalancer.Log.Prediction

/-!
# Bounds of the prediction in runs

`predicted_avg_rt` is written by the clamp, by the decay and by the completion
of a request, `max_prediction` by the clamp and by the completion.  With a
performance target, and before the completion counter wraps, the prediction
stays between zero and `max_prediction`, and an examination leaves it below the
target.  Without a target the clamp sets it to minus one.
-/

namespace MultiversionBalancer

open Lib CFloat RatFloat

/-- `0 <= predicted_avg_rt <= max_prediction`, and both are in range. -/
def PredictionOk (v : VersionedServer RatFloat) : Prop :=
  ∃ p m : ℚ, v.predictedAvgRt = ofRat p ∧ v.maxPrediction = ofRat m ∧
    0 ≤ p ∧ p ≤ m ∧ m < 2 ^ 128

/-! ## What writes the prediction -/

section Steps

variable {v w : VersionedServer RatFloat} {tp : NgxTime} {pt : ℤ}

/-- The clamp leaves the prediction below a positive target. -/
theorem PredictionOk.cap (h : PredictionOk v) (hpt : 1 ≤ pt) :
    ∃ p m : ℚ, (capPrediction pt v).predictedAvgRt = ofRat p ∧
      (capPrediction pt v).maxPrediction = ofRat m ∧
      0 ≤ p ∧ p ≤ m ∧ m < pt ∧ m < 2 ^ 128 := by
  obtain ⟨p, m, hp, hm, hnonneg, hle, hlt⟩ := h
  have hpt' : (1 : ℚ) ≤ pt := by exact_mod_cast hpt
  unfold capPrediction
  by_cases hcap : le (ofInt pt) v.maxPrediction = true
  · rw [if_pos hcap]
    rw [hm, ofInt_eq, ofRat_le] at hcap
    have hrange : InRange ((pt - 1 : ℤ) : ℚ) := by
      rw [Int.cast_sub, Int.cast_one]
      exact ⟨sub_nonneg.mpr hpt', by linarith⟩
    refine ⟨(pt - 1 : ℤ), (pt - 1 : ℤ), ?_, ?_, hrange.1, le_rfl, ?_, hrange.2⟩
    · exact hrange.narrow
    · exact hrange.narrow
    · rw [Int.cast_sub, Int.cast_one]
      exact sub_lt_self _ one_pos
  · rw [if_neg hcap]
    rw [hm, ofInt_eq, ofRat_le, not_le] at hcap
    exact ⟨p, m, hp, hm, hnonneg, hle, hcap, hlt⟩

theorem decayPrediction_spec {p : ℚ} (hp : v.predictedAvgRt = ofRat p)
    (hrange : InRange p) :
    ∃ q : ℚ, (decayPrediction v).predictedAvgRt = ofRat q ∧ 0 ≤ q ∧ q ≤ p := by
  unfold decayPrediction
  split
  · have hle : p * (995 / 1000) ≤ p :=
      mul_le_of_le_one_right hrange.1 (by norm_num)
    have hnonneg : 0 ≤ p * (995 / 1000) := mul_nonneg hrange.1 (by norm_num)
    refine ⟨p * (995 / 1000), ?_, hnonneg, hle⟩
    rw [hp, lit_eq, ofRat_mul]
    exact InRange.narrow ⟨hnonneg, lt_of_le_of_lt hle hrange.2⟩
  · exact ⟨p, hp, hrange.1, le_rfl⟩

theorem decayPrediction_maxPrediction (v : VersionedServer RatFloat) :
    (decayPrediction v).maxPrediction = v.maxPrediction := by
  unfold decayPrediction
  split <;> rfl

/-- An examination keeps the bounds and leaves the prediction below the
target. -/
theorem PredictionOk.examined (h : PredictionOk v) (hpt : 1 ≤ pt)
    (hexam : Examined tp pt v w) :
    PredictionOk w ∧ ∃ q : ℚ, w.predictedAvgRt = ofRat q ∧ q < pt := by
  obtain ⟨load, hexam⟩ := hexam
  obtain ⟨queue, -, rfl⟩ := examineVersion_eq_ok hexam
  have hqueue : PredictionOk { v with queue := queue } := h
  obtain ⟨p, m, hp, hm, hnonneg, hle, hbelow, hlt⟩ := hqueue.cap hpt
  obtain ⟨q, hq, hq0, hqp⟩ := decayPrediction_spec
    (v := accrueService tp (capPrediction pt { v with queue := queue })) hp
    ⟨hnonneg, lt_of_le_of_lt hle hlt⟩
  refine ⟨⟨q, m, hq, ?_, hq0, hqp.trans hle, hlt⟩, q, hq, ?_⟩
  · rw [decayPrediction_maxPrediction]
    exact hm
  · exact lt_of_le_of_lt (hqp.trans hle) hbelow

theorem PredictionOk.examined_all (h : PredictionOk v) (hpt : 1 ≤ pt)
    (hexam : Relation.ReflTransGen (Examined tp pt) v w) : PredictionOk w := by
  induction hexam with
  | refl => exact h
  | tail _ hexam ih => exact (ih.examined hpt hexam).1

theorem PredictionOk.examined_below (h : PredictionOk v) (hpt : 1 ≤ pt)
    (hexam : Relation.TransGen (Examined tp pt) v w) :
    ∃ q : ℚ, w.predictedAvgRt = ofRat q ∧ q < pt := by
  obtain ⟨x, hfirst, hlast⟩ := Relation.TransGen.tail'_iff.mp hexam
  exact ((h.examined_all hpt hfirst).examined hpt hlast).2

theorem bufferRequestData_prediction {a : ℕ} {r r' : Request RatFloat}
    (h : ngxHttpUpstreamBufferRequestData tp a v r = .ok (w, r')) :
    w.predictedAvgRt = v.predictedAvgRt ∧
      w.maxPrediction = v.maxPrediction := by
  obtain ⟨q, -, h⟩ := Except.bind_eq_ok.mp h
  obtain ⟨rfl, -⟩ := Prod.mk.inj (Except.ok.inj h)
  exact ⟨rfl, rfl⟩

theorem completeVersion_prediction {r : Request RatFloat} {multiple : Bool}
    (h : completeVersion tp r v = .ok (w, multiple)) :
    w.predictedAvgRt =
        smoothPrediction (requestMs tp r) r (countCompletion tp r v) ∧
      w.maxPrediction = narrow
        (CFloat.max v.maxPrediction w.predictedAvgRt) := by
  obtain ⟨d, -, h⟩ := Except.bind_eq_ok.mp h
  obtain ⟨⟨q, m⟩, -, h⟩ := Except.bind_eq_ok.mp h
  obtain ⟨rfl, -⟩ := Prod.mk.inj (Except.ok.inj h)
  exact ⟨rfl, rfl⟩

/-- A completion keeps the bounds, when the counter does not wrap and the
request was dispatched at an earlier count. -/
theorem PredictionOk.complete {r : Request RatFloat} {start : NgxTime}
    {multiple : Bool} (h : PredictionOk v) (hsec : r.startSec = start.sec)
    (hmsec : r.startMsec = start.msec)
    (hnonneg : 0 ≤ v.completedRequests)
    (hbefore : r.reqFinishBefore ≤ v.completedRequests)
    (hwrap : (v.completedRequests + 1) % v.reqUpperBound =
      v.completedRequests + 1)
    (hcomplete : completeVersion tp r v = .ok (w, multiple)) :
    PredictionOk w := by
  obtain ⟨p, m, hp, hm, hp0, hle, hlt⟩ := h
  obtain ⟨hrt, hmax⟩ := completeVersion_prediction hcomplete
  obtain ⟨ms, hms, hrange, -⟩ := requestMs_inRange tp hsec hmsec
  have hcount : (countCompletion tp r v).completedRequests =
      v.completedRequests + 1 := hwrap
  have hold : InRange p := ⟨hp0, lt_of_le_of_lt hle hlt⟩
  have hmean := smoothPrediction_unwrapped (v := countCompletion tp r v)
    (r := r) hrange hold.abs_lt hp (by omega) (by omega)
  obtain ⟨x, hx, hx0, hxlt⟩ := hmean.inRange hrange hold
  rw [hms, hx] at hrt
  refine ⟨x, Max.max m x, hrt, ?_, hx0, le_max_right _ _, max_lt hlt hxlt⟩
  rw [hmax, hm, hrt, ofRat_max]
  exact InRange.narrow ⟨le_max_of_le_right hx0, max_lt hlt hxlt⟩

end Steps

/-! ## Runs -/

/-- The list of a tier has a target if it has a version. -/
def Targeted (u : Upstream RatFloat) : Prop :=
  ∀ t ps, u.tier t = some ps → (∃ p ∈ ps.peer, p.version.isSome = true) →
    1 ≤ peersPt ps.peer

/-- What every run keeps, with a target. -/
structure PredictionsOk (s : System RatFloat) : Prop where
  queues : QueuesOk s
  started : ∀ r ∈ s.requests, ∃ start : NgxTime,
    r.startSec = start.sec ∧ r.startMsec = start.msec
  before : ∀ r ∈ s.requests, ∀ a, r.Waiting a →
    r.reqFinishBefore ≤ (s.upstream.versions a).completedRequests
  target : Targeted s.upstream
  versions : ∀ a, PredictionOk (s.upstream.versions a)

theorem Targeted.of_roles {u u' : Upstream RatFloat} (h : Targeted u)
    (hroles : u'.roles = u.roles) : Targeted u' := by
  rintro t ps' hps' ⟨p, hp, hver⟩
  have ht := congrFun hroles t
  unfold Upstream.roles at ht
  rw [hps', Option.map_some] at ht
  obtain ⟨ps, hps, hpeers⟩ := Option.map_eq_some_iff.mp ht.symm
  rw [← peersPt_eq_of_roles hpeers]
  refine h t ps hps ?_
  have hmem : p.role ∈ ps.peer.map Peer.role := by
    rw [hpeers]
    exact List.mem_map_of_mem hp
  obtain ⟨q, hq, hrole⟩ := List.mem_map.mp hmem
  have hversion : q.version = p.version := congrArg Role.version hrole
  exact ⟨q, hq, by rw [hversion]; exact hver⟩

theorem predictionsOk_initial {us : UpstreamSrvConf} {u : Upstream RatFloat}
    (hus : ngxHttpUpstreamInitRoundRobin us = some u)
    (hpt : ∀ servers, us.servers = some servers →
      ∃ sv ∈ servers, sv.backup = false ∧ 0 < sv.pt) :
    PredictionsOk { upstream := u, requests := [] } where
  queues := queuesOk_initial _ ⟨⟨us, hus⟩, rfl⟩
  started := by simp
  before := by simp
  target := by
    rintro t ps hps ⟨p, hp, hver⟩
    obtain ⟨i, hi⟩ := List.mem_iff_getElem?.mp hp
    obtain ⟨a, ha⟩ := Option.isSome_iff_exists.mp hver
    obtain ⟨rfl, -⟩ := (initRoundRobin_placed hus).version hps hi ha
    obtain rfl := Option.some.inj hps
    exact initRoundRobin_target hus hpt ⟨p, hp, hver⟩
  versions := by
    intro a
    obtain ⟨id, ip, port, hv⟩ := initRoundRobin_fresh hus a
    dsimp only
    rw [hv]
    exact ⟨0, 0, rfl, rfl, le_rfl, le_rfl, by norm_num⟩

variable {s s' : System RatFloat}

theorem PredictionsOk.arrive (conf : UpstreamConf) (tp : NgxTime)
    (h : PredictionsOk s) :
    PredictionsOk
      { s with
        requests := s.requests ++
          [ngxHttpUpstreamInitRequest conf.nextUpstreamTries s.upstream tp] } where
  queues := h.queues.arrive conf tp
  started := by
    intro r hr
    rcases List.mem_append.mp hr with hr | hr
    · exact h.started r hr
    · rw [List.mem_singleton.mp hr]
      exact ⟨tp, rfl, rfl⟩
  before := by
    intro r hr a hwait
    rcases List.mem_append.mp hr with hr | hr
    · exact h.before r hr a hwait
    · rw [List.mem_singleton.mp hr] at hwait
      cases hwait.2
  target := h.target
  versions := h.versions

theorem PredictionsOk.dispatch {i : ℕ} {r r' : Request RatFloat}
    {tp : NgxTime} {u : Upstream RatFloat} (h : PredictionsOk s)
    (hi : s.requests[i]? = some r) (hr : r.logged = false)
    (hget : ngxHttpUpstreamGetRoundRobinPeer s.upstream r tp =
      .ok (.ok, u, r')) :
    PredictionsOk { upstream := u, requests := s.requests.set i r' } := by
  have hroles := dispatch_roles hget
  have hqueues := h.queues.dispatch hi hr hget
  obtain ⟨-, ps, j, p, a, ws, load, v, hps, hp, -, ha, hscan, rfl, hbuf⟩ :=
    getRoundRobinPeer_scanned hget
  obtain ⟨-, -, hcompleted, -, hr'⟩ := bufferRequestData_ok hbuf
  obtain ⟨hpredicted, hmax⟩ := bufferRequestData_prediction hbuf
  have hpt : 1 ≤ peersPt ps.peer := by
    refine h.target _ ps hps ⟨p, List.mem_of_getElem? hp, ?_⟩
    rw [ha]
    rfl
  have hcount : ∀ b, (Function.update ws a v b).completedRequests =
      (s.upstream.versions b).completedRequests := by
    refine (Function.forall_update_iff ws fun b w => w.completedRequests =
      (s.upstream.versions b).completedRequests).mpr ⟨?_, fun b _ => ?_⟩
    · exact hcompleted.trans (sameRequests_of_examined (hscan.all a)).completed_eq
    · exact (sameRequests_of_examined (hscan.all b)).completed_eq
  have hmem := List.mem_of_getElem? hi
  refine
    { queues := hqueues
      started := forall_mem_set h.started ?_
      before := forall_mem_set ?_ ?_
      target := h.target.of_roles hroles
      versions := ?_ }
  · rw [hr']
    exact h.started r hmem
  · intro q hq b hwait
    have hle := h.before q hq b hwait
    exact hle.trans_eq (hcount b).symm
  · rintro b ⟨-, hver⟩
    rw [hr'] at hver ⊢
    obtain rfl := Option.some.inj hver
    have hcount' := hcount a
    rw [Function.update_self] at hcount'
    have hself := hcompleted.symm.trans hcount'
    exact (hself.trans (hcount a).symm).le
  · refine (Function.forall_update_iff ws fun _ w => PredictionOk w).mpr
      ⟨?_, fun b _ => (h.versions b).examined_all hpt (hscan.all b)⟩
    obtain ⟨q, m, hq, hm, hrest⟩ :=
      (h.versions a).examined_all hpt (hscan.all a)
    exact ⟨q, m, hpredicted.trans hq, hmax.trans hm, hrest⟩

theorem PredictionsOk.release {i state : ℕ} {r r' : Request RatFloat}
    {tp : NgxTime} {u : Upstream RatFloat} (h : PredictionsOk s) (tries : ℕ)
    (hi : s.requests[i]? = some r) (hr : r.logged = false)
    (hrel : releaseHeld s.upstream r state tp = .ok (u, r')) :
    PredictionsOk
      { upstream := u
        requests := s.requests.set i { r' with tries := tries } } := by
  obtain ⟨hversions, -, -, hr'⟩ := releaseHeld_spec hrel
  have hmem := List.mem_of_getElem? hi
  refine
    { queues := h.queues.release tries hi hr hrel
      started := forall_mem_set h.started ?_
      before := ?_
      target := h.target.of_roles (releaseHeld_roles hrel)
      versions := by rw [hversions]; exact h.versions }
  · rw [hr']
    exact h.started r hmem
  · rw [hversions]
    refine forall_mem_set h.before ?_
    rw [hr']
    exact h.before r hmem

theorem PredictionsOk.complete {i : ℕ} {r : Request RatFloat} {tp : NgxTime}
    {u : Upstream RatFloat} {t : Text} (h : PredictionsOk s)
    (hi : s.requests[i]? = some r) (hr : r.logged = false)
    (hlog : ngxHttpLogRequestTime tp s.upstream r = .ok (u, t))
    (hfew : loggedCount s + 1 < 2147483642) :
    PredictionsOk
      { upstream := u
        requests := s.requests.set i { r with logged := true } } := by
  have hqueues := h.queues.complete hi hr hlog hfew
  have hmem := List.mem_of_getElem? hi
  have hstarted := forall_mem_set (i := i)
    (y := { r with logged := true }) h.started (h.started r hmem)
  rcases logRequestTime_spec hlog with ⟨-, rfl⟩ |
    ⟨a, v, m, hver, hcomplete, hversions, -⟩
  · exact
      { queues := hqueues
        started := hstarted
        before := forall_mem_set h.before fun b hwait => by cases hwait.1
        target := h.target
        versions := h.versions }
  · obtain ⟨-, hcompleted, -⟩ := completeVersion_ok hcomplete
    have hwrap := h.queues.no_wrap hfew a
    have hle : ∀ b, (s.upstream.versions b).completedRequests ≤
        (u.versions b).completedRequests := by
      rw [hversions]
      refine (Function.forall_update_iff s.upstream.versions fun b w =>
        (s.upstream.versions b).completedRequests ≤
          w.completedRequests).mpr ⟨?_, fun b _ => le_rfl⟩
      rw [hcompleted, hwrap]
      exact Int.le_add_one le_rfl
    obtain ⟨start, hsec, hmsec⟩ := h.started r hmem
    refine
      { queues := hqueues
        started := hstarted
        before := ?_
        target := h.target.of_roles (logRequestTime_roles hlog)
        versions := ?_ }
    · refine forall_mem_set (fun q hq b hwait => ?_)
        fun b hwait => by cases hwait.1
      exact (h.before q hq b hwait).trans (hle b)
    · rw [hversions]
      refine (Function.forall_update_iff _ fun _ w => PredictionOk w).mpr
        ⟨?_, fun b _ => h.versions b⟩
      exact (h.versions a).complete hsec hmsec
        (h.queues.completed a).1
        (h.before r hmem a ⟨hr, hver⟩) hwrap hcomplete

theorem PredictionsOk.change {conf : UpstreamConf} (h : PredictionsOk s)
    (hfew : loggedCount s' < 2147483642) (hc : Change conf s s') :
    PredictionsOk s' := by
  cases hc with
  | arrive tp => exact h.arrive conf tp
  | dispatch hi hr hget => exact h.dispatch hi hr hget
  | release tries hi hr hrel => exact h.release tries hi hr hrel
  | complete hi hr hlog =>
      rw [loggedCount_set _ _ hi, hr] at hfew
      exact h.complete hi hr hlog (by simpa using hfew)

/-- With a target given on a primary server, and as long as fewer than
`req_upper_bound` requests have completed, every prediction is between zero
and `max_prediction`, and a selection leaves those of the eligible peers below
the target. -/
theorem prediction_bounds (us : UpstreamSrvConf) (u : Upstream RatFloat)
    (hus : ngxHttpUpstreamInitRoundRobin us = some u)
    (hpt : ∀ servers, us.servers = some servers →
      ∃ sv ∈ servers, sv.backup = false ∧ 0 < sv.pt)
    (conf : UpstreamConf) (es : List Event) (s : System RatFloat)
    (hrun : run conf { upstream := u, requests := [] } es = .ok s)
    (hfew : loggedCount s < 2147483642) :
    (∀ a, PredictionOk (s.upstream.versions a)) ∧
      ∀ t ps rrp tp sel, s.upstream.tier t = some ps →
        ngxHttpUpstreamGetPeer ps s.upstream.versions rrp tp = .ok sel →
        ∀ (i : ℕ) (p : Peer) (a : ℕ), ps.peer[i]? = some p →
          eligible rrp.tried tp.sec i p = true → p.version = some a →
          ∃ q : ℚ, (sel.versions a).predictedAvgRt = ofRat q ∧
            q < peersPt ps.peer := by
  have hchange : ∀ s s' : System RatFloat,
      (loggedCount s < 2147483642 → PredictionsOk s) → Change conf s s' →
      loggedCount s' < 2147483642 → PredictionsOk s' := by
    intro s s' hs hc hfew
    exact (hs (lt_of_le_of_lt (loggedCount_change hc) hfew)).change hfew hc
  have hok := run_change_invariant hchange
    (fun _ => predictionsOk_initial hus hpt) hrun hfew
  refine ⟨hok.versions, ?_⟩
  intro t ps rrp tp sel hps hsel i p a hp hel ha
  have hpt : 1 ≤ peersPt ps.peer := by
    refine hok.target t ps hps ⟨p, List.mem_of_getElem? hp, ?_⟩
    rw [ha]
    rfl
  obtain ⟨-, -, b, vs, load, -, -, -, -, -, heach, -, hvs⟩ :=
    getPeer_examined hsel
  obtain ⟨q, hq, hlt⟩ := (hok.versions a).examined_below hpt
    (heach i p a hp hel ha)
  refine ⟨q, ?_, hlt⟩
  rw [hvs]
  by_cases hab : a = b
  · subst hab
    rw [Function.update_self]
    exact hq
  · rw [Function.update_of_ne hab]
    exact hq

/-- One request on a heavy server with a target. -/
theorem prediction_bounds_one :
    ∃ s : System RatFloat,
      run errorConf ⟨listed [.ofAddr "a:1" 2 100], []⟩
        [.arrive (NgxTime.ofSec 1), .connect 0 (NgxTime.ofSec 1)] = .ok s ∧
      (∀ a, PredictionOk (s.upstream.versions a)) ∧
      ∀ t ps rrp tp sel, s.upstream.tier t = some ps →
        ngxHttpUpstreamGetPeer ps s.upstream.versions rrp tp = .ok sel →
        ∀ (i : ℕ) (p : Peer) (a : ℕ), ps.peer[i]? = some p →
          eligible rrp.tried tp.sec i p = true → p.version = some a →
          ∃ q : ℚ, (sel.versions a).predictedAvgRt = ofRat q ∧
            q < peersPt ps.peer := by
  obtain ⟨s, hrun, hs⟩ := @runs_iff RatFloat _ errorConf
    ⟨listed [.ofAddr "a:1" 2 100], []⟩
    [.arrive (NgxTime.ofSec 1), .connect 0 (NgxTime.ofSec 1)]
    (fun s => decide (loggedCount s = 0)) |>.mp (by decide +kernel)
  have hcount := of_decide_eq_true hs
  refine ⟨s, hrun, prediction_bounds (oneHeavy 100) _ rfl ?_ errorConf _ s
    hrun (by omega)⟩
  intro servers hservers
  obtain rfl := Option.some.inj hservers
  exact ⟨_, List.mem_singleton_self _, rfl, by decide⟩

/-- Without a target the first selection makes the prediction negative, and
greater than `max_prediction`. -/
theorem prediction_bounds_no_target :
    ∃ s : System RatFloat,
      ngxHttpUpstreamInitRoundRobin (oneHeavy 0) =
        some (listed [.ofAddr "a:1" 2 0] : Upstream RatFloat) ∧
      run errorConf ⟨listed [.ofAddr "a:1" 2 0], []⟩
        [.arrive (NgxTime.ofSec 1), .connect 0 (NgxTime.ofSec 1)] = .ok s ∧
      loggedCount s = 0 ∧
      (s.upstream.versions 0).predictedAvgRt = ofRat (-995 / 1000) ∧
      (s.upstream.versions 0).maxPrediction = ofRat (-1) ∧
      ¬PredictionOk (s.upstream.versions 0) := by
  obtain ⟨s, hrun, hs⟩ := @runs_iff RatFloat _ errorConf
    ⟨listed [.ofAddr "a:1" 2 0], []⟩
    [.arrive (NgxTime.ofSec 1), .connect 0 (NgxTime.ofSec 1)]
    (fun s => decide (loggedCount s = 0 ∧
      (s.upstream.versions 0).predictedAvgRt = ofRat (-995 / 1000) ∧
      (s.upstream.versions 0).maxPrediction = ofRat (-1))) |>.mp
    (by decide +kernel)
  obtain ⟨hcount, hpredicted, hmax⟩ := of_decide_eq_true hs
  refine ⟨s, rfl, hrun, hcount, hpredicted, hmax, ?_⟩
  rintro ⟨p, m, hp, -, hnonneg, -⟩
  rw [hpredicted, ofRat_inj] at hp
  rw [← hp] at hnonneg
  exact absurd hnonneg (by norm_num)

end MultiversionBalancer
