import MultiversionBalancer.Log.OneServer
import MultiversionBalancer.Log.PredictionRuns

/-!
# The prediction across the wrap

With the ledger of a run, the number of completions since the dispatch of a
request is known even when the counter has wrapped.  The prediction that a
completion computes is a proper average with this number, unless the counter
has just wrapped: below 100 the formula for the first completions is used
again, with a divisor that is not corrected for the wrap.
-/

namespace MultiversionBalancer

open Lib CFloat RatFloat

/-! ## Predictions of either sign -/

/-- The prediction is a number that a `float` can hold, and so is
`max_prediction` if it is a number. -/
def PredictionReal (v : VersionedServer RatFloat) : Prop :=
  (∃ p : ℚ, v.predictedAvgRt = ofRat p ∧ |p| < 2 ^ 128) ∧
    ∀ m : ℚ, v.maxPrediction = ofRat m → |m| < 2 ^ 128

section Steps

variable {v w : VersionedServer RatFloat} {tp : NgxTime} {pt : ℤ}

theorem PredictionReal.cap (h : PredictionReal v) (hpt : 0 ≤ pt) :
    PredictionReal (capPrediction pt v) := by
  unfold capPrediction
  split
  · next hcap =>
      obtain ⟨x, m, hx, hm, hle⟩ := exists_of_le hcap
      obtain rfl : (pt : ℚ) = x := ofRat_inj.mp hx
      have hlt := (abs_lt.mp (h.2 m hm)).2
      have hpt' : (0 : ℚ) ≤ pt := by exact_mod_cast hpt
      have hrange : |((pt - 1 : ℤ) : ℚ)| < 2 ^ 128 := by
        rw [Int.cast_sub, Int.cast_one]
        exact abs_lt.mpr ⟨by linarith, by linarith⟩
      refine ⟨⟨_, narrow_ofRat hrange, hrange⟩, ?_⟩
      intro x hx
      have heq := (narrow_ofRat hrange).symm.trans hx
      rw [← ofRat_inj.mp heq]
      exact hrange
  · exact h

theorem PredictionReal.decay (h : PredictionReal v) :
    PredictionReal (decayPrediction v) := by
  unfold decayPrediction
  split
  · obtain ⟨⟨p, hp, hlt⟩, hmax⟩ := h
    have hrange : |p * (995 / 1000)| < 2 ^ 128 := by
      rw [abs_mul]
      refine lt_of_le_of_lt (mul_le_of_le_one_right (abs_nonneg p) ?_) hlt
      norm_num
    refine ⟨⟨_, ?_, hrange⟩, hmax⟩
    dsimp only
    rw [hp, lit_eq, ofRat_mul]
    exact narrow_ofRat hrange
  · exact h

theorem PredictionReal.examined (h : PredictionReal v) (hpt : 0 ≤ pt)
    (hexam : Relation.ReflTransGen (Examined tp pt) v w) :
    PredictionReal w := by
  induction hexam with
  | refl => exact h
  | @tail x w _ hexam ih =>
      obtain ⟨load, hexam⟩ := hexam
      obtain ⟨q, -, rfl⟩ := examineVersion_eq_ok hexam
      have hqueue : PredictionReal { x with queue := q } := ih
      have haccrued : PredictionReal
          (accrueService tp (capPrediction pt { x with queue := q })) :=
        hqueue.cap hpt
      exact haccrued.decay

end Steps

theorem peersPt_nonneg (ps : List Peer) : 0 ≤ peersPt ps := by
  have hfold : ∀ pt : ℤ, 0 ≤ pt →
      0 ≤ ps.foldl (fun pt p => if 0 < p.pt then (p.pt : ℤ) else pt) pt := by
    induction ps with
    | nil => exact fun _ h => h
    | cons p ps ih =>
        intro pt hpt
        refine ih _ ?_
        dsimp only
        split
        · exact Int.natCast_nonneg _
        · exact hpt
  exact hfold 0 le_rfl

/-! ## A completion -/

/-- The completion of the request at a position computes a proper average:
fewer than `req_upper_bound` requests of its version have completed since its
dispatch, and the counter has not just wrapped in between. -/
def AverageAt (l : Ledger) (s : System RatFloat) (i : ℕ) : Prop :=
  ∀ r a b, s.requests[i]? = some r → r.version = some a →
    r.enterTime = some b →
    let completed :=
      ((s.upstream.versions a).completedRequests + 1) % 2147483642
    l.done a + 1 - l.before a b < 2147483642 ∧
      (r.reqFinishBefore < completed ∨ 100 ≤ completed)

/-- An event that is no completion, or one with a proper average. -/
def EventAverages (x : Ledger × System RatFloat) (e : Event) : Prop :=
  ∀ i tp, e = .complete i tp → AverageAt x.1 x.2 i

/-- The request started at a time of the clock. -/
def Request.Clocked (r : Request RatFloat) : Prop :=
  ∃ start : NgxTime, r.startSec = start.sec ∧ r.startMsec = start.msec

/-- What every run keeps whose completions compute proper averages. -/
structure AveragesOk (l : Ledger) (s : System RatFloat) : Prop where
  ledger : LedgerOk l s
  clocked : ∀ r ∈ s.requests, r.Clocked
  versions : ∀ a, PredictionReal (s.upstream.versions a)

section Completion

variable {l : Ledger} {s : System RatFloat} {i a b : ℕ}
  {r : Request RatFloat}

/-- The number of completions since the dispatch of a request that completes,
and what the counters of the source make of it. -/
theorem LedgerOk.completions (h : LedgerOk l s) (hi : s.requests[i]? = some r)
    (hr : r.logged = false) (ha : r.version = some a)
    (hb : r.enterTime = some b) :
    (s.upstream.versions a).reqUpperBound = 2147483642 ∧
      (s.upstream.versions a).completedRequests = l.done a % 2147483642 ∧
      r.reqFinishBefore = l.before a b % 2147483642 ∧
      0 ≤ l.before a b ∧ l.before a b ≤ l.done a := by
  obtain ⟨ns, -, hnodes, hlabelled⟩ := h.linked.queue a
  obtain ⟨b', hb', hmem⟩ := hnodes.mem i r hi ⟨hr, ha⟩
  obtain rfl := Option.some.inj (hb.symm.trans hb')
  obtain ⟨b', hb', hbefore⟩ := h.before i r a hi ⟨hr, ha⟩
  obtain rfl := Option.some.inj (hb.symm.trans hb')
  obtain ⟨-, hnonneg, hdone⟩ := hlabelled.past (b, r.no)
    (List.mem_map.mpr ⟨_, (mem_liveNodes.mp hmem).1, rfl⟩)
  exact ⟨hlabelled.bound, hlabelled.completed, hbefore, hnonneg, hdone⟩

/-- The new prediction of a completion that meets the condition. -/
theorem AveragesOk.average {ms old : ℚ} (tp : NgxTime) (h : AveragesOk l s)
    (haverage : AverageAt l s i) (hi : s.requests[i]? = some r)
    (hr : r.logged = false) (ha : r.version = some a)
    (hb : r.enterTime = some b) (hms : InRange ms) (hrange : |old| < 2 ^ 128)
    (hold : (s.upstream.versions a).predictedAvgRt = ofRat old) :
    ProperAverage old ms (l.done a + 1 - l.before a b)
      (smoothPrediction (ofRat ms) r
        (countCompletion tp r (s.upstream.versions a))) := by
  obtain ⟨hbound, hcompleted, hbefore, hnonneg, hdone⟩ :=
    h.ledger.completions hi hr ha hb
  obtain ⟨hfew, hcase⟩ := haverage r a b hi ha hb
  have hcount : (countCompletion tp r
      (s.upstream.versions a)).completedRequests =
        (l.done a + 1) % 2147483642 := by
    simp only [countCompletion]
    rw [hbound, hcompleted]
    exact Int.emod_add_emod ..
  have hbound' : (countCompletion tp r
      (s.upstream.versions a)).reqUpperBound = 2147483642 := hbound
  have hprediction : (countCompletion tp r
      (s.upstream.versions a)).predictedAvgRt = ofRat old := hold
  rw [hcompleted, hbefore, Int.emod_add_emod] at hcase
  by_cases hsame : l.before a b % 2147483642 < (l.done a + 1) % 2147483642
  · -- both counts lie on one side of the wrap
    have hk : l.done a + 1 - l.before a b =
        (countCompletion tp r (s.upstream.versions a)).completedRequests -
          r.reqFinishBefore := by
      rw [hcount, hbefore]
      omega
    rw [hk]
    exact smoothPrediction_unwrapped hms hrange hprediction (by omega)
      (by omega)
  · have hmany := hcase.resolve_left hsame
    have hk : l.done a + 1 - l.before a b =
        (countCompletion tp r (s.upstream.versions a)).completedRequests -
          r.reqFinishBefore +
        (countCompletion tp r (s.upstream.versions a)).reqUpperBound := by
      rw [hcount, hbefore, hbound']
      omega
    rw [hk]
    exact smoothPrediction_wrapped hms hrange hprediction (by omega) (by omega)
      (by omega)

end Completion

/-! ## Runs -/

namespace AveragesOk

variable {l : Ledger} {s : System RatFloat} {tp : NgxTime} {i : ℕ}
  {r r' : Request RatFloat} {u : Upstream RatFloat}

theorem initial (hs : Initial s) : AveragesOk Ledger.empty s where
  ledger := LedgerOk.initial hs
  clocked := by simp [hs.2]
  versions := by
    obtain ⟨⟨us, hus⟩, -⟩ := hs
    intro a
    obtain ⟨id, ip, port, hfresh⟩ := initRoundRobin_fresh hus a
    rw [hfresh]
    refine ⟨⟨0, rfl, by norm_num⟩, ?_⟩
    intro m hm
    rw [← ofRat_inj.mp (hm : ofRat 0 = ofRat m)]
    norm_num

theorem dispatch {a b : ℕ} (h : AveragesOk l s)
    (hi : s.requests[i]? = some r) (hr : r.logged = false)
    (hget : ngxHttpUpstreamGetRoundRobinPeer s.upstream r tp =
      .ok (.ok, u, r'))
    (ha : r'.version = some a) (hb : r'.enterTime = some b) :
    AveragesOk (l.dispatch a b)
      { upstream := u, requests := s.requests.set i r' } := by
  have hledger := h.ledger.dispatch hi hr hget ha hb
  obtain ⟨-, ps, j, p, a', ws, load, v, -, -, -, -, hscan, rfl, hbuf⟩ :=
    getRoundRobinPeer_scanned hget
  obtain ⟨-, -, -, -, hr'⟩ := bufferRequestData_ok hbuf
  obtain ⟨hpredicted, hmax⟩ := bufferRequestData_prediction hbuf
  refine
    { ledger := hledger
      clocked := forall_mem_set h.clocked ?_
      versions := ?_ }
  · rw [hr']
    exact h.clocked r (List.mem_of_getElem? hi)
  · have hexamined : ∀ b, PredictionReal (ws b) := fun b =>
      (h.versions b).examined (peersPt_nonneg ps.peer) (hscan.all b)
    refine (Function.forall_update_iff ws fun _ w => PredictionReal w).mpr
      ⟨?_, fun b _ => hexamined b⟩
    unfold PredictionReal
    rw [hpredicted, hmax]
    exact hexamined a'

theorem release {state : ℕ} (h : AveragesOk l s) (tries : ℕ)
    (hi : s.requests[i]? = some r)
    (hrel : releaseHeld s.upstream r state tp = .ok (u, r')) :
    AveragesOk l
      { upstream := u
        requests := s.requests.set i { r' with tries := tries } } := by
  obtain ⟨hversions, -, -, hr'⟩ := releaseHeld_spec hrel
  refine
    { ledger := h.ledger.release tries hi hrel
      clocked := forall_mem_set h.clocked ?_
      versions := by rw [hversions]; exact h.versions }
  rw [hr']
  exact h.clocked r (List.mem_of_getElem? hi)

/-- The old prediction, the time of the request and the new prediction. -/
theorem completeVersion {a b : ℕ} {v : VersionedServer RatFloat} {m : Bool}
    (h : AveragesOk l s) (haverage : AverageAt l s i)
    (hi : s.requests[i]? = some r) (hr : r.logged = false)
    (ha : r.version = some a) (hb : r.enterTime = some b)
    (hcomplete : completeVersion tp r (s.upstream.versions a) = .ok (v, m)) :
    ∃ old ms : ℚ, (s.upstream.versions a).predictedAvgRt = ofRat old ∧
      |old| < 2 ^ 128 ∧ requestMs tp r = ofRat ms ∧ InRange ms ∧
      ProperAverage old ms (l.done a + 1 - l.before a b) v.predictedAvgRt := by
  obtain ⟨⟨old, hold, hrange⟩, -⟩ := h.versions a
  obtain ⟨start, hsec, hmsec⟩ := h.clocked r (List.mem_of_getElem? hi)
  obtain ⟨ms, hms, hmsrange, -⟩ := requestMs_inRange tp hsec hmsec
  obtain ⟨hnew, -⟩ := completeVersion_prediction hcomplete
  refine ⟨old, ms, hold, hrange, hms, hmsrange, ?_⟩
  rw [hnew, hms]
  exact h.average tp haverage hi hr ha hb hmsrange hrange hold

theorem complete {t : Text} (h : AveragesOk l s) (haverage : AverageAt l s i)
    (hi : s.requests[i]? = some r) (hr : r.logged = false)
    (hlog : ngxHttpLogRequestTime tp s.upstream r = .ok (u, t)) :
    AveragesOk (l.complete r.version)
      { upstream := u
        requests := s.requests.set i { r with logged := true } } := by
  refine
    { ledger := h.ledger.complete hi hr hlog
      clocked := forall_mem_set h.clocked
        (h.clocked r (List.mem_of_getElem? hi))
      versions := ?_ }
  rcases logRequestTime_spec hlog with ⟨-, rfl⟩ |
    ⟨a, v, m, ha, hcomplete, hversions, -⟩
  · exact h.versions
  · obtain ⟨ns, -, hnodes, -⟩ := h.ledger.linked.queue a
    obtain ⟨b, hb, -⟩ := hnodes.mem i r hi ⟨hr, ha⟩
    obtain ⟨old, ms, -, hrange, -, hms, haveraged⟩ :=
      h.completeVersion haverage hi hr ha hb hcomplete
    rw [hversions]
    refine (Function.forall_update_iff _ fun _ w => PredictionReal w).mpr
      ⟨⟨haveraged.abs_lt hms hrange, ?_⟩, fun b _ => h.versions b⟩
    intro x hx
    obtain ⟨-, hmax⟩ := completeVersion_prediction hcomplete
    refine CFloatRange.toRat_narrow
      (CFloat.max (s.upstream.versions a).maxPrediction v.predictedAvgRt) x ?_
    rw [← hmax, hx]
    rfl

theorem keeps (conf : UpstreamConf) :
    KeepsLedger conf (fun _ => AverageAt) AveragesOk where
  arrive := fun l s tp h =>
    { ledger := h.ledger.arrive conf tp
      clocked := by
        intro r hr
        rcases List.mem_append.mp hr with hr | hr
        · exact h.clocked r hr
        · rw [List.mem_singleton.mp hr]
          exact ⟨tp, rfl, rfl⟩
      versions := h.versions }
  dispatch := fun _ _ _ _ _ _ _ _ _ h hi hr hget ha hb =>
    h.dispatch hi hr hget ha hb
  release := fun _ _ _ _ _ _ _ tries _ h hi _ hrel => h.release tries hi hrel
  complete := fun _ _ _ _ _ _ _ h haverage hi hr hlog =>
    h.complete haverage hi hr hlog
  guard_release := by
    intro l s i r r' u tp haverage hi hrel q a b hq ha hb
    obtain ⟨hversions, -, -, hr'⟩ := releaseHeld_spec hrel
    rw [getElem?_set_of_some r' hi] at hq
    obtain rfl := Option.some.inj hq
    rw [hr'] at ha hb
    have hsame := haverage r a b hi ha hb
    dsimp only at hsame ⊢
    rw [hversions, hr']
    exact hsame

end AveragesOk

theorem step_complete_version {F : Type} [CFloat F] {conf : UpstreamConf}
    {s s' : System F} {i a : ℕ} {r : Request F} {tp : NgxTime}
    (hstep : step conf s (.complete i tp) = .ok s')
    (hi : s.requests[i]? = some r) (ha : r.version = some a) :
    r.logged = false ∧ ∃ r' v m,
      r' = { r with tries := r'.tries, sockaddr := r'.sockaddr } ∧
      completeVersion tp r' (s.upstream.versions a) = .ok (v, m) ∧
      s'.upstream.versions a = v := by
  cases step_cases hstep with
  | complete hi' hr h =>
      obtain rfl := Option.some.inj (hi.symm.trans hi')
      obtain ⟨⟨u, r'⟩, hrel, h⟩ := Except.bind_eq_ok.mp h
      obtain ⟨⟨u', t⟩, hlog, h⟩ := Except.bind_eq_ok.mp h
      obtain rfl := Except.ok.inj h
      obtain ⟨hversions, -, -, hr'⟩ := releaseHeld_spec hrel
      have ha' : r'.version = some a := by
        rw [hr']
        exact ha
      refine ⟨hr, r', ?_⟩
      rcases logRequestTime_spec hlog with ⟨hnone, -⟩ |
        ⟨a', v, m, hver, hcomplete, hupdate, -⟩
      · rw [ha'] at hnone
        cases hnone
      · obtain rfl := Option.some.inj (ha'.symm.trans hver)
        rw [hversions] at hcomplete
        refine ⟨v, m, ?_, hcomplete, ?_⟩
        · rw [hr']
        · dsimp only
          rw [hupdate, Function.update_self]

/-- In every run whose completions meet the condition, the next completion
that meets it replaces the prediction by a proper average with the number of
completions of its version since the request was dispatched, and a
non-negative prediction stays non-negative. -/
theorem prediction_average (conf : UpstreamConf)
    (x : Ledger × System RatFloat) (h : Ledgered conf EventAverages x)
    (i a b : ℕ) (tp : NgxTime) (r : Request RatFloat) (s' : System RatFloat)
    (haverage : AverageAt x.1 x.2 i) (hi : x.2.requests[i]? = some r)
    (ha : r.version = some a) (hb : r.enterTime = some b)
    (hstep : step conf x.2 (.complete i tp) = .ok s') :
    ∃ old ms : ℚ, (x.2.upstream.versions a).predictedAvgRt = ofRat old ∧
      requestMs tp r = ofRat ms ∧
      ProperAverage old ms (x.1.done a + 1 - x.1.before a b)
        (s'.upstream.versions a).predictedAvgRt ∧
      (0 ≤ old → ∃ new : ℚ,
        (s'.upstream.versions a).predictedAvgRt = ofRat new ∧ 0 ≤ new) := by
  have hok : AveragesOk x.1 x.2 :=
    h.invariant (fun _ hs => AveragesOk.initial hs)
      (fun _ _ i tp hevent => hevent i tp rfl) (AveragesOk.keeps conf)
  obtain ⟨hr, r', v, m, hr', hcomplete, hv⟩ :=
    step_complete_version hstep hi ha
  have hms : requestMs tp r' = requestMs tp r := by
    rw [hr']
    rfl
  have hnew : v.predictedAvgRt = smoothPrediction (requestMs tp r) r
      (countCompletion tp r (x.2.upstream.versions a)) := by
    rw [(completeVersion_prediction hcomplete).1, hms, hr']
    rfl
  obtain ⟨⟨old, hold, hrange⟩, -⟩ := hok.versions a
  obtain ⟨start, hsec, hmsec⟩ := hok.clocked r (List.mem_of_getElem? hi)
  obtain ⟨ms, hms, hmsrange, -⟩ := requestMs_inRange tp hsec hmsec
  have hproper := hok.average tp haverage hi hr ha hb hmsrange hrange hold
  rw [← hms, ← hnew, ← hv] at hproper
  exact ⟨old, ms, hold, hms, hproper, fun hnonneg =>
    hproper.nonneg hmsrange hnonneg⟩

/-- One request on the heavy server. -/
theorem prediction_average_one :
    ∃ (x : Ledger × System RatFloat) (b : ℕ) (r : Request RatFloat)
      (s' : System RatFloat),
      x.2.requests[0]? = some r ∧ r.version = some 0 ∧
      step errorConf x.2 (.complete 0 (NgxTime.ofSec 1)) = .ok s' ∧
      ∃ old ms : ℚ, (x.2.upstream.versions 0).predictedAvgRt = ofRat old ∧
        requestMs (NgxTime.ofSec 1) r = ofRat ms ∧
        ProperAverage old ms (x.1.done 0 + 1 - x.1.before 0 b)
          (s'.upstream.versions 0).predictedAvgRt ∧
        (0 ≤ old → ∃ new : ℚ,
          (s'.upstream.versions 0).predictedAvgRt = ofRat new ∧ 0 ≤ new) := by
  have hquiet : ∀ (x : Ledger × System RatFloat) (e : Event),
      (∀ i tp, e ≠ .complete i tp) → EventAverages x e :=
    fun x e hne i tp he => absurd he (hne i tp)
  have hinit : Ledgered errorConf EventAverages
      (Ledger.empty, oneHeavySystem RatFloat) :=
    .init ⟨rfl, oneHeavySystem_initial⟩
  obtain ⟨s, r, b, hrun, hone, hrequests, hr, -⟩ :=
    oneHeavySystem_oneServer.send hinit (by decide) hquiet
  have hi : s.requests[0]? = some r := by
    rw [hrequests]
    rfl
  have hcount : loggedCount s = 0 := by
    rw [loggedCount, hrequests]
    simp [oneHeavySystem, hr.waiting.1]
  obtain ⟨-, hcompleted, hbefore, -⟩ :=
    (ledgered_ok hrun).completions hi hr.waiting.1 hr.waiting.2 hr.enterTime
  have haverage : AverageAt (Ledger.empty.dispatch 0 b) s 0 := by
    intro q a c hq ha hc
    obtain rfl := Option.some.inj (hi.symm.trans hq)
    obtain rfl := Option.some.inj (hr.waiting.2.symm.trans ha)
    obtain rfl := Option.some.inj (hr.enterTime.symm.trans hc)
    dsimp only at hcompleted hbefore ⊢
    rw [hcompleted, hbefore]
    simp [Ledger.dispatch, Ledger.empty]
  have hevent : EventAverages (Ledger.empty.dispatch 0 b, s)
      (.complete 0 (NgxTime.ofSec 1)) := by
    intro i tp he
    obtain ⟨rfl, rfl⟩ := Event.complete.inj he
    exact haverage
  obtain ⟨s', hstep, -⟩ := hone.finish hrun hevent (by omega) hi hr
    (by simp [Ledger.dispatch, Ledger.empty])
  exact ⟨(_, s), b, r, s', hi, hr.waiting.2, hstep,
    prediction_average errorConf (_, s) hrun 0 0 b (NgxTime.ofSec 1) r s'
      haverage hi hr.waiting.2 hr.enterTime hstep⟩

/-! ## The wrap -/

/-- At a counter of zero the formula for the first completions divides by
zero. -/
theorem smoothPrediction_zero {ms : RatFloat} {r : Request RatFloat}
    {v : VersionedServer RatFloat} (h : v.completedRequests = 0) :
    smoothPrediction ms r v = ⟨none⟩ := by
  have hlt : v.completedRequests < 100 := by omega
  have hzero : (narrow (ofInt v.completedRequests) : RatFloat) = ofRat 0 := by
    rw [h]
    exact narrow_ofRat (by norm_num)
  have hdiv : (ofInt 1 : RatFloat) / narrow (ofInt v.completedRequests) =
      ⟨none⟩ := by
    rw [hzero]
    exact ofRat_div_zero
  unfold smoothPrediction
  rw [if_pos hlt, hdiv]
  rfl

/-- The request whose completion wraps the counter leaves a prediction that is
not a number. -/
theorem prediction_average_wrap :
    ∃ (x : Ledger × System RatFloat) (i b : ℕ) (r : Request RatFloat)
      (s' : System RatFloat),
      Ledgered errorConf (fun _ _ => True) x ∧
      x.2.requests[i]? = some r ∧ r.version = some 0 ∧
      r.enterTime = some b ∧ r.reqFinishBefore = 2147483641 ∧
      step errorConf x.2 (.complete i (NgxTime.ofSec 1)) = .ok s' ∧
      (s'.upstream.versions 0).completedRequests = 0 ∧
      (s'.upstream.versions 0).predictedAvgRt = ⟨none⟩ ∧
      ¬∃ old ms k, ProperAverage old ms k
        (s'.upstream.versions 0).predictedAvgRt := by
  obtain ⟨l, s, hrun, hone, hcount, hsent, hdone⟩ :=
    oneServer_count (F := RatFloat) errorConf 2147483641 (by norm_num)
  obtain ⟨s₁, r, b, hrun₁, hone₁, hrequests, hr, -⟩ :=
    hone.send hrun (by omega) fun _ _ _ => trivial
  have hi : s₁.requests[s.requests.length]? = some r := by
    rw [hrequests]
    exact List.getElem?_concat_length
  have hcount₁ : loggedCount s₁ = 2147483641 := by
    rw [← hcount, loggedCount, hrequests, List.countP_append, loggedCount]
    simp [hr.waiting.1]
  obtain ⟨s', hstep, -⟩ := hone₁.finish hrun₁ trivial (by omega) hi hr
    (by simp [Ledger.dispatch, hsent, hdone])
  obtain ⟨hbound, hcompleted, hbefore, -⟩ :=
    (ledgered_ok hrun₁).completions hi hr.waiting.1 hr.waiting.2 hr.enterTime
  have hlabel : (l.dispatch 0 b).before 0 b = 2147483641 := by
    simp [Ledger.dispatch, hdone]
  dsimp only at hcompleted hbefore hbound
  rw [hlabel] at hbefore
  have hwrap : ((s₁.upstream.versions 0).completedRequests + 1) %
      (s₁.upstream.versions 0).reqUpperBound = 0 := by
    rw [hbound, hcompleted]
    simp [Ledger.dispatch, hdone]
  obtain ⟨-, r', v, m, -, hcomplete, hv⟩ :=
    step_complete_version hstep hi hr.waiting.2
  have hnone : (s'.upstream.versions 0).predictedAvgRt = ⟨none⟩ := by
    rw [hv, (completeVersion_prediction hcomplete).1]
    exact smoothPrediction_zero hwrap
  refine ⟨(_, s₁), _, b, r, s', hrun₁, hi, hr.waiting.2, hr.enterTime, hbefore,
    hstep, ?_, hnone, ?_⟩
  · rw [hv, (completeVersion_ok hcomplete).2.1]
    exact hwrap
  · rintro ⟨old, ms, k, -, w, -, -, hnew⟩
    rw [hnone] at hnew
    cases hnew

end MultiversionBalancer
