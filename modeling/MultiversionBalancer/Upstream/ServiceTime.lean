import MultiversionBalancer.Upstream.LinkedRuns
import MultiversionBalancer.Upstream.Timed
import MultiversionBalancer.Core.MachineFloat

/-!
# The accumulated service time

Three functions advance `service_time` by the elapsed time of every active
request.  It is the total age of the live nodes of the request queue as long
as every completion subtracts the age of its request exactly; the subtraction
goes through a C `float`.
-/

namespace MultiversionBalancer

open Lib CFloat

variable {F : Type} [CFloat F]

/-- `service_time` is the total age of the live nodes at the time of its last
update. -/
def ServiceExact : NodesProperty F := fun _ v ns =>
  v.serviceTime = totalAge v.serviceTimeUpdateSec v.serviceTimeUpdateMsec
    (liveNodes ns)

/-- `service_time` of a version brought up to `tp`. -/
def serviceAt (tp : NgxTime) (v : VersionedServer F) : ℤ :=
  v.serviceTime +
    tp.since v.serviceTimeUpdateSec v.serviceTimeUpdateMsec * v.activeReq

omit [CFloat F] in
/-- Bringing an exact service time up to date. -/
theorem serviceAt_eq {v : VersionedServer F} {ns : QueueNodes} {a : ℕ}
    (tp : NgxTime) (h : ServiceExact a v ns)
    (hlinked : Linked v.activeReq v.queue ns) :
    serviceAt tp v = totalAge tp.sec tp.msec (liveNodes ns) := by
  rw [serviceAt, h, totalAge_shift v.serviceTimeUpdateSec
    v.serviceTimeUpdateMsec tp.sec tp.msec, hlinked.live_count, NgxTime.since]
  ring

/-! ## Selection -/

theorem examined_service {tp : NgxTime} {pt : ℤ} {v w : VersionedServer F}
    (h : Examined tp pt v w) :
    w.serviceTime = serviceAt tp v ∧ w.serviceTimeUpdateSec = tp.sec ∧
      w.serviceTimeUpdateMsec = tp.msec := by
  obtain ⟨load, h⟩ := h
  obtain ⟨q, -, rfl⟩ := examineVersion_eq_ok h
  unfold decayPrediction capPrediction
  split
  · split <;> exact ⟨rfl, rfl, rfl⟩
  · split <;> exact ⟨rfl, rfl, rfl⟩

theorem serviceExact_keptByExam (tp : NgxTime) :
    KeptByExam tp (ServiceExact (F := F)) := by
  intro a pt v w ns ms h hlinked hexam _ _ hlive
  obtain ⟨hservice, hsec, hmsec⟩ := examined_service hexam
  rw [ServiceExact, hservice, hsec, hmsec, hlive]
  exact serviceAt_eq tp h hlinked

theorem NgxTime.since_self (tp : NgxTime) : tp.since tp.sec tp.msec = 0 := by
  rw [NgxTime.since, sub_self, sub_self]
  rfl

/-- A dispatch right after an examination adds the age of the request. -/
theorem bufferRequestData_service {tp : NgxTime} {a : ℕ} {load : F}
    {w v : VersionedServer F} {r r' : Request F}
    (h : ngxHttpUpstreamBufferRequestData tp a (selectVersion tp load w) r =
      .ok (v, r')) :
    v.serviceTime = w.serviceTime + tp.since r.startSec r.startMsec ∧
      v.serviceTimeUpdateSec = tp.sec ∧ v.serviceTimeUpdateMsec = tp.msec := by
  obtain ⟨q, -, h⟩ := Except.bind_eq_ok.mp h
  obtain ⟨rfl, -⟩ := Prod.mk.inj (Except.ok.inj h)
  refine ⟨?_, rfl, rfl⟩
  simp only [selectVersion]
  rw [NgxTime.since_self, zero_mul, add_zero]

theorem serviceExact_dispatch {tp : NgxTime} {pt : ℤ} {load : F} {a j : ℕ}
    {v w v' : VersionedServer F} {r r' : Request F} {ns : QueueNodes}
    (hexam : Examined tp pt v w) (h : ServiceExact a w ns)
    (hbuf : ngxHttpUpstreamBufferRequestData tp a (selectVersion tp load w)
      (r.take j) = .ok (v', r')) (hlive : r'.node.live = true) :
    ServiceExact a v' (ns ++ [(w.queue.nodes.fresh, r'.node)]) := by
  obtain ⟨-, hsec, hmsec⟩ := examined_service hexam
  obtain ⟨hservice, hsec', hmsec'⟩ := bufferRequestData_service hbuf
  obtain ⟨-, -, -, -, hr'⟩ := bufferRequestData_ok hbuf
  have hlast : liveNodes [(w.queue.nodes.fresh, r'.node)] =
      [(w.queue.nodes.fresh, r'.node)] := liveNodes_cons_live [] hlive
  have hage : r'.node.age tp.sec tp.msec =
      tp.since r.startSec r.startMsec := by
    rw [hr']
    rfl
  rw [ServiceExact, hservice, hsec', hmsec', h, hsec, hmsec, liveNodes_append,
    totalAge_append, hlast]
  simp [totalAge, hage, Request.take]

/-! ## Completion -/

/-- The `float` subtraction of the age of a request is exact. -/
def SubtractsExactly (tp : NgxTime) (r : Request F) (v : VersionedServer F) :
    Prop :=
  cast (ofInt (serviceAt tp v) - requestMs tp r) =
    serviceAt tp v - tp.since r.startSec r.startMsec

theorem completeVersion_service {tp : NgxTime} {r : Request F}
    {v v' : VersionedServer F} {m : Bool}
    (h : completeVersion tp r v = .ok (v', m)) :
    v'.serviceTime = cast (ofInt (serviceAt tp v) - requestMs tp r) ∧
      v'.serviceTimeUpdateSec = tp.sec ∧
      v'.serviceTimeUpdateMsec = tp.msec := by
  obtain ⟨d, -, h⟩ := Except.bind_eq_ok.mp h
  obtain ⟨⟨q, m'⟩, -, h⟩ := Except.bind_eq_ok.mp h
  obtain ⟨rfl, -⟩ := Prod.mk.inj (Except.ok.inj h)
  refine ⟨?_, rfl, rfl⟩
  have hactive : v.activeReq - 1 + 1 = v.activeReq := by ring
  simp only [countCompletion, serviceAt, hactive, mul_comm]

omit [CFloat F] in
theorem totalAge_without (sec msec : ℤ) (pre post : QueueNodes) (b : ℕ)
    {x : ReqTime} (hlive : x.live = true) :
    totalAge sec msec (liveNodes (pre ++ (b, x) :: post)) =
      totalAge sec msec (liveNodes pre ++ liveNodes post) +
        x.age sec msec := by
  rw [liveNodes_append, liveNodes_cons_live post hlive, totalAge_append,
    totalAge_append, totalAge_cons]
  ring

/-- A completion keeps the service time exact exactly if it subtracts
exactly. -/
theorem serviceExact_complete_iff {tp : NgxTime} {a b : ℕ} {r : Request F}
    {v v' : VersionedServer F} {pre post ms : QueueNodes} {m : Bool}
    (h : ServiceExact a v (pre ++ (b, r.node) :: post))
    (hlinked : Linked v.activeReq v.queue (pre ++ (b, r.node) :: post))
    (hlive : r.node.live = true)
    (hcomplete : completeVersion tp r v = .ok (v', m))
    (hms : liveNodes ms = liveNodes pre ++ liveNodes post) :
    ServiceExact a v' ms ↔ SubtractsExactly tp r v := by
  obtain ⟨hservice, hsec, hmsec⟩ := completeVersion_service hcomplete
  have htotal := serviceAt_eq tp h hlinked
  have hwithout := totalAge_without tp.sec tp.msec pre post b hlive
  have hage : r.node.age tp.sec tp.msec =
      tp.since r.startSec r.startMsec := rfl
  rw [hage] at hwithout
  rw [ServiceExact, hservice, hsec, hmsec, hms, SubtractsExactly]
  constructor
  · intro heq
    rw [heq]
    omega
  · intro heq
    rw [heq]
    omega

/-! ## Runs -/

/-- The time in milliseconds at which the request arrived. -/
def Request.startMs (r : Request F) : ℤ := 1000 * r.startSec + r.startMsec

omit [CFloat F] in
theorem Request.age_eq (r : Request F) (tp : NgxTime) :
    tp.since r.startSec r.startMsec = tp.ms - r.startMs := by
  unfold NgxTime.since NgxTime.ms Request.startMs
  ring

/-- An exact service time, of nodes that started by the time `t`. -/
def ServiceBy (t : ℤ) : NodesProperty F := fun a v ns =>
  ServiceExact a v ns ∧
    ∀ n ∈ liveNodes ns, 1000 * n.2.sec + n.2.msec ≤ t

/-- All service times are exact, and all requests arrived by the time `t`. -/
structure ServiceOk (t : ℤ) (s : System F) : Prop where
  linked : LinkedWith (ServiceBy t) s
  arrived : ∀ r ∈ s.requests, r.startMs ≤ t

theorem totalAge_nonneg {tp : NgxTime} {ns : QueueNodes}
    (h : ∀ n ∈ ns, 1000 * n.2.sec + n.2.msec ≤ tp.ms) :
    0 ≤ totalAge tp.sec tp.msec ns := by
  refine List.sum_nonneg fun x hx => ?_
  obtain ⟨n, hn, rfl⟩ := List.mem_map.mp hx
  have hle := h n hn
  unfold NgxTime.ms at hle
  unfold ReqTime.age
  omega

theorem serviceBy_keptByExam (t : ℤ) (tp : NgxTime) :
    KeptByExam tp (ServiceBy (F := F) t) := by
  intro a pt v w ns ms h hlinked hexam hms hsub hlive
  refine ⟨serviceExact_keptByExam tp a pt v w ns ms h.1 hlinked hexam hms hsub
    hlive, ?_⟩
  rw [hlive]
  exact h.2

/-- The subtraction is exact at the completion of the request at a position,
if the request is not older than all its fellows together. -/
def SubtractsAt (tp : NgxTime) (s : System F) (i : ℕ) : Prop :=
  ∀ r a, s.requests[i]? = some r → r.version = some a →
    0 ≤ tp.since r.startSec r.startMsec →
    tp.since r.startSec r.startMsec ≤ serviceAt tp (s.upstream.versions a) →
    SubtractsExactly tp r (s.upstream.versions a)

namespace ServiceOk

variable {s : System F} {tp : NgxTime} {i : ℕ} {r r' : Request F}
  {u : Upstream F}

omit [CFloat F] in
theorem mono {t t' : ℤ} (hle : t ≤ t') (h : ServiceOk t s) :
    ServiceOk t' s where
  linked := h.linked.mono fun _ _ _ hP =>
    ⟨hP.1, fun n hn => (hP.2 n hn).trans hle⟩
  arrived := fun r hr => (h.arrived r hr).trans hle

theorem initial (hs : Initial s) : ServiceOk 0 s where
  linked := by
    refine linkedWith_initial hs fun a => ⟨?_, by simp [liveNodes]⟩
    obtain ⟨⟨us, hus⟩, -⟩ := hs
    obtain ⟨id, ip, port, hfresh⟩ := initRoundRobin_fresh hus a
    rw [hfresh]
    rfl
  arrived := by simp [hs.2]

theorem dispatch (h : ServiceOk tp.ms s) (hi : s.requests[i]? = some r)
    (hget : ngxHttpUpstreamGetRoundRobinPeer s.upstream r tp =
      .ok (.ok, u, r')) :
    ServiceOk tp.ms { upstream := u, requests := s.requests.set i r' } := by
  have hmem := List.mem_of_getElem? hi
  obtain ⟨a, -, -, hdispatch⟩ :=
    h.linked.dispatch (serviceBy_keptByExam tp.ms tp) hi hget
  obtain ⟨-, ps, j, p, b, ws, load, v', -, -, -, -, -, -, hbuf⟩ :=
    getRoundRobinPeer_scanned hget
  obtain ⟨-, -, -, -, hr'⟩ := bufferRequestData_ok hbuf
  refine ⟨hdispatch _ (fun _ _ _ _ hP => hP) ?_, ?_⟩
  · intro pt v w v' load j ns hexam hlinked hP hbuf hlive hlinked'
    refine ⟨serviceExact_dispatch hexam hP.1 hbuf hlive, ?_⟩
    intro n hn
    rw [liveNodes_append] at hn
    rcases List.mem_append.mp hn with hn | hn
    · exact hP.2 n hn
    · obtain ⟨hn, -⟩ := mem_liveNodes.mp hn
      rw [List.mem_singleton.mp hn, hr']
      exact h.arrived r hmem
  · refine forall_mem_set h.arrived ?_
    rw [hr']
    exact h.arrived r hmem

theorem complete {t : Text} (h : ServiceOk tp.ms s)
    (hexact : SubtractsAt tp s i) (hi : s.requests[i]? = some r)
    (hr : r.logged = false)
    (hlog : ngxHttpLogRequestTime tp s.upstream r = .ok (u, t)) :
    ServiceOk tp.ms
      { upstream := u
        requests := s.requests.set i { r with logged := true } } := by
  have harrived := h.arrived r (List.mem_of_getElem? hi)
  refine ⟨h.linked.complete hi hr hlog (fun _ _ _ _ hP => hP) ?_,
    forall_mem_set h.arrived harrived⟩
  intro a v' m b pre post ms hver hcomplete _ hlive hlinked hP _ _ hms
  have hothers : ∀ n ∈ liveNodes pre ++ liveNodes post,
      1000 * n.2.sec + n.2.msec ≤ tp.ms := by
    intro n hn
    refine hP.2 n ?_
    rw [liveNodes_append, liveNodes_cons_live post hlive]
    rcases List.mem_append.mp hn with hn | hn
    · exact List.mem_append_left _ hn
    · exact List.mem_append_right _ (List.mem_cons_of_mem _ hn)
  refine ⟨(serviceExact_complete_iff hP.1 hlinked hlive hcomplete hms).mpr ?_,
    by rw [hms]; exact hothers⟩
  refine hexact r a hi hver ?_ ?_
  · rw [r.age_eq]
    omega
  · rw [serviceAt_eq tp hP.1 hlinked, totalAge_without _ _ _ _ _ hlive]
    have hrest := totalAge_nonneg hothers
    have hage : r.node.age tp.sec tp.msec =
        tp.since r.startSec r.startMsec := rfl
    omega

theorem keeps (conf : UpstreamConf) (tp : NgxTime) :
    Keeps conf tp (SubtractsAt (F := F) tp) (ServiceOk tp.ms) where
  arrive := fun s h =>
    { linked := h.linked.arrive conf tp
      arrived := by
        intro r hr
        rcases List.mem_append.mp hr with hr | hr
        · exact h.arrived r hr
        · rw [List.mem_singleton.mp hr]
          exact le_rfl }
  dispatch := fun s i r r' u h hi _ hget => h.dispatch hi hget
  release := fun s i r r' u state tries h hi _ hrel =>
    { linked := h.linked.release tries hi hrel
      arrived := by
        obtain ⟨-, -, -, hr'⟩ := releaseHeld_spec hrel
        refine forall_mem_set h.arrived ?_
        rw [hr']
        exact h.arrived r (List.mem_of_getElem? hi) }
  complete := fun s i r u t h hexact hi hr hlog => h.complete hexact hi hr hlog
  guard_release := by
    intro s i r r' u hexact hi hrel q a hq hver
    obtain ⟨hversions, -, -, hr'⟩ := releaseHeld_spec hrel
    rw [getElem?_set_of_some r' hi] at hq
    obtain rfl := Option.some.inj hq
    rw [hr'] at hver
    have hsame := hexact r a hi hver
    dsimp only
    rw [hversions, hr']
    exact hsame

end ServiceOk

/-! ## The `float` subtraction -/

/-- The subtraction at the completion of the request at a position fits a
`float`: the service time is a 64-bit number, and the difference of the two
rounded operands rounds to the difference. -/
def FitsFloat (tp : NgxTime) (s : System MachineFloat) (i : ℕ) : Prop :=
  ∀ r a, s.requests[i]? = some r → r.version = some a →
    let n := serviceAt tp (s.upstream.versions a)
    let m := tp.since r.startSec r.startMsec
    n < 2 ^ 63 ∧ roundTo 24 (roundTo 24 n - roundTo 24 m) = n - m

theorem FitsFloat.subtractsAt {tp : NgxTime} {s : System MachineFloat} {i : ℕ}
    (h : FitsFloat tp s i) : SubtractsAt tp s i := by
  intro r a hi hver hm hle
  obtain ⟨hlt, hround⟩ := h r a hi hver
  exact MachineFloat.cast_sub_exact hm hle hlt hround

theorem fitsFloat_of_le {tp : NgxTime} {s : System MachineFloat} {i : ℕ}
    (h : ∀ r a, s.requests[i]? = some r → r.version = some a →
      0 ≤ tp.since r.startSec r.startMsec ∧
        tp.since r.startSec r.startMsec ≤
          serviceAt tp (s.upstream.versions a) ∧
        serviceAt tp (s.upstream.versions a) ≤ 2 ^ 24) :
    FitsFloat tp s i := by
  intro r a hi hver
  obtain ⟨hm, hle, hn⟩ := h r a hi hver
  dsimp only
  refine ⟨lt_of_le_of_lt hn (by norm_num), ?_⟩
  have hround : ∀ k : ℤ, 0 ≤ k → k ≤ 2 ^ 24 → roundTo 24 (k : ℚ) = k := by
    intro k hk hk'
    obtain ⟨k, rfl⟩ := Int.eq_ofNat_of_zero_le hk
    rw [Int.cast_natCast]
    exact MachineFloat.roundTo_natCast (by exact_mod_cast hk')
  rw [hround _ (hm.trans hle) hn, hround _ hm (hle.trans hn), ← Int.cast_sub]
  exact hround _ (sub_nonneg.mpr hle) (by omega)

def EventFits (s : System MachineFloat) (e : Event) : Prop :=
  ∀ i tp, e = .complete i tp → FitsFloat tp s i

/-- Under a clock that never goes back, and as long as the subtraction fits a
`float` at every completion, `service_time` of every version is the total age
of the live nodes of its queue at the time of its last update. -/
theorem service_time_exact (conf : UpstreamConf)
    (x : ℤ × System MachineFloat)
    (h : Timed conf EventFits x) (a : ℕ) :
    ∃ ns, Chain (x.2.upstream.versions a).queue.nodes
        (x.2.upstream.versions a).queue.reqTimes ns none ∧
      (x.2.upstream.versions a).serviceTime =
        totalAge (x.2.upstream.versions a).serviceTimeUpdateSec
          (x.2.upstream.versions a).serviceTimeUpdateMsec
          (liveNodes ns) := by
  have hok : ServiceOk x.1 x.2 := by
    refine h.invariant (fun s hs => ServiceOk.initial hs)
      (fun t t' s hle hs => hs.mono hle) ?_ (ServiceOk.keeps conf)
    intro s i tp hfits
    exact (hfits i tp rfl).subtractsAt
  obtain ⟨ns, hlinked, -, hexact, -⟩ := hok.linked.queue a
  exact ⟨ns, hlinked.chain, hexact⟩

theorem oneHeavySystem_timed (ok : System MachineFloat → Event → Prop) :
    Timed errorConf ok (0, oneHeavySystem MachineFloat) :=
  .init ⟨rfl, oneHeavySystem_initial⟩

/-- A request of one second. -/
theorem service_time_exact_second :
    ∃ (r : Request MachineFloat) (s s' : System MachineFloat),
      s.requests[0]? = some r ∧ r.version = some 0 ∧
      step errorConf s (.complete 0 (NgxTime.ofSec 2)) = .ok s' ∧
      ∃ ns, Chain (s'.upstream.versions 0).queue.nodes
          (s'.upstream.versions 0).queue.reqTimes ns none ∧
        (s'.upstream.versions 0).serviceTime =
          totalAge (s'.upstream.versions 0).serviceTimeUpdateSec
            (s'.upstream.versions 0).serviceTimeUpdateMsec
            (liveNodes ns) := by
  obtain ⟨s, hrun, hs⟩ := @runs_iff MachineFloat _ errorConf
    (oneHeavySystem MachineFloat)
    [.arrive (NgxTime.ofSec 1), .connect 0 (NgxTime.ofSec 1)]
    (fun s => (s.requests[0]?).any fun r : Request MachineFloat =>
      decide (r.version = some 0 ∧ r.startSec = 1 ∧ r.startMsec = 0 ∧
        serviceAt (NgxTime.ofSec 2) (s.upstream.versions 0) = 1000) &&
        (step errorConf s (.complete 0 (NgxTime.ofSec 2))).toOption.any
          fun _ => true) |>.mp
    (by decide +kernel)
  obtain ⟨r, hr, hs⟩ := (Option.any_eq_true _ _).mp hs
  obtain ⟨hs, hstep⟩ := Bool.and_eq_true_iff.mp hs
  obtain ⟨hver, hsec, hmsec, hservice⟩ := of_decide_eq_true hs
  obtain ⟨s', hstep, -⟩ := Except.exists_ok_of_any hstep
  have htimed : Timed errorConf EventFits (1000, s) := by
    refine (oneHeavySystem_timed _).run (by decide) ?_ hrun
    intro e he s i tp hcomplete
    rw [hcomplete] at he
    simp at he
  have hage : (NgxTime.ofSec 2).since r.startSec r.startMsec = 1000 := by
    rw [hsec, hmsec]
    rfl
  have hfits : EventFits s (.complete 0 (NgxTime.ofSec 2)) := by
    intro i tp hevent
    obtain ⟨rfl, rfl⟩ := Event.complete.inj hevent
    refine fitsFloat_of_le fun q a hq ha => ?_
    obtain rfl := Option.some.inj (hr.symm.trans hq)
    obtain rfl := Option.some.inj (hver.symm.trans ha)
    rw [hage, hservice]
    decide
  have hlater : (1000 : ℤ) ≤ (NgxTime.ofSec 2).ms := by decide
  have hdone : Timed errorConf EventFits (2000, s') :=
    Reach.step (e := .complete 0 (NgxTime.ofSec 2)) htimed ⟨hlater, hfits⟩
      ⟨rfl, hstep⟩
  exact ⟨r, s, s', hr, hver, hstep,
    service_time_exact errorConf (2000, s') hdone 0⟩

/-- After a request has been active for a day and a half, the completion of
another one adds sixteen milliseconds to the service time. -/
theorem service_time_not_exact :
    ∃ x : ℤ × System MachineFloat,
      Timed errorConf Reachable.any x ∧
      ¬∃ ns, Chain (x.2.upstream.versions 0).queue.nodes
          (x.2.upstream.versions 0).queue.reqTimes ns none ∧
        (x.2.upstream.versions 0).serviceTime =
          totalAge (x.2.upstream.versions 0).serviceTimeUpdateSec
            (x.2.upstream.versions 0).serviceTimeUpdateMsec
            (liveNodes ns) := by
  obtain ⟨s, hrun, hs⟩ := @runs_iff MachineFloat _ errorConf
    (oneHeavySystem MachineFloat)
    [.arrive (NgxTime.ofSec 1), .connect 0 (NgxTime.ofSec 1),
      .arrive (NgxTime.ofSec 134218), .connect 1 (NgxTime.ofSec 134218),
      .complete 1 (NgxTime.ofSec 134219)]
    (fun s =>
      let v := s.upstream.versions 0
      decide (v.queue.reqTimes = some 0 ∧
        v.queue.nodes.cell 0 = some ⟨⟨1, 0, 1⟩, some 1⟩ ∧
        v.queue.nodes.cell 1 = some ⟨⟨-1, -1, 2⟩, none⟩ ∧
        v.serviceTime = 134218016 ∧ v.serviceTimeUpdateSec = 134219 ∧
        v.serviceTimeUpdateMsec = 0)) |>.mp
    (by decide +kernel)
  obtain ⟨htimes, hfirst, hsecond, hservice, hsec, hmsec⟩ :=
    of_decide_eq_true hs
  have htimed := (oneHeavySystem_timed Reachable.any).run
    (by decide) (fun _ _ _ => trivial) hrun
  refine ⟨_, htimed, ?_⟩
  rintro ⟨ns, hchain, hexact⟩
  have hnodes : Chain (s.upstream.versions 0).queue.nodes
      (s.upstream.versions 0).queue.reqTimes
      [(0, ⟨1, 0, 1⟩), (1, ⟨-1, -1, 2⟩)] none :=
    ⟨htimes, some 1, hfirst, rfl, none, hsecond, rfl⟩
  rw [chain_unique hchain hnodes] at hexact
  dsimp only at hexact
  rw [hservice, hsec, hmsec] at hexact
  exact absurd hexact (by decide)

end MultiversionBalancer
