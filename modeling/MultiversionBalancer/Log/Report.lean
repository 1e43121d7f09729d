import MultiversionBalancer.Upstream.System

/-!
# The reported load

`custom_system_monitor_capacity` prints `max_req`, the largest `active_req` at
a dispatch since the last report, and sets it back to zero.  So a report does
not see the requests that were already active at the report before it.
`LoadHistory` records what a run shows of one list, and the printed number is
compared with it.
-/

namespace MultiversionBalancer

open Lib

variable {F : Type}

/-- The counters of a list that its reports are made of. -/
structure ListLoad where
  activeReq : ℤ
  maxReq : ℤ
  reqCount : ℤ

def Peers.load (ps : Peers F) : ListLoad where
  activeReq := ps.activeReq
  maxReq := ps.maxReq
  reqCount := ps.reqCount

/-- The counters of a tier. -/
def Upstream.loadAt (u : Upstream F) (t : Tier) : ListLoad :=
  match u.tier t with
  | none => ⟨0, 0, 0⟩
  | some ps => ps.load

/-- The dispatches to a list so far. -/
def dispatches (t : Tier) (s : System F) : ℤ :=
  (s.requests.map fun r => (r.attempts.countP fun x => x.1 = t : ℤ)).sum

/-- The event is a completion with which a report of the list is due. -/
def reports (t : Tier) (s : System F) : Event → Bool
  | .complete i tp =>
      (s.requests[i]?).any fun r =>
        r.version.isSome && decide (r.data.peers = t) &&
          (s.upstream.tier t).any fun ps => (monitorDue tp ps).1
  | _ => false

/-- What a run has shown of a list: `active_req` right after the last report,
its values since then, the largest of those that a dispatch led to, and the
`req_count`s of all reports together. -/
structure LoadHistory where
  start : ℤ
  moments : List ℤ
  peak : ℤ
  counted : ℤ

/-- Record an event that leads from `s` to `s'`. -/
def LoadHistory.record (h : LoadHistory) (t : Tier) (s : System F)
    (e : Event) (s' : System F) : LoadHistory :=
  let active := (s'.upstream.loadAt t).activeReq
  if reports t s e then
    { start := active
      moments := [active]
      peak := 0
      counted := h.counted + (s.upstream.loadAt t).reqCount }
  else
    { h with
      moments := active :: h.moments
      peak := if dispatches t s < dispatches t s' then max active h.peak else h.peak }

/-- The history before the first request. -/
def LoadHistory.initial : LoadHistory where
  start := 0
  moments := [0]
  peak := 0
  counted := 0

/-- The states of runs with what they have shown of a list. -/
inductive Observed [CFloat F] (conf : UpstreamConf) (t : Tier) :
    System F → LoadHistory → Prop where
  | init {s : System F} (h : Initial s) : Observed conf t s .initial
  | step {s s' : System F} {h : LoadHistory} {e : Event}
      (hs : Observed conf t s h) (hstep : step conf s e = .ok s') :
      Observed conf t s' (h.record t s e s')

/-! ## What the changes do to the counters -/

def ListLoad.dispatch (l : ListLoad) : ListLoad where
  activeReq := l.activeReq + 1
  maxReq := max (l.activeReq + 1) l.maxReq
  reqCount := l.reqCount + 1

/-- The counters after a completion, with a report or without. -/
def ListLoad.complete (l : ListLoad) (report : Bool) : ListLoad where
  activeReq := l.activeReq - 1
  maxReq := if report then 0 else l.maxReq
  reqCount := if report then 0 else l.reqCount

section Tiers

@[simp] theorem loadAt_withVersions (u : Upstream F) (vs : Versions F) :
    ({ u with versions := vs } : Upstream F).loadAt = u.loadAt := by
  funext t
  simp [Upstream.loadAt]

@[simp] theorem loadAt_setTier_self (u : Upstream F) (t : Tier)
    (ps : Peers F) : (u.setTier t ps).loadAt t = ps.load := by
  simp [Upstream.loadAt]

theorem loadAt_setTier_of_ne {u : Upstream F} {t t' : Tier} (ps : Peers F)
    (h : t' ≠ t) : (u.setTier t ps).loadAt t' = u.loadAt t' := by
  simp [Upstream.loadAt, tier_setTier_of_ne ps h]

theorem loadAt_of_tier {u : Upstream F} {t : Tier} {ps : Peers F}
    (h : u.tier t = some ps) : u.loadAt t = ps.load := by
  simp [Upstream.loadAt, h]

theorem dispatches_set {s : System F} {i : ℕ} {r : Request F} (t : Tier)
    (u : Upstream F) (r' : Request F) (hi : s.requests[i]? = some r) :
    dispatches t { upstream := u, requests := s.requests.set i r' } =
      dispatches t s - (r.attempts.countP fun x => x.1 = t : ℕ) +
        (r'.attempts.countP fun x => x.1 = t : ℕ) :=
  sum_map_set _ r' hi

theorem releaseHeld_tier {u u' : Upstream F} {r r' : Request F} {state : ℕ}
    {tp : NgxTime} (h : releaseHeld u r state tp = .ok (u', r')) (t : Tier) :
    ∃ f : Peers F → List Peer, u'.tier t =
      (u.tier t).map fun ps => { ps with peer := f ps } := by
  unfold releaseHeld at h
  split at h
  · obtain ⟨⟨u₁, r₁⟩, hfree, h⟩ := Except.bind_eq_ok.mp h
    obtain ⟨rfl, rfl⟩ := Prod.mk.inj (Except.ok.inj h)
    unfold ngxHttpUpstreamFreeRoundRobinPeer at hfree
    split at hfree
    · next ps i hps hcur =>
        obtain ⟨rfl, rfl⟩ := Prod.mk.inj (Except.ok.inj hfree)
        by_cases ht : t = r.data.peers
        · subst ht
          exact ⟨_, by rw [tier_setTier_self, hps]; rfl⟩
        · exact ⟨fun ps => ps.peer, by
            rw [tier_setTier_of_ne _ ht]
            simp⟩
    · cases hfree
  · obtain ⟨rfl, rfl⟩ := Prod.mk.inj (Except.ok.inj h)
    exact ⟨fun ps => ps.peer, by simp⟩

theorem releaseHeld_load {u u' : Upstream F} {r r' : Request F} {state : ℕ}
    {tp : NgxTime} (h : releaseHeld u r state tp = .ok (u', r')) (t : Tier) :
    u'.loadAt t = u.loadAt t := by
  obtain ⟨f, hf⟩ := releaseHeld_tier h t
  unfold Upstream.loadAt
  rw [hf]
  cases u.tier t with
  | none => rfl
  | some ps => rfl

end Tiers

variable [CFloat F] {conf : UpstreamConf} {s s' : System F}

theorem dispatch_load {u u' : Upstream F} {r r' : Request F} {tp : NgxTime}
    {res : GetResult}
    (h : ngxHttpUpstreamGetRoundRobinPeer u r tp = .ok (res, u', r')) :
    u'.loadAt r.data.peers = (u.loadAt r.data.peers).dispatch ∧
      (∀ t, t ≠ r.data.peers → u'.loadAt t = u.loadAt t) ∧
      ∃ i, r'.attempts = r.attempts ++ [(r.data.peers, i)] := by
  obtain ⟨-, ps, i, p, a, ws, load, v, hps, -, -, -, -, rfl, hbuf⟩ :=
    getRoundRobinPeer_ok h
  obtain ⟨-, -, -, -, hr⟩ := bufferRequestData_ok hbuf
  refine ⟨?_, fun t ht => ?_, i, by rw [hr]; rfl⟩
  · rw [loadAt_withVersions, loadAt_setTier_self, loadAt_of_tier hps]
    rfl
  · rw [loadAt_withVersions, loadAt_setTier_of_ne _ ht]

/-- The text contains the load of a report. -/
def PrintsLoad (text : Text) (load : ℤ) : Prop :=
  ∃ front back, text = front ++ ",request_load:".toList ++
    ngxSprintfInt load ++ ",arrival_rate:".toList ++ back

theorem PrintsLoad.line {tp : NgxTime} {r : Request F}
    {v : VersionedServer F} {multiple : Bool} {ps : Peers F} {report : Text}
    {load : ℤ} (h : PrintsLoad report load) :
    PrintsLoad (customLine tp r v multiple ps report) load := by
  obtain ⟨front, back, rfl⟩ := h
  refine ⟨customLine tp r v multiple ps [] ++ front, back, ?_⟩
  unfold customLine
  simp only [List.append_nil, List.append_assoc]

theorem monitorTotals_prints (front : Text) (capacity : F) (maxReq : ℤ)
    (rate : F) :
    PrintsLoad (front ++ monitorTotals capacity maxReq rate)
      (toInt32 maxReq) := by
  refine ⟨front ++ ("total:".toList ++ sprintfFixed2 capacity),
    sprintfFixed2 rate, ?_⟩
  unfold monitorTotals
  rw [List.append_assoc, List.append_assoc, List.append_assoc,
    List.append_assoc, List.append_assoc, List.append_assoc,
    List.append_assoc, List.append_assoc, List.append_assoc]

/-- A report prints `max_req` and sets it and `req_count` back to zero. -/
theorem monitorReport_load {due : Bool} {tp : NgxTime} {ps ps' : Peers F}
    {vs : Versions F} {t : Text}
    (h : monitorReport due tp ps vs = .ok (t, ps')) :
    ps'.load = { ps.load with
      maxReq := if due then 0 else ps.maxReq
      reqCount := if due then 0 else ps.reqCount } ∧
    (due = true → PrintsLoad t (toInt32 ps.maxReq)) := by
  unfold monitorReport at h
  split at h
  · next hdue =>
      obtain ⟨⟨m, ps₁⟩, hmon, h⟩ := Except.bind_eq_ok.mp h
      unfold customSystemMonitorCapacity at hmon
      dsimp only at hmon
      split at hmon
      · obtain ⟨rfl, rfl⟩ := Prod.mk.inj (Except.ok.inj hmon)
        cases h
      · obtain ⟨servers, -, hmon⟩ := Except.bind_eq_ok.mp hmon
        obtain ⟨rfl, rfl⟩ := Prod.mk.inj (Except.ok.inj hmon)
        obtain ⟨rfl, rfl⟩ := Prod.mk.inj (Except.ok.inj h)
        refine ⟨by rw [if_pos hdue, if_pos hdue]; rfl, fun _ => ?_⟩
        exact monitorTotals_prints _ _ _ _
  · next hdue =>
      obtain ⟨rfl, rfl⟩ := Prod.mk.inj (Except.ok.inj h)
      exact ⟨by rw [if_neg hdue, if_neg hdue]; rfl, fun h => absurd h hdue⟩

omit [CFloat F] in
/-- Whether a report is due does not depend on the peers. -/
theorem due_of_release {u u' : Upstream F} {r r' : Request F} {state : ℕ}
    {tp : NgxTime} (h : releaseHeld u r state tp = .ok (u', r')) (t : Tier) :
    ((u'.tier t).any fun ps => (monitorDue tp ps).1) =
      (u.tier t).any fun ps => (monitorDue tp ps).1 := by
  obtain ⟨f, hf⟩ := releaseHeld_tier h t
  rw [hf]
  cases u.tier t with
  | none => rfl
  | some ps =>
      simp only [Option.map_some, Option.any_some, monitorDue]
      split <;> rfl

/-- A completion takes a request from its list; it prints `max_req` when a
report is due. -/
theorem logRequestTime_load {tp : NgxTime} {u u' : Upstream F}
    {r : Request F} {line : Text}
    (h : ngxHttpLogRequestTime tp u r = .ok (u', line)) :
    r.version = none ∧ u' = u ∨
    r.version.isSome = true ∧ ∃ due : Bool,
      ((u.tier r.data.peers).any fun ps => (monitorDue tp ps).1) = due ∧
      u'.loadAt r.data.peers = (u.loadAt r.data.peers).complete due ∧
      (∀ t, t ≠ r.data.peers → u'.loadAt t = u.loadAt t) ∧
      (due = true →
        PrintsLoad line (toInt32 (u.loadAt r.data.peers).maxReq)) := by
  unfold ngxHttpLogRequestTime at h
  cases hver : r.version with
  | none =>
      rw [hver] at h
      exact .inl ⟨rfl, (Prod.mk.inj (Except.ok.inj h)).1.symm⟩
  | some a =>
      rw [hver] at h
      cases hps : u.tier r.data.peers with
      | none => simp [hps] at h
      | some ps =>
          simp only [hps] at h
          obtain ⟨⟨v, m⟩, -, h⟩ := Except.bind_eq_ok.mp h
          obtain ⟨⟨report, ps'⟩, hreport, h⟩ := Except.bind_eq_ok.mp h
          obtain ⟨rfl, rfl⟩ := Prod.mk.inj (Except.ok.inj h)
          obtain ⟨hload, hprints⟩ := monitorReport_load hreport
          have hdue : (monitorDue tp ps).2.load = ps.load := by
            unfold monitorDue
            split <;> rfl
          refine .inr ⟨rfl, (monitorDue tp ps).1, rfl, ?_, ?_, fun hd => ?_⟩
          · rw [loadAt_withVersions, loadAt_setTier_self, loadAt_of_tier hps,
              hload, ← hdue]
            rfl
          · intro t ht
            rw [loadAt_withVersions, loadAt_setTier_of_ne _ ht]
          · have hmax : (monitorDue tp ps).2.maxReq = ps.maxReq :=
              congrArg ListLoad.maxReq hdue
            have hreport := hprints hd
            rw [loadAt_of_tier hps]
            dsimp only at hreport
            rw [hmax] at hreport
            exact hreport.line

/-- What an event does to the counters of a list, and whether it reports. -/
inductive LoadStep (t : Tier) (s : System F) (s' : System F) : Bool → Prop where
  | same (hload : s'.upstream.loadAt t = s.upstream.loadAt t)
      (hsent : dispatches t s' = dispatches t s) : LoadStep t s s' false
  | dispatch (hload : s'.upstream.loadAt t = (s.upstream.loadAt t).dispatch)
      (hsent : dispatches t s' = dispatches t s + 1) : LoadStep t s s' false
  | complete (report : Bool)
      (hload : s'.upstream.loadAt t =
        (s.upstream.loadAt t).complete report)
      (hsent : dispatches t s' = dispatches t s) : LoadStep t s s' report

omit [CFloat F] in
/-- Replacing a request by one with the same attempts. -/
theorem dispatches_set_same {i : ℕ} {r r' : Request F} (t : Tier)
    (u : Upstream F) (hi : s.requests[i]? = some r)
    (h : r'.attempts = r.attempts) :
    dispatches t { upstream := u, requests := s.requests.set i r' } =
      dispatches t s := by
  rw [dispatches_set t u r' hi, h]
  ring

theorem connect_load {i : ℕ} {r : Request F} {tp : NgxTime} (t : Tier)
    (hi : s.requests[i]? = some r)
    (h : ngxHttpUpstreamConnect s i r tp = .ok s') : LoadStep t s s' false := by
  obtain ⟨⟨res, u, r'⟩, hget, h⟩ := Except.bind_eq_ok.mp h
  obtain rfl := Except.ok.inj h
  obtain ⟨hself, hother, j, hattempts⟩ := dispatch_load hget
  have hsent := dispatches_set t u r' hi
  rw [hattempts, List.countP_append, List.countP_singleton] at hsent
  by_cases ht : t = r.data.peers
  · subst ht
    refine .dispatch hself ?_
    rw [hsent]
    simp
    ring
  · have hne : ¬r.data.peers = t := fun heq => ht heq.symm
    refine .same (hother t ht) ?_
    rw [hsent]
    simp [hne]

theorem next_load {ctx : NextContext} {i : ℕ} {r : Request F} {tp : NgxTime}
    (t : Tier) (hi : s.requests[i]? = some r)
    (h : ngxHttpUpstreamNext conf ctx s i r tp = .ok s') :
    LoadStep t s s' false := by
  obtain ⟨⟨u, r₁⟩, hrel, h⟩ := Except.bind_eq_ok.mp h
  have hload := releaseHeld_load hrel t
  have hattempts := releaseHeld_attempts hrel
  dsimp only at h
  have htries : ({ r₁ with tries := nextTries ctx r₁ } : Request F).attempts =
      r.attempts := hattempts
  have hsent := dispatches_set_same t u hi htries
  split at h
  · cases connect_load t (getElem?_set_of_some _ hi) h with
    | same hl hs => exact .same (hl.trans hload) (hs.trans hsent)
    | dispatch hl hs =>
        refine .dispatch (hl.trans ?_) (hs.trans ?_)
        · exact congrArg ListLoad.dispatch hload
        · rw [hsent]
    | complete _ hl hs =>
        refine .complete _ (hl.trans ?_) (hs.trans hsent)
        exact congrArg (ListLoad.complete · _) hload
  · obtain rfl := Except.ok.inj h
    exact .same hload hsent

theorem complete_load {i : ℕ} {r : Request F} {tp : NgxTime} (t : Tier)
    (hi : s.requests[i]? = some r)
    (h : completeRequest s i r tp = .ok s') :
    LoadStep t s s' (reports t s (.complete i tp)) := by
  obtain ⟨⟨u, r₁⟩, hrel, h⟩ := Except.bind_eq_ok.mp h
  obtain ⟨⟨u', line⟩, hlog, h⟩ := Except.bind_eq_ok.mp h
  obtain rfl := Except.ok.inj h
  have hload := releaseHeld_load hrel t
  have hdue := due_of_release hrel t
  obtain ⟨-, -, -, hr₁⟩ := releaseHeld_spec hrel
  have hattempts := releaseHeld_attempts hrel
  have hlogged : ({ r₁ with logged := true } : Request F).attempts =
      r.attempts := hattempts
  have hsent := dispatches_set_same t u' hi hlogged
  have hreports : reports t s (.complete i tp) =
      (r₁.version.isSome && decide (r₁.data.peers = t) &&
        (u.tier t).any fun ps => (monitorDue tp ps).1) := by
    simp only [reports, hi, Option.any_some, hdue]
    rw [hr₁]
  rw [hreports]
  rcases logRequestTime_load hlog with ⟨hver, rfl⟩ |
    ⟨hver, due, hdue', hself, hother, -⟩
  · have hnone : r₁.version.isSome = false := by rw [hver]; rfl
    rw [hnone]
    exact .same hload hsent
  · rw [hver, Bool.true_and]
    by_cases ht : r₁.data.peers = t
    · subst ht
      rw [decide_eq_true rfl, Bool.true_and, hdue']
      exact .complete due (hself.trans (congrArg (·.complete due) hload)) hsent
    · rw [decide_eq_false ht, Bool.false_and]
      exact .same ((hother t fun heq => ht heq.symm).trans hload) hsent

theorem step_load {e : Event} (t : Tier) (h : step conf s e = .ok s') :
    LoadStep t s s' (reports t s e) := by
  cases step_cases h with
  | arrive tp =>
      refine .same rfl ?_
      simp [dispatches, ngxHttpUpstreamInitRequest]
  | connect hi hr hfirst h => exact connect_load t hi h
  | next hi hr hheld h => exact next_load t hi h
  | finalize hi hr hrel =>
      exact .same (releaseHeld_load hrel t)
        (dispatches_set_same t _ hi (releaseHeld_attempts hrel))
  | complete hi hr h => exact complete_load t hi h

/-! ## The printed load -/

/-- What holds of the counters and the history in every run: `max_req` is the
largest of the values that a dispatch led to, or zero, and the reports and
`req_count` together account for all dispatches. -/
structure HistoryOk (t : Tier) (s : System F) (h : LoadHistory) : Prop where
  start_mem : h.start ∈ h.moments
  current_mem : (s.upstream.loadAt t).activeReq ∈ h.moments
  moments_le : ∀ m ∈ h.moments, m ≤ max h.start (s.upstream.loadAt t).maxReq
  maxReq_nonneg : 0 ≤ (s.upstream.loadAt t).maxReq
  maxReq_mem : (s.upstream.loadAt t).maxReq = 0 ∨
    (s.upstream.loadAt t).maxReq ∈ h.moments
  maxReq_eq : (s.upstream.loadAt t).maxReq = h.peak
  counted : h.counted + (s.upstream.loadAt t).reqCount = dispatches t s

omit [CFloat F] in
theorem historyOk_same {t : Tier} {h : LoadHistory} (hs : HistoryOk t s h)
    (hload : s'.upstream.loadAt t = s.upstream.loadAt t)
    (hsent : dispatches t s' = dispatches t s) :
    HistoryOk t s' { h with
      moments := (s'.upstream.loadAt t).activeReq :: h.moments } := by
  rw [hload]
  refine
    { start_mem := List.mem_cons_of_mem _ hs.start_mem
      current_mem := by rw [hload]; exact List.mem_cons_self
      moments_le := ?_
      maxReq_nonneg := by rw [hload]; exact hs.maxReq_nonneg
      maxReq_mem := ?_
      maxReq_eq := by rw [hload]; exact hs.maxReq_eq
      counted := by rw [hload, hsent]; exact hs.counted }
  · rw [hload]
    intro m hm
    rcases List.mem_cons.mp hm with rfl | hm
    · exact hs.moments_le _ hs.current_mem
    · exact hs.moments_le m hm
  · rw [hload]
    exact hs.maxReq_mem.imp_right (List.mem_cons_of_mem _)

omit [CFloat F] in
theorem historyOk_dispatch {t : Tier} {h : LoadHistory}
    (hs : HistoryOk t s h)
    (hload : s'.upstream.loadAt t = (s.upstream.loadAt t).dispatch)
    (hsent : dispatches t s' = dispatches t s + 1) :
    HistoryOk t s' { h with
      moments := (s'.upstream.loadAt t).activeReq :: h.moments
      peak := max (s'.upstream.loadAt t).activeReq h.peak } := by
  have hcounted := hs.counted
  have hnonneg := hs.maxReq_nonneg
  rw [hload]
  refine
    { start_mem := List.mem_cons_of_mem _ hs.start_mem
      current_mem := by rw [hload]; exact List.mem_cons_self
      moments_le := ?_
      maxReq_nonneg := by rw [hload]; exact le_max_of_le_right hnonneg
      maxReq_mem := ?_
      maxReq_eq := ?_
      counted := ?_ }
  · rw [hload]
    intro m hm
    rcases List.mem_cons.mp hm with rfl | hm
    · exact le_max_of_le_right (le_max_left _ _)
    · refine (hs.moments_le m hm).trans (max_le_max_left _ ?_)
      exact le_max_right _ _
  · rw [hload]
    rcases max_choice ((s.upstream.loadAt t).activeReq + 1)
      (s.upstream.loadAt t).maxReq with hmax | hmax
    · exact .inr (List.mem_cons.mpr (.inl hmax))
    · rw [ListLoad.dispatch, hmax]
      exact hs.maxReq_mem.imp_right (List.mem_cons_of_mem _)
  · rw [hload, ← hs.maxReq_eq]
    rfl
  · rw [hload, hsent, ← hcounted]
    simp only [ListLoad.dispatch]
    ring

omit [CFloat F] in
theorem historyOk_complete {t : Tier} {h : LoadHistory}
    (hs : HistoryOk t s h)
    (hload : s'.upstream.loadAt t = (s.upstream.loadAt t).complete false)
    (hsent : dispatches t s' = dispatches t s) :
    HistoryOk t s' { h with
      moments := (s'.upstream.loadAt t).activeReq :: h.moments } := by
  rw [hload]
  refine
    { start_mem := List.mem_cons_of_mem _ hs.start_mem
      current_mem := by rw [hload]; exact List.mem_cons_self
      moments_le := ?_
      maxReq_nonneg := by rw [hload]; exact hs.maxReq_nonneg
      maxReq_mem := by
        rw [hload]
        exact hs.maxReq_mem.imp_right (List.mem_cons_of_mem _)
      maxReq_eq := by rw [hload]; exact hs.maxReq_eq
      counted := by rw [hload, hsent]; exact hs.counted }
  rw [hload]
  intro m hm
  rcases List.mem_cons.mp hm with rfl | hm
  · refine le_trans ?_ (hs.moments_le _ hs.current_mem)
    exact Int.sub_le_self _ Int.one_nonneg
  · exact hs.moments_le m hm

omit [CFloat F] in
theorem historyOk_report {t : Tier} {h : LoadHistory} (hs : HistoryOk t s h)
    (hload : s'.upstream.loadAt t = (s.upstream.loadAt t).complete true)
    (hsent : dispatches t s' = dispatches t s) :
    HistoryOk t s'
      { start := (s'.upstream.loadAt t).activeReq
        moments := [(s'.upstream.loadAt t).activeReq]
        peak := 0
        counted := h.counted + (s.upstream.loadAt t).reqCount } where
  start_mem := List.mem_singleton_self _
  current_mem := List.mem_singleton_self _
  moments_le := by
    intro m hm
    rw [List.mem_singleton.mp hm]
    exact le_max_left _ _
  maxReq_nonneg := by
    rw [hload]
    exact le_rfl
  maxReq_mem := by
    rw [hload]
    exact .inl rfl
  maxReq_eq := by
    rw [hload]
    rfl
  counted := by
    rw [hload, hsent, ← hs.counted]
    exact add_zero _

theorem HistoryOk.step {t : Tier} {h : LoadHistory} {e : Event}
    (hs : HistoryOk t s h) (hstep : step conf s e = .ok s') :
    HistoryOk t s' (h.record t s e s') := by
  have hstep := step_load t hstep
  unfold LoadHistory.record
  revert hstep
  cases reports t s e with
  | false =>
      intro hstep
      rw [if_neg Bool.false_ne_true]
      cases hstep with
      | same hload hsent =>
          rw [if_neg hsent.not_gt]
          exact historyOk_same hs hload hsent
      | dispatch hload hsent =>
          have hmore : dispatches t s < dispatches t s' := by
            rw [hsent]
            exact Int.lt_succ _
          rw [if_pos hmore]
          exact historyOk_dispatch hs hload hsent
      | complete _ hload hsent =>
          rw [if_neg hsent.not_gt]
          exact historyOk_complete hs hload hsent
  | true =>
      intro hstep
      cases hstep with
      | complete _ hload hsent => exact historyOk_report hs hload hsent

theorem initRoundRobin_load {us : UpstreamSrvConf} {u : Upstream F}
    (h : ngxHttpUpstreamInitRoundRobin us = some u) (t : Tier) :
    u.loadAt t = ⟨0, 0, 0⟩ := by
  unfold ngxHttpUpstreamInitRoundRobin at h
  split at h
  · split at h
    · cases h
    · dsimp only at h
      split at h
      · obtain rfl := Option.some.inj h
        cases t with
        | primary => rfl
        | backup => rfl
      · obtain rfl := Option.some.inj h
        cases t with
        | primary => rfl
        | backup => rfl
  · split at h
    · cases h
    · obtain ⟨addrs, -, rfl⟩ := Option.map_eq_some_iff.mp h
      cases t with
      | primary => rfl
      | backup => rfl

theorem historyOk_initial (t : Tier) (h : Initial s) :
    HistoryOk t s .initial := by
  obtain ⟨⟨us, hus⟩, hnil⟩ := h
  have hload := initRoundRobin_load hus t
  exact
    { start_mem := List.mem_singleton_self _
      current_mem := by rw [hload]; exact List.mem_singleton_self _
      moments_le := by simp [LoadHistory.initial]
      maxReq_nonneg := by rw [hload]
      maxReq_mem := by rw [hload]; exact .inl rfl
      maxReq_eq := by rw [hload]; rfl
      counted := by rw [hload]; simp [dispatches, hnil, LoadHistory.initial] }

/-- In every run the history is right about the counters. -/
theorem observed_historyOk {t : Tier} {h : LoadHistory}
    (hobs : Observed conf t s h) : HistoryOk t s h := by
  induction hobs with
  | init hinit => exact historyOk_initial t hinit
  | step _ hstep ih => exact ih.step hstep

/-- A report that prints `load` bounds `active_req` at every moment since the
last one, up to its own, when it is `active`. -/
def LoadHistory.BoundedBy (h : LoadHistory) (active load : ℤ) : Prop :=
  ∀ m ∈ active :: h.moments, m ≤ load

theorem toInt32_eq {n : ℤ} (h0 : 0 ≤ n) (h1 : n < 2 ^ 31) : toInt32 n = n := by
  refine Int.bmod_eq_of_le ?_ ?_
  · omega
  · omega

theorem toInt32_lt (n : ℤ) : toInt32 n < 2 ^ 31 :=
  Int.bmod_lt (by decide)

omit [CFloat F] in
/-- The printed number is a bound exactly if what was already active at the
last report was reached again by a dispatch since, and the number fits. -/
theorem HistoryOk.boundedBy_iff {t : Tier} {h : LoadHistory}
    (hs : HistoryOk t s h) {active : ℤ}
    (hactive : active ≤ (s.upstream.loadAt t).activeReq) :
    h.BoundedBy active (toInt32 (s.upstream.loadAt t).maxReq) ↔
      h.start ≤ (s.upstream.loadAt t).maxReq ∧
        (s.upstream.loadAt t).maxReq < 2 ^ 31 := by
  have hnonneg := hs.maxReq_nonneg
  constructor
  · intro hbound
    have hlt : (s.upstream.loadAt t).maxReq < 2 ^ 31 := by
      rcases hs.maxReq_mem with hzero | hmem
      · rw [hzero]
        decide
      · have hle := hbound _ (List.mem_cons_of_mem _ hmem)
        exact lt_of_le_of_lt hle (toInt32_lt _)
    have hstart := hbound _ (List.mem_cons_of_mem _ hs.start_mem)
    rw [toInt32_eq hnonneg hlt] at hstart
    exact ⟨hstart, hlt⟩
  · rintro ⟨hstart, hlt⟩
    have hle : ∀ m ∈ h.moments, m ≤ (s.upstream.loadAt t).maxReq := by
      intro m hm
      have hmax := hs.moments_le m hm
      rwa [max_eq_right hstart] at hmax
    rw [toInt32_eq hnonneg hlt]
    intro m hm
    rcases List.mem_cons.mp hm with rfl | hm
    · exact hactive.trans (hle _ hs.current_mem)
    · exact hle m hm

/-- The completion of the request at position `i` ends with the log line
`line`, which contains a report of the list. -/
def Reports (t : Tier) (s : System F) (i : ℕ) (tp : NgxTime)
    (u' : Upstream F) (line : Text) : Prop :=
  ∃ r u r', s.requests[i]? = some r ∧
    releaseHeld s.upstream r 0 tp = .ok (u, r') ∧
    ngxHttpLogRequestTime tp u r' = .ok (u', line) ∧
    reports t s (.complete i tp) = true

theorem Reports.prints {t : Tier} {i : ℕ} {tp : NgxTime} {u' : Upstream F}
    {line : Text} (h : Reports t s i tp u' line) :
    PrintsLoad line (toInt32 (s.upstream.loadAt t).maxReq) ∧
      (u'.loadAt t).activeReq = (s.upstream.loadAt t).activeReq - 1 := by
  obtain ⟨r, u, r', hi, hrel, hlog, hreports⟩ := h
  have hload := releaseHeld_load hrel t
  have hdue := due_of_release hrel t
  obtain ⟨-, -, -, hr'⟩ := releaseHeld_spec hrel
  simp only [reports, hi, Option.any_some, Bool.and_eq_true,
    decide_eq_true_eq] at hreports
  obtain ⟨⟨hver, ht⟩, hreports⟩ := hreports
  have hversion : r'.version = r.version := by rw [hr']
  have hpeers : r'.data.peers = t := by rw [hr']; exact ht
  subst hpeers
  rcases logRequestTime_load hlog with ⟨hnone, -⟩ |
    ⟨-, due, hdue', hself, -, hprints⟩
  · rw [← hversion, hnone] at hver
    cases hver
  · have htrue : due = true := by rw [← hdue', hdue, hreports]
    rw [← hload]
    exact ⟨hprints htrue, by rw [hself]; rfl⟩

/-- In every run the reports and `req_count` together account for all
dispatches, and a report bounds `active_req` at every moment since the one
before exactly if a dispatch since then has reached what was active right
after that one, and the number fits the printed type. -/
theorem reported_load_iff (conf : UpstreamConf) (t : Tier) (s : System F)
    (h : LoadHistory) (hobs : Observed conf t s h) :
    h.counted + (s.upstream.loadAt t).reqCount = dispatches t s ∧
      (s.upstream.loadAt t).maxReq = h.peak ∧
      ∀ i tp u' line, Reports t s i tp u' line →
        ∃ load, PrintsLoad line load ∧
          (h.BoundedBy (u'.loadAt t).activeReq load ↔
            h.start ≤ h.peak ∧ h.peak < 2 ^ 31) := by
  have hok := observed_historyOk hobs
  refine ⟨hok.counted, hok.maxReq_eq, ?_⟩
  intro i tp u' line hreport
  obtain ⟨hprints, hactive⟩ := hreport.prints
  refine ⟨_, hprints, ?_⟩
  rw [← hok.maxReq_eq]
  refine hok.boundedBy_iff ?_
  rw [hactive]
  exact Int.sub_le_self _ Int.one_nonneg

theorem run_observed {t : Tier} {h : LoadHistory} {es : List Event}
    (hs : Observed conf t s h) (hrun : run conf s es = .ok s') :
    ∃ h', Observed conf t s' h' := by
  induction es generalizing s h with
  | nil =>
      obtain rfl := Except.ok.inj hrun
      exact ⟨h, hs⟩
  | cons e es ih =>
      obtain ⟨s₁, hstep, hrest⟩ := Except.bind_eq_ok.mp hrun
      exact ih (hs.step hstep) hrest

/-- Four requests on the heavy server, the first of which has completed. -/
def fourRequests : List Event :=
  [.arrive (NgxTime.ofSec 1), .connect 0 (NgxTime.ofSec 1),
    .arrive (NgxTime.ofSec 1), .connect 1 (NgxTime.ofSec 1),
    .arrive (NgxTime.ofSec 1), .connect 2 (NgxTime.ofSec 1),
    .arrive (NgxTime.ofSec 1), .connect 3 (NgxTime.ofSec 1),
    .complete 0 (NgxTime.ofSec 2)]

theorem reported_load_iff_four :
    ∃ (s : System RatFloat) (h : LoadHistory),
      run errorConf heavyLight fourRequests = .ok s ∧
      h.counted + (s.upstream.loadAt .primary).reqCount =
        dispatches .primary s ∧
      (s.upstream.loadAt .primary).maxReq = h.peak ∧
      ∀ i tp u' line, Reports .primary s i tp u' line →
        ∃ load, PrintsLoad line load ∧
          (h.BoundedBy (u'.loadAt .primary).activeReq load ↔
            h.start ≤ h.peak ∧ h.peak < 2 ^ 31) := by
  obtain ⟨s, hrun, -⟩ := @runs_iff RatFloat _ errorConf heavyLight
    fourRequests (fun _ => true) |>.mp (by decide +kernel)
  obtain ⟨h, hobs⟩ := run_observed
    (@Observed.init _ _ errorConf .primary _ heavyLight_initial) hrun
  exact ⟨s, h, hrun, reported_load_iff errorConf .primary s h hobs⟩

/-- The next two completions report, and the second report prints zero though
two requests were active right after the first one. -/
theorem reported_load_not_bound :
    ∃ (s : System RatFloat) (h : LoadHistory) (u' : Upstream RatFloat)
      (line : Text),
      Observed errorConf .primary s h ∧
      Reports .primary s 2 (NgxTime.ofSec 32) u' line ∧
      h.start = 2 ∧ (s.upstream.loadAt .primary).maxReq = 0 ∧
      PrintsLoad line 0 ∧ ¬h.BoundedBy (u'.loadAt .primary).activeReq 0 := by
  obtain ⟨s₁, hrun, hs⟩ := @runs_iff RatFloat _ errorConf heavyLight
    fourRequests
    (fun s => (step errorConf s (.complete 1 (NgxTime.ofSec 17))).toOption.any
      fun s' => reports .primary s (.complete 1 (NgxTime.ofSec 17)) &&
        reports .primary s' (.complete 2 (NgxTime.ofSec 32)) &&
        decide ((s'.upstream.loadAt .primary).activeReq = 2 ∧
          (s'.upstream.loadAt .primary).maxReq = 0) &&
        (s'.requests[2]?).any fun r =>
          (releaseHeld s'.upstream r 0 (NgxTime.ofSec 32) >>= fun x =>
            ngxHttpLogRequestTime (NgxTime.ofSec 32) x.1 x.2).toOption.any
              fun _ => true) |>.mp (by decide +kernel)
  obtain ⟨s, hstep, hs⟩ := Except.exists_ok_of_any hs
  simp only [Bool.and_eq_true, decide_eq_true_eq] at hs
  obtain ⟨⟨⟨hfirst, hsecond⟩, hactive, hmax⟩, hlog⟩ := hs
  obtain ⟨r, hr, hlog⟩ := (Option.any_eq_true _ _).mp hlog
  obtain ⟨⟨u', line⟩, hlog, -⟩ := Except.exists_ok_of_any hlog
  obtain ⟨⟨u, r'⟩, hrel, hlog⟩ := Except.bind_eq_ok.mp hlog
  obtain ⟨h₁, hobs₁⟩ := run_observed
    (@Observed.init _ _ errorConf .primary _ heavyLight_initial) hrun
  have hobs := hobs₁.step hstep
  have hreport : Reports .primary s 2 (NgxTime.ofSec 32) u' line :=
    ⟨r, u, r', hr, hrel, hlog, hsecond⟩
  have hprints := hreport.prints.1
  rw [hmax] at hprints
  have hmoments : (h₁.record .primary s₁ (.complete 1 (NgxTime.ofSec 17)) s) =
      ⟨2, [2], 0, h₁.counted + (s₁.upstream.loadAt .primary).reqCount⟩ := by
    rw [LoadHistory.record, if_pos hfirst, hactive]
  rw [hmoments] at hobs
  refine ⟨s, _, u', line, hobs, hreport, rfl, hmax, hprints, ?_⟩
  intro hbound
  exact absurd (hbound 2 (by simp)) (by decide)

end MultiversionBalancer
