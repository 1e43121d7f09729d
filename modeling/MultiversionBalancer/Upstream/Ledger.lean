import MultiversionBalancer.Upstream.LinkedRuns

/-!
# The history of a version

The counters of a version only say how many requests have completed modulo
`req_upper_bound`.  A `Ledger` records along a run what they leave out: how
many requests were sent to each version, how many of them have completed, and
for each node how many had been sent and how many had completed when its
request was dispatched.  `LedgerOk` says what the counters and numbers of the
source are in terms of it, in every run.
-/

namespace MultiversionBalancer

open Lib

/-- The dispatches and completions of every version, and for each node of a
version the number of its dispatch and the completions before it. -/
structure Ledger where
  sent : ℕ → ℤ
  done : ℕ → ℤ
  number : ℕ → ℕ → ℤ
  before : ℕ → ℕ → ℤ

namespace Ledger

/-- No request has been sent. -/
def empty : Ledger where
  sent := fun _ => 0
  done := fun _ => 0
  number := fun _ _ => 0
  before := fun _ _ => 0

/-- A request is sent to the version `a` and gets the node `b`. -/
def dispatch (l : Ledger) (a b : ℕ) : Ledger where
  sent := Function.update l.sent a (l.sent a + 1)
  done := l.done
  number := Function.update l.number a
    (Function.update (l.number a) b (l.sent a + 1))
  before := Function.update l.before a
    (Function.update (l.before a) b (l.done a))

/-- A request of the version completes; without a version nothing happens. -/
def complete (l : Ledger) : Option ℕ → Ledger
  | none => l
  | some a => { l with done := Function.update l.done a (l.done a + 1) }

variable {F : Type}

/-- What happened to a request: a dispatch adds an attempt. -/
def attempt (l : Ledger) (r r' : Request F) : Ledger :=
  if r'.attempts.length = r.attempts.length then l
  else
    match r'.version, r'.enterTime with
    | some a, some b => l.dispatch a b
    | _, _ => l

/-- What happened to the request at a position. -/
def attemptAt (l : Ledger) (s s' : System F) (i : ℕ) : Ledger :=
  match s.requests[i]?, s'.requests[i]? with
  | some r, some r' => l.attempt r r'
  | _, _ => l

/-- The ledger after an event that leads from `s` to `s'`. -/
def record (l : Ledger) (s : System F) (e : Event) (s' : System F) : Ledger :=
  match e with
  | .arrive _ => l
  | .connect i _ => l.attemptAt s s' i
  | .next i _ _ => l.attemptAt s s' i
  | .finalize _ _ => l
  | .complete i _ => l.complete (s.requests[i]?.bind (·.version))

theorem attemptAt_dispatch {l : Ledger} {s s' : System F} {i a b : ℕ}
    {r r' : Request F} (hi : s.requests[i]? = some r)
    (hi' : s'.requests[i]? = some r')
    (hmore : r'.attempts.length = r.attempts.length + 1)
    (ha : r'.version = some a) (hb : r'.enterTime = some b) :
    l.attemptAt s s' i = l.dispatch a b := by
  have hne : r'.attempts.length ≠ r.attempts.length := by omega
  simp only [attemptAt, hi, hi', attempt, if_neg hne, ha, hb]

end Ledger

variable {F : Type} [CFloat F]

/-- The states of runs with their ledgers; all events meet the guard. -/
abbrev Ledgered (conf : UpstreamConf)
    (ok : Ledger × System F → Event → Prop) : Ledger × System F → Prop :=
  Reach (fun x => x.1 = Ledger.empty ∧ Initial x.2) ok
    fun x e y => step conf x.2 e = .ok y.2 ∧ y.1 = x.1.record x.2 e y.2

/-! ## Invariants -/

/-- What the changes keep of an invariant of a system and its ledger.  A
completion of the request at a position may rely on the guard there. -/
structure KeepsLedger (conf : UpstreamConf)
    (guard : NgxTime → Ledger → System F → ℕ → Prop)
    (inv : Ledger → System F → Prop) : Prop where
  arrive : ∀ l s tp, inv l s →
    inv l { s with
      requests := s.requests ++
        [ngxHttpUpstreamInitRequest conf.nextUpstreamTries s.upstream tp] }
  dispatch : ∀ (l : Ledger) (s : System F) (i a b : ℕ) (r r' : Request F)
    (u : Upstream F) (tp : NgxTime),
    inv l s → s.requests[i]? = some r → r.logged = false →
    ngxHttpUpstreamGetRoundRobinPeer s.upstream r tp = .ok (.ok, u, r') →
    r'.version = some a → r'.enterTime = some b →
    inv (l.dispatch a b) { upstream := u, requests := s.requests.set i r' }
  release : ∀ (l : Ledger) (s : System F) (i : ℕ) (r r' : Request F)
    (u : Upstream F) (state tries : ℕ) (tp : NgxTime),
    inv l s → s.requests[i]? = some r → r.logged = false →
    releaseHeld s.upstream r state tp = .ok (u, r') →
    inv l { upstream := u
            requests := s.requests.set i { r' with tries := tries } }
  complete : ∀ (l : Ledger) (s : System F) (i : ℕ) (r : Request F)
    (u : Upstream F) (t : Text) (tp : NgxTime),
    inv l s → guard tp l s i → s.requests[i]? = some r →
    r.logged = false → ngxHttpLogRequestTime tp s.upstream r = .ok (u, t) →
    inv (l.complete r.version)
      { upstream := u
        requests := s.requests.set i { r with logged := true } }
  guard_release : ∀ (l : Ledger) (s : System F) (i : ℕ) (r r' : Request F)
    (u : Upstream F) (tp : NgxTime), guard tp l s i →
    s.requests[i]? = some r → releaseHeld s.upstream r 0 tp = .ok (u, r') →
    guard tp l { upstream := u, requests := s.requests.set i r' } i

/-- A dispatch adds an attempt, a version and a node. -/
theorem getRoundRobinPeer_attempt {u u' : Upstream F} {r r' : Request F}
    {tp : NgxTime}
    (h : ngxHttpUpstreamGetRoundRobinPeer u r tp = .ok (.ok, u', r')) :
    ∃ a b, r'.version = some a ∧ r'.enterTime = some b ∧
      r'.attempts.length = r.attempts.length + 1 := by
  obtain ⟨-, ps, i, p, a, ws, load, v, -, -, -, -, -, -, hbuf⟩ :=
    getRoundRobinPeer_scanned h
  obtain ⟨-, -, -, -, hr'⟩ := bufferRequestData_ok hbuf
  refine ⟨a, _, by rw [hr'], by rw [hr'], ?_⟩
  rw [hr']
  simp [Request.take]

theorem KeepsLedger.step {conf : UpstreamConf} {e : Event}
    {guard : NgxTime → Ledger → System F → ℕ → Prop}
    {inv : Ledger → System F → Prop} (h : KeepsLedger conf guard inv)
    {l : Ledger} {s s' : System F} (hs : inv l s)
    (hguard : ∀ i tp, e = .complete i tp → guard tp l s i)
    (hstep : step conf s e = .ok s') : inv (l.record s e s') s' := by
  -- a dispatch from a state in which the request has as many attempts
  have hconnect : ∀ (s₀ s : System F) (i : ℕ) (r₀ r : Request F)
      (tp : NgxTime), inv l s → s₀.requests[i]? = some r₀ →
      s.requests[i]? = some r → r.logged = false →
      r.attempts.length = r₀.attempts.length →
      ngxHttpUpstreamConnect s i r tp = .ok s' →
      inv (l.attemptAt s₀ s' i) s' := by
    intro s₀ s i r₀ r tp hs hi₀ hi hr hattempts h₁
    obtain ⟨⟨res, u, r'⟩, hget, h₁⟩ := Except.bind_eq_ok.mp h₁
    obtain rfl := Except.ok.inj h₁
    obtain ⟨rfl, -⟩ := getRoundRobinPeer_ok hget
    obtain ⟨a, b, ha, hb, hmore⟩ := getRoundRobinPeer_attempt hget
    have hrecord : l.attemptAt s₀
        { upstream := u, requests := s.requests.set i r' } i =
          l.dispatch a b :=
      Ledger.attemptAt_dispatch hi₀ (getElem?_set_of_some r' hi)
        (by rw [hmore, hattempts]) ha hb
    rw [hrecord]
    exact h.dispatch l s i a b r r' u tp hs hi hr hget ha hb
  cases step_cases hstep with
  | arrive tp => exact h.arrive l s tp hs
  | connect hi hr hfirst h₁ => exact hconnect s s _ _ _ _ hs hi hi hr rfl h₁
  | @next i r ctx tp _ hi hr hheld h₁ =>
      obtain ⟨⟨u, r₁⟩, hrel, h₁⟩ := Except.bind_eq_ok.mp h₁
      have hlogged := (releaseHeld_logged hrel).trans hr
      have hsame := releaseHeld_attempts hrel
      have hreleased := h.release l s i r r₁ u _ (nextTries ctx r₁) tp hs hi hr
        hrel
      dsimp only at h₁
      split at h₁
      · exact hconnect s _ i r _ tp hreleased hi (getElem?_set_of_some _ hi)
          hlogged (congrArg List.length hsame) h₁
      · obtain rfl := Except.ok.inj h₁
        have hrecord : l.attemptAt s
            { upstream := u
              requests := s.requests.set i
                { r₁ with tries := nextTries ctx r₁ } } i = l := by
          simp only [Ledger.attemptAt, hi, getElem?_set_of_some _ hi,
            Ledger.attempt]
          exact if_pos (congrArg List.length hsame)
        rw [Ledger.record, hrecord]
        exact hreleased
  | @finalize i r r' tp u hi hr hrel =>
      exact h.release l s i r r' u 0 r'.tries tp hs hi hr hrel
  | @complete i r tp _ hi hr h₁ =>
      obtain ⟨⟨u, r₁⟩, hrel, h₁⟩ := Except.bind_eq_ok.mp h₁
      obtain ⟨⟨u', t⟩, hlog, h₁⟩ := Except.bind_eq_ok.mp h₁
      obtain rfl := Except.ok.inj h₁
      have hlogged := (releaseHeld_logged hrel).trans hr
      have hreleased := h.release l s i r r₁ u 0 r₁.tries tp hs hi hr hrel
      have hg := h.guard_release l s i r r₁ u tp (hguard i tp rfl) hi hrel
      have hdone := h.complete l _ i r₁ u' t tp hreleased hg
        (getElem?_set_of_some _ hi) hlogged hlog
      have hversion : r₁.version = r.version := by
        obtain ⟨-, -, -, hr₁⟩ := releaseHeld_spec hrel
        rw [hr₁]
      rw [List.set_set] at hdone
      rw [Ledger.record, hi, Option.bind_some, ← hversion]
      exact hdone

theorem Ledgered.invariant {conf : UpstreamConf}
    {ok : Ledger × System F → Event → Prop}
    {guard : NgxTime → Ledger → System F → ℕ → Prop}
    {inv : Ledger → System F → Prop}
    (hinit : ∀ s, Initial s → inv Ledger.empty s)
    (hguard : ∀ l s i tp, ok (l, s) (.complete i tp) → guard tp l s i)
    (hkeeps : KeepsLedger conf guard inv) {x : Ledger × System F}
    (h : Ledgered conf ok x) : inv x.1 x.2 := by
  refine @Reach.invariant _ _ _ _ _ (fun x => inv x.1 x.2) ?_ ?_ x h
  · rintro ⟨l, s⟩ ⟨rfl, hs⟩
    exact hinit s hs
  · rintro ⟨l, s⟩ e ⟨l', s'⟩ - hs hok ⟨hstep, hl⟩
    obtain rfl : l' = l.record s e s' := hl
    refine hkeeps.step hs ?_ hstep
    rintro i tp rfl
    exact hguard l s i tp hok

theorem Ledgered.reachable {conf : UpstreamConf}
    {ok : Ledger × System F → Event → Prop} {x : Ledger × System F}
    (h : Ledgered conf ok x) : Reachable conf Reachable.any x.2 := by
  induction h with
  | init hx => exact .init hx.2
  | step _ _ hstep ih => exact .step ih trivial hstep.1

theorem Ledgered.run {conf : UpstreamConf}
    {ok : Ledger × System F → Event → Prop} {es : List Event}
    {l : Ledger} {s s' : System F} (h : Ledgered conf ok (l, s))
    (hok : ∀ e ∈ es, ∀ x, ok x e) (hrun : run conf s es = .ok s') :
    ∃ l', Ledgered conf ok (l', s') := by
  induction es generalizing l s with
  | nil =>
      obtain rfl := Except.ok.inj hrun
      exact ⟨l, h⟩
  | cons e es ih =>
      obtain ⟨s₁, hstep, hrest⟩ := Except.bind_eq_ok.mp hrun
      have hnext : Ledgered conf ok (l.record s e s₁, s₁) :=
        .step h (hok e List.mem_cons_self _) ⟨hstep, rfl⟩
      exact ih hnext (fun e he => hok e (List.mem_cons_of_mem _ he)) hrest

/-! ## What the counters are -/

/-- The counters of a version and the numbers of its nodes in terms of the
ledger.  A counter that has wrapped, and every number given since, is short by
`req_upper_bound` for each wrap. -/
structure Labelled (l : Ledger) (a : ℕ) (v : VersionedServer F)
    (ns : QueueNodes) : Prop where
  bound : v.reqUpperBound = 2147483642
  nonneg : 0 ≤ l.done a
  completed : v.completedRequests = l.done a % 2147483642
  active : v.activeReq = l.sent a - l.done a
  number : ∀ n ∈ numbers ns,
    n.2 = l.number a n.1 - 2147483642 * (l.before a n.1 / 2147483642)
  ordered : (numbers ns).Pairwise fun m n =>
    l.number a m.1 < l.number a n.1 ∧ l.before a m.1 ≤ l.before a n.1
  past : ∀ n ∈ numbers ns, l.number a n.1 ≤ l.sent a ∧
    0 ≤ l.before a n.1 ∧ l.before a n.1 ≤ l.done a

/-- The ledger accounts for every version and for every request that has not
completed. -/
structure LedgerOk (l : Ledger) (s : System F) : Prop where
  linked : LinkedWith (Labelled l) s
  before : ∀ (i : ℕ) (r : Request F) (a : ℕ), s.requests[i]? = some r →
    r.Waiting a → ∃ b, r.enterTime = some b ∧
      r.reqFinishBefore = l.before a b % 2147483642

theorem labelled_initial {us : UpstreamSrvConf} {u : Upstream F}
    (h : ngxHttpUpstreamInitRoundRobin us = some u) (a : ℕ) :
    Labelled Ledger.empty a (u.versions a) [] := by
  obtain ⟨id, ip, port, hfresh⟩ := initRoundRobin_fresh h a
  rw [hfresh]
  exact
    { bound := rfl
      nonneg := le_rfl
      completed := rfl
      active := rfl
      number := by simp [numbers]
      ordered := List.Pairwise.nil
      past := by simp [numbers] }

omit [CFloat F] in
theorem Labelled.sublist {l : Ledger} {a : ℕ} {v w : VersionedServer F}
    {ns ms : QueueNodes} (h : Labelled l a v ns)
    (hbound : w.reqUpperBound = v.reqUpperBound)
    (hcompleted : w.completedRequests = v.completedRequests)
    (hactive : w.activeReq = v.activeReq)
    (hsub : (numbers ms).Sublist (numbers ns)) : Labelled l a w ms where
  bound := hbound.trans h.bound
  nonneg := h.nonneg
  completed := hcompleted.trans h.completed
  active := hactive.trans h.active
  number := fun n hn => h.number n (hsub.subset hn)
  ordered := h.ordered.sublist hsub
  past := fun n hn => h.past n (hsub.subset hn)

theorem labelled_keptByExam (l : Ledger) (tp : NgxTime) :
    KeptByExam tp (Labelled (F := F) l) := by
  intro a pt v w ns ms h _ hexam _ hsub _
  have hsame := sameRequests_of_examined (.single hexam)
  exact h.sublist hsame.bound_eq hsame.completed_eq hsame.active_eq
    (hsub.map _)

omit [CFloat F] in
theorem Labelled.dispatch_other {l : Ledger} {a b c : ℕ}
    {v : VersionedServer F} {ns : QueueNodes} (hne : c ≠ a)
    (h : Labelled l c v ns) : Labelled (l.dispatch a b) c v ns := by
  have hsent : (l.dispatch a b).sent c = l.sent c :=
    Function.update_of_ne hne ..
  have hnumber : (l.dispatch a b).number c = l.number c :=
    Function.update_of_ne hne ..
  have hbefore : (l.dispatch a b).before c = l.before c :=
    Function.update_of_ne hne ..
  exact
    { bound := h.bound
      nonneg := h.nonneg
      completed := h.completed
      active := by rw [hsent]; exact h.active
      number := by rw [hnumber, hbefore]; exact h.number
      ordered := by rw [hnumber, hbefore]; exact h.ordered
      past := by rw [hsent, hnumber, hbefore]; exact h.past }

omit [CFloat F] in
/-- A dispatch gives the next number to a new node at the end. -/
theorem Labelled.dispatch_self {l : Ledger} {a b : ℕ}
    {v w : VersionedServer F} {ns : QueueNodes} {x : ReqTime}
    (h : Labelled l a v ns) (hfresh : ∀ n ∈ numbers ns, n.1 ≠ b)
    (hbound : w.reqUpperBound = v.reqUpperBound)
    (hcompleted : w.completedRequests = v.completedRequests)
    (hactive : w.activeReq = v.activeReq + 1)
    (hno : x.no = v.completedRequests + v.activeReq + 1) :
    Labelled (l.dispatch a b) a w (ns ++ [(b, x)]) := by
  have hsent : (l.dispatch a b).sent a = l.sent a + 1 :=
    Function.update_self ..
  have hdone : (l.dispatch a b).done a = l.done a := rfl
  have hnumber : (l.dispatch a b).number a =
      Function.update (l.number a) b (l.sent a + 1) := Function.update_self ..
  have hbefore : (l.dispatch a b).before a =
      Function.update (l.before a) b (l.done a) := Function.update_self ..
  have hnumbers : numbers (ns ++ [(b, x)]) = numbers ns ++ [(b, x.no)] := by
    simp [numbers]
  -- the labels of the nodes that were there
  have hold : ∀ n ∈ numbers ns,
      (l.dispatch a b).number a n.1 = l.number a n.1 ∧
        (l.dispatch a b).before a n.1 = l.before a n.1 := by
    intro n hn
    rw [hnumber, hbefore]
    exact ⟨Function.update_of_ne (hfresh n hn) .., Function.update_of_ne
      (hfresh n hn) ..⟩
  have hnew : (l.dispatch a b).number a b = l.sent a + 1 ∧
      (l.dispatch a b).before a b = l.done a := by
    rw [hnumber, hbefore]
    exact ⟨Function.update_self .., Function.update_self ..⟩
  refine
    { bound := hbound.trans h.bound
      nonneg := h.nonneg
      completed := hcompleted.trans h.completed
      active := by rw [hactive, h.active, hsent, hdone]; ring
      number := ?_
      ordered := ?_
      past := ?_ }
  · intro n hn
    rw [hnumbers] at hn
    rcases List.mem_append.mp hn with hn | hn
    · rw [(hold n hn).1, (hold n hn).2]
      exact h.number n hn
    · obtain rfl := List.mem_singleton.mp hn
      dsimp only
      rw [hnew.1, hnew.2, hno, h.completed, h.active]
      have hdiv := Int.emod_add_mul_ediv (l.done a) 2147483642
      omega
  · rw [hnumbers, List.pairwise_append]
    refine ⟨h.ordered.imp_of_mem ?_, List.pairwise_singleton _ _, ?_⟩
    · intro m n hm hn hmn
      rw [(hold m hm).1, (hold m hm).2, (hold n hn).1, (hold n hn).2]
      exact hmn
    · intro m hm n hn
      obtain rfl := List.mem_singleton.mp hn
      obtain ⟨hle, -, hdone⟩ := h.past m hm
      dsimp only
      rw [(hold m hm).1, (hold m hm).2, hnew.1, hnew.2]
      exact ⟨by omega, hdone⟩
  · intro n hn
    rw [hnumbers] at hn
    rcases List.mem_append.mp hn with hn | hn
    · obtain ⟨hle, hnonneg, hdone⟩ := h.past n hn
      rw [(hold n hn).1, (hold n hn).2, hsent]
      exact ⟨by omega, hnonneg, hdone⟩
    · obtain rfl := List.mem_singleton.mp hn
      dsimp only
      rw [hnew.1, hnew.2, hsent]
      exact ⟨le_rfl, h.nonneg, le_rfl⟩

omit [CFloat F] in
theorem Labelled.complete_other {l : Ledger} {p : Option ℕ} {c : ℕ}
    {v : VersionedServer F} {ns : QueueNodes} (hne : p ≠ some c)
    (h : Labelled l c v ns) : Labelled (l.complete p) c v ns := by
  cases p with
  | none => exact h
  | some a =>
      have hac : c ≠ a := by
        rintro rfl
        exact hne rfl
      have hdone : (l.complete (some a)).done c = l.done c :=
        Function.update_of_ne hac ..
      exact
        { bound := h.bound
          nonneg := by rw [hdone]; exact h.nonneg
          completed := by rw [hdone]; exact h.completed
          active := by rw [hdone]; exact h.active
          number := h.number
          ordered := h.ordered
          past := by rw [hdone]; exact h.past }

omit [CFloat F] in
theorem Labelled.complete_self {l : Ledger} {a : ℕ}
    {v w : VersionedServer F} {ns ms : QueueNodes} (h : Labelled l a v ns)
    (hbound : w.reqUpperBound = v.reqUpperBound)
    (hcompleted : w.completedRequests =
      (v.completedRequests + 1) % v.reqUpperBound)
    (hactive : w.activeReq = v.activeReq - 1)
    (hsub : (numbers ms).Sublist (numbers ns)) :
    Labelled (l.complete (some a)) a w ms := by
  have hdone : (l.complete (some a)).done a = l.done a + 1 :=
    Function.update_self ..
  have hnonneg := h.nonneg
  refine
    { bound := hbound.trans h.bound
      nonneg := by rw [hdone]; omega
      completed := ?_
      active := by rw [hactive, h.active, hdone]; exact sub_sub ..
      number := fun n hn => h.number n (hsub.subset hn)
      ordered := h.ordered.sublist hsub
      past := ?_ }
  · rw [hcompleted, h.completed, h.bound, hdone]
    exact Int.emod_add_emod ..
  · intro n hn
    obtain ⟨hle, hbefore, hlast⟩ := h.past n (hsub.subset hn)
    rw [hdone]
    exact ⟨hle, hbefore, hlast.trans (Int.le_add_one le_rfl)⟩

/-! ## Runs -/

namespace LedgerOk

variable {l : Ledger} {s : System F} {tp : NgxTime} {i : ℕ}
  {r r' : Request F} {u : Upstream F}

theorem initial (hs : Initial s) : LedgerOk Ledger.empty s where
  linked := by
    obtain ⟨⟨us, hus⟩, hnil⟩ := hs
    exact linkedWith_initial ⟨⟨us, hus⟩, hnil⟩ (labelled_initial hus)
  before := by simp [hs.2]

theorem arrive (conf : UpstreamConf) (tp : NgxTime) (h : LedgerOk l s) :
    LedgerOk l { s with
      requests := s.requests ++
        [ngxHttpUpstreamInitRequest conf.nextUpstreamTries s.upstream tp] } where
  linked := h.linked.arrive conf tp
  before := by
    intro j q a hj hwait
    rcases getElem?_concat_cases hj with hj | rfl
    · exact h.before j q a hj hwait
    · cases hwait.2

omit [CFloat F] in
theorem release (h : LedgerOk l s) {state : ℕ} (tries : ℕ)
    (hi : s.requests[i]? = some r)
    (hrel : releaseHeld s.upstream r state tp = .ok (u, r')) :
    LedgerOk l
      { upstream := u
        requests := s.requests.set i { r' with tries := tries } } where
  linked := h.linked.release tries hi hrel
  before := by
    obtain ⟨-, -, -, hr'⟩ := releaseHeld_spec hrel
    intro j q a hj hwait
    rcases getElem?_set_cases hj with ⟨rfl, rfl⟩ | ⟨-, hj⟩
    · rw [hr'] at hwait ⊢
      exact h.before j r a hi hwait
    · exact h.before j q a hj hwait

theorem dispatch {a b : ℕ} (h : LedgerOk l s) (hi : s.requests[i]? = some r)
    (hr : r.logged = false)
    (hget : ngxHttpUpstreamGetRoundRobinPeer s.upstream r tp =
      .ok (.ok, u, r'))
    (ha : r'.version = some a) (hb : r'.enterTime = some b) :
    LedgerOk (l.dispatch a b)
      { upstream := u, requests := s.requests.set i r' } := by
  obtain ⟨a', ha', hlogged, hdispatch⟩ :=
    h.linked.dispatch (labelled_keptByExam l tp) hi hget
  obtain rfl := Option.some.inj (ha.symm.trans ha')
  have hlinked : LinkedWith (Labelled (l.dispatch a b))
      { upstream := u, requests := s.requests.set i r' } := by
    refine hdispatch _ (fun c hc v ns hP => hP.dispatch_other hc) ?_
    intro pt v w v' load j ns hexam hlinked hP hbuf _ _
    obtain ⟨-, hactive, hcompleted, hbound, hr'⟩ := bufferRequestData_ok hbuf
    have hfresh : w.queue.nodes.fresh = b := by
      rw [hr'] at hb
      exact Option.some.inj hb
    rw [hfresh]
    refine hP.dispatch_self ?_ hbound hcompleted hactive ?_
    · intro n hn
      obtain ⟨m, hm, rfl⟩ := List.mem_map.mp hn
      rw [← hfresh]
      exact (hlinked.lt_fresh hm).ne
    · rw [hr']
      simp only [Request.node, selectVersion]
      ring
  have hwaits : r'.Waiting a := ⟨hlogged.trans hr, ha⟩
  have hreq : r'.reqFinishBefore = l.done a % 2147483642 := by
    obtain ⟨-, ps, j, p, a', ws, load, v', -, -, -, -, hscan, -, hbuf⟩ :=
      getRoundRobinPeer_scanned hget
    obtain ⟨-, -, -, -, hr'⟩ := bufferRequestData_ok hbuf
    obtain rfl : a = a' := by
      rw [hr'] at ha
      exact (Option.some.inj ha).symm
    obtain ⟨ns, -, -, hlabelled⟩ := h.linked.queue a
    rw [hr', ← hlabelled.completed]
    exact (sameRequests_of_examined (hscan.all a)).completed_eq
  refine ⟨hlinked, ?_⟩
  intro j q c hj hwait
  rcases getElem?_set_cases hj with ⟨rfl, rfl⟩ | ⟨hne, hold⟩
  · obtain rfl : c = a := Option.some.inj (hwait.2.symm.trans ha)
    refine ⟨b, hb, ?_⟩
    simp only [Ledger.dispatch, Function.update_self]
    exact hreq
  · obtain ⟨b', hb', hbefore⟩ := h.before j q c hold hwait
    refine ⟨b', hb', ?_⟩
    rw [hbefore]
    by_cases hca : c = a
    · subst hca
      -- two waiting requests do not share a node
      have hbb : b' ≠ b := by
        rintro rfl
        obtain ⟨ns, -, hnodes, -⟩ := hlinked.queue c
        exact hne (hnodes.inj j i q r' hj (getElem?_set_of_some r' hi) hwait
          hwaits (hb'.trans hb.symm))
      simp only [Ledger.dispatch, Function.update_self,
        Function.update_of_ne hbb]
    · simp only [Ledger.dispatch, Function.update_of_ne hca]

theorem complete {t : Text} (h : LedgerOk l s)
    (hi : s.requests[i]? = some r) (hr : r.logged = false)
    (hlog : ngxHttpLogRequestTime tp s.upstream r = .ok (u, t)) :
    LedgerOk (l.complete r.version)
      { upstream := u
        requests := s.requests.set i { r with logged := true } } where
  linked := by
    refine h.linked.complete hi hr hlog
      (fun c hc v ns hP => hP.complete_other hc) ?_
    intro a v' m b pre post ms hver hcomplete _ _ _ hP _ hsub _
    obtain ⟨hactive, hcompleted, hbound, -⟩ := completeVersion_ok hcomplete
    rw [hver]
    exact hP.complete_self hbound hcompleted hactive hsub
  before := by
    intro j q a hj hwait
    have hbefore : (l.complete r.version).before = l.before := by
      cases r.version <;> rfl
    rw [hbefore]
    rcases getElem?_set_cases hj with ⟨rfl, rfl⟩ | ⟨-, hold⟩
    · cases hwait.1
    · exact h.before j q a hold hwait

theorem keeps (conf : UpstreamConf) :
    KeepsLedger conf (fun _ _ (_ : System F) _ => True) LedgerOk where
  arrive := fun _ _ tp h => h.arrive conf tp
  dispatch := fun _ _ _ _ _ _ _ _ _ h hi hr hget ha hb =>
    h.dispatch hi hr hget ha hb
  release := fun _ _ _ _ _ _ _ tries _ h hi _ hrel => h.release tries hi hrel
  complete := fun _ _ _ _ _ _ _ h _ hi hr hlog => h.complete hi hr hlog
  guard_release := fun _ _ _ _ _ _ _ _ _ _ => trivial

end LedgerOk

theorem ledgered_ok {conf : UpstreamConf}
    {ok : Ledger × System F → Event → Prop} {x : Ledger × System F}
    (h : Ledgered conf ok x) : LedgerOk x.1 x.2 :=
  h.invariant (fun _ hs => LedgerOk.initial hs) (fun _ _ _ _ _ => trivial)
    (LedgerOk.keeps conf)

end MultiversionBalancer
