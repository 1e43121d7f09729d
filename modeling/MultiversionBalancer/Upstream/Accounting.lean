import MultiversionBalancer.Upstream.System
import Mathlib.Algebra.Order.BigOperators.Group.List

/-!
# Conservation of active requests

A dispatch adds one to `active_req` of the version and of the list, a
completion takes one away, and the release of an attempt does neither.  So
`active_req` counts the attempts that are still held (`Request.held`): all
attempts of a request before its completion, all but the last one after it.
It counts the requests that are on the peer exactly as long as no request has
made a second attempt.
-/

namespace MultiversionBalancer

open Lib

variable {F : Type} [CFloat F]

/-- The attempts of a request that `active_req` still counts. -/
def Request.held (r : Request F) : List (Tier × ℕ) :=
  if r.logged then r.attempts.dropLast else r.attempts

/-- The attempts on a primary peer that are still counted. -/
def heldOn (s : System F) (i : ℕ) : ℤ :=
  (s.requests.map fun r => (r.held.count (Tier.primary, i) : ℤ)).sum

/-- All attempts that are still counted. -/
def heldTotal (s : System F) : ℤ :=
  (s.requests.map fun r => (r.held.length : ℤ)).sum

/-- The requests that have not completed and whose current attempt is on the
peer at position `i` of a list. -/
def onPeer (s : System F) (t : Tier) (i : ℕ) : ℕ :=
  s.requests.countP fun r => !r.logged && r.attempts.getLast? == some (t, i)

/-- Conservation: the counters are the numbers of requests on the peers, they
return to zero, and they are never negative. -/
structure Conserved (s : System F) : Prop where
  version : ∀ t i a, s.upstream.versionAt t i = some a →
    (s.upstream.versions a).activeReq = onPeer s t i
  peers : ∀ t ps, s.upstream.tier t = some ps →
    ps.activeReq =
      ((List.range ps.peer.length).map fun i => (onPeer s t i : ℤ)).sum
  idle : (∀ r ∈ s.requests, r.logged = true) →
    (∀ t i a, s.upstream.versionAt t i = some a →
      (s.upstream.versions a).activeReq = 0) ∧
    ∀ t ps, s.upstream.tier t = some ps → ps.activeReq = 0
  nonneg : (∀ t i a, s.upstream.versionAt t i = some a →
      0 ≤ (s.upstream.versions a).activeReq) ∧
    ∀ t ps, s.upstream.tier t = some ps → 0 ≤ ps.activeReq

/-- What the counters count in every run. -/
structure Accounted (s : System F) : Prop where
  versionAt : ∀ t i a, s.upstream.versionAt t i = some a →
    t = .primary ∧ a = i
  record : ∀ r ∈ s.requests, r.data.peers = .primary
  current : ∀ r ∈ s.requests, r.version = r.attempts.getLast?.map (·.2)
  attempts : ∀ r ∈ s.requests, ∀ x ∈ r.attempts,
    x.1 = .primary ∧ s.upstream.versionAt .primary x.2 = some x.2
  versions : ∀ i, (s.upstream.versions i).activeReq = heldOn s i
  primary : s.upstream.activeAt .primary = heldTotal s
  backup : s.upstream.activeAt .backup = 0

/-! ## The counters in every run -/

theorem accounted_initial (s : System F) (h : Initial s) : Accounted s := by
  obtain ⟨⟨us, hus⟩, hnil⟩ := h
  obtain ⟨hinit, hactive⟩ := initRoundRobin_idle hus
  exact
    { versionAt := fun t i a ha => initRoundRobin_versionAt hus ha
      record := by simp [hnil]
      current := by simp [hnil]
      attempts := by simp [hnil]
      versions := fun i => by simp [heldOn, hnil, (hinit i).active]
      primary := by simp [heldTotal, hnil, hactive]
      backup := hactive .backup }

section Replaced

omit [CFloat F]

variable {s : System F} {i a : ℕ} {r r' : Request F}

/-- The counters after the request at position `i` is replaced. -/
theorem heldOn_set (u : Upstream F) (r' : Request F)
    (hi : s.requests[i]? = some r) (j : ℕ) :
    heldOn { upstream := u, requests := s.requests.set i r' } j =
      heldOn s j - r.held.count (Tier.primary, j) +
        r'.held.count (Tier.primary, j) :=
  sum_map_set _ r' hi

theorem heldTotal_set (u : Upstream F) (r' : Request F)
    (hi : s.requests[i]? = some r) :
    heldTotal { upstream := u, requests := s.requests.set i r' } =
      heldTotal s - r.held.length + r'.held.length :=
  sum_map_set _ r' hi

theorem held_set_same (u : Upstream F) (hi : s.requests[i]? = some r)
    (hheld : r'.held = r.held) :
    (∀ j, heldOn { upstream := u, requests := s.requests.set i r' } j =
      heldOn s j) ∧
    heldTotal { upstream := u, requests := s.requests.set i r' } =
      heldTotal s := by
  refine ⟨fun j => ?_, ?_⟩
  · rw [heldOn_set u r' hi, hheld]
    ring
  · rw [heldTotal_set u r' hi, hheld]
    ring

theorem count_singleton_primary (a j : ℕ) :
    ([(Tier.primary, a)].count (Tier.primary, j) : ℤ) =
      if j = a then 1 else 0 := by
  by_cases hj : j = a
  · simp [hj]
  · simp [hj, Ne.symm hj]

theorem held_set_push (u : Upstream F) (hi : s.requests[i]? = some r)
    (hheld : r'.held = r.held ++ [(Tier.primary, a)]) :
    (∀ j, heldOn { upstream := u, requests := s.requests.set i r' } j =
      heldOn s j + if j = a then 1 else 0) ∧
    heldTotal { upstream := u, requests := s.requests.set i r' } =
      heldTotal s + 1 := by
  refine ⟨fun j => ?_, ?_⟩
  · rw [heldOn_set u r' hi, hheld, List.count_append, Nat.cast_add,
      count_singleton_primary]
    ring
  · rw [heldTotal_set u r' hi, hheld, List.length_append,
      List.length_singleton]
    push_cast
    ring

/-- The last held attempt, on the peer at position `a`, is no longer held. -/
theorem held_set_pop (u : Upstream F) (hi : s.requests[i]? = some r)
    (hheld : r.held = r'.held ++ [(Tier.primary, a)]) :
    (∀ j, heldOn { upstream := u, requests := s.requests.set i r' } j =
      heldOn s j - if j = a then 1 else 0) ∧
    heldTotal { upstream := u, requests := s.requests.set i r' } =
      heldTotal s - 1 := by
  refine ⟨fun j => ?_, ?_⟩
  · rw [heldOn_set u r' hi, hheld, List.count_append, Nat.cast_add,
      count_singleton_primary]
    ring
  · rw [heldTotal_set u r' hi, hheld, List.length_append,
      List.length_singleton]
    push_cast
    ring

end Replaced

theorem Accounted.arrive {s : System F} (conf : UpstreamConf) (tp : NgxTime)
    (h : Accounted s) :
    Accounted
      { s with
        requests := s.requests ++
          [ngxHttpUpstreamInitRequest conf.nextUpstreamTries s.upstream tp] } where
  versionAt := h.versionAt
  record := by
    intro r hr
    rcases List.mem_append.mp hr with hr | hr
    · exact h.record r hr
    · rw [List.mem_singleton.mp hr]
      rfl
  current := by
    intro r hr
    rcases List.mem_append.mp hr with hr | hr
    · exact h.current r hr
    · rw [List.mem_singleton.mp hr]
      rfl
  attempts := by
    intro r hr x hx
    rcases List.mem_append.mp hr with hr | hr
    · exact h.attempts r hr x hx
    · rw [List.mem_singleton.mp hr] at hx
      cases hx
  versions := by
    intro i
    rw [h.versions i]
    simp [heldOn, Request.held, ngxHttpUpstreamInitRequest]
  primary := by
    rw [h.primary]
    simp [heldTotal, Request.held, ngxHttpUpstreamInitRequest]
  backup := h.backup

theorem Accounted.dispatch {s : System F} {i : ℕ} {r r' : Request F}
    {tp : NgxTime} {u : Upstream F} (h : Accounted s)
    (hi : s.requests[i]? = some r) (hr : r.logged = false)
    (hget : ngxHttpUpstreamGetRoundRobinPeer s.upstream r tp =
      .ok (.ok, u, r')) :
    Accounted { upstream := u, requests := s.requests.set i r' } := by
  obtain ⟨j, a, hver, hversionAt, hself, hother, hactive, hframe, hdata, -,
    hversion, hlogged, hattempts⟩ := dispatch_spec hget
  have hmem := List.mem_of_getElem? hi
  have hrecord := h.record r hmem
  rw [hrecord] at hver hself hother hdata hattempts
  obtain ⟨-, rfl⟩ := h.versionAt _ _ _ hver
  have hheld : r'.held = r.held ++ [(Tier.primary, a)] := by
    simp [Request.held, hlogged, hr, hattempts]
  obtain ⟨hon, htotal⟩ := held_set_push u hi hheld
  refine
    { versionAt := by rw [hversionAt]; exact h.versionAt
      record := forall_mem_set h.record hdata
      current := forall_mem_set h.current (by simp [hversion, hattempts])
      attempts := forall_mem_set (by rw [hversionAt]; exact h.attempts) ?_
      versions := ?_
      primary := by rw [htotal, hself, h.primary]
      backup := by rw [hother .backup (by decide)]; exact h.backup }
  · intro x hx
    rw [hattempts] at hx
    rw [hversionAt]
    rcases List.mem_append.mp hx with hx | hx
    · exact h.attempts r hmem x hx
    · rw [List.mem_singleton.mp hx]
      exact ⟨rfl, hver⟩
  · intro b
    rw [hon b, ← h.versions b]
    by_cases hb : b = a
    · subst hb
      rw [hactive, if_pos rfl]
    · rw [hframe b hb, if_neg hb, add_zero]

omit [CFloat F] in
theorem Accounted.release {s : System F} {i state : ℕ} {r r' : Request F}
    {tp : NgxTime} {u : Upstream F} (h : Accounted s) (tries : ℕ)
    (hi : s.requests[i]? = some r)
    (hrel : releaseHeld s.upstream r state tp = .ok (u, r')) :
    Accounted
      { upstream := u
        requests := s.requests.set i { r' with tries := tries } } := by
  obtain ⟨hversions, hversionAt, hactive, hr'⟩ := releaseHeld_spec hrel
  have hmem := List.mem_of_getElem? hi
  have hheld : ({ r' with tries := tries } : Request F).held = r.held := by
    rw [hr']
    rfl
  obtain ⟨hon, htotal⟩ := held_set_same u hi hheld
  refine
    { versionAt := by rw [hversionAt]; exact h.versionAt
      record := forall_mem_set h.record ?_
      current := forall_mem_set h.current ?_
      attempts := forall_mem_set (by rw [hversionAt]; exact h.attempts) ?_
      versions := fun b => by rw [hon b, hversions]; exact h.versions b
      primary := by rw [htotal, hactive]; exact h.primary
      backup := by rw [hactive]; exact h.backup }
  · rw [hr']
    exact h.record r hmem
  · rw [hr']
    exact h.current r hmem
  · rw [hr', hversionAt]
    exact h.attempts r hmem

omit [CFloat F] in
theorem Accounted.last_attempt {s : System F} (h : Accounted s)
    {r : Request F} (hmem : r ∈ s.requests) {a : ℕ}
    (hver : r.version = some a) :
    r.attempts.dropLast ++ [(Tier.primary, a)] = r.attempts := by
  have hcurrent := h.current r hmem
  rw [hver] at hcurrent
  obtain ⟨x, hx, hxa⟩ := Option.map_eq_some_iff.mp hcurrent.symm
  have hxeq : x = (Tier.primary, a) :=
    Prod.ext (h.attempts r hmem x (List.mem_of_getLast? hx)).1 hxa
  rw [hxeq] at hx
  exact List.dropLast_append_getLast? _ hx

theorem Accounted.complete {s : System F} {i : ℕ} {r : Request F}
    {tp : NgxTime} {u : Upstream F} {t : Text} (h : Accounted s)
    (hi : s.requests[i]? = some r) (hr : r.logged = false)
    (hlog : ngxHttpLogRequestTime tp s.upstream r = .ok (u, t)) :
    Accounted
      { upstream := u
        requests := s.requests.set i { r with logged := true } } := by
  have hmem := List.mem_of_getElem? hi
  have hrecord := h.record r hmem
  rcases logRequestTime_spec hlog with ⟨hver, rfl⟩ |
    ⟨a, v, m, hver, hcomplete, hversions, hversionAt, hself, hother⟩
  · have hnil : r.attempts = [] := by
      have hcurrent := h.current r hmem
      rw [hver] at hcurrent
      simpa using hcurrent.symm
    have hheld : ({ r with logged := true } : Request F).held = r.held := by
      simp [Request.held, hnil]
    obtain ⟨hon, htotal⟩ := held_set_same s.upstream hi hheld
    exact
      { versionAt := h.versionAt
        record := forall_mem_set h.record hrecord
        current := forall_mem_set h.current (h.current r hmem)
        attempts := forall_mem_set h.attempts (h.attempts r hmem)
        versions := fun b => by rw [hon b]; exact h.versions b
        primary := by rw [htotal]; exact h.primary
        backup := h.backup }
  · obtain ⟨hactive, -⟩ := completeVersion_ok hcomplete
    rw [hrecord] at hself hother
    have hheld : r.held = ({ r with logged := true } : Request F).held ++
        [(Tier.primary, a)] := by
      simp [Request.held, hr, h.last_attempt hmem hver]
    obtain ⟨hon, htotal⟩ := held_set_pop u hi hheld
    refine
      { versionAt := by rw [hversionAt]; exact h.versionAt
        record := forall_mem_set h.record hrecord
        current := forall_mem_set h.current (h.current r hmem)
        attempts := forall_mem_set (by rw [hversionAt]; exact h.attempts)
          (by rw [hversionAt]; exact h.attempts r hmem)
        versions := fun b => ?_
        primary := by rw [htotal, hself, h.primary]
        backup := by rw [hother .backup (by decide)]; exact h.backup }
    rw [hon b, hversions, ← h.versions b]
    by_cases hb : b = a
    · subst hb
      rw [Function.update_self, hactive, if_pos rfl]
    · rw [Function.update_of_ne hb, if_neg hb, sub_zero]

theorem Accounted.change {conf : UpstreamConf} {s s' : System F}
    (h : Accounted s) (hc : Change conf s s') : Accounted s' := by
  cases hc with
  | arrive tp => exact h.arrive conf tp
  | dispatch hi hr hget => exact h.dispatch hi hr hget
  | release tries hi _ hrel => exact h.release tries hi hrel
  | complete hi hr hlog => exact h.complete hi hr hlog

/-- In every run the counters count the held attempts. -/
theorem reachable_accounted {conf : UpstreamConf}
    {ok : System F → Event → Prop} {s : System F}
    (h : Reachable conf ok s) : Accounted s :=
  h.change_invariant accounted_initial fun _ _ hs hc => hs.change hc

/-! ## When the counters are conserved -/

/-- The attempts that were given up, on a primary peer. -/
def leakedOn (s : System F) (i : ℕ) : ℤ :=
  (s.requests.map fun r =>
    (r.attempts.dropLast.count (Tier.primary, i) : ℤ)).sum

omit [CFloat F] in
theorem Request.held_count (r : Request F) (x : Tier × ℕ) :
    (r.held.count x : ℤ) =
      (if !r.logged && r.attempts.getLast? == some x then 1 else 0) +
        r.attempts.dropLast.count x := by
  cases hlogged : r.logged with
  | true => simp [Request.held, hlogged]
  | false =>
      cases hlast : r.attempts.getLast? with
      | none =>
          have hnil : r.attempts = [] := by simpa using hlast
          simp [Request.held, hlogged, hnil]
      | some y =>
          have hsplit := List.dropLast_append_getLast? y hlast
          have hcount : r.attempts.count x =
              r.attempts.dropLast.count x + [y].count x := by
            rw [← List.count_append, hsplit]
          rw [Request.held, hlogged, if_neg (by decide), hcount,
            List.count_singleton]
          by_cases hxy : y = x
          · simp [hxy]
            omega
          · simp [hxy]

omit [CFloat F] in
/-- A counter exceeds the number of requests on the peer by the attempts that
were given up there. -/
theorem heldOn_eq (s : System F) (i : ℕ) :
    heldOn s i = onPeer s .primary i + leakedOn s i :=
  sum_map_eq_countP_add fun r _ => r.held_count (Tier.primary, i)

omit [CFloat F] in
theorem leakedOn_pos_of_mem {s : System F} {r : Request F} {i : ℕ}
    (hr : r ∈ s.requests) (hi : (Tier.primary, i) ∈ r.attempts.dropLast) :
    0 < leakedOn s i := by
  have hle := List.single_le_sum (l := s.requests.map fun r =>
    (r.attempts.dropLast.count (Tier.primary, i) : ℤ)) (by simp) _
    (List.mem_map_of_mem hr)
  have hpos : 0 < r.attempts.dropLast.count (Tier.primary, i) :=
    List.count_pos_iff.mpr hi
  unfold leakedOn
  omega

omit [CFloat F] in
theorem leakedOn_eq_zero {s : System F}
    (h : ∀ r ∈ s.requests, r.attempts.length ≤ 1) (i : ℕ) :
    leakedOn s i = 0 := by
  refine List.sum_eq_zero fun n hn => ?_
  obtain ⟨r, hr, rfl⟩ := List.mem_map.mp hn
  have hnil : r.attempts.dropLast = [] := by
    rw [← List.length_eq_zero_iff, List.length_dropLast]
    have := h r hr
    omega
  simp [hnil]

omit [CFloat F] in
theorem Request.mem_attempts_of_held {r : Request F} {x : Tier × ℕ}
    (h : x ∈ r.held) : x ∈ r.attempts := by
  unfold Request.held at h
  split at h
  · exact (List.dropLast_sublist _).mem h
  · exact h

omit [CFloat F] in
/-- Every attempt is on a position of the primary list. -/
theorem Accounted.held_lt {s : System F} (h : Accounted s) {r : Request F}
    (hr : r ∈ s.requests) :
    ∀ x ∈ r.held, x.1 = .primary ∧ x.2 < s.upstream.primary.peer.length := by
  intro x hx
  obtain ⟨hprimary, hver⟩ := h.attempts r hr x (r.mem_attempts_of_held hx)
  refine ⟨hprimary, ?_⟩
  obtain ⟨ps, hps, hver⟩ := Option.bind_eq_some_iff.mp hver
  obtain ⟨p, hp, -⟩ := Option.bind_eq_some_iff.mp hver
  obtain rfl := Option.some.inj hps
  exact (List.getElem?_eq_some_iff.mp hp).1

omit [CFloat F] in
/-- The counter of the primary list is the sum of the counters of its peers. -/
theorem Accounted.heldTotal_eq {s : System F} (h : Accounted s) :
    heldTotal s = ((List.range s.upstream.primary.peer.length).map
      (heldOn s)).sum := by
  unfold heldTotal heldOn
  rw [← sum_map_sum_comm]
  refine congrArg List.sum (List.map_congr_left fun r hr => ?_)
  exact length_eq_sum_count (h.held_lt hr)

omit [CFloat F] in
theorem Accounted.onPeer_backup {s : System F} (h : Accounted s) (i : ℕ) :
    onPeer s .backup i = 0 := by
  refine List.countP_eq_zero.mpr fun r hr hon => ?_
  simp only [Bool.and_eq_true, beq_iff_eq] at hon
  have hmem := List.mem_of_getLast? hon.2
  cases (h.attempts r hr _ hmem).1

omit [CFloat F] in
/-- When no attempt was given up, the counters are as they should be. -/
theorem Accounted.conserved {s : System F} (h : Accounted s)
    (hone : ∀ r ∈ s.requests, r.attempts.length ≤ 1) : Conserved s := by
  have hon : ∀ i, heldOn s i = onPeer s .primary i := by
    intro i
    rw [heldOn_eq, leakedOn_eq_zero hone, add_zero]
  have hversion : ∀ t i a, s.upstream.versionAt t i = some a →
      (s.upstream.versions a).activeReq = onPeer s t i := by
    intro t i a ha
    obtain ⟨rfl, rfl⟩ := h.versionAt t i a ha
    rw [h.versions, hon]
  have hpeers : ∀ t ps, s.upstream.tier t = some ps → ps.activeReq =
      ((List.range ps.peer.length).map fun i => (onPeer s t i : ℤ)).sum := by
    intro t ps ht
    cases t with
    | primary =>
        obtain rfl := Option.some.inj ht
        have hactive := h.primary
        rw [h.heldTotal_eq, List.map_congr_left fun i _ => hon i] at hactive
        exact hactive
    | backup =>
        have hactive := h.backup
        rw [activeAt_of_tier ht] at hactive
        simp [hactive, h.onPeer_backup]
  refine
    { version := hversion
      peers := hpeers
      idle := ?_
      nonneg := ?_ }
  · intro hall
    have hzero : ∀ t i, onPeer s t i = 0 := by
      intro t i
      refine List.countP_eq_zero.mpr fun r hr => ?_
      simp [hall r hr]
    refine ⟨fun t i a ha => ?_, fun t ps ht => ?_⟩
    · rw [hversion t i a ha, hzero]
      rfl
    · rw [hpeers t ps ht]
      simp [hzero]
  · refine ⟨fun t i a ha => ?_, fun t ps ht => ?_⟩
    · rw [hversion t i a ha]
      exact Int.natCast_nonneg _
    · rw [hpeers t ps ht]
      refine List.sum_nonneg fun n hn => ?_
      obtain ⟨i, -, rfl⟩ := List.mem_map.mp hn
      exact Int.natCast_nonneg _

omit [CFloat F] in
/-- An attempt that was given up is counted for ever. -/
theorem Accounted.length_le_one {s : System F} (h : Accounted s)
    (hs : Conserved s) : ∀ r ∈ s.requests, r.attempts.length ≤ 1 := by
  intro r hr
  by_contra hlong
  have hne : r.attempts.dropLast ≠ [] := by
    rw [Ne, ← List.length_eq_zero_iff, List.length_dropLast]
    omega
  obtain ⟨x, hx⟩ := List.exists_mem_of_ne_nil _ hne
  obtain ⟨hprimary, hver⟩ := h.attempts r hr x ((List.dropLast_sublist _).mem hx)
  have hleak : 0 < leakedOn s x.2 := by
    refine leakedOn_pos_of_mem hr ?_
    rwa [← hprimary]
  have hcount := hs.version _ _ _ hver
  rw [h.versions, heldOn_eq] at hcount
  omega

/-- The event does not take the branch of `ngx_http_upstream_next` that makes
another attempt. -/
def NoRetry (conf : UpstreamConf) (s : System F) : Event → Prop
  | .next i ctx tp => ∀ r u' r', s.requests[i]? = some r →
      releaseHeld s.upstream r (nextState ctx) tp = .ok (u', r') →
      retries conf ctx (nextTries ctx r') = false
  | _ => True

/-- Without retries no request makes a second attempt. -/
theorem length_le_one_of_noRetry {conf : UpstreamConf} {s : System F}
    (h : Reachable conf (NoRetry conf) s) :
    ∀ r ∈ s.requests, r.attempts.length ≤ 1 := by
  have hinit : ∀ s : System F, Initial s →
      ∀ r ∈ s.requests, r.attempts.length ≤ 1 := by
    intro s hs
    simp [hs.2]
  refine Reach.invariant hinit ?_ h
  intro s e s' _ hs hok hstep r' hr'
  cases step_attempts hstep r' hr' with
  | none hnil =>
      rw [hnil]
      exact Nat.zero_le 1
  | same hr hsame =>
      rw [hsame]
      exact hs _ hr
  | first hone =>
      rw [hone]
      exact le_rfl
  | retry hi hrel hretry =>
      rw [hok _ _ _ hi hrel] at hretry
      cases hretry

/-- Active requests are conserved in every run in which
`ngx_http_upstream_next` makes no further attempt; and in any run they are
conserved exactly while no request has made a second attempt. -/
theorem active_requests_conserved (conf : UpstreamConf) :
    (∀ s : System F, Reachable conf (NoRetry conf) s → Conserved s) ∧
      ∀ s : System F, Reachable conf Reachable.any s →
        (Conserved s ↔ ∀ r ∈ s.requests, r.attempts.length ≤ 1) := by
  constructor
  · intro s hs
    exact (reachable_accounted hs).conserved (length_le_one_of_noRetry hs)
  · intro s hs
    have hacc := reachable_accounted hs
    exact ⟨hacc.length_le_one, hacc.conserved⟩

/-- One request on a heavy and a light server, from its arrival to its
completion. -/
theorem active_requests_conserved_one :
    ∃ s : System RatFloat,
      run errorConf heavyLight [.arrive (NgxTime.ofSec 1),
        .connect 0 (NgxTime.ofSec 1), .complete 0 (NgxTime.ofSec 2)] = .ok s ∧
      Conserved s := by
  obtain ⟨s, hrun, hs⟩ := @runs_iff RatFloat _ errorConf heavyLight
    [.arrive (NgxTime.ofSec 1), .connect 0 (NgxTime.ofSec 1),
      .complete 0 (NgxTime.ofSec 2)]
    (fun s => s.requests.all fun r => decide (r.attempts.length ≤ 1)) |>.mp
    (by decide +kernel)
  refine ⟨s, hrun, ?_⟩
  refine ((active_requests_conserved errorConf).2 s
    (run_reachable (.init heavyLight_initial) hrun)).mpr ?_
  simpa using hs

/-- A failed attempt on the heavy server is repeated on the light one: the
heavy version keeps counting it, although no request is on it. -/
theorem active_requests_not_conserved_failover :
    ∃ s : System RatFloat,
      run errorConf heavyLight [.arrive (NgxTime.ofSec 1),
        .connect 0 (NgxTime.ofSec 1), .next 0 errorContext (NgxTime.ofSec 1)] =
          .ok s ∧
      s.upstream.versionAt .primary 0 = some 0 ∧
      (s.upstream.versions 0).activeReq = 1 ∧ onPeer s .primary 0 = 0 ∧
      ¬Conserved s := by
  obtain ⟨s, hrun, hs⟩ := @runs_iff RatFloat _ errorConf heavyLight
    [.arrive (NgxTime.ofSec 1), .connect 0 (NgxTime.ofSec 1),
      .next 0 errorContext (NgxTime.ofSec 1)]
    (fun s => decide (s.upstream.versionAt .primary 0 = some 0 ∧
      (s.upstream.versions 0).activeReq = 1 ∧ onPeer s .primary 0 = 0)) |>.mp
    (by decide +kernel)
  obtain ⟨hver, hactive, hon⟩ := of_decide_eq_true hs
  refine ⟨s, hrun, hver, hactive, hon, ?_⟩
  intro hc
  have hcount := hc.version _ _ _ hver
  rw [hactive, hon] at hcount
  cases hcount

end MultiversionBalancer
