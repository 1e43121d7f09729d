import MultiversionBalancer.Upstream.Accounting

/-!
# Retries of a request

The selection loop skips the peers whose bit in `tried` is set, but nothing
ever sets a bit: the bitmap of a request stays zero in every run.  A later
attempt avoids the peers of the earlier ones only as far as these are
ineligible for another reason.
-/

namespace MultiversionBalancer

open Lib

variable {F : Type} [CFloat F]

/-- The bit of the peer at position `i`. -/
def Request.triedBit (r : Request F) (i : ℕ) : Bool :=
  (r.data.tried.getD (i / 64) 0).getLsbD (i % 64)

/-- The bits of a request are set for exactly the peers it has selected from
its list, and no peer was selected twice. -/
structure RetryExclusion (u : Upstream F) (r : Request F) : Prop where
  triedBit_iff : ∀ ps i, u.tier r.data.peers = some ps → i < ps.peer.length →
    (r.triedBit i = true ↔ (r.data.peers, i) ∈ r.attempts)
  nodup : r.attempts.Nodup

def BitsClear (s : System F) : Prop :=
  ∀ r ∈ s.requests, ∀ w ∈ r.data.tried, w = 0

omit [CFloat F] in
theorem triedBit_eq_false {r : Request F} (h : ∀ w ∈ r.data.tried, w = 0)
    (i : ℕ) : r.triedBit i = false := by
  unfold Request.triedBit
  rw [List.getD_eq_getElem?_getD]
  cases hw : r.data.tried[i / 64]? with
  | none => simp
  | some w =>
      rw [h w (List.mem_of_getElem? hw)]
      simp

theorem BitsClear.change {conf : UpstreamConf} {s s' : System F}
    (h : BitsClear s) (hc : Change conf s s') : BitsClear s' := by
  cases hc with
  | arrive tp =>
      intro r hr w hw
      rcases List.mem_append.mp hr with hr | hr
      · exact h r hr w hw
      · rw [List.mem_singleton.mp hr] at hw
        exact List.eq_of_mem_replicate hw
  | dispatch hi _ hget =>
      obtain ⟨j, a, -, -, -, -, -, -, -, htried, -⟩ := dispatch_spec hget
      refine forall_mem_set h ?_
      rw [htried]
      exact h _ (List.mem_of_getElem? hi)
  | release tries hi _ hrel =>
      obtain ⟨-, -, -, hr'⟩ := releaseHeld_spec hrel
      have hold := h _ (List.mem_of_getElem? hi)
      refine forall_mem_set h ?_
      rw [hr']
      exact hold
  | complete hi _ _ =>
      have hold := h _ (List.mem_of_getElem? hi)
      exact forall_mem_set h hold

theorem reachable_bitsClear {conf : UpstreamConf}
    {ok : System F → Event → Prop} {s : System F}
    (h : Reachable conf ok s) : BitsClear s := by
  refine h.change_invariant ?_ fun _ _ hs hc => hs.change hc
  intro s hs
  simp [BitsClear, hs.2]

omit [CFloat F] in
/-- A clear bitmap is right only before the first selection. -/
theorem retryExclusion_iff {s : System F} (hacc : Accounted s)
    (hclear : BitsClear s) {r : Request F} (hr : r ∈ s.requests) :
    RetryExclusion s.upstream r ↔ r.attempts = [] := by
  have hbit := triedBit_eq_false (hclear r hr)
  constructor
  · intro h
    by_contra hne
    obtain ⟨x, hx⟩ := List.exists_mem_of_ne_nil _ hne
    obtain ⟨hprimary, hver⟩ := hacc.attempts r hr x hx
    have hrecord := hacc.record r hr
    obtain ⟨ps, hps, hver⟩ := Option.bind_eq_some_iff.mp hver
    obtain ⟨p, hp, -⟩ := Option.bind_eq_some_iff.mp hver
    have hlt := (List.getElem?_eq_some_iff.mp hp).1
    have hset := (h.triedBit_iff ps x.2 (by rw [hrecord]; exact hps) hlt).mpr
    have hmem : (r.data.peers, x.2) ∈ r.attempts := by
      rwa [hrecord, ← hprimary]
    rw [hbit] at hset
    cases hset hmem
  · intro hnil
    exact
      { triedBit_iff := fun ps i _ _ => by simp [hbit, hnil]
        nodup := by simp [hnil] }

/-! ## Runs in which earlier peers are out of reach -/

/-- When the event makes another attempt for a request, the peers of its
earlier attempts are ineligible. -/
def EarlierIneligible (conf : UpstreamConf) (s : System F) : Event → Prop
  | .next i ctx tp => ∀ r u' r', s.requests[i]? = some r →
      releaseHeld s.upstream r (nextState ctx) tp = .ok (u', r') →
      retries conf ctx (nextTries ctx r') = true →
      ∀ ps j p, (r.data.peers, j) ∈ r.attempts →
        u'.tier r.data.peers = some ps → ps.peer[j]? = some p →
        eligible r.data.tried tp.sec j p = false
  | _ => True

theorem attempts_nodup {conf : UpstreamConf} {s : System F}
    (h : Reachable conf (EarlierIneligible conf) s) :
    ∀ r ∈ s.requests, r.attempts.Nodup := by
  have hinit : ∀ s : System F, Initial s →
      ∀ r ∈ s.requests, r.attempts.Nodup := by
    intro s hs
    simp [hs.2]
  refine Reach.invariant hinit ?_ h
  intro s e s' _ hs hok hstep r' hr'
  cases step_attempts hstep r' hr' with
  | none hnil =>
      rw [hnil]
      exact List.nodup_nil
  | same hr hsame =>
      rw [hsame]
      exact hs _ hr
  | first hone =>
      rw [hone]
      exact List.nodup_singleton _
  | retry hi hrel hretry hps hp hel hnext =>
      rw [hnext]
      refine List.Nodup.append (hs _ (List.mem_of_getElem? hi))
        (List.nodup_singleton _) ?_
      rw [List.disjoint_singleton]
      intro hmem
      rw [hok _ _ _ hi hrel hretry _ _ _ hmem hps hp] at hel
      cases hel

/-- The bitmap of a request is right exactly as long as the request has
selected no peer.  Its attempts are on distinct peers in every run in which
the peers of its earlier attempts are ineligible whenever it makes another
one. -/
theorem retry_exclusion (conf : UpstreamConf) :
    (∀ s : System F, Reachable conf Reachable.any s → ∀ r ∈ s.requests,
      (RetryExclusion s.upstream r ↔ r.attempts = [])) ∧
    ∀ s : System F, Reachable conf (EarlierIneligible conf) s →
      ∀ r ∈ s.requests, r.attempts.Nodup := by
  constructor
  · intro s hs r hr
    exact retryExclusion_iff (reachable_accounted hs) (reachable_bitsClear hs)
      hr
  · intro s hs
    exact attempts_nodup hs

/-- A request that has arrived and selected no peer. -/
theorem retry_exclusion_arrived :
    ∃ s : System RatFloat,
      run errorConf heavyLight [.arrive (NgxTime.ofSec 1)] = .ok s ∧
      ∀ r ∈ s.requests, RetryExclusion s.upstream r := by
  obtain ⟨s, hrun, hs⟩ := @runs_iff RatFloat _ errorConf heavyLight
    [.arrive (NgxTime.ofSec 1)]
    (fun s => s.requests.all fun r => r.attempts.isEmpty) |>.mp
    (by decide +kernel)
  refine ⟨s, hrun, ?_⟩
  intro r hr
  have hreach := run_reachable (.init heavyLight_initial) hrun
  refine ((retry_exclusion errorConf).1 s hreach r hr).mpr ?_
  simpa using List.all_eq_true.mp hs r hr

/-- Retry when a server answers 404. -/
def notFoundConf : UpstreamConf where
  nextUpstream := ftHttp404
  nextUpstreamTries := 0

/-- A request whose server has answered 404 is sent to the same server
again. -/
theorem retry_not_excluded_notFound :
    ∃ s : System RatFloat,
      run notFoundConf heavyLight [.arrive (NgxTime.ofSec 1),
        .connect 0 (NgxTime.ofSec 1),
        .next 0 { errorContext with ftType := ftHttp404 } (NgxTime.ofSec 1)] =
          .ok s ∧
      s.upstream.primary.peer.length = 2 ∧
      ∃ r ∈ s.requests, r.attempts = [(.primary, 0), (.primary, 0)] ∧
        ¬RetryExclusion s.upstream r := by
  obtain ⟨s, hrun, hs⟩ := @runs_iff RatFloat _ notFoundConf heavyLight
    [.arrive (NgxTime.ofSec 1), .connect 0 (NgxTime.ofSec 1),
      .next 0 { errorContext with ftType := ftHttp404 } (NgxTime.ofSec 1)]
    (fun s => decide (s.upstream.primary.peer.length = 2) &&
      s.requests.any fun r =>
        decide (r.attempts = [(.primary, 0), (.primary, 0)])) |>.mp
    (by decide +kernel)
  obtain ⟨hlen, hany⟩ := Bool.and_eq_true_iff.mp hs
  obtain ⟨r, hr, hattempts⟩ := List.any_eq_true.mp hany
  refine ⟨s, hrun, of_decide_eq_true hlen, r, hr,
    of_decide_eq_true hattempts, ?_⟩
  intro h
  have hnodup := h.nodup
  rw [of_decide_eq_true hattempts] at hnodup
  exact absurd hnodup (by decide)

end MultiversionBalancer
