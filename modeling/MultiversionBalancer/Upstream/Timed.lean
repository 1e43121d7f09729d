import MultiversionBalancer.Upstream.System

/-!
# Runs under a clock

`Timed` runs are runs under a clock that never goes back, whose events meet a
guard.  `Keeps` collects what an event may do to an invariant at its time; a
completion may use the guard.
-/

namespace MultiversionBalancer

open Lib

/-- The cached time in milliseconds. -/
def NgxTime.ms (tp : NgxTime) : ℤ := 1000 * tp.sec + tp.msec

def Event.time : Event → NgxTime
  | .arrive tp => tp
  | .connect _ tp => tp
  | .next _ _ tp => tp
  | .finalize _ tp => tp
  | .complete _ tp => tp

variable {F : Type} [CFloat F]

/-- The states of runs under a clock that never goes back, with the time of
their last event; all events meet the guard. -/
abbrev Timed (conf : UpstreamConf) (ok : System F → Event → Prop) :
    ℤ × System F → Prop :=
  Reach (fun x => x.1 = 0 ∧ Initial x.2)
    (fun x e => x.1 ≤ e.time.ms ∧ ok x.2 e)
    fun x e y => y.1 = e.time.ms ∧ step conf x.2 e = .ok y.2

/-- What the changes of an event at the time `tp` keep.  A completion of the
request at a position may rely on the guard there. -/
structure Keeps (conf : UpstreamConf) (tp : NgxTime)
    (guard : System F → ℕ → Prop) (inv : System F → Prop) : Prop where
  arrive : ∀ s, inv s →
    inv { s with
      requests := s.requests ++
        [ngxHttpUpstreamInitRequest conf.nextUpstreamTries s.upstream tp] }
  dispatch : ∀ (s : System F) (i : ℕ) (r r' : Request F) (u : Upstream F),
    inv s → s.requests[i]? = some r → r.logged = false →
    ngxHttpUpstreamGetRoundRobinPeer s.upstream r tp = .ok (.ok, u, r') →
    inv { upstream := u, requests := s.requests.set i r' }
  release : ∀ (s : System F) (i : ℕ) (r r' : Request F) (u : Upstream F)
    (state tries : ℕ), inv s → s.requests[i]? = some r → r.logged = false →
    releaseHeld s.upstream r state tp = .ok (u, r') →
    inv { upstream := u
          requests := s.requests.set i { r' with tries := tries } }
  complete : ∀ (s : System F) (i : ℕ) (r : Request F) (u : Upstream F)
    (t : Text), inv s → guard s i → s.requests[i]? = some r →
    r.logged = false → ngxHttpLogRequestTime tp s.upstream r = .ok (u, t) →
    inv { upstream := u
          requests := s.requests.set i { r with logged := true } }
  guard_release : ∀ (s : System F) (i : ℕ) (r r' : Request F)
    (u : Upstream F), guard s i → s.requests[i]? = some r →
    releaseHeld s.upstream r 0 tp = .ok (u, r') →
    guard { upstream := u, requests := s.requests.set i r' } i

theorem Keeps.step {conf : UpstreamConf} {e : Event}
    {guard : System F → ℕ → Prop} {inv : System F → Prop}
    (h : Keeps conf e.time guard inv) {s s' : System F} (hs : inv s)
    (hguard : ∀ i tp, e = .complete i tp → guard s i)
    (hstep : step conf s e = .ok s') : inv s' := by
  have hconnect : ∀ (s : System F) (i : ℕ) (r : Request F), inv s →
      s.requests[i]? = some r → r.logged = false →
      ngxHttpUpstreamConnect s i r e.time = .ok s' → inv s' := by
    intro s i r hs hi hr h₁
    obtain ⟨⟨res, u, r'⟩, hget, h₁⟩ := Except.bind_eq_ok.mp h₁
    obtain rfl := Except.ok.inj h₁
    obtain ⟨rfl, -⟩ := getRoundRobinPeer_ok hget
    exact h.dispatch s i r r' u hs hi hr hget
  cases step_cases hstep with
  | arrive tp => exact h.arrive s hs
  | connect hi hr hfirst h₁ => exact hconnect s _ _ hs hi hr h₁
  | @next i r ctx tp _ hi hr hheld h₁ =>
      obtain ⟨⟨u, r₁⟩, hrel, h₁⟩ := Except.bind_eq_ok.mp h₁
      have hlogged := (releaseHeld_logged hrel).trans hr
      have hreleased := h.release s i r r₁ u _ (nextTries ctx r₁) hs hi hr hrel
      dsimp only at h₁
      split at h₁
      · exact hconnect _ _ _ hreleased (getElem?_set_of_some _ hi) hlogged h₁
      · obtain rfl := Except.ok.inj h₁
        exact hreleased
  | @finalize i r r' tp u hi hr hrel =>
      exact h.release s i r r' u 0 r'.tries hs hi hr hrel
  | complete hi hr h₁ =>
      obtain ⟨⟨u, r₁⟩, hrel, h₁⟩ := Except.bind_eq_ok.mp h₁
      obtain ⟨⟨u', t⟩, hlog, h₁⟩ := Except.bind_eq_ok.mp h₁
      obtain rfl := Except.ok.inj h₁
      have hlogged := (releaseHeld_logged hrel).trans hr
      have hreleased := h.release s _ _ r₁ u 0 r₁.tries hs hi hr hrel
      have hg := h.guard_release s _ _ r₁ u (hguard _ _ rfl) hi hrel
      have hdone := h.complete _ _ r₁ u' t hreleased hg
        (getElem?_set_of_some _ hi) hlogged hlog
      rwa [List.set_set] at hdone

/-- An invariant that may depend on the time holds in every timed run, if it
lasts while time passes and every event keeps it. -/
theorem Timed.invariant {conf : UpstreamConf} {ok : System F → Event → Prop}
    {guard : NgxTime → System F → ℕ → Prop} {inv : ℤ → System F → Prop}
    (hinit : ∀ s, Initial s → inv 0 s)
    (hlater : ∀ t t' s, t ≤ t' → inv t s → inv t' s)
    (hguard : ∀ s i tp, ok s (.complete i tp) → guard tp s i)
    (hkeeps : ∀ tp, Keeps conf tp (guard tp) (inv tp.ms))
    {x : ℤ × System F} (h : Timed conf ok x) : inv x.1 x.2 := by
  refine @Reach.invariant _ _ _ _ _ (fun x => inv x.1 x.2) ?_ ?_ x h
  · rintro ⟨t, s⟩ ⟨rfl, hs⟩
    exact hinit s hs
  · rintro ⟨t, s⟩ e ⟨t', s'⟩ - hs ⟨hle, hok⟩ ⟨ht, hstep⟩
    obtain rfl : t' = e.time.ms := ht
    refine (hkeeps e.time).step (hlater t _ s hle hs) ?_ hstep
    rintro i tp rfl
    exact hguard s i tp hok

/-- A list of events whose times do not go back and that meet the guard in
every state. -/
theorem Timed.run {conf : UpstreamConf} {ok : System F → Event → Prop}
    {es : List Event} {t : ℤ} {s s' : System F} (h : Timed conf ok (t, s))
    (htimes : List.IsChain (· ≤ ·) (t :: es.map fun e => e.time.ms))
    (hok : ∀ e ∈ es, ∀ s, ok s e) (hrun : run conf s es = .ok s') :
    Timed conf ok ((es.map fun e => e.time.ms).getLastD t, s') := by
  induction es generalizing t s with
  | nil =>
      obtain rfl := Except.ok.inj hrun
      exact h
  | cons e es ih =>
      obtain ⟨s₁, hstep, hrest⟩ := Except.bind_eq_ok.mp hrun
      rw [List.map_cons, List.isChain_cons_cons] at htimes
      have hnext : Timed conf ok (e.time.ms, s₁) :=
        .step h ⟨htimes.1, hok e List.mem_cons_self s⟩ ⟨rfl, hstep⟩
      have hlast := ih hnext htimes.2
        (fun e he => hok e (List.mem_cons_of_mem _ he)) hrest
      rwa [List.map_cons, List.getLastD_cons]

end MultiversionBalancer
