import MultiversionBalancer.Upstream.Linked
import MultiversionBalancer.Upstream.Roles

/-!
# Linked queues in runs

In every run every version has a linked queue, and the requests that wait at
it have live nodes there.  `LinkedWith P` says this together with a property
`P` of each version and its nodes.  The rules below reduce the four kinds of
changes to what an examination, a dispatch and a completion do to `P`.
-/

namespace MultiversionBalancer

open Lib

variable {F : Type}

/-- A property of a version, its address and its nodes. -/
abbrev NodesProperty (F : Type) := ℕ → VersionedServer F → QueueNodes → Prop

/-- The version has a linked queue with the property. -/
def VersionWith (P : NodesProperty F) (requests : List (Request F)) (a : ℕ)
    (v : VersionedServer F) : Prop :=
  ∃ ns, Linked v.activeReq v.queue ns ∧ NodesOf requests a ns ∧ P a v ns

/-- Every version has a linked queue with the property. -/
structure LinkedWith (P : NodesProperty F) (s : System F) : Prop where
  started : ∀ r ∈ s.requests, 0 ≤ r.startSec
  queue : ∀ a, VersionWith P s.requests a (s.upstream.versions a)

theorem LinkedWith.mono {P Q : NodesProperty F} {s : System F}
    (h : LinkedWith P s) (hPQ : ∀ a v ns, P a v ns → Q a v ns) :
    LinkedWith Q s where
  started := h.started
  queue := by
    intro a
    obtain ⟨ns, hlinked, hnodes, hP⟩ := h.queue a
    exact ⟨ns, hlinked, hnodes, hPQ _ _ _ hP⟩

variable [CFloat F]

/-- An examination keeps the property. -/
def KeptByExam (tp : NgxTime) (P : NodesProperty F) : Prop :=
  ∀ a pt v w ns ms, P a v ns → Linked v.activeReq v.queue ns →
    Examined tp pt v w → Linked w.activeReq w.queue ms → ms.Sublist ns →
    liveNodes ms = liveNodes ns → P a w ms

theorem linkedWith_initial {P : NodesProperty F} {s : System F}
    (h : Initial s) (hP : ∀ a, P a (s.upstream.versions a) []) :
    LinkedWith P s := by
  obtain ⟨⟨us, hus⟩, hnil⟩ := h
  obtain ⟨hinit, -⟩ := initRoundRobin_idle hus
  refine ⟨by simp [hnil], fun a => ⟨[], ?_, ?_, hP a⟩⟩
  · have hinv := (hinit a).queueInv
    exact hinv.linked
  · rw [hnil]
    exact ⟨by simp, by simp⟩

theorem LinkedWith.arrive {P : NodesProperty F} {s : System F}
    (conf : UpstreamConf) (tp : NgxTime) (h : LinkedWith P s) :
    LinkedWith P
      { s with
        requests := s.requests ++
          [ngxHttpUpstreamInitRequest conf.nextUpstreamTries s.upstream tp] } where
  started := by
    intro r hr
    rcases List.mem_append.mp hr with hr | hr
    · exact h.started r hr
    · rw [List.mem_singleton.mp hr]
      exact Int.natCast_nonneg tp.sec
  queue := by
    intro a
    obtain ⟨ns, hlinked, hnodes, hP⟩ := h.queue a
    refine ⟨ns, hlinked, hnodes.append_request ?_, hP⟩
    rintro ⟨-, hver⟩
    cases hver

omit [CFloat F] in
theorem LinkedWith.release {P : NodesProperty F} {s : System F} {i state : ℕ}
    {r r' : Request F} {tp : NgxTime} {u : Upstream F} (h : LinkedWith P s)
    (tries : ℕ) (hi : s.requests[i]? = some r)
    (hrel : releaseHeld s.upstream r state tp = .ok (u, r')) :
    LinkedWith P
      { upstream := u
        requests := s.requests.set i { r' with tries := tries } } := by
  obtain ⟨hversions, -, -, hr'⟩ := releaseHeld_spec hrel
  refine ⟨forall_mem_set h.started ?_, fun a => ?_⟩
  · rw [hr']
    exact h.started r (List.mem_of_getElem? hi)
  · obtain ⟨ns, hlinked, hnodes, hP⟩ := h.queue a
    dsimp only
    rw [hversions]
    refine ⟨ns, hlinked, hnodes.set_same hi ?_ ?_ ?_, hP⟩
    · rw [hr']
      exact id
    · rw [hr']
    · rw [hr']
      rfl

/-- An examination prunes the queue and keeps the live nodes. -/
theorem Linked.examined {tp : NgxTime} {pt : ℤ} {v w : VersionedServer F}
    {ns : QueueNodes} (h : Linked v.activeReq v.queue ns)
    (hexam : Examined tp pt v w) :
    ∃ ms, Linked w.activeReq w.queue ms ∧ ms.Sublist ns ∧
      liveNodes ms = liveNodes ns := by
  obtain ⟨load, hexam⟩ := hexam
  obtain ⟨q, hq, rfl⟩ := examineVersion_eq_ok hexam
  obtain ⟨ms, hms, hsub, hlive⟩ := h.refreshQueue hq
  exact ⟨ms, by simpa [accrueService] using hms, hsub, hlive⟩

theorem VersionWith.examined {P : NodesProperty F} {tp : NgxTime} {pt : ℤ}
    {requests : List (Request F)} {a : ℕ} {v w : VersionedServer F}
    (h : VersionWith P requests a v) (hP : KeptByExam tp P)
    (hexam : Relation.ReflTransGen (Examined tp pt) v w) :
    VersionWith P requests a w := by
  induction hexam with
  | refl => exact h
  | tail _ hlast ih =>
      obtain ⟨ns, hlinked, hnodes, hprop⟩ := ih
      obtain ⟨ms, hms, hsub, hlive⟩ := hlinked.examined hlast
      exact ⟨ms, hms, hnodes.congr_live hlive,
        hP _ _ _ _ _ _ hprop hlinked hlast hms hsub hlive⟩

/-- A dispatch appends the node of the request to the queue of one version,
which was examined just before.  `Q` is what becomes of the property. -/
theorem LinkedWith.dispatch {P : NodesProperty F} {s : System F} {i : ℕ}
    {r r' : Request F} {tp : NgxTime} {u : Upstream F} (h : LinkedWith P s)
    (hP : KeptByExam tp P) (hi : s.requests[i]? = some r)
    (hget : ngxHttpUpstreamGetRoundRobinPeer s.upstream r tp =
      .ok (.ok, u, r')) :
    ∃ a, r'.version = some a ∧ r'.logged = r.logged ∧
      ∀ Q : NodesProperty F,
        (∀ b, b ≠ a → ∀ v ns, P b v ns → Q b v ns) →
        (∀ pt v w v' load j ns, Examined tp pt v w →
          Linked w.activeReq w.queue ns → P a w ns →
          ngxHttpUpstreamBufferRequestData tp a (selectVersion tp load w)
            (r.take j) = .ok (v', r') → r'.node.live = true →
          Linked v'.activeReq v'.queue
            (ns ++ [(w.queue.nodes.fresh, r'.node)]) →
          Q a v' (ns ++ [(w.queue.nodes.fresh, r'.node)])) →
        LinkedWith Q
          { upstream := u, requests := s.requests.set i r' } := by
  obtain ⟨-, ps, j, p, a, ws, load, v', -, hp, hel, ha, hscan, rfl, hbuf⟩ :=
    getRoundRobinPeer_scanned hget
  obtain ⟨happend, hactive, -, -, hr'⟩ := bufferRequestData_ok hbuf
  have hmem := List.mem_of_getElem? hi
  obtain ⟨hlt, -⟩ := List.getElem?_eq_some_iff.mp hi
  have hversion : r'.version = some a := by rw [hr']
  refine ⟨a, hversion, by rw [hr']; rfl, fun Q hother hself => ?_⟩
  have hnot : ∀ b, b ≠ a → ¬r'.Waiting b := by
    rintro b hb ⟨-, hver⟩
    exact hb (Option.some.inj (hversion.symm.trans hver)).symm
  refine ⟨forall_mem_set h.started (by rw [hr']; exact h.started r hmem), ?_⟩
  refine (Function.forall_update_iff ws fun b w =>
    VersionWith Q (s.requests.set i r') b w).mpr ⟨?_, fun b hb => ?_⟩
  · obtain ⟨x, hfirst, hlast⟩ :=
      Relation.TransGen.tail'_iff.mp (hscan.each j p a hp hel ha)
    obtain ⟨ms, hms, hnodes, hprop⟩ :=
      (h.queue a).examined hP (hfirst.tail hlast)
    have hnode : r'.node = ⟨r.startSec, r.startMsec,
        (selectVersion tp load (ws a)).completedRequests +
          (selectVersion tp load (ws a)).activeReq⟩ := by
      rw [hr']
      rfl
    have hstart : 0 ≤ r.startSec := h.started r hmem
    have hlive : r'.node.live = true := by
      rw [hnode]
      simp only [ReqTime.live, bne_iff_ne, ne_eq]
      omega
    have happend' : appendNode r'.node (ws a).queue = .ok v'.queue := by
      rw [hnode]
      exact happend
    have hlinked := hms.appendNode hlive happend'
    have hactive' : (ws a).activeReq + 1 = v'.activeReq := hactive.symm
    rw [hactive'] at hlinked
    have henter : r'.enterTime = some (ws a).queue.nodes.fresh := by
      rw [hr']
      rfl
    refine ⟨_, hlinked, hnodes.enqueue hlt henter hlive ?_,
      hself _ x _ v' load j ms hlast hms hprop hbuf hlive hlinked⟩
    intro n hn
    exact Nat.ne_of_lt (hms.lt_fresh hn)
  · obtain ⟨ns, hlinked, hnodes, hprop⟩ :=
      (h.queue b).examined hP (hscan.all b)
    exact ⟨ns, hlinked, hnodes.set_other i (hnot b hb),
      hother b hb _ ns hprop⟩

/-- A completion takes the node of the request out of the live nodes of its
version; a request without a version changes nothing. -/
theorem LinkedWith.complete {P Q : NodesProperty F} {s : System F} {i : ℕ}
    {r : Request F} {tp : NgxTime} {u : Upstream F} {t : Text}
    (h : LinkedWith P s) (hi : s.requests[i]? = some r)
    (hr : r.logged = false)
    (hlog : ngxHttpLogRequestTime tp s.upstream r = .ok (u, t))
    (hother : ∀ b, r.version ≠ some b → ∀ v ns, P b v ns → Q b v ns)
    (hself : ∀ a v' m b pre post ms, r.version = some a →
      completeVersion tp r (s.upstream.versions a) = .ok (v', m) →
      r.enterTime = some b → r.node.live = true →
      Linked (s.upstream.versions a).activeReq (s.upstream.versions a).queue
        (pre ++ (b, r.node) :: post) →
      P a (s.upstream.versions a) (pre ++ (b, r.node) :: post) →
      Linked v'.activeReq v'.queue ms →
      (numbers ms).Sublist (numbers (pre ++ (b, r.node) :: post)) →
      liveNodes ms = liveNodes pre ++ liveNodes post → Q a v' ms) :
    LinkedWith Q
      { upstream := u
        requests := s.requests.set i { r with logged := true } } := by
  have hnot : ∀ a, ¬({ r with logged := true } : Request F).Waiting a := by
    rintro a ⟨hlogged, -⟩
    cases hlogged
  have hstarted := forall_mem_set (i := i)
    (y := { r with logged := true }) h.started
    (h.started r (List.mem_of_getElem? hi))
  have hframe : ∀ b, r.version ≠ some b → VersionWith Q
      (s.requests.set i { r with logged := true }) b
      (s.upstream.versions b) := by
    intro b hb
    obtain ⟨ns, hlinked, hnodes, hprop⟩ := h.queue b
    exact ⟨ns, hlinked, hnodes.set_other i (hnot b), hother b hb _ ns hprop⟩
  rcases logRequestTime_spec hlog with ⟨hver, rfl⟩ |
    ⟨a, v', m, hver, hcomplete, hversions, -⟩
  · refine ⟨hstarted, fun b => hframe b ?_⟩
    rw [hver]
    exact fun hb => by cases hb
  · refine ⟨hstarted, ?_⟩
    dsimp only
    rw [hversions]
    refine (Function.forall_update_iff _ fun b w => VersionWith Q _ b w).mpr
      ⟨?_, fun b hb => hframe b ?_⟩
    · obtain ⟨ns, hlinked, hnodes, hprop⟩ := h.queue a
      obtain ⟨b, henter, hmem⟩ := hnodes.mem i r hi ⟨hr, hver⟩
      obtain ⟨hin, hlive⟩ := mem_liveNodes.mp hmem
      obtain ⟨pre, post, rfl⟩ := List.append_of_mem hin
      obtain ⟨hactive, -, -, hqueue⟩ := completeVersion_ok hcomplete
      rw [henter] at hqueue
      obtain ⟨ms, hms, hsub, hlives⟩ := hlinked.completeQueue hlive hqueue
      rw [← hactive] at hms
      refine ⟨ms, hms, hnodes.complete hi ⟨hr, hver⟩ henter (hnot a) ?_,
        hself a v' m b pre post ms hver hcomplete henter hlive hlinked hprop
          hms hsub hlives⟩
      intro n
      rw [hlives, ← liveNodes_mark (a := b) (x := r.node)]
      exact mem_liveNodes_mark hlinked.nodup n
    · rw [hver]
      exact fun heq => hb (Option.some.inj heq).symm

end MultiversionBalancer
