import MultiversionBalancer.Upstream.PeerLists
import MultiversionBalancer.Lib.Run
import Mathlib.Logic.Relation

/-!
# Peer selection

The selection loop examines every eligible peer and keeps two candidates, one
of each class.  `SameRequests` is what an examination leaves alone in a
version, and `Scanned` is the loop invariant: the candidates are eligible peers
that the loop has passed.

A further peer of a class is compared with its candidate through the summary
of the heavy candidate.  Whether that comparison is defined depends on the
order of the peers and on which of them are idle; `SafeMix` is the exact
condition.
-/

namespace MultiversionBalancer

open Lib CFloat

variable {F : Type} [CFloat F]

/-! ## Examining a version -/

structure SameRequests (v w : VersionedServer F) : Prop where
  active_eq : w.activeReq = v.activeReq
  completed_eq : w.completedRequests = v.completedRequests
  bound_eq : w.reqUpperBound = v.reqUpperBound
  queue_inv : ∀ total ns, QueueInv v.activeReq total v.queue ns →
    ∃ ms, QueueInv w.activeReq total w.queue ms ∧ liveNodes ms = liveNodes ns

omit [CFloat F] in
theorem SameRequests.refl (v : VersionedServer F) : SameRequests v v :=
  ⟨rfl, rfl, rfl, fun _ ns h => ⟨ns, h, rfl⟩⟩

omit [CFloat F] in
theorem SameRequests.trans {u v w : VersionedServer F}
    (huv : SameRequests u v) (hvw : SameRequests v w) : SameRequests u w where
  active_eq := hvw.active_eq.trans huv.active_eq
  completed_eq := hvw.completed_eq.trans huv.completed_eq
  bound_eq := hvw.bound_eq.trans huv.bound_eq
  queue_inv := by
    intro total ns h
    obtain ⟨ms, hms, hlive⟩ := huv.queue_inv total ns h
    obtain ⟨ks, hks, hlive'⟩ := hvw.queue_inv total ms hms
    exact ⟨ks, hks, hlive'.trans hlive⟩

@[simp] theorem capPrediction_activeReq (pt : ℤ) (v : VersionedServer F) :
    (capPrediction pt v).activeReq = v.activeReq := by
  unfold capPrediction
  split <;> rfl

@[simp] theorem capPrediction_completedRequests (pt : ℤ)
    (v : VersionedServer F) :
    (capPrediction pt v).completedRequests = v.completedRequests := by
  unfold capPrediction
  split <;> rfl

@[simp] theorem capPrediction_reqUpperBound (pt : ℤ) (v : VersionedServer F) :
    (capPrediction pt v).reqUpperBound = v.reqUpperBound := by
  unfold capPrediction
  split <;> rfl

@[simp] theorem capPrediction_queue (pt : ℤ) (v : VersionedServer F) :
    (capPrediction pt v).queue = v.queue := by
  unfold capPrediction
  split <;> rfl

@[simp] theorem decayPrediction_activeReq (v : VersionedServer F) :
    (decayPrediction v).activeReq = v.activeReq := by
  unfold decayPrediction
  split <;> rfl

@[simp] theorem decayPrediction_completedRequests (v : VersionedServer F) :
    (decayPrediction v).completedRequests = v.completedRequests := by
  unfold decayPrediction
  split <;> rfl

@[simp] theorem decayPrediction_reqUpperBound (v : VersionedServer F) :
    (decayPrediction v).reqUpperBound = v.reqUpperBound := by
  unfold decayPrediction
  split <;> rfl

@[simp] theorem decayPrediction_queue (v : VersionedServer F) :
    (decayPrediction v).queue = v.queue := by
  unfold decayPrediction
  split <;> rfl

theorem examineVersion_eq_ok {tp : NgxTime} {pt : ℤ}
    {v w : VersionedServer F} {load : F}
    (h : examineVersion tp pt v = .ok (w, load)) :
    ∃ q, refreshQueue tp v.queue = .ok q ∧
      w = decayPrediction
        (accrueService tp (capPrediction pt { v with queue := q })) := by
  obtain ⟨q, hq, hrest⟩ := Except.bind_eq_ok.mp h
  exact ⟨q, hq, (Prod.mk.inj (Except.ok.inj hrest)).1.symm⟩

theorem examineVersion_same {tp : NgxTime} {pt : ℤ}
    {v w : VersionedServer F} {load : F}
    (h : examineVersion tp pt v = .ok (w, load)) : SameRequests v w := by
  obtain ⟨q, hq, rfl⟩ := examineVersion_eq_ok h
  refine
    { active_eq := by simp [accrueService]
      completed_eq := by simp [accrueService]
      bound_eq := by simp [accrueService]
      queue_inv := ?_ }
  intro total ns hinv
  obtain ⟨q', ms, hrun, hinv', hlive, -⟩ := refreshQueue_spec tp hinv
  obtain rfl : q' = q := Except.ok.inj (hrun.symm.trans hq)
  exact ⟨ms, by simpa [accrueService] using hinv', hlive⟩

/-- A well-formed queue is examined without a fault, and its summary is empty
afterwards only if the version is idle. -/
theorem examineVersion_spec {v : VersionedServer F} {total : ℤ}
    {ns : QueueNodes} (tp : NgxTime) (pt : ℤ)
    (h : QueueInv v.activeReq total v.queue ns) :
    ∃ w load, examineVersion tp pt v = .ok (w, load) ∧
      (w.queue.oldRequests.reqCount = 0 ↔ v.activeReq = 0) := by
  obtain ⟨q, ms, hrun, -, -, hcount⟩ := refreshQueue_spec tp h
  refine ⟨_, _, by simp only [examineVersion, hrun]; rfl, ?_⟩
  simpa [accrueService] using hcount

/-- The selection loop turns `v` into `w`. -/
def Examined (tp : NgxTime) (pt : ℤ) (v w : VersionedServer F) : Prop :=
  ∃ load, examineVersion tp pt v = .ok (w, load)

/-- Examining a version any number of times leaves its requests alone. -/
theorem sameRequests_of_examined {tp : NgxTime} {pt : ℤ}
    {v w : VersionedServer F}
    (h : Relation.ReflTransGen (Examined tp pt) v w) : SameRequests v w := by
  induction h with
  | refl => exact .refl v
  | tail _ hexam ih =>
      obtain ⟨load, hexam⟩ := hexam
      exact ih.trans (examineVersion_same hexam)

/-! ## Eligible peers -/

/-- The eligible peers of a list that starts at position `i`, each with its
position. -/
def eligiblePeers (tried : List (BitVec 64)) (now : ℤ) :
    ℕ → List Peer → List (ℕ × Peer)
  | _, [] => []
  | i, p :: ps =>
      if eligible tried now i p then
        (i, p) :: eligiblePeers tried now (i + 1) ps
      else eligiblePeers tried now (i + 1) ps

theorem mem_eligiblePeers {tried : List (BitVec 64)} {now : ℤ} {i : ℕ}
    {ps : List Peer} {n : ℕ × Peer} :
    n ∈ eligiblePeers tried now i ps ↔
      ∃ j, n.1 = i + j ∧ ps[j]? = some n.2 ∧
        eligible tried now n.1 n.2 = true := by
  induction ps generalizing i with
  | nil => simp [eligiblePeers]
  | cons p ps ih =>
      have htail : (∃ j, n.1 = i + 1 + j ∧ ps[j]? = some n.2 ∧
          eligible tried now n.1 n.2 = true) ↔
          ∃ j, n.1 = i + (j + 1) ∧ (p :: ps)[j + 1]? = some n.2 ∧
            eligible tried now n.1 n.2 = true := by
        refine exists_congr fun j => ?_
        rw [List.getElem?_cons_succ, Nat.add_assoc, Nat.add_comm 1 j]
      by_cases hp : eligible tried now i p = true
      · rw [eligiblePeers, if_pos hp, List.mem_cons, ih, htail]
        constructor
        · rintro (rfl | ⟨j, hj⟩)
          · exact ⟨0, rfl, rfl, hp⟩
          · exact ⟨j + 1, hj⟩
        · rintro ⟨j, hidx, hget, hel⟩
          cases j with
          | zero =>
              left
              have hsnd : p = n.2 := by simpa using hget
              exact Prod.ext hidx hsnd.symm
          | succ j => exact .inr ⟨j, hidx, hget, hel⟩
      · rw [eligiblePeers, if_neg hp, ih, htail]
        constructor
        · rintro ⟨j, hj⟩
          exact ⟨j + 1, hj⟩
        · rintro ⟨j, hidx, hget, hel⟩
          cases j with
          | zero =>
              have hsnd : p = n.2 := by simpa using hget
              rw [← hsnd, hidx] at hel
              exact absurd hel hp
          | succ j => exact ⟨j, hidx, hget, hel⟩

/-- A peer at a position of the list is among the eligible ones exactly when
it is eligible there. -/
theorem mem_eligiblePeers_zero {tried : List (BitVec 64)} {now : ℤ}
    {ps : List Peer} {n : ℕ × Peer} :
    n ∈ eligiblePeers tried now 0 ps ↔
      ps[n.1]? = some n.2 ∧ eligible tried now n.1 n.2 = true := by
  rw [mem_eligiblePeers]
  constructor
  · rintro ⟨j, hidx, hget, hel⟩
    rw [Nat.zero_add] at hidx
    rw [hidx] at hel ⊢
    exact ⟨hget, hel⟩
  · rintro ⟨hget, hel⟩
    exact ⟨n.1, (Nat.zero_add _).symm, hget, hel⟩

/-! ## The candidates -/

theorem contest_cases (pt : ℤ) (hOld pOld : OldRequests) (c : Candidates F)
    (i : ℕ) (p : Peer) (load : F) :
    ((contest pt hOld pOld c i p load).heavy = c.heavy ∨
      p.heavy.isSome = true ∧
        (contest pt hOld pOld c i p load).heavy = some (i, p)) ∧
    ((contest pt hOld pOld c i p load).light = c.light ∨
      p.light.isSome = true ∧
        (contest pt hOld pOld c i p load).light = some (i, p)) ∧
    (contest pt hOld pOld c i p load).zeroDivisor =
      (c.zeroDivisor || hOld.reqCount == 0 || pOld.reqCount == 0) := by
  unfold contest
  dsimp only
  split
  case isTrue hheavy =>
    exact ⟨.inr ⟨(Bool.and_eq_true_iff.mp hheavy).1, rfl⟩, .inl rfl, rfl⟩
  case isFalse =>
    split
    case isTrue hlight =>
      exact ⟨.inl rfl, .inr ⟨(Bool.and_eq_true_iff.mp hlight).1, rfl⟩, rfl⟩
    case isFalse => exact ⟨.inl rfl, .inl rfl, rfl⟩

/-- What a comparison can do to the candidates. -/
theorem considerPeer_ok {pt : ℤ} {vs : Versions F} {c c' : Candidates F}
    {i : ℕ} {p : Peer} {load : F}
    (h : considerPeer pt vs c i p load = .ok c') :
    (c'.heavy = c.heavy ∨ p.heavy.isSome = true ∧ c'.heavy = some (i, p)) ∧
    (c'.light = c.light ∨ p.light.isSome = true ∧ c'.light = some (i, p)) ∧
    (c.zeroDivisor = true → c'.zeroDivisor = true) := by
  unfold considerPeer at h
  split at h
  case isTrue hfirst =>
    obtain rfl := Except.ok.inj h
    exact ⟨.inr ⟨(Bool.and_eq_true_iff.mp hfirst).2, rfl⟩, .inl rfl, id⟩
  case isFalse =>
    split at h
    case isTrue hfirst =>
      obtain rfl := Except.ok.inj h
      exact ⟨.inl rfl, .inr ⟨(Bool.and_eq_true_iff.mp hfirst).2, rfl⟩, id⟩
    case isFalse =>
      split at h
      · cases h
      · obtain ⟨hv, -, h⟩ := Except.bind_eq_ok.mp h
        obtain ⟨pv, -, h⟩ := Except.bind_eq_ok.mp h
        obtain rfl := Except.ok.inj h
        obtain ⟨hheavy, hlight, hzero⟩ :=
          contest_cases pt hv.queue.oldRequests pv.queue.oldRequests c i p load
        exact ⟨hheavy, hlight, fun hc => by simp [hzero, hc]⟩

theorem scanPeer_ok {tried : List (BitVec 64)} {tp : NgxTime} {pt : ℤ}
    {s s' : Versions F × Candidates F} {i : ℕ} {p : Peer}
    (hel : eligible tried tp.sec i p = true)
    (h : scanPeer tried tp pt s i p = .ok s') :
    ∃ a v load, p.version = some a ∧
      examineVersion tp pt (s.1 a) = .ok (v, load) ∧
      s'.1 = Function.update s.1 a v ∧
      considerPeer pt s'.1 s.2 i p load = .ok s'.2 := by
  rw [scanPeer, if_pos hel] at h
  cases hver : p.version with
  | none =>
      rw [hver] at h
      cases h
  | some a =>
      rw [hver] at h
      obtain ⟨⟨v, load⟩, hexam, h⟩ := Except.bind_eq_ok.mp h
      obtain ⟨c, hcons, h⟩ := Except.bind_eq_ok.mp h
      obtain rfl := Except.ok.inj h
      exact ⟨a, v, load, rfl, hexam, rfl, hcons⟩

/-- The loop invariant after the eligible peers `pre`, from the versions
`vs₀`. -/
structure Scanned (vs₀ : Versions F) (pre : List (ℕ × Peer))
    (s : Versions F × Candidates F) : Prop where
  same : ∀ a, SameRequests (vs₀ a) (s.1 a)
  heavy_mem : ∀ n, s.2.heavy = some n → n ∈ pre
  light_mem : ∀ n, s.2.light = some n → n ∈ pre
  versioned : ∀ n ∈ pre, n.2.version.isSome = true

omit [CFloat F] in
theorem sameRequests_update {vs₀ vs : Versions F} {a : ℕ}
    {v : VersionedServer F} (h : ∀ b, SameRequests (vs₀ b) (vs b))
    (hv : SameRequests (vs a) v) (b : ℕ) :
    SameRequests (vs₀ b) (Function.update vs a v b) := by
  by_cases hb : b = a
  · subst hb
    rw [Function.update_self]
    exact (h b).trans hv
  · rw [Function.update_of_ne hb]
    exact h b

theorem Scanned.scanPeer {vs₀ : Versions F} {pre : List (ℕ × Peer)}
    {tried : List (BitVec 64)} {tp : NgxTime} {pt : ℤ}
    {s s' : Versions F × Candidates F} {i : ℕ} {p : Peer}
    (hs : Scanned vs₀ pre s) (hel : eligible tried tp.sec i p = true)
    (h : scanPeer tried tp pt s i p = .ok s') :
    Scanned vs₀ (pre ++ [(i, p)]) s' := by
  obtain ⟨a, v, load, hver, hexam, hvs, hcons⟩ := scanPeer_ok hel h
  obtain ⟨hheavy, hlight, -⟩ := considerPeer_ok hcons
  refine
    { same := ?_
      heavy_mem := ?_
      light_mem := ?_
      versioned := ?_ }
  · rw [hvs]
    exact sameRequests_update hs.same (examineVersion_same hexam)
  · intro n hn
    rcases hheavy with heq | ⟨-, heq⟩
    · rw [heq] at hn
      exact List.mem_append_left _ (hs.heavy_mem n hn)
    · obtain rfl := Option.some.inj (heq.symm.trans hn)
      simp
  · intro n hn
    rcases hlight with heq | ⟨-, heq⟩
    · rw [heq] at hn
      exact List.mem_append_left _ (hs.light_mem n hn)
    · obtain rfl := Option.some.inj (heq.symm.trans hn)
      simp
  · intro n hn
    rcases List.mem_append.mp hn with hn | hn
    · exact hs.versioned n hn
    · rw [List.mem_singleton.mp hn, hver]
      rfl

theorem Scanned.scanPeers {vs₀ : Versions F} {pre : List (ℕ × Peer)}
    {tried : List (BitVec 64)} {tp : NgxTime} {pt : ℤ} {i : ℕ}
    {ps : List Peer} {s s' : Versions F × Candidates F}
    (hs : Scanned vs₀ pre s) (h : scanPeers tried tp pt i ps s = .ok s') :
    Scanned vs₀ (pre ++ eligiblePeers tried tp.sec i ps) s' := by
  induction ps generalizing i pre s with
  | nil =>
      obtain rfl := Except.ok.inj h
      simpa [eligiblePeers] using hs
  | cons p ps ih =>
      obtain ⟨s₁, hstep, hrest⟩ := Except.bind_eq_ok.mp h
      by_cases hel : eligible tried tp.sec i p = true
      · have hrun := ih (hs.scanPeer hel hstep) hrest
        rw [List.append_assoc, List.singleton_append] at hrun
        rwa [eligiblePeers, if_pos hel]
      · rw [MultiversionBalancer.scanPeer, if_neg hel] at hstep
        obtain rfl := Except.ok.inj hstep
        rw [eligiblePeers, if_neg hel]
        exact ih hs hrest

theorem Scanned.start (vs : Versions F) : Scanned vs [] (vs, noCandidates) where
  same := fun a => SameRequests.refl (vs a)
  heavy_mem := by simp [noCandidates]
  light_mem := by simp [noCandidates]
  versioned := by simp

theorem chooseBest_mem {pt : ℤ} {vs : Versions F} {c : Candidates F}
    {n : ℕ × Peer} (h : chooseBest pt vs c = .ok (some n)) :
    c.heavy = some n ∨ c.light = some n := by
  unfold chooseBest at h
  split at h
  · exact .inr (Except.ok.inj h)
  · exact .inl (Except.ok.inj h)
  · next h' l' hh hl =>
      obtain ⟨hv, -, h⟩ := Except.bind_eq_ok.mp h
      dsimp only at h
      split at h
      · exact .inr (hl.trans (Except.ok.inj h))
      · split at h
        · exact .inr (hl.trans (Except.ok.inj h))
        · exact .inl (hh.trans (Except.ok.inj h))

/-- The loop examines every version any number of times, and those of the
eligible peers at least once. -/
theorem scanPeers_examined {tried : List (BitVec 64)} {tp : NgxTime} {pt : ℤ}
    {i : ℕ} {ps : List Peer} {s s' : Versions F × Candidates F}
    (h : scanPeers tried tp pt i ps s = .ok s') :
    (∀ b, Relation.ReflTransGen (Examined tp pt) (s.1 b) (s'.1 b)) ∧
      ∀ n ∈ eligiblePeers tried tp.sec i ps, ∀ a, n.2.version = some a →
        Relation.TransGen (Examined tp pt) (s.1 a) (s'.1 a) := by
  induction ps generalizing i s with
  | nil =>
      obtain rfl := Except.ok.inj h
      exact ⟨fun _ => .refl, by simp [eligiblePeers]⟩
  | cons p ps ih =>
      obtain ⟨s₁, hstep, hrest⟩ := Except.bind_eq_ok.mp h
      obtain ⟨hall, heach⟩ := ih hrest
      by_cases hel : eligible tried tp.sec i p = true
      · obtain ⟨a, v, load, hver, hexam, hvs, -⟩ := scanPeer_ok hel hstep
        have hfirst : Examined tp pt (s.1 a) (s₁.1 a) := by
          rw [hvs, Function.update_self]
          exact ⟨load, hexam⟩
        have hone : ∀ b, Relation.ReflTransGen (Examined tp pt) (s.1 b)
            (s₁.1 b) := by
          intro b
          by_cases hb : b = a
          · subst hb
            exact .single hfirst
          · rw [hvs, Function.update_of_ne hb]
        refine ⟨fun b => (hone b).trans (hall b), ?_⟩
        rw [eligiblePeers, if_pos hel]
        intro n hn b hb
        rcases List.mem_cons.mp hn with rfl | hn
        · obtain rfl := Option.some.inj (hver.symm.trans hb)
          exact .head' hfirst (hall a)
        · exact (heach n hn b hb).trans_right (hone b)
      · rw [scanPeer, if_neg hel] at hstep
        obtain rfl := Except.ok.inj hstep
        rw [eligiblePeers, if_neg hel]
        exact ⟨hall, heach⟩

/-- Everything a successful selection does: it examined the versions of the
eligible peers, chose one of these peers and updated that peer's version and
the peers object. -/
theorem getPeer_examined {ps : Peers F} {vs : Versions F} {rrp : RRPeerData}
    {tp : NgxTime} {sel : Selection F}
    (h : ngxHttpUpstreamGetPeer ps vs rrp tp = .ok sel) :
    ∃ i p a vs' load, sel.best = some i ∧ ps.peer[i]? = some p ∧
      eligible rrp.tried tp.sec i p = true ∧ p.version = some a ∧
      (∀ b, Relation.ReflTransGen (Examined tp (peersPt ps.peer)) (vs b)
        (vs' b)) ∧
      (∀ j q b, ps.peer[j]? = some q → eligible rrp.tried tp.sec j q = true →
        q.version = some b →
        Relation.TransGen (Examined tp (peersPt ps.peer)) (vs b) (vs' b)) ∧
      sel.peers = selectPeers tp.sec i ps ∧
      sel.versions =
        Function.update vs' a (selectVersion tp load (vs' a)) := by
  obtain ⟨⟨vs', c⟩, hscan, h⟩ := Except.bind_eq_ok.mp h
  have hs := (Scanned.start vs).scanPeers hscan
  rw [List.nil_append] at hs
  obtain ⟨best, hbest, h⟩ := Except.bind_eq_ok.mp h
  cases best with
  | none => cases h
  | some n =>
      obtain ⟨i, p⟩ := n
      have hmem : (i, p) ∈ eligiblePeers rrp.tried tp.sec 0 ps.peer := by
        rcases chooseBest_mem hbest with hc | hc
        · exact hs.heavy_mem _ hc
        · exact hs.light_mem _ hc
      obtain ⟨hget, hel⟩ := mem_eligiblePeers_zero.mp hmem
      obtain ⟨a, ha⟩ : ∃ a, p.version = some a :=
        Option.isSome_iff_exists.mp (hs.versioned _ hmem)
      simp only [ha] at h
      obtain rfl := Except.ok.inj h
      obtain ⟨hall, heach⟩ := scanPeers_examined hscan
      refine ⟨i, p, a, vs', _, rfl, hget, hel, ha, hall, ?_, rfl, rfl⟩
      intro j q b hj hq hb
      exact heach (j, q) (mem_eligiblePeers_zero.mpr ⟨hj, hq⟩) b hb

/-- What a successful selection does to the requests: nothing but on the
version of the chosen peer. -/
theorem getPeer_ok {ps : Peers F} {vs : Versions F} {rrp : RRPeerData}
    {tp : NgxTime} {sel : Selection F}
    (h : ngxHttpUpstreamGetPeer ps vs rrp tp = .ok sel) :
    ∃ i p a vs' load, sel.best = some i ∧ ps.peer[i]? = some p ∧
      eligible rrp.tried tp.sec i p = true ∧ p.version = some a ∧
      (∀ b, SameRequests (vs b) (vs' b)) ∧
      sel.peers = selectPeers tp.sec i ps ∧
      sel.versions =
        Function.update vs' a (selectVersion tp load (vs' a)) := by
  obtain ⟨i, p, a, vs', load, hbest, hget, hel, ha, hall, -, hpeers, hvs⟩ :=
    getPeer_examined h
  exact ⟨i, p, a, vs', load, hbest, hget, hel, ha,
    fun b => sameRequests_of_examined (hall b), hpeers, hvs⟩

theorem scanPeers_of_none_eligible {tried : List (BitVec 64)} {tp : NgxTime}
    {i : ℕ} {l : List Peer} (pt : ℤ) (s : Versions F × Candidates F)
    (h : eligiblePeers tried tp.sec i l = []) :
    scanPeers tried tp pt i l s = .ok s := by
  induction l generalizing i with
  | nil => rfl
  | cons p l ih =>
      by_cases hel : eligible tried tp.sec i p = true
      · rw [eligiblePeers, if_pos hel] at h
        cases h
      · rw [eligiblePeers, if_neg hel] at h
        have hstep : scanPeer tried tp pt s i p = .ok s := by
          rw [scanPeer, if_neg hel]
        rw [scanPeers, hstep]
        exact ih h

/-- With no eligible peer the missing candidate is read through. -/
theorem getPeer_of_none_eligible {ps : Peers F} {rrp : RRPeerData}
    {tp : NgxTime} (vs : Versions F)
    (h : eligiblePeers rrp.tried tp.sec 0 ps.peer = []) :
    ngxHttpUpstreamGetPeer ps vs rrp tp = .error .nullBest := by
  rw [ngxHttpUpstreamGetPeer, scanPeers_of_none_eligible _ _ h]
  rfl

/-! ## The exact condition for a safe selection -/

/-- The version of the peer has active requests. -/
def Busy (vs : Versions F) (p : Peer) : Prop :=
  ∃ a, p.version = some a ∧ (vs a).activeReq ≠ 0

/-- The peer `q` after the eligible peers `pre`: if one of them is of its
class, one of them is heavy, and the first heavy one and `q` are busy. -/
def SafeAt (vs : Versions F) (pre : List (ℕ × Peer)) (q : ℕ × Peer) : Prop :=
  (∃ n ∈ pre, n.2.heavy.isSome = q.2.heavy.isSome) →
    ∃ m, pre.find? (fun n => n.2.heavy.isSome) = some m ∧
      Busy vs m.2 ∧ Busy vs q.2

/-- Every peer of `rest` is safe after `pre` and those before it. -/
def SafeFrom (vs : Versions F) (pre rest : List (ℕ × Peer)) : Prop :=
  ∀ l q r, rest = l ++ q :: r → SafeAt vs (pre ++ l) q

/-- The mixes of eligible peers that the selection loop handles. -/
def SafeMix (vs : Versions F) (peers : List (ℕ × Peer)) : Prop :=
  ∀ l q r, peers = l ++ q :: r → SafeAt vs l q

omit [CFloat F] in
theorem safeMix_iff {vs : Versions F} {peers : List (ℕ × Peer)} :
    SafeMix vs peers ↔ SafeFrom vs [] peers := by
  simp only [SafeMix, SafeFrom, List.nil_append]

omit [CFloat F] in
theorem safeFrom_nil (vs : Versions F) (pre : List (ℕ × Peer)) :
    SafeFrom vs pre [] := by
  intro l q r h
  simp at h

omit [CFloat F] in
theorem safeFrom_cons {vs : Versions F} {pre rest : List (ℕ × Peer)}
    {q : ℕ × Peer} :
    SafeFrom vs pre (q :: rest) ↔
      SafeAt vs pre q ∧ SafeFrom vs (pre ++ [q]) rest := by
  constructor
  · intro h
    refine ⟨?_, ?_⟩
    · have hq := h [] q rest rfl
      rwa [List.append_nil] at hq
    · intro l m r hrest
      have hm := h (q :: l) m r (by rw [hrest, List.cons_append])
      rwa [List.append_assoc, List.singleton_append]
  · rintro ⟨hq, hrest⟩ l m r hsplit
    cases l with
    | nil =>
        obtain ⟨rfl, -⟩ := List.cons.inj hsplit
        rwa [List.append_nil]
    | cons n l =>
        obtain ⟨rfl, rfl⟩ := List.cons.inj hsplit
        have hm := hrest l m r rfl
        rwa [List.append_assoc, List.singleton_append] at hm

/-- The queue of a version is well formed. -/
def QueueOk (v : VersionedServer F) : Prop :=
  ∃ total ns, QueueInv v.activeReq total v.queue ns

omit [CFloat F] in
theorem SameRequests.queueOk {v w : VersionedServer F}
    (h : SameRequests v w) (hv : QueueOk v) : QueueOk w := by
  obtain ⟨total, ns, hinv⟩ := hv
  obtain ⟨ms, hinv', -⟩ := h.queue_inv total ns hinv
  exact ⟨total, ms, hinv'⟩

/-- The loop invariant of a scan that has divided by no zero: there is a
candidate of every class that has occurred, and a heavy candidate other than
the first heavy peer has won a comparison between busy peers. -/
structure SafeScan (vs₀ : Versions F) (pre : List (ℕ × Peer))
    (s : Versions F × Candidates F) : Prop extends Scanned vs₀ pre s where
  seeded : ∀ n ∈ pre, ∀ a, n.2.version = some a →
    ((s.1 a).queue.oldRequests.reqCount = 0 ↔ (vs₀ a).activeReq = 0)
  heavy_iff : s.2.heavy.isSome = true ↔ ∃ n ∈ pre, n.2.heavy.isSome = true
  light_iff : s.2.light.isSome = true ↔ ∃ n ∈ pre, n.2.heavy.isSome = false
  heavy_busy : ∀ m n, pre.find? (fun n => n.2.heavy.isSome) = some m →
    s.2.heavy = some n → n = m ∨ Busy vs₀ m.2 ∧ Busy vs₀ n.2
  divisor : s.2.zeroDivisor = false

theorem SafeScan.start (vs : Versions F) :
    SafeScan vs [] (vs, noCandidates) where
  toScanned := Scanned.start vs
  seeded := by simp
  heavy_iff := by simp [noCandidates]
  light_iff := by simp [noCandidates]
  heavy_busy := by simp
  divisor := rfl

section SafeStep

variable {vs₀ : Versions F} {pre : List (ℕ × Peer)}
  {tried : List (BitVec 64)} {tp : NgxTime} {pt : ℤ}
  {s s' : Versions F × Candidates F} {i : ℕ} {p : Peer}

/-- After its examination a peer's summary tells whether the peer is busy. -/
theorem SafeScan.seeded_step (hs : SafeScan vs₀ pre s)
    (hqueue : ∀ a, p.version = some a → QueueOk (vs₀ a))
    (hel : eligible tried tp.sec i p = true)
    (h : scanPeer tried tp pt s i p = .ok s') :
    ∀ n ∈ pre ++ [(i, p)], ∀ a, n.2.version = some a →
      ((s'.1 a).queue.oldRequests.reqCount = 0 ↔ (vs₀ a).activeReq = 0) := by
  intro n hn b hb
  obtain ⟨a, v, load, hver, hexam, hvs, -⟩ := scanPeer_ok hel h
  obtain ⟨total, ns, hinv⟩ := (hs.same a).queueOk (hqueue a hver)
  obtain ⟨w, load', hrun, hcount⟩ := examineVersion_spec tp pt hinv
  obtain ⟨rfl, rfl⟩ := Prod.mk.inj (Except.ok.inj (hexam.symm.trans hrun))
  rw [(hs.same a).active_eq] at hcount
  rw [hvs]
  by_cases hba : b = a
  · subst hba
    rwa [Function.update_self]
  · rw [Function.update_of_ne hba]
    rcases List.mem_append.mp hn with hn | hn
    · exact hs.seeded n hn b hb
    · rw [List.mem_singleton.mp hn, hver] at hb
      exact absurd (Option.some.inj hb).symm hba

omit [CFloat F] in
/-- There is no heavy candidate exactly before the first heavy peer. -/
theorem SafeScan.heavy_none_iff (hs : SafeScan vs₀ pre s) :
    s.2.heavy = none ↔ pre.find? (fun n => n.2.heavy.isSome) = none := by
  rw [List.find?_eq_none]
  constructor
  · intro hnone n hn hheavy
    have hsome := hs.heavy_iff.mpr ⟨n, hn, hheavy⟩
    rw [hnone] at hsome
    cases hsome
  · intro hall
    by_contra hne
    obtain ⟨n, hn, hheavy⟩ := hs.heavy_iff.mp (Option.isSome_iff_ne_none.mpr hne)
    exact hall n hn hheavy

omit [CFloat F] in
theorem SafeScan.heavy_busy_step (hs : SafeScan vs₀ pre s)
    (hheavy : s'.2.heavy = s.2.heavy ∨
      p.heavy.isSome = true ∧ s'.2.heavy = some (i, p))
    (hkeep : s'.2.heavy = s.2.heavy ∨ s.2.heavy = none ∨
      ∀ m, pre.find? (fun n => n.2.heavy.isSome) = some m →
        Busy vs₀ m.2 ∧ Busy vs₀ p) :
    ∀ m n, (pre ++ [(i, p)]).find? (fun n => n.2.heavy.isSome) = some m →
      s'.2.heavy = some n → n = m ∨ Busy vs₀ m.2 ∧ Busy vs₀ n.2 := by
  intro m n hm hn
  rw [List.find?_append] at hm
  cases hfind : pre.find? (fun n => n.2.heavy.isSome) with
  | some m₀ =>
      rw [hfind, Option.some_or] at hm
      obtain rfl := Option.some.inj hm
      rcases hkeep with heq | hnone | hbusy
      · rw [heq] at hn
        exact hs.heavy_busy m₀ n hfind hn
      · rw [hs.heavy_none_iff.mp hnone] at hfind
        cases hfind
      · rcases hheavy with heq | ⟨-, heq⟩
        · rw [heq] at hn
          exact hs.heavy_busy m₀ n hfind hn
        · obtain rfl := Option.some.inj (heq.symm.trans hn)
          exact .inr (hbusy m₀ hfind)
  | none =>
      rw [hfind, Option.none_or] at hm
      have hmq : m = (i, p) :=
        List.mem_singleton.mp (List.mem_of_find?_eq_some hm)
      rcases hheavy with heq | ⟨-, heq⟩
      · rw [heq, hs.heavy_none_iff.mpr hfind] at hn
        cases hn
      · left
        rw [hmq]
        exact (Option.some.inj (heq.symm.trans hn)).symm

/-- One more peer, when its class has a candidate afterwards and the heavy
candidate changes only as allowed. -/
theorem SafeScan.extend (hs : SafeScan vs₀ pre s)
    (hqueue : ∀ a, p.version = some a → QueueOk (vs₀ a))
    (hclass : p.Versioned) (hel : eligible tried tp.sec i p = true)
    (h : scanPeer tried tp pt s i p = .ok s')
    (hset : if p.heavy.isSome then s'.2.heavy.isSome = true
      else s'.2.light.isSome = true)
    (hkeep : s'.2.heavy = s.2.heavy ∨ s.2.heavy = none ∨
      ∀ m, pre.find? (fun n => n.2.heavy.isSome) = some m →
        Busy vs₀ m.2 ∧ Busy vs₀ p)
    (hdiv : s'.2.zeroDivisor = false) :
    SafeScan vs₀ (pre ++ [(i, p)]) s' := by
  obtain ⟨a, v, load, -, -, -, hcons⟩ := scanPeer_ok hel h
  obtain ⟨hheavy, hlight, -⟩ := considerPeer_ok hcons
  refine
    { toScanned := hs.toScanned.scanPeer hel h
      seeded := hs.seeded_step hqueue hel h
      heavy_iff := ?_
      light_iff := ?_
      heavy_busy := hs.heavy_busy_step hheavy hkeep
      divisor := hdiv }
  · simp only [List.mem_append, List.mem_singleton, or_and_right, exists_or,
      exists_eq_left]
    rw [← hs.heavy_iff]
    rcases hheavy with heq | ⟨hp, heq⟩
    · rw [heq]
      by_cases hp : p.heavy.isSome = true
      · rw [if_pos hp, heq] at hset
        simp [hset]
      · simp [hp]
    · simp [heq, hp]
  · simp only [List.mem_append, List.mem_singleton, or_and_right, exists_or,
      exists_eq_left]
    rw [← hs.light_iff]
    rcases hlight with heq | ⟨hp, heq⟩
    · rw [heq]
      by_cases hp : p.heavy.isSome = true
      · simp [hp]
      · rw [if_neg hp, heq] at hset
        simp [hset]
    · rw [hclass.light_isSome] at hp
      have hp' : p.heavy.isSome = false := by simpa using hp
      simp [heq, hp']

/-- A well-formed eligible peer is examined and compared. -/
theorem SafeScan.scanPeer_eq (hs : SafeScan vs₀ pre s)
    (hqueue : ∀ a, p.version = some a → QueueOk (vs₀ a)) {a : ℕ}
    (hver : p.version = some a) (hel : eligible tried tp.sec i p = true) :
    ∃ vs load, scanPeer tried tp pt s i p =
      (considerPeer pt vs s.2 i p load).map fun c => (vs, c) := by
  obtain ⟨total, ns, hinv⟩ := (hs.same a).queueOk (hqueue a hver)
  obtain ⟨v, load, hrun, -⟩ := examineVersion_spec tp pt hinv
  refine ⟨Function.update s.1 a v, load, ?_⟩
  rw [scanPeer, if_pos hel, hver]
  simp only [hrun]
  rfl

theorem considerPeer_first {vs : Versions F} {c : Candidates F} {load : F}
    (hclass : p.Versioned)
    (hnone : if p.heavy.isSome then c.heavy = none else c.light = none) :
    ∃ c', considerPeer pt vs c i p load = .ok c' ∧
      (if p.heavy.isSome then c'.heavy.isSome = true
        else c'.light.isSome = true) ∧
      (c'.heavy = c.heavy ∨ c.heavy = none) ∧
      c'.zeroDivisor = c.zeroDivisor := by
  by_cases hp : p.heavy.isSome = true
  · rw [if_pos hp] at hnone
    exact ⟨{ c with heavy := some (i, p), heavyLoad := load },
      by simp [considerPeer, hnone, hp], by simp [hp], .inr hnone, rfl⟩
  · have hl : p.light.isSome = true := by simp [hclass.light_isSome, hp]
    rw [if_neg hp] at hnone
    exact ⟨{ c with light := some (i, p), lightLoad := load },
      by simp [considerPeer, hnone, hp, hl], by simp [hp], .inl rfl, rfl⟩

theorem considerPeer_repeat {vs : Versions F} {c : Candidates F} {load : F}
    (hclass : p.Versioned)
    (hsome : if p.heavy.isSome then c.heavy.isSome = true
      else c.light.isSome = true) :
    considerPeer pt vs c i p load =
      (match c.heavy with
      | none => .error .nullHeavy
      | some (_, h) => do
          let hv ← vs.deref h.version
          let pv ← vs.deref p.version
          pure (contest pt hv.queue.oldRequests pv.queue.oldRequests
            c i p load)) := by
  rw [considerPeer]
  by_cases hp : p.heavy.isSome = true
  · have hl : p.light.isSome = false := by simp [hclass.light_isSome, hp]
    rw [if_pos hp] at hsome
    obtain ⟨h, hc⟩ := Option.isSome_iff_exists.mp hsome
    have hh : (c.heavy.isNone && p.heavy.isSome) = false := by simp [hc]
    have hlight : (c.light.isNone && p.light.isSome) = false := by simp [hl]
    rw [hh, hlight]
    rfl
  · rw [if_neg hp] at hsome
    obtain ⟨l, hc⟩ := Option.isSome_iff_exists.mp hsome
    have hh : (c.heavy.isNone && p.heavy.isSome) = false := by simp [hp]
    have hlight : (c.light.isNone && p.light.isSome) = false := by simp [hc]
    rw [hh, hlight]
    rfl

/-- The comparison of a further peer reads the summaries of two peers the loop
has passed. -/
theorem SafeScan.contest_eq (hs : SafeScan vs₀ pre s)
    (hclass : p.Versioned) {a : ℕ} (hver : p.version = some a)
    (hsome : if p.heavy.isSome then s.2.heavy.isSome = true
      else s.2.light.isSome = true)
    {h : ℕ × Peer} (hheavy : s.2.heavy = some h) (vs : Versions F) (load : F) :
    ∃ b, h.2.version = some b ∧
      considerPeer pt vs s.2 i p load =
        .ok (contest pt (vs b).queue.oldRequests (vs a).queue.oldRequests
          s.2 i p load) := by
  obtain ⟨b, hb⟩ := Option.isSome_iff_exists.mp
    (hs.versioned h (hs.heavy_mem h hheavy))
  refine ⟨b, hb, ?_⟩
  rw [considerPeer_repeat hclass hsome, hheavy]
  simp only [Versions.deref, hb, hver]
  rfl

omit [CFloat F] in
theorem busy_iff {vs : Versions F} {a : ℕ} (hver : p.version = some a) :
    Busy vs p ↔ (vs a).activeReq ≠ 0 := by
  constructor
  · rintro ⟨b, hb, hne⟩
    obtain rfl := Option.some.inj (hver.symm.trans hb)
    exact hne
  · exact fun hne => ⟨a, hver, hne⟩

omit [CFloat F] in
/-- There is a candidate of the class of `p` exactly when the loop has passed a
peer of that class. -/
theorem SafeScan.candidate_iff (hs : SafeScan vs₀ pre s) :
    (if p.heavy.isSome then s.2.heavy.isSome = true
      else s.2.light.isSome = true) ↔
      ∃ n ∈ pre, n.2.heavy.isSome = p.heavy.isSome := by
  by_cases hp : p.heavy.isSome = true
  · rw [if_pos hp, hs.heavy_iff, hp]
  · have hp' : p.heavy.isSome = false := by simpa using hp
    rw [if_neg hp, hs.light_iff, hp']

/-- The first eligible peer of its class becomes the candidate. -/
theorem SafeScan.step_first (hs : SafeScan vs₀ pre s)
    (hqueue : ∀ a, p.version = some a → QueueOk (vs₀ a))
    (hclass : p.Versioned) (hel : eligible tried tp.sec i p = true)
    (hfirst : ¬∃ n ∈ pre, n.2.heavy.isSome = p.heavy.isSome) :
    ∃ s', scanPeer tried tp pt s i p = .ok s' ∧
      SafeScan vs₀ (pre ++ [(i, p)]) s' := by
  obtain ⟨a, hver, -⟩ := id hclass
  obtain ⟨vs, load, hscan⟩ := hs.scanPeer_eq hqueue hver hel
  have hnone : if p.heavy.isSome then s.2.heavy = none
      else s.2.light = none := by
    have hcand := mt hs.candidate_iff.mp hfirst
    by_cases hp : p.heavy.isSome = true
    · rw [if_pos hp] at hcand ⊢
      simpa using hcand
    · rw [if_neg hp] at hcand ⊢
      simpa using hcand
  obtain ⟨c, hcons, hset, hkeep, hzero⟩ :=
    @considerPeer_first F _ pt i p vs s.2 load hclass hnone
  rw [hcons] at hscan
  refine ⟨(vs, c), hscan, hs.extend hqueue hclass hel hscan hset ?_ ?_⟩
  · rcases hkeep with heq | hheavy
    · exact .inl heq
    · exact .inr (.inl hheavy)
  · exact hzero.trans hs.divisor

/-- A further peer of its class is compared; the comparison divides by zero
exactly when the heavy candidate or the peer is idle. -/
theorem SafeScan.step_repeat (hs : SafeScan vs₀ pre s)
    (hqueue : ∀ a, p.version = some a → QueueOk (vs₀ a))
    (hclass : p.Versioned) (hel : eligible tried tp.sec i p = true)
    (hprev : ∃ n ∈ pre, n.2.heavy.isSome = p.heavy.isSome)
    {h : ℕ × Peer} (hheavy : s.2.heavy = some h) :
    ∃ s', scanPeer tried tp pt s i p = .ok s' ∧
      (if p.heavy.isSome then s'.2.heavy.isSome = true
        else s'.2.light.isSome = true) ∧
      (s'.2.zeroDivisor = false ↔ Busy vs₀ h.2 ∧ Busy vs₀ p) := by
  obtain ⟨a, hver, -⟩ := id hclass
  obtain ⟨vs, load, hscan⟩ := hs.scanPeer_eq hqueue hver hel
  have hcand := hs.candidate_iff.mpr hprev
  obtain ⟨b, hb, hcons⟩ := hs.contest_eq hclass hver hcand hheavy vs load
  rw [hcons] at hscan
  obtain ⟨hh, hl, hzero⟩ := contest_cases pt (vs b).queue.oldRequests
    (vs a).queue.oldRequests s.2 i p load
  have hseed := hs.seeded_step hqueue hel hscan
  have hb0 := hseed h (List.mem_append_left _ (hs.heavy_mem h hheavy)) b hb
  have ha0 := hseed (i, p) (by simp) a hver
  refine ⟨_, hscan, ?_, ?_⟩
  · by_cases hp : p.heavy.isSome = true
    · rw [if_pos hp]
      rcases hh with heq | ⟨-, heq⟩
      · simp [heq, hheavy]
      · simp [heq]
    · rw [if_neg hp] at hcand ⊢
      rcases hl with heq | ⟨-, heq⟩
      · simpa [heq] using hcand
      · simp [heq]
  · rw [busy_iff hb, busy_iff hver, Ne, Ne, ← hb0, ← ha0]
    dsimp only
    rw [hzero, hs.divisor]
    simp

theorem SafeScan.step_safe (hs : SafeScan vs₀ pre s)
    (hqueue : ∀ a, p.version = some a → QueueOk (vs₀ a))
    (hclass : p.Versioned) (hel : eligible tried tp.sec i p = true)
    (hsafe : SafeAt vs₀ pre (i, p)) :
    ∃ s', scanPeer tried tp pt s i p = .ok s' ∧
      SafeScan vs₀ (pre ++ [(i, p)]) s' := by
  by_cases hprev : ∃ n ∈ pre, n.2.heavy.isSome = p.heavy.isSome
  · obtain ⟨m, hm, hbm, hbp⟩ := hsafe hprev
    obtain ⟨h, hh⟩ := Option.isSome_iff_exists.mp (hs.heavy_iff.mpr
      ⟨m, List.mem_of_find?_eq_some hm, by simpa using List.find?_some hm⟩)
    have hbh : Busy vs₀ h.2 := by
      rcases hs.heavy_busy m h hm hh with rfl | ⟨-, hb⟩
      · exact hbm
      · exact hb
    obtain ⟨s', hscan, hset, hzero⟩ :=
      hs.step_repeat hqueue hclass hel hprev hh
    refine ⟨s', hscan, hs.extend hqueue hclass hel hscan hset
      (.inr (.inr ?_)) (hzero.mpr ⟨hbh, hbp⟩)⟩
    intro m' hm'
    obtain rfl := Option.some.inj (hm.symm.trans hm')
    exact ⟨hbm, hbp⟩
  · exact hs.step_first hqueue hclass hel hprev

/-- A peer that is not safe is not passed without a division by zero. -/
theorem SafeScan.step_unsafe (hs : SafeScan vs₀ pre s)
    (hqueue : ∀ a, p.version = some a → QueueOk (vs₀ a))
    (hclass : p.Versioned) (hel : eligible tried tp.sec i p = true)
    (hsafe : ¬SafeAt vs₀ pre (i, p))
    (h : scanPeer tried tp pt s i p = .ok s') : s'.2.zeroDivisor = true := by
  obtain ⟨hprev, hno⟩ := Classical.not_imp.mp hsafe
  cases hheavy : s.2.heavy with
  | none =>
      obtain ⟨a, hver, -⟩ := id hclass
      obtain ⟨vs, load, hscan⟩ := hs.scanPeer_eq hqueue hver hel
      rw [considerPeer_repeat hclass (hs.candidate_iff.mpr hprev), hheavy,
        h] at hscan
      cases hscan
  | some c =>
      obtain ⟨t, hscan, -, hzero⟩ :=
        hs.step_repeat hqueue hclass hel hprev hheavy
      obtain rfl : s' = t := Except.ok.inj (h.symm.trans hscan)
      rw [← Bool.not_eq_false, hzero]
      rintro ⟨hbc, hbp⟩
      obtain ⟨m, hm⟩ : ∃ m, pre.find? (fun n => n.2.heavy.isSome) = some m := by
        obtain ⟨n, hn, hnh⟩ := hs.heavy_iff.mp (by simp [hheavy])
        exact Option.isSome_iff_exists.mp
          (List.find?_isSome.mpr ⟨n, hn, hnh⟩)
      rcases hs.heavy_busy m c hm hheavy with rfl | ⟨hbm, -⟩
      · exact hno ⟨c, hm, hbc, hbp⟩
      · exact hno ⟨m, hm, hbm, hbp⟩

theorem scanPeers_zeroDivisor {ps : List Peer} (hs : s.2.zeroDivisor = true)
    (h : scanPeers tried tp pt i ps s = .ok s') :
    s'.2.zeroDivisor = true := by
  induction ps generalizing i s with
  | nil =>
      obtain rfl := Except.ok.inj h
      exact hs
  | cons p ps ih =>
      obtain ⟨s₁, hstep, hrest⟩ := Except.bind_eq_ok.mp h
      refine ih ?_ hrest
      by_cases hel : eligible tried tp.sec i p = true
      · obtain ⟨_, _, _, _, _, _, hcons⟩ := scanPeer_ok hel hstep
        exact (considerPeer_ok hcons).2.2 hs
      · rw [scanPeer, if_neg hel] at hstep
        obtain rfl := Except.ok.inj hstep
        exact hs

/-- The whole loop ends without a fault and without a division by zero on a
safe mix. -/
theorem SafeScan.scanPeers_safe {ps : List Peer} (hs : SafeScan vs₀ pre s)
    (hqueue : ∀ p ∈ ps, ∀ a, p.version = some a → QueueOk (vs₀ a))
    (hclass : ∀ p ∈ ps, p.Versioned)
    (hsafe : SafeFrom vs₀ pre (eligiblePeers tried tp.sec i ps)) :
    ∃ s', scanPeers tried tp pt i ps s = .ok s' ∧
      SafeScan vs₀ (pre ++ eligiblePeers tried tp.sec i ps) s' := by
  induction ps generalizing i pre s with
  | nil => exact ⟨s, rfl, by rwa [eligiblePeers, List.append_nil]⟩
  | cons p ps ih =>
      have hqueue' := fun q hq => hqueue q (List.mem_cons_of_mem p hq)
      have hclass' := fun q hq => hclass q (List.mem_cons_of_mem p hq)
      by_cases hel : eligible tried tp.sec i p = true
      · rw [eligiblePeers, if_pos hel] at hsafe ⊢
        obtain ⟨hat, hrest⟩ := safeFrom_cons.mp hsafe
        obtain ⟨s₁, hstep, hs₁⟩ := hs.step_safe (hqueue p (by simp))
          (hclass p (by simp)) hel hat
        obtain ⟨s', hrun, hs'⟩ := ih hs₁ hqueue' hclass' hrest
        refine ⟨s', ?_, ?_⟩
        · rw [scanPeers, hstep]
          exact hrun
        · rwa [List.append_assoc, List.singleton_append] at hs'
      · rw [eligiblePeers, if_neg hel] at hsafe ⊢
        have hstep : scanPeer tried tp pt s i p = .ok s := by
          rw [scanPeer, if_neg hel]
        rw [scanPeers, hstep]
        exact ih hs hqueue' hclass' hsafe

theorem SafeScan.safeFrom_of_scanPeers {ps : List Peer}
    (hs : SafeScan vs₀ pre s)
    (hqueue : ∀ p ∈ ps, ∀ a, p.version = some a → QueueOk (vs₀ a))
    (hclass : ∀ p ∈ ps, p.Versioned)
    (hrun : scanPeers tried tp pt i ps s = .ok s')
    (hdiv : s'.2.zeroDivisor = false) :
    SafeFrom vs₀ pre (eligiblePeers tried tp.sec i ps) := by
  induction ps generalizing i pre s with
  | nil => exact safeFrom_nil vs₀ pre
  | cons p ps ih =>
      have hqueue' := fun q hq => hqueue q (List.mem_cons_of_mem p hq)
      have hclass' := fun q hq => hclass q (List.mem_cons_of_mem p hq)
      have hqp := hqueue p (by simp)
      have hcp := hclass p (by simp)
      obtain ⟨s₁, hstep, hrest⟩ := Except.bind_eq_ok.mp hrun
      by_cases hel : eligible tried tp.sec i p = true
      · rw [eligiblePeers, if_pos hel, safeFrom_cons]
        have hat : SafeAt vs₀ pre (i, p) := by
          by_contra hunsafe
          have hzero := scanPeers_zeroDivisor
            (hs.step_unsafe hqp hcp hel hunsafe hstep) hrest
          rw [hdiv] at hzero
          cases hzero
        obtain ⟨s₂, hstep₂, hs₂⟩ := hs.step_safe hqp hcp hel hat
        obtain rfl : s₁ = s₂ := Except.ok.inj (hstep.symm.trans hstep₂)
        exact ⟨hat, ih hs₂ hqueue' hclass' hrest⟩
      · rw [scanPeer, if_neg hel] at hstep
        obtain rfl := Except.ok.inj hstep
        rw [eligiblePeers, if_neg hel]
        exact ih hs hqueue' hclass' hrest

end SafeStep

/-- A selection without a memory error and without a division by zero, that
returns an eligible peer. -/
def SafeSelection (ps : Peers F) (vs : Versions F) (rrp : RRPeerData)
    (tp : NgxTime) : Prop :=
  ∃ sel i p, ngxHttpUpstreamGetPeer ps vs rrp tp = .ok sel ∧
    sel.zeroDivisor = false ∧ sel.best = some i ∧ ps.peer[i]? = some p ∧
    eligible rrp.tried tp.sec i p = true

/-- After a scan that met an eligible peer there is a candidate to choose. -/
theorem SafeScan.chooseBest_some {vs₀ : Versions F} {pre : List (ℕ × Peer)}
    {s : Versions F × Candidates F} (pt : ℤ) (hs : SafeScan vs₀ pre s)
    (hne : pre ≠ []) :
    ∃ n, chooseBest pt s.1 s.2 = .ok (some n) := by
  obtain ⟨n, hn⟩ := List.exists_mem_of_ne_nil pre hne
  cases hh : s.2.heavy with
  | none =>
      have hlight : s.2.light.isSome = true := by
        refine hs.light_iff.mpr ⟨n, hn, ?_⟩
        cases hp : n.2.heavy.isSome with
        | false => rfl
        | true =>
            have hsome := hs.heavy_iff.mpr ⟨n, hn, hp⟩
            rw [hh] at hsome
            cases hsome
      obtain ⟨l, hl⟩ := Option.isSome_iff_exists.mp hlight
      exact ⟨l, by simp [chooseBest, hh, hl]⟩
  | some h =>
      cases hl : s.2.light with
      | none => exact ⟨h, by simp [chooseBest, hh, hl]⟩
      | some l =>
          obtain ⟨b, hb⟩ := Option.isSome_iff_exists.mp
            (hs.versioned h (hs.heavy_mem h hh))
          simp only [chooseBest, hh, hl, hb, Versions.deref]
          simp only [bind, Except.bind]
          split
          · exact ⟨l, rfl⟩
          · split
            · exact ⟨l, rfl⟩
            · exact ⟨h, rfl⟩

/-- For versioned peers with well-formed queues, at least one of them
eligible, a selection is safe exactly when every eligible peer that follows an
eligible peer of its class also follows a heavy one, and it and the first
heavy one have active requests. -/
theorem getPeer_safe_iff (ps : Peers F) (vs : Versions F) (rrp : RRPeerData)
    (tp : NgxTime) (hclass : ∀ p ∈ ps.peer, p.Versioned)
    (hqueue : ∀ p ∈ ps.peer, ∀ a, p.version = some a → QueueOk (vs a))
    (hsome : ∃ i p, ps.peer[i]? = some p ∧
      eligible rrp.tried tp.sec i p = true) :
    SafeSelection ps vs rrp tp ↔
      SafeMix vs (eligiblePeers rrp.tried tp.sec 0 ps.peer) := by
  have hstart := SafeScan.start vs
  rw [safeMix_iff]
  constructor
  · rintro ⟨sel, i, p, hrun, hdiv, -⟩
    obtain ⟨⟨vs', c⟩, hscan, hrest⟩ := Except.bind_eq_ok.mp hrun
    obtain ⟨best, -, hrest⟩ := Except.bind_eq_ok.mp hrest
    have hzero : c.zeroDivisor = false := by
      cases best with
      | none => cases hrest
      | some n =>
          dsimp only at hrest
          split at hrest
          · cases hrest
          · rw [← Except.ok.inj hrest] at hdiv
            exact hdiv
    exact hstart.safeFrom_of_scanPeers hqueue hclass hscan hzero
  · intro hmix
    obtain ⟨⟨vs', c⟩, hscan, hs⟩ : ∃ s', scanPeers rrp.tried tp
        (peersPt ps.peer) 0 ps.peer (vs, noCandidates) = .ok s' ∧
        SafeScan vs ([] ++ eligiblePeers rrp.tried tp.sec 0 ps.peer) s' :=
      hstart.scanPeers_safe hqueue hclass hmix
    rw [List.nil_append] at hs
    have hne : eligiblePeers rrp.tried tp.sec 0 ps.peer ≠ [] := by
      obtain ⟨i, p, hget, hel⟩ := hsome
      have hmem : (i, p) ∈ eligiblePeers rrp.tried tp.sec 0 ps.peer :=
        mem_eligiblePeers_zero.mpr ⟨hget, hel⟩
      exact List.ne_nil_of_mem hmem
    obtain ⟨⟨i, p⟩, hbest⟩ := hs.chooseBest_some (peersPt ps.peer) hne
    have hmem : (i, p) ∈ eligiblePeers rrp.tried tp.sec 0 ps.peer := by
      rcases chooseBest_mem hbest with hc | hc
      · exact hs.heavy_mem _ hc
      · exact hs.light_mem _ hc
    obtain ⟨hget, hel⟩ := mem_eligiblePeers_zero.mp hmem
    obtain ⟨a, ha⟩ : ∃ a, p.version = some a :=
      Option.isSome_iff_exists.mp (hs.versioned _ hmem)
    have hrun : ∃ sel, ngxHttpUpstreamGetPeer ps vs rrp tp = .ok sel ∧
        sel.best = some i ∧ sel.zeroDivisor = c.zeroDivisor := by
      rw [ngxHttpUpstreamGetPeer, hscan]
      simp only [bind, Except.bind, hbest, ha]
      exact ⟨_, rfl, rfl, rfl⟩
    obtain ⟨sel, hsel, hi, hzero⟩ := hrun
    exact ⟨sel, i, p, hsel, hzero.trans hs.divisor, hi, hget, hel⟩

/-- Two heavy peers with a request each and an idle light one. -/
def busyServers : List UpstreamServer :=
  [heavyServer "a:1", heavyServer "b:1", lightServer "c:1"]

/-- The versions of these peers in the second 1. -/
def busyVersions : Versions RatFloat := fun a =>
  if a < 2 then (primaryVersions busyServers a).busy 1 (ofInt (a + 3))
  else primaryVersions busyServers a

theorem busyVersions_queueOk (a : ℕ) : QueueOk (busyVersions a) := by
  have hinit := primaryVersions_initialised (F := RatFloat) busyServers a
  rw [busyVersions]
  split_ifs
  · exact ⟨_, _, hinit.busy_queueInv (by decide) _⟩
  · exact ⟨_, _, hinit.queueInv⟩

/-- The second heavy peer is compared with the first one. -/
theorem getPeer_safe_heavy_light :
    SafeSelection (primaryPeers [] busyServers : Peers RatFloat) busyVersions freshRecord
      (NgxTime.ofSec 2) := by
  refine (getPeer_safe_iff _ _ _ _ (primaryPeers_versioned _ _) ?_ ?_).mpr ?_
  · exact fun _ _ a _ => busyVersions_queueOk a
  · exact ⟨0, _, rfl, rfl⟩
  · rw [safeMix_iff]
    refine safeFrom_cons.mpr ⟨?_, safeFrom_cons.mpr ⟨?_, safeFrom_cons.mpr ⟨?_, safeFrom_nil _ _⟩⟩⟩
    · rintro ⟨n, hn, -⟩
      cases hn
    · intro _
      exact ⟨_, rfl, ⟨0, rfl, by decide⟩, ⟨1, rfl, by decide⟩⟩
    · rintro ⟨n, hn, hsame⟩
      rcases List.mem_pair.mp hn with rfl | rfl
      · exact absurd hsame (by decide)
      · exact absurd hsame (by decide)

/-- Two idle light peers: the second is compared through the missing heavy
candidate. -/
theorem getPeer_unsafe_two_lights :
    (∀ p ∈ (primaryPeers [] [lightServer "a:1", lightServer "b:1"] :
        Peers RatFloat).peer, p.Versioned) ∧
    (∀ a, QueueOk (primaryVersions [lightServer "a:1", lightServer "b:1"] a :
      VersionedServer RatFloat)) ∧
    eligiblePeers freshRecord.tried 1 0
      (primaryPeers [] [lightServer "a:1", lightServer "b:1"] :
        Peers RatFloat).peer ≠ [] ∧
    ngxHttpUpstreamGetPeer
      (primaryPeers [] [lightServer "a:1", lightServer "b:1"])
      (primaryVersions [lightServer "a:1", lightServer "b:1"] :
        Versions RatFloat)
      freshRecord (NgxTime.ofSec 1) = .error .nullHeavy ∧
    ¬SafeSelection
      (primaryPeers [] [lightServer "a:1", lightServer "b:1"])
      (primaryVersions [lightServer "a:1", lightServer "b:1"] :
        Versions RatFloat)
      freshRecord (NgxTime.ofSec 1) := by
  refine ⟨primaryPeers_versioned _ _, ?_, by decide, rfl, ?_⟩
  · intro a
    exact ⟨_, _, (primaryVersions_initialised _ a).queueInv⟩
  · rintro ⟨sel, i, p, hrun, -⟩
    cases hrun

end MultiversionBalancer
