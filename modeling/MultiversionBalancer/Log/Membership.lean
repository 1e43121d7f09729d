import MultiversionBalancer.Log.OneServer

/-!
# The membership test across the wrap

A completion decides by two comparisons of numbers whether the node of its
request is covered by the summary.  In terms of the ledger they compare how
many dispatches and how many wraps of the completion counter there were since
the two nodes were dispatched.
-/

namespace MultiversionBalancer

open Lib

variable {F : Type} [CFloat F]

/-- `r->no <= recent_req_num || r->no > completed_requests + active_req`, with
the counters as the completion of `r` has just updated them. -/
def membershipTest (tp : NgxTime) (r : Request F) (v : VersionedServer F) :
    Bool :=
  let w := countCompletion tp r v
  r.no ≤ w.queue.oldRequests.recentReqNum ||
    w.completedRequests + w.activeReq < r.no

/-- The summary gives up a request that completes if it has an end and the
test succeeds. -/
theorem dropOldest_eq_of_test (tp : NgxTime) (r : Request F)
    (v : VersionedServer F) :
    let w := countCompletion tp r v
    let old := v.queue.oldRequests
    (dropOldest r.no r.startSec r.startMsec
        (w.completedRequests + w.activeReq) old).reqCount =
      if old.recentReq.isSome && membershipTest tp r v then old.reqCount - 1
      else old.reqCount := by
  have htest : membershipTest tp r v =
      (decide (r.no ≤ v.queue.oldRequests.recentReqNum) ||
        decide ((countCompletion tp r v).completedRequests +
          (countCompletion tp r v).activeReq < r.no)) := rfl
  dsimp only
  rw [htest]
  unfold dropOldest
  exact apply_ite OldRequests.reqCount _ _ _

/-- The node at the address `b` is the one at `c` or comes before it. -/
def AtOrBefore (ns : QueueNodes) (b c : ℕ) : Prop :=
  ∃ pre x post, ns = pre ++ (c, x) :: post ∧
    b ∈ (pre ++ [(c, x)]).map Prod.fst

namespace Ledger

/-- The dispatches to the version since that of the node at `b`. -/
def since (l : Ledger) (a b : ℕ) : ℤ := l.sent a - l.number a b

/-- The wraps of the completion counter since the dispatch of the node at `b`,
with the completion that is about to happen. -/
def wraps (l : Ledger) (a b : ℕ) : ℤ :=
  (l.done a + 1) / 2147483642 - l.before a b / 2147483642

/-- Where the test is right for the node at `b` and an end at `c`.  Behind the
end (`since` is smaller there) each wrap must be outweighed by dispatches;
before it, one of the two comparisons must succeed. -/
def TestRight (l : Ledger) (a b c : ℕ) : Prop :=
  if l.since a c ≤ l.since a b then
    l.wraps a b = l.wraps a c ∨ l.since a b < 2147483642 * l.wraps a b ∨
      2147483642 * (l.wraps a b - l.wraps a c) ≤ l.since a b - l.since a c
  else
    2147483642 * l.wraps a b ≤ l.since a b ∧
      2147483642 * (l.wraps a c - l.wraps a b) < l.since a c - l.since a b

end Ledger

section Order

variable {l : Ledger} {a b c : ℕ} {v : VersionedServer F} {ns : QueueNodes}

omit [CFloat F] in
/-- Nodes in front of a node were dispatched before it, those behind it
later. -/
theorem Labelled.around {pre post : QueueNodes} {x : ReqTime}
    (h : Labelled l a v (pre ++ (c, x) :: post)) :
    (∀ n ∈ pre, l.number a n.1 < l.number a c) ∧
      ∀ n ∈ post, l.number a c < l.number a n.1 := by
  have hnumbers : numbers (pre ++ (c, x) :: post) =
      numbers pre ++ (c, x.no) :: numbers post := by
    simp [numbers]
  have hordered := h.ordered
  rw [hnumbers, List.pairwise_append, List.pairwise_cons] at hordered
  obtain ⟨-, ⟨hbehind, -⟩, hbefore⟩ := hordered
  constructor
  · intro n hn
    exact (hbefore (n.1, n.2.no) (List.mem_map.mpr ⟨n, hn, rfl⟩) (c, x.no)
      List.mem_cons_self).1
  · intro n hn
    exact (hbehind (n.1, n.2.no) (List.mem_map.mpr ⟨n, hn, rfl⟩)).1

omit [CFloat F] in
/-- The order of the nodes is that of their dispatches. -/
theorem Labelled.atOrBefore_iff (h : Labelled l a v ns)
    (hb : b ∈ ns.map Prod.fst) (hc : c ∈ ns.map Prod.fst) :
    AtOrBefore ns b c ↔ l.since a c ≤ l.since a b := by
  constructor
  · rintro ⟨pre, x, post, rfl, hmem⟩
    rw [List.map_append, List.map_singleton] at hmem
    rcases List.mem_append.mp hmem with hmem | hmem
    · obtain ⟨n, hn, rfl⟩ := List.mem_map.mp hmem
      have hlt := h.around.1 n hn
      unfold Ledger.since
      omega
    · rw [List.mem_singleton.mp hmem]
  · intro hle
    obtain ⟨m, hm, rfl⟩ := List.mem_map.mp hc
    obtain ⟨pre, post, rfl⟩ := List.append_of_mem hm
    refine ⟨pre, m.2, post, rfl, ?_⟩
    by_contra hmem
    obtain ⟨n, hn, rfl⟩ := List.mem_map.mp hb
    have hpost : n ∈ post := by
      rw [List.append_cons] at hn
      rcases List.mem_append.mp hn with hn | hn
      · exact absurd (List.mem_map_of_mem hn) hmem
      · exact hn
    have hlt := h.around.2 n hpost
    unfold Ledger.since at hle
    omega

omit [CFloat F] in
/-- Of two nodes the later one has seen at least as many completions. -/
theorem Labelled.before_le (h : Labelled l a v ns) (hb : b ∈ ns.map Prod.fst)
    (hc : c ∈ ns.map Prod.fst) (hle : l.number a b ≤ l.number a c) :
    l.before a b ≤ l.before a c := by
  obtain ⟨m, hm, rfl⟩ := List.mem_map.mp hb
  obtain ⟨n, hn, rfl⟩ := List.mem_map.mp hc
  have hfirst : (numbers ns).Pairwise fun m n =>
      l.number a m.1 ≤ l.number a n.1 → l.before a m.1 ≤ l.before a n.1 :=
    h.ordered.imp fun hmn _ => hmn.2
  have hsecond : (numbers ns).Pairwise fun m n =>
      l.number a n.1 ≤ l.number a m.1 → l.before a n.1 ≤ l.before a m.1 :=
    h.ordered.imp fun hmn hle => absurd hmn.1 (not_lt.mpr hle)
  exact hfirst.forall_of_forall_of_flip (fun _ _ _ => le_rfl) hsecond
    (List.mem_map.mpr ⟨m, hm, rfl⟩ : (m.1, m.2.no) ∈ numbers ns)
    (List.mem_map.mpr ⟨n, hn, rfl⟩ : (n.1, n.2.no) ∈ numbers ns) hle

omit [CFloat F] in
theorem Labelled.number_injective (h : Labelled l a v ns)
    (hb : b ∈ ns.map Prod.fst) (hc : c ∈ ns.map Prod.fst)
    (heq : l.number a b = l.number a c) : b = c := by
  obtain ⟨m, hm, rfl⟩ := List.mem_map.mp hb
  obtain ⟨n, hn, rfl⟩ := List.mem_map.mp hc
  have hfirst : (numbers ns).Pairwise fun m n =>
      l.number a m.1 = l.number a n.1 → m.1 = n.1 :=
    h.ordered.imp fun hmn heq => absurd heq hmn.1.ne
  have hsecond : (numbers ns).Pairwise fun m n =>
      l.number a n.1 = l.number a m.1 → n.1 = m.1 :=
    h.ordered.imp fun hmn heq => absurd heq hmn.1.ne'
  exact hfirst.forall_of_forall_of_flip (fun _ _ _ => rfl) hsecond
    (List.mem_map.mpr ⟨m, hm, rfl⟩ : (m.1, m.2.no) ∈ numbers ns)
    (List.mem_map.mpr ⟨n, hn, rfl⟩ : (n.1, n.2.no) ∈ numbers ns) heq

omit [CFloat F] in
theorem Labelled.wraps_le (h : Labelled l a v ns) (hb : b ∈ ns.map Prod.fst)
    (hc : c ∈ ns.map Prod.fst) (hle : l.since a b ≤ l.since a c) :
    l.wraps a b ≤ l.wraps a c := by
  have hbefore := h.before_le hc hb (by unfold Ledger.since at hle; omega)
  unfold Ledger.wraps
  omega

omit [CFloat F] in
theorem Labelled.since_nonneg (h : Labelled l a v ns)
    (hb : b ∈ ns.map Prod.fst) : 0 ≤ l.since a b ∧ 0 ≤ l.wraps a b := by
  obtain ⟨n, hn, rfl⟩ := List.mem_map.mp hb
  obtain ⟨hpast, hnonneg, hdone⟩ := h.past (n.1, n.2.no)
    (List.mem_map.mpr ⟨n, hn, rfl⟩)
  dsimp only at hpast hnonneg hdone
  unfold Ledger.since Ledger.wraps
  exact ⟨by omega, by omega⟩

end Order

/-- What the two comparisons say in terms of the ledger. -/
theorem Labelled.membershipTest_iff {l : Ledger} {a b c : ℕ}
    {v : VersionedServer F} {ns : QueueNodes} {r : Request F} {y : ReqTime}
    (tp : NgxTime) (h : Labelled l a v ns) (hb : (b, r.node) ∈ ns)
    (hc : (c, y) ∈ ns) (hrecent : y.no = v.queue.oldRequests.recentReqNum) :
    membershipTest tp r v = true ↔
      2147483642 * (l.wraps a b - l.wraps a c) ≤ l.since a b - l.since a c ∨
        l.since a b < 2147483642 * l.wraps a b := by
  have hbno := h.number (b, r.no) (List.mem_map.mpr ⟨_, hb, rfl⟩)
  have hcno := h.number (c, y.no) (List.mem_map.mpr ⟨_, hc, rfl⟩)
  have hcompleted : (countCompletion tp r v).completedRequests =
      (l.done a + 1) % 2147483642 := by
    simp only [countCompletion]
    rw [h.completed, h.bound]
    exact Int.emod_add_emod ..
  have hactive : (countCompletion tp r v).activeReq =
      l.sent a - l.done a - 1 := by
    simp only [countCompletion]
    rw [h.active]
  have hdiv := Int.emod_add_mul_ediv (l.done a + 1) 2147483642
  dsimp only at hbno hcno
  have htest : membershipTest tp r v = true ↔
      r.no ≤ v.queue.oldRequests.recentReqNum ∨
        (countCompletion tp r v).completedRequests +
          (countCompletion tp r v).activeReq < r.no := by
    unfold membershipTest
    rw [Bool.or_eq_true, decide_eq_true_eq, decide_eq_true_eq]
    rfl
  rw [htest, hcompleted, hactive, ← hrecent, hbno, hcno]
  unfold Ledger.since Ledger.wraps
  constructor
  · intro hor
    omega
  · intro hor
    omega

/-- In every run, whether the test of a completion says correctly if the node
of the request is at or before the end of the summary.  With fewer than
`req_upper_bound` dispatches since those of the two nodes, that is when the
node is at or before the end, or when the counter has not wrapped since the
dispatch of the end.  The summary gives the request up if the test
succeeds. -/
theorem membership_test_right_iff (conf : UpstreamConf)
    (x : Ledger × System F) (h : Ledgered conf (fun _ _ => True) x)
    (tp : NgxTime) (i a b c : ℕ) (r : Request F)
    (hi : x.2.requests[i]? = some r) (hr : r.logged = false)
    (ha : r.version = some a) (hb : r.enterTime = some b)
    (hc : (x.2.upstream.versions a).queue.oldRequests.recentReq = some c)
    (ns : QueueNodes)
    (hns : Chain (x.2.upstream.versions a).queue.nodes
      (x.2.upstream.versions a).queue.reqTimes ns none) :
    ((membershipTest tp r (x.2.upstream.versions a) = true ↔
        AtOrBefore ns b c) ↔ x.1.TestRight a b c) ∧
      (x.1.since a b < 2147483642 → x.1.since a c < 2147483642 →
        (x.1.TestRight a b c ↔ AtOrBefore ns b c ∨ x.1.wraps a c = 0)) ∧
      (dropOldest r.no r.startSec r.startMsec
          ((countCompletion tp r (x.2.upstream.versions a)).completedRequests +
            (countCompletion tp r (x.2.upstream.versions a)).activeReq)
          (x.2.upstream.versions a).queue.oldRequests).reqCount =
        if membershipTest tp r (x.2.upstream.versions a) then
          (x.2.upstream.versions a).queue.oldRequests.reqCount - 1
        else (x.2.upstream.versions a).queue.oldRequests.reqCount := by
  have hdrop := dropOldest_eq_of_test tp r (x.2.upstream.versions a)
  dsimp only at hdrop
  rw [hc, Option.isSome_some, Bool.true_and] at hdrop
  rw [← and_assoc]
  refine ⟨?_, hdrop⟩
  obtain ⟨ms, hlinked, hnodes, hlabelled⟩ := (ledgered_ok h).linked.queue a
  obtain rfl := chain_unique hns hlinked.chain
  obtain ⟨b', hb', hmem⟩ := hnodes.mem i r hi ⟨hr, ha⟩
  obtain rfl := Option.some.inj (hb.symm.trans hb')
  obtain ⟨hbmem, -⟩ := mem_liveNodes.mp hmem
  obtain ⟨y, hcmem, hrecent⟩ := hlinked.recent c hc
  have hbfst : b ∈ ns.map Prod.fst := List.mem_map.mpr ⟨_, hbmem, rfl⟩
  have hcfst : c ∈ ns.map Prod.fst := List.mem_map.mpr ⟨_, hcmem, rfl⟩
  have htest := hlabelled.membershipTest_iff tp hbmem hcmem hrecent
  have hposition := hlabelled.atOrBefore_iff hbfst hcfst
  obtain ⟨hbsince, hbwraps⟩ := hlabelled.since_nonneg hbfst
  obtain ⟨hcsince, hcwraps⟩ := hlabelled.since_nonneg hcfst
  have hbc := hlabelled.wraps_le hbfst hcfst
  have hcb := hlabelled.wraps_le hcfst hbfst
  rw [htest, hposition]
  unfold Ledger.TestRight
  by_cases hle : x.1.since a c ≤ x.1.since a b
  · have hmono := hcb hle
    rw [if_pos hle]
    refine ⟨?_, fun hb hc => ?_⟩
    · omega
    · omega
  · have hmono := hbc (le_of_not_ge hle)
    rw [if_neg hle]
    refine ⟨?_, fun hb hc => ?_⟩
    · omega
    · omega

/-! ## A wrap -/

/-- Two requests are on the one server, whose counter the next completion
wraps, and the summary does not end with the second. -/
structure AtWrap (l : Ledger) (s : System RatFloat) (i : ℕ)
    (r₁ r₂ : Request RatFloat) (b₁ b₂ c : ℕ) : Prop where
  ledgered : Ledgered errorConf (fun _ _ => True) (l, s)
  server : OneServer s
  logged : loggedCount s = 2147483641
  sent : l.sent 0 = 2147483643
  done : l.done 0 = 2147483641
  first : s.requests[i]? = some r₁
  second : s.requests[i + 1]? = some r₂
  servingFirst : Serving r₁ b₁
  servingSecond : Serving r₂ b₂
  recent : (s.upstream.versions 0).queue.oldRequests.recentReq = some c
  recent_ne : c ≠ b₂
  last : l.number 0 b₂ = 2147483643

theorem exists_atWrap : ∃ l s i r₁ r₂ b₁ b₂ c, AtWrap l s i r₁ r₂ b₁ b₂ c := by
  obtain ⟨l, s, hrun, hone, hcount, hsent, hdone⟩ :=
    oneServer_count (F := RatFloat) errorConf 2147483641 (by norm_num)
  obtain ⟨s₁, r₁, b₁, hrun₁, hone₁, hrequests₁, hr₁, -⟩ :=
    hone.send hrun (by omega) fun _ _ _ => trivial
  have hcount₁ : loggedCount s₁ = 2147483641 := by
    rw [← hcount, loggedCount, hrequests₁, List.countP_append, loggedCount]
    simp [hr₁.waiting.1]
  have hactive : (s₁.upstream.versions 0).activeReq ≠ 0 := by
    obtain ⟨ns, -, -, hlabelled⟩ := (ledgered_ok hrun₁).linked.queue 0
    rw [hlabelled.active]
    simp [Ledger.dispatch, hsent, hdone]
  obtain ⟨s₂, r₂, b₂, hrun₂, hone₂, hrequests₂, hr₂, hrecent⟩ :=
    hone₁.send hrun₁ (by omega) fun _ _ _ => trivial
  obtain ⟨c, hc, hcb⟩ := hrecent hactive
  have hcount₂ : loggedCount s₂ = 2147483641 := by
    rw [← hcount₁, loggedCount, hrequests₂, List.countP_append, loggedCount]
    simp [hr₂.waiting.1]
  refine ⟨_, s₂, s.requests.length, r₁, r₂, b₁, b₂, c,
    { ledgered := hrun₂
      server := hone₂
      logged := hcount₂
      sent := ?_
      done := hdone
      first := ?_
      second := ?_
      servingFirst := hr₁
      servingSecond := hr₂
      recent := hc
      recent_ne := hcb
      last := ?_ }⟩
  · simp [Ledger.dispatch, hsent]
  · rw [hrequests₂, hrequests₁]
    simp
  · rw [hrequests₂, hrequests₁]
    simp
  · simp [Ledger.dispatch, hsent]

namespace AtWrap

variable {l : Ledger} {s : System RatFloat} {i : ℕ} {r₁ r₂ : Request RatFloat}
  {b₁ b₂ c : ℕ}

/-- The completion of a request that was sent before the wrap counts it. -/
theorem wraps_eq (h : AtWrap l s i r₁ r₂ b₁ b₂ c) {ns : QueueNodes} {b : ℕ}
    (hlabelled : Labelled l 0 (s.upstream.versions 0) ns)
    (hb : b ∈ ns.map Prod.fst) : l.wraps 0 b = 1 := by
  obtain ⟨n, hn, rfl⟩ := List.mem_map.mp hb
  obtain ⟨-, hnonneg, hle⟩ := hlabelled.past (n.1, n.2.no)
    (List.mem_map.mpr ⟨n, hn, rfl⟩)
  dsimp only at hnonneg hle
  have hdone := h.done
  unfold Ledger.wraps
  omega

/-- The second request is the last one, behind the end of the summary. -/
theorem second_behind (h : AtWrap l s i r₁ r₂ b₁ b₂ c) {ns : QueueNodes}
    (hlabelled : Labelled l 0 (s.upstream.versions 0) ns)
    (hb : b₂ ∈ ns.map Prod.fst) (hc : c ∈ ns.map Prod.fst) :
    ¬AtOrBefore ns b₂ c := by
  rw [hlabelled.atOrBefore_iff hb hc]
  intro hle
  refine h.recent_ne (hlabelled.number_injective hc hb ?_)
  have hnonneg := (hlabelled.since_nonneg hc).1
  have hlast := h.last
  have hsent := h.sent
  unfold Ledger.since at hle hnonneg
  omega

/-- Before the wrap the numbers of the nodes are those of the dispatches. -/
theorem number_eq (h : AtWrap l s i r₁ r₂ b₁ b₂ c) {ns : QueueNodes}
    (hlabelled : Labelled l 0 (s.upstream.versions 0) ns) {n : ℕ × ReqTime}
    (hn : n ∈ ns) : l.number 0 n.1 = n.2.no := by
  have hmem : (n.1, n.2.no) ∈ numbers ns := List.mem_map.mpr ⟨n, hn, rfl⟩
  have hnumber := hlabelled.number _ hmem
  obtain ⟨-, hnonneg, hle⟩ := hlabelled.past _ hmem
  have hdone := h.done
  dsimp only at hnumber hnonneg hle
  omega

theorem exists_covered (h : AtWrap l s i r₁ r₂ b₁ b₂ c) {ns : QueueNodes}
    {active total : ℤ} (hlabelled : Labelled l 0 (s.upstream.versions 0) ns)
    (hinv : QueueInv active total (s.upstream.versions 0).queue ns) :
    ∃ n ∈ liveNodes ns, AtOrBefore ns n.1 c := by
  obtain ⟨y, hy, hno⟩ := hinv.summary.recent_mem c h.recent
  obtain ⟨n, hn⟩ : ∃ n, n ∈ coveredNodes
      (s.upstream.versions 0).queue.oldRequests.recentReqNum ns := by
    refine List.exists_mem_of_length_pos (Nat.pos_of_ne_zero fun hzero => ?_)
    have hcount := hinv.summary.count_eq
    rw [hzero] at hcount
    have hnone := hinv.summary.recent_none_iff.mpr hcount
    rw [h.recent] at hnone
    cases hnone
  obtain ⟨hmem, hlive, hle⟩ := mem_coveredNodes.mp hn
  refine ⟨n, mem_liveNodes.mpr ⟨hmem, hlive⟩, ?_⟩
  rw [hlabelled.atOrBefore_iff (List.mem_map.mpr ⟨n, hmem, rfl⟩)
    (List.mem_map.mpr ⟨(c, y), hy, rfl⟩)]
  have hnumber : l.number 0 n.1 = n.2.no := h.number_eq hlabelled hmem
  have hcnumber : l.number 0 c = y.no := h.number_eq hlabelled hy
  dsimp only [Ledger.since]
  omega

/-- The live nodes are those of the two requests. -/
theorem live_eq (h : AtWrap l s i r₁ r₂ b₁ b₂ c) {ns : QueueNodes}
    (hlive : (liveNodes ns).length = 2) (hnodes : NodesOf s.requests 0 ns) :
    ∀ n ∈ liveNodes ns, n.1 = b₁ ∨ n.1 = b₂ := by
  obtain ⟨b, hb, hfirst⟩ := hnodes.mem i r₁ h.first h.servingFirst.waiting
  obtain rfl := Option.some.inj (h.servingFirst.enterTime.symm.trans hb)
  obtain ⟨b, hb, hsecond⟩ :=
    hnodes.mem (i + 1) r₂ h.second h.servingSecond.waiting
  obtain rfl := Option.some.inj (h.servingSecond.enterTime.symm.trans hb)
  have hne : b₁ ≠ b₂ := by
    intro heq
    refine absurd (hnodes.inj i (i + 1) r₁ r₂ h.first h.second
      h.servingFirst.waiting h.servingSecond.waiting ?_) (Nat.ne_add_one i)
    rw [h.servingFirst.enterTime, h.servingSecond.enterTime, heq]
  obtain ⟨m₁, m₂, hlist⟩ := List.length_eq_two.mp hlive
  rw [hlist] at hfirst hsecond ⊢
  simp only [List.mem_cons, List.not_mem_nil, or_false] at hfirst hsecond
  intro n hn
  simp only [List.mem_cons, List.not_mem_nil, or_false] at hn
  grind

theorem first_covered (h : AtWrap l s i r₁ r₂ b₁ b₂ c) {ns : QueueNodes}
    (hlabelled : Labelled l 0 (s.upstream.versions 0) ns)
    (hchain : Chain (s.upstream.versions 0).queue.nodes
      (s.upstream.versions 0).queue.reqTimes ns none)
    (hc : c ∈ ns.map Prod.fst) : AtOrBefore ns b₁ c := by
  obtain ⟨ms, hinv, hnodes⟩ := (queuesOk_of_few h.ledgered.reachable
    (by rw [h.logged]; norm_num)).queue 0
  obtain rfl := chain_unique hchain hinv.chain
  have htwo : (liveNodes ns).length = 2 := by
    have hcount := hinv.live_count
    rw [hlabelled.active, h.sent, h.done] at hcount
    omega
  obtain ⟨n, hn, hbefore⟩ := h.exists_covered hlabelled hinv
  rcases h.live_eq htwo hnodes n hn with hfirst | hsecond
  · rwa [hfirst] at hbefore
  · have hmem : b₂ ∈ ns.map Prod.fst :=
      List.mem_map.mpr ⟨n, (mem_liveNodes.mp hn).1, hsecond⟩
    rw [hsecond] at hbefore
    exact absurd hbefore (h.second_behind hlabelled hmem hc)

end AtWrap

/-- The first request completes: the completion wraps the counter, and the test
rightly takes the request for covered. -/
theorem membership_test_right_iff_wrap :
    ∃ (l : Ledger) (s : System RatFloat) (i b c : ℕ) (r : Request RatFloat)
      (ns : QueueNodes),
      Ledgered errorConf (fun _ _ => True) (l, s) ∧
      s.requests[i]? = some r ∧ r.Waiting 0 ∧ r.enterTime = some b ∧
      (s.upstream.versions 0).queue.oldRequests.recentReq = some c ∧
      Chain (s.upstream.versions 0).queue.nodes
        (s.upstream.versions 0).queue.reqTimes ns none ∧
      l.wraps 0 b = 1 ∧ AtOrBefore ns b c ∧
      membershipTest (NgxTime.ofSec 1) r (s.upstream.versions 0) = true := by
  obtain ⟨l, s, i, r₁, r₂, b₁, b₂, c, h⟩ := exists_atWrap
  obtain ⟨ns, hlinked, hnodes, hlabelled⟩ :=
    (ledgered_ok h.ledgered).linked.queue 0
  obtain ⟨b, hb, hlive⟩ := hnodes.mem i r₁ h.first h.servingFirst.waiting
  obtain rfl := Option.some.inj (h.servingFirst.enterTime.symm.trans hb)
  have hbfst : b₁ ∈ ns.map Prod.fst :=
    List.mem_map.mpr ⟨_, (mem_liveNodes.mp hlive).1, rfl⟩
  obtain ⟨y, hy, -⟩ := hlinked.recent c h.recent
  have hcfst : c ∈ ns.map Prod.fst := List.mem_map.mpr ⟨_, hy, rfl⟩
  have hbefore := h.first_covered hlabelled hlinked.chain hcfst
  have hwrap := h.wraps_eq hlabelled hbfst
  have hright : l.TestRight 0 b₁ c := by
    unfold Ledger.TestRight
    rw [if_pos ((hlabelled.atOrBefore_iff hbfst hcfst).mp hbefore)]
    exact .inl (hwrap.trans (h.wraps_eq hlabelled hcfst).symm)
  obtain ⟨htest, -⟩ := membership_test_right_iff errorConf (l, s) h.ledgered
    (NgxTime.ofSec 1) i 0 b₁ c r₁ h.first h.servingFirst.waiting.1
    h.servingFirst.waiting.2 h.servingFirst.enterTime h.recent ns hlinked.chain
  exact ⟨l, s, i, b₁, c, r₁, ns, h.ledgered, h.first, h.servingFirst.waiting,
    h.servingFirst.enterTime, h.recent, hlinked.chain, hwrap, hbefore,
    (htest.mpr hright).mpr hbefore⟩

/-- The second request completes first: the test takes it for covered by a
summary that ends before it. -/
theorem membership_test_wrong :
    ∃ (x : Ledger × System RatFloat) (s' : System RatFloat) (i b c : ℕ)
      (r : Request RatFloat) (ns : QueueNodes),
      Ledgered errorConf (fun _ _ => True) x ∧
      x.2.requests[i]? = some r ∧ r.version = some 0 ∧
      r.enterTime = some b ∧
      step errorConf x.2 (.complete i (NgxTime.ofSec 1)) = .ok s' ∧
      (x.2.upstream.versions 0).queue.oldRequests.recentReq = some c ∧
      Chain (x.2.upstream.versions 0).queue.nodes
        (x.2.upstream.versions 0).queue.reqTimes ns none ∧
      membershipTest (NgxTime.ofSec 1) r (x.2.upstream.versions 0) = true ∧
      ¬AtOrBefore ns b c := by
  obtain ⟨l, s, i, r₁, r₂, b₁, b₂, c, h⟩ := exists_atWrap
  obtain ⟨s', hstep, -⟩ := h.server.finish h.ledgered trivial
    (by rw [h.logged]; norm_num) h.second h.servingSecond
    (by rw [h.sent, h.done]; norm_num)
  obtain ⟨ns, hlinked, hnodes, hlabelled⟩ :=
    (ledgered_ok h.ledgered).linked.queue 0
  obtain ⟨b, hb, hlive⟩ :=
    hnodes.mem (i + 1) r₂ h.second h.servingSecond.waiting
  obtain rfl := Option.some.inj (h.servingSecond.enterTime.symm.trans hb)
  obtain ⟨hbmem, -⟩ := mem_liveNodes.mp hlive
  obtain ⟨y, hcmem, hno⟩ := hlinked.recent c h.recent
  have hbfst : b₂ ∈ ns.map Prod.fst := List.mem_map.mpr ⟨_, hbmem, rfl⟩
  have hcfst : c ∈ ns.map Prod.fst := List.mem_map.mpr ⟨_, hcmem, rfl⟩
  refine ⟨(l, s), s', i + 1, b₂, c, r₂, ns, h.ledgered, h.second,
    h.servingSecond.waiting.2, h.servingSecond.enterTime, hstep, h.recent,
    hlinked.chain, ?_, h.second_behind hlabelled hbfst hcfst⟩
  refine (hlabelled.membershipTest_iff _ hbmem hcmem hno).mpr (.inr ?_)
  rw [h.wraps_eq hlabelled hbfst]
  unfold Ledger.since
  rw [h.last, h.sent]
  decide

end MultiversionBalancer
