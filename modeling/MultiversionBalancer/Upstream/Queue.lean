import MultiversionBalancer.Log.RequestTime
import Mathlib.Algebra.BigOperators.Group.List.Basic
import Mathlib.Tactic.Ring

/-!
# The request queue of a version

Four places edit the queue of a version and its summary of the oldest
requests: the dispatch of a request appends a node, the selection loop prunes
completed nodes from the head, the completion of a request marks its node, and
the top-up loop extends the summary and unlinks completed nodes behind it.

`QueueInv` is what all of them keep.  It relates the linked nodes to a plain
list `ns`, so that each operation is specified by what it does to that list;
the live nodes, those of requests that have not completed, are never removed.
-/

namespace MultiversionBalancer

open Lib

abbrev QueueNodes := List (ℕ × ReqTime)

/-- Milliseconds from the start of a request to the given time. -/
def ReqTime.age (sec msec : ℤ) (x : ReqTime) : ℤ :=
  1000 * (sec - x.sec) + (msec - x.msec)

/-- The nodes of requests that have not completed. -/
def liveNodes (ns : QueueNodes) : QueueNodes :=
  ns.filter fun n => n.2.live

/-- The live nodes up to the number `num`. -/
def coveredNodes (num : ℤ) (ns : QueueNodes) : QueueNodes :=
  (liveNodes ns).filter fun n => decide (n.2.no ≤ num)

/-- The total age of the given nodes. -/
def totalAge (sec msec : ℤ) (ns : QueueNodes) : ℤ :=
  (ns.map fun n => n.2.age sec msec).sum

/-- The summary describes exactly the live nodes up to its most recent one. -/
structure SummaryInv (total : ℤ) (old : OldRequests) (ns : QueueNodes) :
    Prop where
  recent_none_iff : old.recentReq = none ↔ old.reqCount = 0
  recent_mem : ∀ a, old.recentReq = some a →
    ∃ x, (a, x) ∈ ns ∧ x.no = old.recentReqNum
  count_eq : old.reqCount = (coveredNodes old.recentReqNum ns).length
  time_eq : old.timeSum =
    totalAge old.updatedSec old.updatedMsec (coveredNodes old.recentReqNum ns)
  num_le : old.recentReqNum ≤ total

/-- The representation invariant of a queue with nodes `ns`, for a version
with `active` active requests and `total` dispatches so far. -/
structure QueueInv (active total : ℤ) (q : RequestQueue) (ns : QueueNodes) :
    Prop where
  chain : Chain q.nodes q.reqTimes ns none
  bounded : q.nodes.Bounded
  increasing : ns.Pairwise fun m n => m.2.no < n.2.no
  tail : ∀ n, ns.getLast? = some n → q.reqTail = some n.1
  live_count : ((liveNodes ns).length : ℤ) = active
  no_le : ∀ n ∈ ns, n.2.no ≤ total
  summary : SummaryInv total q.oldRequests ns

/-! ## Lists of nodes -/

@[simp] theorem liveNodes_nil : liveNodes [] = [] := rfl

theorem liveNodes_cons_live {n : ℕ × ReqTime} (ns : QueueNodes)
    (hn : n.2.live = true) : liveNodes (n :: ns) = n :: liveNodes ns := by
  simp [liveNodes, hn]

theorem liveNodes_cons_dead {n : ℕ × ReqTime} (ns : QueueNodes)
    (hn : n.2.live = false) : liveNodes (n :: ns) = liveNodes ns := by
  simp [liveNodes, hn]

@[simp] theorem liveNodes_append (ns ms : QueueNodes) :
    liveNodes (ns ++ ms) = liveNodes ns ++ liveNodes ms := by
  simp [liveNodes]

theorem mem_liveNodes {n : ℕ × ReqTime} {ns : QueueNodes} :
    n ∈ liveNodes ns ↔ n ∈ ns ∧ n.2.live = true := by
  simp [liveNodes]

theorem mem_coveredNodes {n : ℕ × ReqTime} {num : ℤ} {ns : QueueNodes} :
    n ∈ coveredNodes num ns ↔
      n ∈ ns ∧ n.2.live = true ∧ n.2.no ≤ num := by
  simp [coveredNodes, mem_liveNodes, and_assoc]

theorem coveredNodes_append (num : ℤ) (ns ms : QueueNodes) :
    coveredNodes num (ns ++ ms) =
      coveredNodes num ns ++ coveredNodes num ms := by
  simp [coveredNodes]

/-- Nodes numbered above `num` are not covered. -/
theorem coveredNodes_eq_nil {num : ℤ} {ns : QueueNodes}
    (hns : ∀ n ∈ ns, num < n.2.no) : coveredNodes num ns = [] := by
  refine List.eq_nil_iff_forall_not_mem.mpr fun n hn => ?_
  obtain ⟨hmem, -, hle⟩ := mem_coveredNodes.mp hn
  exact absurd (hns n hmem) (not_lt.mpr hle)

theorem coveredNodes_eq_liveNodes {num : ℤ} {ns : QueueNodes}
    (hns : ∀ n ∈ ns, n.2.no ≤ num) :
    coveredNodes num ns = liveNodes ns := by
  refine List.filter_eq_self.mpr fun n hn => ?_
  simpa using hns n (mem_liveNodes.mp hn).1

/-- Cut an increasing list at a node: exactly the live nodes up to the cut are
covered by its number. -/
theorem coveredNodes_split {pre post : QueueNodes} {n : ℕ × ReqTime}
    (hinc : (pre ++ n :: post).Pairwise fun m n => m.2.no < n.2.no) :
    coveredNodes n.2.no (pre ++ n :: post) = liveNodes (pre ++ [n]) := by
  rw [List.pairwise_append, List.pairwise_cons] at hinc
  obtain ⟨-, ⟨hpost, -⟩, hpre⟩ := hinc
  have hsplit : pre ++ n :: post = (pre ++ [n]) ++ post := by simp
  rw [hsplit, coveredNodes_append, coveredNodes_eq_nil hpost, List.append_nil]
  refine coveredNodes_eq_liveNodes fun m hm => ?_
  rcases List.mem_append.mp hm with hm | hm
  · exact le_of_lt (hpre m hm n (by simp))
  · rw [List.mem_singleton.mp hm]

theorem totalAge_cons (sec msec : ℤ) (n : ℕ × ReqTime) (ns : QueueNodes) :
    totalAge sec msec (n :: ns) = n.2.age sec msec + totalAge sec msec ns := by
  simp [totalAge]

theorem totalAge_append (sec msec : ℤ) (ns ms : QueueNodes) :
    totalAge sec msec (ns ++ ms) = totalAge sec msec ns + totalAge sec msec ms := by
  simp [totalAge]

/-- Moving the reference time moves every age by the same amount. -/
theorem totalAge_shift (sec msec sec' msec' : ℤ) (ns : QueueNodes) :
    totalAge sec' msec' ns = totalAge sec msec ns +
      ns.length * (1000 * (sec' - sec) + (msec' - msec)) := by
  induction ns with
  | nil => simp [totalAge]
  | cons n ns ih =>
      rw [totalAge_cons, totalAge_cons, ih, List.length_cons]
      simp only [ReqTime.age]
      push_cast
      ring

/-! ## Consequences of the invariant -/

theorem queueInv_customServerInit {F : Type} [CFloat F] (id : ℤ) :
    QueueInv 0 0 (customServerInit id : VersionedServer F).queue [] where
  chain := rfl
  bounded := Heap.bounded_empty
  increasing := List.Pairwise.nil
  tail := by simp
  live_count := rfl
  no_le := by simp
  summary :=
    { recent_none_iff := by simp [customServerInit]
      recent_mem := by simp [customServerInit]
      count_eq := rfl
      time_eq := rfl
      num_le := le_rfl }

variable {active total : ℤ} {q : RequestQueue} {ns : QueueNodes}

/-- A summary only looks at the live nodes and at its most recent node. -/
theorem SummaryInv.congr {old : OldRequests} {ms : QueueNodes}
    (h : SummaryInv total old ns) (hlive : liveNodes ms = liveNodes ns)
    (hrecent : ∀ a x, old.recentReq = some a → (a, x) ∈ ns → (a, x) ∈ ms) :
    SummaryInv total old ms where
  recent_none_iff := h.recent_none_iff
  recent_mem := by
    intro a ha
    obtain ⟨x, hx, hno⟩ := h.recent_mem a ha
    exact ⟨x, hrecent a x ha hx, hno⟩
  count_eq := by
    rw [coveredNodes, hlive]
    exact h.count_eq
  time_eq := by
    rw [coveredNodes, hlive]
    exact h.time_eq
  num_le := h.num_le

theorem SummaryInv.reqCount_nonneg {old : OldRequests}
    (h : SummaryInv total old ns) : 0 ≤ old.reqCount := by
  rw [h.count_eq]
  exact Int.natCast_nonneg _

/-- Addresses do not repeat: equal addresses would have equal numbers. -/
theorem QueueInv.nodup (h : QueueInv active total q ns) :
    (ns.map Prod.fst).Nodup := by
  rw [List.Nodup, List.pairwise_map]
  refine h.increasing.imp_of_mem fun {m n} hm hn hlt haddr => ?_
  obtain ⟨next, hcell⟩ := h.chain.cell_of_mem hm
  obtain ⟨next', hcell'⟩ := h.chain.cell_of_mem hn
  rw [haddr, hcell'] at hcell
  have hval : n.2 = m.2 := (Cell.mk.inj (Option.some.inj hcell)).1
  rw [hval] at hlt
  exact lt_irrefl _ hlt

/-- An address occurs with one value only. -/
theorem QueueInv.val_unique (h : QueueInv active total q ns) {a : ℕ}
    {x y : ReqTime} (hx : (a, x) ∈ ns) (hy : (a, y) ∈ ns) : x = y := by
  obtain ⟨next, hcell⟩ := h.chain.cell_of_mem hx
  obtain ⟨next', hcell'⟩ := h.chain.cell_of_mem hy
  rw [hcell] at hcell'
  exact (Cell.mk.inj (Option.some.inj hcell')).1

theorem QueueInv.length_le_fresh (h : QueueInv active total q ns) :
    ns.length ≤ q.nodes.fresh :=
  h.chain.length_le_fresh h.bounded h.nodup

theorem QueueInv.reqCount_le_active (h : QueueInv active total q ns) :
    q.oldRequests.reqCount ≤ active := by
  rw [h.summary.count_eq, ← h.live_count]
  exact Int.ofNat_le.mpr (List.length_filter_le _ _)

/-- A queue seen as empty by the program has no nodes. -/
theorem QueueInv.eq_nil_of_reqTimes (h : QueueInv active total q ns)
    (hnone : q.reqTimes = none) : ns = [] := by
  cases ns with
  | nil => rfl
  | cons n ns =>
      have hhead := h.chain.1
      rw [hnone] at hhead
      cases hhead

/-- The most recent covered node cuts the queue: the summary covers exactly
the live nodes up to it. -/
theorem QueueInv.covered_of_recent {pre post : QueueNodes} {c : ℕ}
    {y : ReqTime} (h : QueueInv active total q (pre ++ (c, y) :: post))
    (hrecent : q.oldRequests.recentReq = some c) :
    coveredNodes q.oldRequests.recentReqNum (pre ++ (c, y) :: post) =
      liveNodes (pre ++ [(c, y)]) := by
  obtain ⟨x, hmem, hno⟩ := h.summary.recent_mem c hrecent
  obtain rfl := h.val_unique (List.mem_append_right pre
    (List.mem_cons_self ..)) hmem
  rw [← hno]
  exact coveredNodes_split h.increasing

/-- The most recent covered node is not a completed head of the queue: it
would then cover nothing. -/
theorem QueueInv.recent_ne_dead_head {a : ℕ} {x : ReqTime}
    (h : QueueInv active total q ((a, x) :: ns)) (hdead : x.live = false) :
    q.oldRequests.recentReq ≠ some a := by
  intro hrecent
  obtain ⟨y, hmem, hno⟩ := h.summary.recent_mem a hrecent
  obtain rfl := h.val_unique (List.mem_cons_self ..) hmem
  have hcov := @coveredNodes_split [] ns (a, x) h.increasing
  have hcount := h.summary.count_eq
  rw [← hno] at hcount
  simp only [List.nil_append] at hcov
  rw [hcov, liveNodes_cons_dead [] hdead] at hcount
  have hnone := h.summary.recent_none_iff.mpr hcount
  rw [hrecent] at hnone
  cases hnone

/-! ## The summary -/

/-- Bringing the summary up to the current time keeps it exact. -/
theorem SummaryInv.advance {old : OldRequests} (tp : NgxTime)
    (h : SummaryInv total old ns) :
    SummaryInv total (advanceOldest tp old) ns where
  recent_none_iff := h.recent_none_iff
  recent_mem := h.recent_mem
  count_eq := h.count_eq
  time_eq := by
    have hshift := totalAge_shift old.updatedSec old.updatedMsec tp.sec
      tp.msec (coveredNodes old.recentReqNum ns)
    simp only [advanceOldest, NgxTime.since]
    rw [hshift, ← h.time_eq, ← h.count_eq]
  num_le := h.num_le

/-- Taking the next live node into the summary. -/
theorem QueueInv.cover {pre post : QueueNodes} {a : ℕ} {x : ReqTime}
    (h : QueueInv active total q (pre ++ (a, x) :: post))
    (hlive : x.live = true)
    (hcovered : coveredNodes q.oldRequests.recentReqNum
      (pre ++ (a, x) :: post) = liveNodes pre) :
    QueueInv active total
      { q with oldRequests := coverNode a x q.oldRequests }
      (pre ++ (a, x) :: post) := by
  have hsplit : coveredNodes x.no (pre ++ (a, x) :: post) =
      liveNodes pre ++ [(a, x)] := by
    have hcut := coveredNodes_split h.increasing
    rw [hcut, liveNodes_append, liveNodes_cons_live [] hlive, liveNodes_nil]
  have hnonneg := h.summary.reqCount_nonneg
  refine
    { h with
      summary :=
        { recent_none_iff := ?_
          recent_mem := ?_
          count_eq := ?_
          time_eq := ?_
          num_le := h.no_le (a, x) (by simp) } }
  · simp only [coverNode, reduceCtorEq, false_iff]
    omega
  · intro b hb
    obtain rfl := Option.some.inj hb
    exact ⟨x, by simp, rfl⟩
  · have hcount := h.summary.count_eq
    rw [hcovered] at hcount
    simp [coverNode, hsplit, hcount]
  · have htime := h.summary.time_eq
    rw [hcovered] at htime
    simp only [coverNode, hsplit, totalAge_append, htime]
    simp [totalAge, ReqTime.age]

theorem SummaryInv.covered_eq_nil {old : OldRequests}
    (h : SummaryInv total old ns) (hzero : old.reqCount = 0) :
    coveredNodes old.recentReqNum ns = [] := by
  have hlen := h.count_eq
  rw [hzero] at hlen
  exact List.length_eq_zero_iff.mp (Int.ofNat_eq_zero.mp hlen.symm)

/-! ## Pruning and seeding -/

/-- Releasing a completed head keeps the invariant. -/
theorem QueueInv.drop_dead_head {a : ℕ} {x : ReqTime} {next : Option ℕ}
    (h : QueueInv active total q ((a, x) :: ns)) (hdead : x.live = false)
    (hcell : q.nodes.cell a = some ⟨x, next⟩) :
    QueueInv active total
      { q with nodes := q.nodes.free a, reqTimes := next } ns := by
  have hnodup := h.nodup
  rw [List.map_cons, List.nodup_cons] at hnodup
  obtain ⟨-, next', hcell', hrest⟩ := h.chain
  have hnext : next' = next := by
    rw [hcell] at hcell'
    exact (Cell.mk.inj (Option.some.inj hcell')).2.symm
  subst hnext
  have hlive : liveNodes ((a, x) :: ns) = liveNodes ns :=
    liveNodes_cons_dead ns hdead
  refine
    { chain := hrest.free hnodup.1
      bounded := h.bounded.free a
      increasing := (List.pairwise_cons.mp h.increasing).2
      tail := ?_
      live_count := by rw [← hlive]; exact h.live_count
      no_le := fun n hn => h.no_le n (List.mem_cons_of_mem _ hn)
      summary := h.summary.congr hlive.symm ?_ }
  · intro n hn
    refine h.tail n ?_
    cases ns with
    | nil => simp at hn
    | cons m ms => rw [List.getLast?_cons_cons]; exact hn
  · intro b y hb hmem
    rcases List.mem_cons.mp hmem with heq | hmem
    · rw [(Prod.mk.inj heq).1] at hb
      exact absurd hb (h.recent_ne_dead_head hdead)
    · exact hmem

theorem live_eq_false_iff {x : ReqTime} : x.live = false ↔ x.sec = -1 := by
  simp [ReqTime.live]

/-- The pruning loop ends with the completed nodes gone from the head. -/
theorem pruneHead_spec {fuel : ℕ} (h : QueueInv active total q ns)
    (hfuel : ns.length < fuel) :
    ∃ q' ms, pruneHead fuel q = .ok q' ∧ QueueInv active total q' ms ∧
      liveNodes ms = liveNodes ns ∧
      ∀ n, ms.head? = some n → n.2.live = true := by
  -- induction on the nodes: each iteration either stops or drops the head
  induction ns generalizing q fuel with
  | nil =>
      obtain ⟨fuel, rfl⟩ := Nat.exists_eq_succ_of_ne_zero (Nat.ne_of_gt hfuel)
      have hnone : q.reqTimes = none := h.chain
      exact ⟨q, [], by simp [pruneHead, hnone], h, rfl, by simp⟩
  | cons n ns ih =>
      obtain ⟨a, x⟩ := n
      obtain ⟨fuel, rfl⟩ := Nat.exists_eq_succ_of_ne_zero
        (Nat.ne_of_gt (Nat.lt_of_le_of_lt (Nat.zero_le _) hfuel))
      obtain ⟨hhead, next, hcell, -⟩ := h.chain
      by_cases hdead : x.sec = -1
      · have hnot := h.recent_ne_dead_head (live_eq_false_iff.mpr hdead)
        have hinv := h.drop_dead_head (live_eq_false_iff.mpr hdead) hcell
        obtain ⟨q', ms, hrun, hinv', hlive, hhead'⟩ :=
          ih hinv (Nat.lt_of_succ_lt_succ hfuel)
        refine ⟨q', ms, ?_, hinv', ?_, hhead'⟩
        · simp only [pruneHead, hhead, hcell, hdead, if_true, hnot, if_false]
          exact hrun
        · rw [hlive, liveNodes_cons_dead ns (live_eq_false_iff.mpr hdead)]
      · refine ⟨q, (a, x) :: ns, ?_, h, rfl, ?_⟩
        · simp [pruneHead, hhead, hcell, hdead]
        · intro n hn
          obtain rfl := Option.some.inj hn
          simp [ReqTime.live, hdead]

/-- Seeding covers the head of a pruned queue; afterwards the summary is empty
only if the queue is. -/
theorem seedOldest_spec (tp : NgxTime) (h : QueueInv active total q ns)
    (hhead : ∀ n, ns.head? = some n → n.2.live = true) :
    ∃ q', seedOldest tp q = .ok q' ∧ QueueInv active total q' ns ∧
      (q'.oldRequests.reqCount = 0 ↔ active = 0) := by
  have hempty : active = 0 → q.oldRequests.reqCount = 0 := by
    intro hzero
    have hle := h.reqCount_le_active
    have hnonneg := h.summary.reqCount_nonneg
    omega
  cases hrecent : q.oldRequests.recentReq with
  | some c =>
      refine ⟨q, by simp [seedOldest, hrecent], h, ?_, hempty⟩
      intro hzero
      rw [h.summary.recent_none_iff.mpr hzero] at hrecent
      cases hrecent
  | none =>
      have hzero := h.summary.recent_none_iff.mp hrecent
      cases ns with
      | nil =>
          have hnone : q.reqTimes = none := h.chain
          have hactive : active = 0 := by
            rw [← h.live_count]
            rfl
          exact ⟨q, by simp [seedOldest, hrecent, hnone], h,
            fun _ => hactive, fun _ => hzero⟩
      | cons n ns =>
          obtain ⟨a, x⟩ := n
          obtain ⟨hfirst, next, hcell, -⟩ := h.chain
          have hlive : x.live = true := hhead (a, x) rfl
          have hactive : active ≠ 0 := by
            rw [← h.live_count, liveNodes_cons_live ns hlive,
              List.length_cons]
            omega
          -- an empty summary has no age, so bringing it up to date is free
          have hadvanced : QueueInv active total
              { q with oldRequests := advanceOldest tp q.oldRequests }
              ([] ++ (a, x) :: ns) :=
            { h with summary := h.summary.advance tp }
          have hinv := hadvanced.cover hlive
            (hadvanced.summary.covered_eq_nil hzero)
          refine ⟨_, ?_, hinv, ?_⟩
          · simp [seedOldest, hrecent, hfirst, hcell, coverNode, advanceOldest,
              hzero, NgxTime.since]
          · simp [coverNode, advanceOldest, hzero, hactive]

/-- What the selection loop does to the queue of an eligible peer keeps the
invariant and the live nodes, and leaves the summary empty only if there is no
active request. -/
theorem refreshQueue_spec (tp : NgxTime) (h : QueueInv active total q ns) :
    ∃ q' ms, refreshQueue tp q = .ok q' ∧ QueueInv active total q' ms ∧
      liveNodes ms = liveNodes ns ∧
      (q'.oldRequests.reqCount = 0 ↔ active = 0) := by
  obtain ⟨q₁, ms, hprune, hinv, hlive, hhead⟩ :=
    pruneHead_spec h (Nat.lt_succ_of_le h.length_le_fresh)
  obtain ⟨q', hseed, hinv', hcount⟩ := seedOldest_spec tp hinv hhead
  refine ⟨q', ms, ?_, hinv', hlive, hcount⟩
  simp only [refreshQueue, hprune]
  exact hseed

/-! ## Appending -/

/-- A node numbered above all others is not covered. -/
theorem SummaryInv.append {old : OldRequests} {a : ℕ} {x : ReqTime}
    (h : SummaryInv total old ns) (hno : x.no = total + 1) :
    SummaryInv (total + 1) old (ns ++ [(a, x)]) := by
  have hle := h.num_le
  have hcovered : coveredNodes old.recentReqNum (ns ++ [(a, x)]) =
      coveredNodes old.recentReqNum ns := by
    have hnil : coveredNodes old.recentReqNum [(a, x)] = [] := by
      refine coveredNodes_eq_nil fun n hn => ?_
      rw [List.mem_singleton.mp hn, hno]
      omega
    rw [coveredNodes_append, hnil, List.append_nil]
  refine
    { recent_none_iff := h.recent_none_iff
      recent_mem := ?_
      count_eq := by rw [hcovered]; exact h.count_eq
      time_eq := by rw [hcovered]; exact h.time_eq
      num_le := by omega }
  intro b hb
  obtain ⟨y, hmem, hy⟩ := h.recent_mem b hb
  exact ⟨y, List.mem_append_left _ hmem, hy⟩

/-- A queue with one more node behind the others, numbered above them. -/
theorem QueueInv.append {q' : RequestQueue} {a : ℕ} {x : ReqTime}
    (h : QueueInv active total q ns) (hlive : x.live = true)
    (hno : x.no = total + 1)
    (hchain : Chain q'.nodes q'.reqTimes (ns ++ [(a, x)]) none)
    (hbounded : q'.nodes.Bounded) (htail : q'.reqTail = some a)
    (hold : q'.oldRequests = q.oldRequests) :
    QueueInv (active + 1) (total + 1) q' (ns ++ [(a, x)]) where
  chain := hchain
  bounded := hbounded
  increasing := by
    rw [List.pairwise_append]
    refine ⟨h.increasing, List.pairwise_singleton _ _, ?_⟩
    intro m hm n hn
    rw [List.mem_singleton.mp hn, hno]
    exact Int.lt_add_one_of_le (h.no_le m hm)
  tail := by simp [htail]
  live_count := by
    rw [liveNodes_append, List.length_append, Nat.cast_add, h.live_count]
    simp [liveNodes, hlive]
  no_le := by
    intro n hn
    rcases List.mem_append.mp hn with hn | hn
    · exact le_trans (h.no_le n hn) (Int.le_add_one le_rfl)
    · rw [List.mem_singleton.mp hn, hno]
  summary := by
    rw [hold]
    exact h.summary.append hno

/-- A dispatch appends a node numbered just above all others. -/
theorem appendNode_spec {x : ReqTime} (h : QueueInv active total q ns)
    (hlive : x.live = true) (hno : x.no = total + 1) :
    ∃ q', appendNode x q = .ok q' ∧
      QueueInv (active + 1) (total + 1) q'
        (ns ++ [(q.nodes.fresh, x)]) := by
  rcases List.eq_nil_or_concat' ns with rfl | ⟨ms, ⟨t, y⟩, rfl⟩
  · have hnone : q.reqTimes = none := h.chain
    refine ⟨{ q with
        nodes := q.nodes.alloc { val := x, next := none }
        reqTimes := some q.nodes.fresh
        reqTail := some q.nodes.fresh }, by simp [appendNode, hnone], ?_⟩
    exact h.append hlive hno ⟨rfl, none, Heap.alloc_cell_fresh _ _, rfl⟩
      (h.bounded.alloc _) rfl rfl
  · have htail : q.reqTail = some t := h.tail (t, y) (by simp)
    obtain ⟨b, hb⟩ : ∃ b, q.reqTimes = some b := by
      cases hreq : q.reqTimes with
      | some b => exact ⟨b, rfl⟩
      | none => simpa using h.eq_nil_of_reqTimes hreq
    obtain ⟨next, hcell⟩ := (h.chain.alloc h.bounded
      { val := x, next := none }).cell_of_mem (n := (t, y)) (by simp)
    refine ⟨{ q with
        nodes := (q.nodes.alloc { val := x, next := none }).store t
          { val := y, next := some q.nodes.fresh }
        reqTail := some q.nodes.fresh },
      by simp [appendNode, hb, htail, hcell], ?_⟩
    exact h.append hlive hno (h.chain.link_last h.bounded h.nodup)
      ((h.bounded.alloc _).store hcell _) rfl rfl

/-! ## The top-up loop -/

/-- Unlinking a completed node behind the most recent one.  A live node must
follow it, so the tail of the queue stays where it is. -/
theorem QueueInv.unlink_dead {pre post : QueueNodes} {c a : ℕ}
    {y x : ReqTime} {next : Option ℕ}
    (h : QueueInv active total q (pre ++ (c, y) :: (a, x) :: post))
    (hdead : x.live = false)
    (hcell : q.nodes.cell a = some ⟨x, next⟩)
    (hrecent : q.oldRequests.recentReq = some c) (hpost : post ≠ []) :
    QueueInv active total
      { q with nodes := (q.nodes.store c ⟨y, next⟩).free a }
      (pre ++ (c, y) :: post) := by
  have hlive : liveNodes (pre ++ (c, y) :: post) =
      liveNodes (pre ++ (c, y) :: (a, x) :: post) := by
    simp only [liveNodes_append]
    simp only [liveNodes, List.filter_cons, hdead, Bool.false_eq_true, if_false]
  obtain ⟨next', hcellc⟩ := h.chain.cell_of_mem
    (n := (c, y)) (by simp)
  have hsub : (pre ++ (c, y) :: post).Sublist
      (pre ++ (c, y) :: (a, x) :: post) :=
    List.Sublist.append_left
      (List.Sublist.cons_cons _ (List.sublist_cons_self ..)) pre
  refine
    { chain := h.chain.unlink hcell h.nodup
      bounded := (h.bounded.store hcellc _).free a
      increasing := h.increasing.sublist hsub
      tail := ?_
      live_count := by rw [hlive]; exact h.live_count
      no_le := fun n hn => h.no_le n (hsub.subset hn)
      summary := h.summary.congr hlive ?_ }
  · intro n hn
    refine h.tail n ?_
    obtain ⟨m, ms, rfl⟩ := List.exists_cons_of_ne_nil hpost
    simpa [List.getLast?_append, List.getLast?_cons_cons] using hn
  · intro b z hb hmem
    rw [hrecent] at hb
    obtain rfl := Option.some.inj hb
    have hmem' : (c, y) ∈ pre ++ (c, y) :: (a, x) :: post := by simp
    obtain rfl := h.val_unique hmem hmem'
    simp

/-- The nodes the top-up loop has yet to visit: all of them while the summary
is empty, and those behind the most recent covered node afterwards. -/
def Unvisited (q : RequestQueue) (ns post : QueueNodes) : Prop :=
  (q.oldRequests.recentReq = none ∧ post = ns) ∨
    ∃ c y pre, q.oldRequests.recentReq = some c ∧ ns = pre ++ (c, y) :: post

theorem QueueInv.exists_unvisited (h : QueueInv active total q ns) :
    ∃ post, Unvisited q ns post ∧ post.length ≤ ns.length := by
  cases hrecent : q.oldRequests.recentReq with
  | none => exact ⟨ns, .inl ⟨hrecent, rfl⟩, le_rfl⟩
  | some c =>
      obtain ⟨y, hmem, -⟩ := h.summary.recent_mem c hrecent
      obtain ⟨pre, post, rfl⟩ := List.append_of_mem hmem
      refine ⟨post, .inr ⟨c, y, pre, hrecent, rfl⟩, ?_⟩
      rw [List.length_append, List.length_cons]
      omega

/-- The summary covers the active requests that are not among the unvisited
nodes. -/
theorem QueueInv.reqCount_add_unvisited {post : QueueNodes}
    (h : QueueInv active total q ns) (hpost : Unvisited q ns post) :
    q.oldRequests.reqCount + (liveNodes post).length = active := by
  rcases hpost with ⟨hrecent, rfl⟩ | ⟨c, y, pre, hrecent, rfl⟩
  · rw [h.summary.recent_none_iff.mp hrecent, h.live_count, zero_add]
  · have hcount := h.summary.count_eq
    rw [h.covered_of_recent hrecent] at hcount
    have hsplit : pre ++ (c, y) :: post = (pre ++ [(c, y)]) ++ post := by simp
    have hlive := h.live_count
    rw [hsplit, liveNodes_append, List.length_append, Nat.cast_add] at hlive
    omega

theorem QueueInv.tail_ne {pre post : QueueNodes} {a : ℕ} {x : ReqTime}
    (h : QueueInv active total q (pre ++ (a, x) :: post)) (hpost : post ≠ []) :
    q.reqTail ≠ some a := by
  rcases List.eq_nil_or_concat' post with rfl | ⟨ms, m, rfl⟩
  · exact absurd rfl hpost
  · have htail := h.tail m (by simp [List.getLast?_append, List.getLast?_cons])
    rw [htail]
    intro heq
    have hnodup := h.nodup
    simp only [List.map_append, List.map_cons, List.nodup_append,
      List.nodup_cons, List.mem_append] at hnodup
    refine hnodup.2.1.1 (.inr ?_)
    simp [Option.some.inj heq]

/-- While the loop runs there is a live node among the unvisited ones. -/
theorem QueueInv.exists_live_unvisited {post : QueueNodes}
    (h : QueueInv active total q ns) (hpost : Unvisited q ns post)
    (hless : 5 * q.oldRequests.reqCount < active) :
    liveNodes post ≠ [] := by
  intro hnil
  have hsum := h.reqCount_add_unvisited hpost
  have hnonneg := h.summary.reqCount_nonneg
  rw [hnil, List.length_nil] at hsum
  omega

theorem topUp_stop (fuel : ℕ) (multiple : Bool)
    (h : ¬5 * q.oldRequests.reqCount < active) :
    topUp active fuel multiple q = .ok (q, multiple) := by
  cases fuel with
  | zero => simp [topUp, h]
  | succ fuel => simp [topUp, h]

/-- What an iteration of the top-up loop leaves behind: the queue, the flag
`multiple`, and the address it has released, if it has released one. -/
structure TopUpTurn where
  queue : RequestQueue
  multiple : Bool
  freed : Option ℕ

def topUpBody (multiple : Bool) (q : RequestQueue) : Except Fault TopUpTurn :=
  match q.oldRequests.recentReq with
  | none =>
      match q.reqTimes with
      | none => .error .nullNode
      | some a =>
          match q.nodes.cell a with
          | none => .error .useAfterFree
          | some node =>
              if node.val.sec = -1 then
                .ok
                  { queue := { q with
                      reqTimes := node.next
                      nodes := q.nodes.free a }
                    multiple := multiple
                    freed := some a }
              else
                .ok
                  { queue := { q with
                      oldRequests := coverNode a node.val q.oldRequests }
                    multiple := multiple
                    freed := none }
  | some c =>
      match q.nodes.cell c with
      | none => .error .useAfterFree
      | some curr =>
          match curr.next with
          | none => .error .nullNode
          | some a =>
              match q.nodes.cell a with
              | none => .error .useAfterFree
              | some node =>
                  if node.val.sec = -1 then
                    .ok
                      { queue := { q with
                          nodes := (q.nodes.store c
                            { curr with next := node.next }).free a }
                        multiple := true
                        freed := some a }
                  else
                    .ok
                      { queue := { q with
                          oldRequests := coverNode a node.val q.oldRequests }
                        multiple := true
                        freed := none }

/-- The loop runs its body while the test holds. -/
theorem topUp_eq (active : ℤ) (fuel : ℕ) (multiple : Bool)
    (q : RequestQueue) :
    topUp active (fuel + 1) multiple q =
      if 5 * q.oldRequests.reqCount < active then
        topUpBody multiple q >>= fun t => topUp active fuel t.multiple t.queue
      else .ok (q, multiple) := by
  rw [topUp]
  refine ite_congr rfl (fun _ => ?_) fun _ => rfl
  unfold topUpBody
  cases q.oldRequests.recentReq with
  | none =>
      cases q.reqTimes with
      | none => rfl
      | some a =>
          dsimp only
          cases q.nodes.cell a with
          | none => rfl
          | some node =>
              by_cases hdead : node.val.sec = -1
              · simp only [if_pos hdead]
                rfl
              · simp only [if_neg hdead]
                rfl
  | some c =>
      dsimp only
      cases q.nodes.cell c with
      | none => rfl
      | some curr =>
          dsimp only
          cases curr.next with
          | none => rfl
          | some a =>
              dsimp only
              cases q.nodes.cell a with
              | none => rfl
              | some node =>
                  by_cases hdead : node.val.sec = -1
                  · simp only [if_pos hdead]
                    rfl
                  · simp only [if_neg hdead]
                    rfl

theorem topUp_succ (fuel : ℕ) {multiple : Bool} {t : TopUpTurn}
    (hless : 5 * q.oldRequests.reqCount < active)
    (h : topUpBody multiple q = .ok t) :
    topUp active (fuel + 1) multiple q =
      topUp active fuel t.multiple t.queue := by
  rw [topUp_eq, if_pos hless, h]
  rfl

/-- One iteration of the top-up loop visits one more node, without reading
through a missing one.  A node that it releases is neither the most recent
covered one nor, since a live node follows it, the tail of the queue. -/
theorem topUpBody_spec (multiple : Bool) {n : ℕ × ReqTime} {post : QueueNodes}
    (h : QueueInv active total q ns) (hpost : Unvisited q ns (n :: post))
    (hless : 5 * q.oldRequests.reqCount < active) :
    ∃ t ms, topUpBody multiple q = .ok t ∧
      QueueInv active total t.queue ms ∧ liveNodes ms = liveNodes ns ∧
      Unvisited t.queue ms post ∧
      ∀ b, t.freed = some b →
        q.reqTail ≠ some b ∧ q.oldRequests.recentReq ≠ some b := by
  obtain ⟨a, x⟩ := n
  have hlivePost := h.exists_live_unvisited hpost hless
  rcases hpost with ⟨hrecent, rfl⟩ | ⟨c, y, pre, hrecent, rfl⟩
  · obtain ⟨hfirst, next, hcell, -⟩ := h.chain
    by_cases hdead : x.sec = -1
    · have hx := live_eq_false_iff.mpr hdead
      have hne : post ≠ [] := by
        rintro rfl
        exact hlivePost (liveNodes_cons_dead [] hx)
      have hbody : topUpBody multiple q = .ok
          ⟨{ q with reqTimes := next, nodes := q.nodes.free a }, multiple,
            some a⟩ := by
        simp only [topUpBody, hrecent, hfirst, hcell, hdead, if_true]
      refine ⟨_, post, hbody, h.drop_dead_head hx hcell,
        (liveNodes_cons_dead post hx).symm, .inl ⟨hrecent, rfl⟩, ?_⟩
      intro b hb
      obtain rfl := Option.some.inj hb
      exact ⟨QueueInv.tail_ne (List.nil_append ((a, x) :: post) ▸ h) hne,
        by simp [hrecent]⟩
    · have hx : x.live = true := by simp [ReqTime.live, hdead]
      have hnone := h.summary.covered_eq_nil
        (h.summary.recent_none_iff.mp hrecent)
      have h' : QueueInv active total q ([] ++ (a, x) :: post) := h
      have hbody : topUpBody multiple q = .ok
          ⟨{ q with oldRequests := coverNode a x q.oldRequests }, multiple,
            none⟩ := by
        simp only [topUpBody, hrecent, hfirst, hcell, hdead, if_false]
      refine ⟨_, _, hbody, h'.cover hx hnone, rfl, .inr ⟨a, x, [], rfl, rfl⟩,
        ?_⟩
      rintro b ⟨⟩
  · obtain ⟨m₀, -, rfl, next', hcellc, rfl, next, hcell, -⟩ :=
      Chain.append_iff.mp h.chain
    have hsplit : pre ++ (c, y) :: (a, x) :: post =
        (pre ++ [(c, y)]) ++ (a, x) :: post := by simp
    by_cases hdead : x.sec = -1
    · have hx := live_eq_false_iff.mpr hdead
      have hne : post ≠ [] := by
        rintro rfl
        exact hlivePost (liveNodes_cons_dead [] hx)
      have hrecentNe : q.oldRequests.recentReq ≠ some a := by
        rw [hrecent]
        rintro ⟨⟩
        have hnodup := h.nodup
        simp [List.nodup_append] at hnodup
      have hbody : topUpBody multiple q = .ok
          ⟨{ q with nodes := (q.nodes.store c ⟨y, next⟩).free a }, true,
            some a⟩ := by
        simp only [topUpBody, hrecent, hcellc, hcell, hdead, if_true]
      refine ⟨_, _, hbody, h.unlink_dead hx hcell hrecent hne, ?_,
        .inr ⟨c, y, pre, hrecent, rfl⟩, ?_⟩
      · simp [liveNodes, List.filter_cons, hx]
      · intro b hb
        obtain rfl := Option.some.inj hb
        rw [hsplit] at h
        exact ⟨h.tail_ne hne, hrecentNe⟩
    · have hx : x.live = true := by simp [ReqTime.live, hdead]
      have hcov := h.covered_of_recent hrecent
      rw [hsplit] at h hcov
      have hbody : topUpBody multiple q = .ok
          ⟨{ q with oldRequests := coverNode a x q.oldRequests }, true,
            none⟩ := by
        simp only [topUpBody, hrecent, hcellc, hcell, hdead, if_false]
      refine ⟨_, _, hbody, h.cover hx hcov, by rw [hsplit],
        .inr ⟨a, x, pre ++ [(c, y)], rfl, rfl⟩, ?_⟩
      rintro b ⟨⟩

/-- The top-up loop ends in a queue whose summary covers a fifth of the active
requests. -/
theorem topUp_spec {fuel : ℕ} {multiple : Bool} {post : QueueNodes}
    (h : QueueInv active total q ns) (hpost : Unvisited q ns post)
    (hfuel : post.length ≤ fuel) :
    ∃ q' ms m, topUp active fuel multiple q = .ok (q', m) ∧
      QueueInv active total q' ms ∧ liveNodes ms = liveNodes ns ∧
      active ≤ 5 * q'.oldRequests.reqCount := by
  -- induction on the nodes that are still to be visited
  induction post generalizing q ns fuel multiple with
  | nil =>
      have hstop : ¬5 * q.oldRequests.reqCount < active := fun hless =>
        h.exists_live_unvisited hpost hless rfl
      exact ⟨q, ns, multiple, topUp_stop fuel multiple hstop, h, rfl,
        not_lt.mp hstop⟩
  | cons n post ih =>
      by_cases hless : 5 * q.oldRequests.reqCount < active
      · obtain ⟨fuel, rfl⟩ := Nat.exists_eq_succ_of_ne_zero
          (Nat.ne_of_gt (Nat.lt_of_lt_of_le (Nat.succ_pos _) hfuel))
        obtain ⟨t, ms₁, hbody, hinv₁, hlive₁, hpost₁, -⟩ :=
          topUpBody_spec multiple h hpost hless
        obtain ⟨q', ms, m, hrun, hinv, hlive, hcover⟩ :=
          ih hinv₁ hpost₁ (Nat.le_of_succ_le_succ hfuel)
        exact ⟨q', ms, m, (topUp_succ fuel hless hbody).trans hrun, hinv,
          hlive.trans hlive₁, hcover⟩
      · exact ⟨q, ns, multiple, topUp_stop fuel multiple hless, h, rfl,
          not_lt.mp hless⟩

/-! ## Completion -/

/-- The value of a node after its request has completed. -/
def ReqTime.completed (x : ReqTime) : ReqTime :=
  { x with sec := -1, msec := -1 }

theorem liveNodes_mark {pre post : QueueNodes} {a : ℕ} {x : ReqTime} :
    liveNodes (pre ++ (a, x.completed) :: post) =
      liveNodes pre ++ liveNodes post := by
  have hdead : x.completed.live = false := by
    simp [ReqTime.completed, ReqTime.live]
  rw [liveNodes_append, liveNodes_cons_dead post hdead]

theorem coveredNodes_mark {num : ℤ} {pre post : QueueNodes} {a : ℕ}
    {x : ReqTime} :
    coveredNodes num (pre ++ (a, x.completed) :: post) =
      coveredNodes num pre ++ coveredNodes num post := by
  rw [coveredNodes, liveNodes_mark, List.filter_append]
  rfl

theorem coveredNodes_around {num : ℤ} {pre post : QueueNodes} {a : ℕ}
    {x : ReqTime} (hlive : x.live = true) :
    coveredNodes num (pre ++ (a, x) :: post) =
      coveredNodes num pre ++
        (if x.no ≤ num then [(a, x)] else []) ++ coveredNodes num post := by
  rw [coveredNodes_append, coveredNodes, coveredNodes,
    liveNodes_cons_live post hlive]
  by_cases hle : x.no ≤ num
  · simp [coveredNodes, hle]
  · simp [coveredNodes, hle]

/-- The membership test of the source: a completing request leaves the summary
exactly when its number is covered. -/
theorem dropOldest_eq {old : OldRequests} {pre post : QueueNodes} {a : ℕ}
    {x : ReqTime} (h : SummaryInv total old (pre ++ (a, x) :: post))
    (hlive : x.live = true) (hno : x.no ≤ total) :
    dropOldest x.no x.sec x.msec total old =
      if x.no ≤ old.recentReqNum then
        { old with
          timeSum := old.timeSum - x.age old.updatedSec old.updatedMsec
          reqCount := old.reqCount - 1
          recentReq := if old.reqCount - 1 = 0 then none else old.recentReq }
      else old := by
  have htotal : ¬total < x.no := not_lt.mpr hno
  by_cases hle : x.no ≤ old.recentReqNum
  · have hsome : old.recentReq.isSome = true := by
      by_contra hnone
      have hzero := h.recent_none_iff.mp (by simpa using hnone)
      have hcount := h.count_eq
      rw [hzero, coveredNodes_around hlive, if_pos hle] at hcount
      simp at hcount
      omega
    simp [dropOldest, hsome, hle, ReqTime.age]
  · simp [dropOldest, hle, htotal]

/-- Every node keeps its place and its number when one is marked. -/
theorem mem_mark {pre post : QueueNodes} {a c : ℕ} {x y : ReqTime}
    (h : (c, y) ∈ pre ++ (a, x) :: post) :
    ∃ z, (c, z) ∈ pre ++ (a, x.completed) :: post ∧ z.no = y.no := by
  rcases List.mem_append.mp h with h | h
  · exact ⟨y, List.mem_append_left _ h, rfl⟩
  · rcases List.mem_cons.mp h with heq | h
    · obtain ⟨rfl, rfl⟩ := Prod.mk.inj heq
      exact ⟨y.completed, by simp, rfl⟩
    · exact ⟨y, by simp [h], rfl⟩

theorem SummaryInv.recent_mem_mark {old : OldRequests}
    {pre post : QueueNodes} {a c : ℕ} {x : ReqTime}
    (h : SummaryInv total old (pre ++ (a, x) :: post))
    (hc : old.recentReq = some c) :
    ∃ z, (c, z) ∈ pre ++ (a, x.completed) :: post ∧
      z.no = old.recentReqNum := by
  obtain ⟨y, hy, hyno⟩ := h.recent_mem c hc
  obtain ⟨z, hz, hzno⟩ := mem_mark hy
  exact ⟨z, hz, hzno.trans hyno⟩

/-- Dropping the completed request keeps the summary exact. -/
theorem SummaryInv.drop {old : OldRequests} {pre post : QueueNodes} {a : ℕ}
    {x : ReqTime} (h : SummaryInv total old (pre ++ (a, x) :: post))
    (hlive : x.live = true) (hno : x.no ≤ total) :
    SummaryInv total (dropOldest x.no x.sec x.msec total old)
      (pre ++ (a, x.completed) :: post) := by
  have hcount := h.count_eq
  have htime := h.time_eq
  rw [coveredNodes_around hlive] at hcount htime
  rw [dropOldest_eq h hlive hno]
  by_cases hle : x.no ≤ old.recentReqNum
  · rw [if_pos hle] at hcount htime ⊢
    simp only [List.length_append, List.length_singleton] at hcount
    simp only [totalAge_append, totalAge_cons] at htime
    refine
      { recent_none_iff := ?_
        recent_mem := ?_
        count_eq := ?_
        time_eq := ?_
        num_le := h.num_le }
    · by_cases hzero : old.reqCount - 1 = 0
      · simp [hzero]
      · have hne : old.recentReq ≠ none := by
          intro hnone
          have := h.recent_none_iff.mp hnone
          omega
        simp [hzero, hne]
    · intro c hc
      by_cases hzero : old.reqCount - 1 = 0
      · simp [hzero] at hc
      · simp only [hzero, if_false] at hc
        exact h.recent_mem_mark hc
    · rw [coveredNodes_mark, List.length_append]
      push_cast at hcount ⊢
      omega
    · rw [coveredNodes_mark, totalAge_append]
      simp only [totalAge, List.map_nil, List.sum_nil] at htime ⊢
      omega
  · rw [if_neg hle] at hcount htime ⊢
    exact
      { recent_none_iff := h.recent_none_iff
        recent_mem := fun c hc => h.recent_mem_mark hc
        count_eq := by simpa [coveredNodes_mark] using hcount
        time_eq := by simpa [coveredNodes_mark] using htime
        num_le := h.num_le }

/-- A queue in which the node of an active request is marked and the request
is gone from the summary. -/
theorem QueueInv.mark {pre post : QueueNodes} {a : ℕ} {x : ReqTime}
    {next : Option ℕ} (tp : NgxTime)
    (h : QueueInv active total q (pre ++ (a, x) :: post))
    (hlive : x.live = true) (hcell : q.nodes.cell a = some ⟨x, next⟩) :
    QueueInv (active - 1) total
      { q with
        nodes := q.nodes.store a ⟨x.completed, next⟩
        oldRequests := advanceOldest tp
          (dropOldest x.no x.sec x.msec total q.oldRequests) }
      (pre ++ (a, x.completed) :: post) where
  chain := h.chain.store_val hcell h.nodup
  bounded := h.bounded.store hcell _
  increasing := by
    have hinc := h.increasing
    simp only [List.pairwise_append, List.pairwise_cons,
      List.mem_cons] at hinc ⊢
    refine ⟨hinc.1, hinc.2.1, ?_⟩
    rintro m hm n (rfl | hn)
    · exact hinc.2.2 m hm (a, x) (.inl rfl)
    · exact hinc.2.2 m hm n (.inr hn)
  tail := by
    intro n hn
    rcases List.eq_nil_or_concat' post with rfl | ⟨ms, m, rfl⟩
    · simp only [List.getLast?_append, List.getLast?_singleton,
        Option.some_or, Option.some.injEq] at hn
      subst hn
      exact h.tail (a, x) (by simp)
    · refine h.tail n ?_
      simpa [List.getLast?_append, List.getLast?_cons] using hn
  live_count := by
    have hcount := h.live_count
    rw [liveNodes_append, liveNodes_cons_live post hlive] at hcount
    rw [liveNodes_mark]
    simp only [List.length_append, List.length_cons] at hcount ⊢
    push_cast at hcount ⊢
    omega
  no_le := by
    intro n hn
    rcases List.mem_append.mp hn with hn | hn
    · exact h.no_le n (by simp [hn])
    · rcases List.mem_cons.mp hn with rfl | hn
      · exact h.no_le (a, x) (by simp)
      · exact h.no_le n (by simp [hn])
  summary :=
    (h.summary.drop hlive (h.no_le (a, x) (by simp))).advance tp

/-- Marking a node takes exactly that node out of the live ones. -/
theorem mem_liveNodes_mark {pre post : QueueNodes} {a : ℕ} {x : ReqTime}
    (hnodup : ((pre ++ (a, x) :: post).map Prod.fst).Nodup) (n : ℕ × ReqTime) :
    n ∈ liveNodes (pre ++ (a, x.completed) :: post) ↔
      n ∈ liveNodes (pre ++ (a, x) :: post) ∧ n.1 ≠ a := by
  simp only [List.map_append, List.map_cons, List.nodup_append,
    List.nodup_cons] at hnodup
  obtain ⟨-, ⟨hpost, -⟩, hpre⟩ := hnodup
  rw [liveNodes_mark, List.mem_append, mem_liveNodes, mem_liveNodes,
    mem_liveNodes, List.mem_append, List.mem_cons]
  constructor
  · rintro (⟨hn, hlive⟩ | ⟨hn, hlive⟩)
    · refine ⟨⟨.inl hn, hlive⟩, ?_⟩
      rintro rfl
      exact hpre n.1 (List.mem_map_of_mem hn) n.1 (by simp) rfl
    · refine ⟨⟨.inr (.inr hn), hlive⟩, ?_⟩
      rintro rfl
      exact hpost (List.mem_map_of_mem hn)
  · rintro ⟨⟨hn | rfl | hn, hlive⟩, hne⟩
    · exact .inl ⟨hn, hlive⟩
    · exact absurd rfl hne
    · exact .inr ⟨hn, hlive⟩

/-- A completion takes exactly the node of the completed request out of the
live nodes, and leaves the summary covering a fifth of the others. -/
theorem completeQueue_spec {a : ℕ} {x : ReqTime} (tp : NgxTime)
    (h : QueueInv active total q ns) (hmem : (a, x) ∈ ns)
    (hlive : x.live = true) :
    ∃ q' ms m,
      completeQueue tp (some a) x.no x.sec x.msec total (active - 1) q =
        .ok (q', m) ∧
      QueueInv (active - 1) total q' ms ∧
      (∀ n, n ∈ liveNodes ms ↔ n ∈ liveNodes ns ∧ n.1 ≠ a) ∧
      active - 1 ≤ 5 * q'.oldRequests.reqCount := by
  obtain ⟨pre, post, rfl⟩ := List.append_of_mem hmem
  obtain ⟨next, hcell⟩ := h.chain.cell_of_mem hmem
  have hmarked := h.mark tp hlive hcell
  obtain ⟨unvisited, hun, hlen⟩ := hmarked.exists_unvisited
  obtain ⟨q', ms, m, hrun, hinv, hlives, hcover⟩ :=
    topUp_spec hmarked hun
      (le_trans hlen (le_trans hmarked.length_le_fresh (Nat.le_succ _)))
  refine ⟨q', ms, m, ?_, hinv, ?_, hcover⟩
  · simp only [completeQueue, markNode, hcell]
    exact hrun
  · rw [hlives]
    exact mem_liveNodes_mark h.nodup

end MultiversionBalancer
