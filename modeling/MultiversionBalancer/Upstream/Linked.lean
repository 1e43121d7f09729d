import MultiversionBalancer.Upstream.QueueRuns

/-!
# The links of a request queue

The numbers of requests jump down when the completion counter wraps, and from
then on a summary need not describe its queue.  The links stay right all the
same: `Linked` is the part of the queue invariant that does not speak of
numbers or sums, and it is kept in every run, of any length.
-/

namespace MultiversionBalancer

open Lib

/-- A queue with the linked nodes `ns`, of which `active` are live.  The node
the summary ends with is linked. -/
structure Linked (active : ℤ) (q : RequestQueue) (ns : QueueNodes) :
    Prop where
  chain : Chain q.nodes q.reqTimes ns none
  bounded : q.nodes.Bounded
  nodup : (ns.map Prod.fst).Nodup
  tail : ∀ n, ns.getLast? = some n → q.reqTail = some n.1
  live_count : ((liveNodes ns).length : ℤ) = active
  recent : ∀ c, q.oldRequests.recentReq = some c →
    ∃ x, (c, x) ∈ ns ∧ x.no = q.oldRequests.recentReqNum

theorem QueueInv.linked {active total : ℤ} {q : RequestQueue}
    {ns : QueueNodes} (h : QueueInv active total q ns) :
    Linked active q ns where
  chain := h.chain
  bounded := h.bounded
  nodup := h.nodup
  tail := h.tail
  live_count := h.live_count
  recent := h.summary.recent_mem

variable {active : ℤ} {q q' : RequestQueue} {ns : QueueNodes}

theorem chain_unique {α : Type*} {h : Heap α} {p : Option ℕ}
    {ns ms : List (ℕ × α)} (hns : Chain h p ns none)
    (hms : Chain h p ms none) : ns = ms := by
  induction ns generalizing p ms with
  | nil =>
      obtain rfl : p = none := hns
      cases ms with
      | nil => rfl
      | cons m ms => cases hms.1
  | cons n ns ih =>
      obtain ⟨rfl, next, hcell, hrest⟩ := hns
      cases ms with
      | nil => cases hms
      | cons m ms =>
          obtain ⟨hhead, next', hcell', hrest'⟩ := hms
          obtain ⟨a, x⟩ := n
          obtain ⟨b, y⟩ := m
          obtain rfl : a = b := Option.some.inj hhead
          rw [hcell] at hcell'
          obtain ⟨rfl, rfl⟩ := Cell.mk.inj (Option.some.inj hcell')
          rw [ih hrest hrest']

theorem Linked.unique {active' : ℤ} {ms : QueueNodes}
    (h : Linked active q ns) (h' : Linked active' q ms) : ns = ms :=
  chain_unique h.chain h'.chain

/-- The addresses and numbers of nodes. -/
def numbers (ns : QueueNodes) : List (ℕ × ℤ) :=
  ns.map fun n => (n.1, n.2.no)

namespace Linked

/-- An address occurs with one value only. -/
theorem val_unique (h : Linked active q ns) {a : ℕ} {x y : ReqTime}
    (hx : (a, x) ∈ ns) (hy : (a, y) ∈ ns) : x = y := by
  obtain ⟨next, hcell⟩ := h.chain.cell_of_mem hx
  obtain ⟨next', hcell'⟩ := h.chain.cell_of_mem hy
  rw [hcell] at hcell'
  exact (Cell.mk.inj (Option.some.inj hcell')).1

theorem lt_fresh (h : Linked active q ns) {n : ℕ × ReqTime} (hn : n ∈ ns) :
    n.1 < q.nodes.fresh := by
  obtain ⟨next, hcell⟩ := h.chain.cell_of_mem hn
  exact h.bounded.lt_fresh hcell

/-- A change of the summary that keeps a node of the queue as its end. -/
theorem set_old (h : Linked active q ns) (old : OldRequests)
    (hrecent : ∀ c, old.recentReq = some c →
      ∃ x, (c, x) ∈ ns ∧ x.no = old.recentReqNum) :
    Linked active { q with oldRequests := old } ns :=
  { h with recent := hrecent }

/-- Releasing a completed head that the summary does not end with. -/
theorem drop_dead_head {a : ℕ} {x : ReqTime} {next : Option ℕ}
    (old : OldRequests) (h : Linked active q ((a, x) :: ns))
    (hdead : x.live = false) (hcell : q.nodes.cell a = some ⟨x, next⟩)
    (hrecent : ∀ c, old.recentReq = some c →
      q.oldRequests.recentReq = some c ∧ c ≠ a)
    (hnum : old.recentReqNum = q.oldRequests.recentReqNum) :
    Linked active
      { q with
        nodes := q.nodes.free a
        reqTimes := next
        oldRequests := old } ns := by
  have hnodup := h.nodup
  rw [List.map_cons, List.nodup_cons] at hnodup
  obtain ⟨-, next', hcell', hrest⟩ := h.chain
  have hnext : next' = next := by
    rw [hcell] at hcell'
    exact (Cell.mk.inj (Option.some.inj hcell')).2.symm
  subst hnext
  have hlive : liveNodes ((a, x) :: ns) = liveNodes ns :=
    liveNodes_cons_dead ns hdead
  refine
    { chain := hrest.free hnodup.1
      bounded := h.bounded.free a
      nodup := hnodup.2
      tail := ?_
      live_count := by rw [← hlive]; exact h.live_count
      recent := ?_ }
  · intro n hn
    refine h.tail n ?_
    cases ns with
    | nil => simp at hn
    | cons m ms => rw [List.getLast?_cons_cons]; exact hn
  · intro c hc
    obtain ⟨hold, hne⟩ := hrecent c hc
    obtain ⟨y, hmem, hy⟩ := h.recent c hold
    rw [hnum]
    rcases List.mem_cons.mp hmem with heq | hmem
    · exact absurd (Prod.mk.inj heq).1 hne
    · exact ⟨y, hmem, hy⟩

/-- A queue with nodes has a head. -/
theorem eq_cons (h : Linked active q ns) {a : ℕ} (ha : q.reqTimes = some a) :
    ∃ x ms next, ns = (a, x) :: ms ∧ q.nodes.cell a = some ⟨x, next⟩ := by
  cases ns with
  | nil =>
      have hnil : q.reqTimes = none := h.chain
      rw [ha] at hnil
      cases hnil
  | cons n ms =>
      obtain ⟨b, x⟩ := n
      obtain ⟨hhead, next, hcell, -⟩ := h.chain
      obtain rfl : a = b := Option.some.inj (ha.symm.trans hhead)
      exact ⟨x, ms, next, rfl, hcell⟩

/-! ## Pruning and seeding -/

theorem pruneHead {fuel : ℕ} (h : Linked active q ns)
    (hrun : pruneHead fuel q = .ok q') :
    ∃ ms, Linked active q' ms ∧ ms.Sublist ns ∧
      liveNodes ms = liveNodes ns := by
  induction fuel generalizing q ns with
  | zero => cases hrun
  | succ fuel ih =>
      cases htimes : q.reqTimes with
      | none =>
          simp only [MultiversionBalancer.pruneHead, htimes] at hrun
          obtain rfl := Except.ok.inj hrun
          exact ⟨ns, h, List.Sublist.refl ns, rfl⟩
      | some a =>
          obtain ⟨x, ms, next, rfl, hcell⟩ := h.eq_cons htimes
          by_cases hdead : x.sec = -1
          · simp only [MultiversionBalancer.pruneHead, htimes, hcell, hdead,
              if_true] at hrun
            have hx := live_eq_false_iff.mpr hdead
            have hdrop := h.drop_dead_head
              (if q.oldRequests.recentReq = some a then
                { q.oldRequests with recentReq := none }
              else q.oldRequests) hx hcell ?_ (by split <;> rfl)
            · obtain ⟨ks, hks, hsub, hlive⟩ := ih hdrop hrun
              refine ⟨ks, hks, hsub.cons _, ?_⟩
              rw [hlive, liveNodes_cons_dead ms hx]
            · intro c hc
              split at hc
              · cases hc
              · next hne =>
                  refine ⟨hc, ?_⟩
                  rintro rfl
                  exact hne hc
          · simp only [MultiversionBalancer.pruneHead, htimes, hcell, hdead,
              if_false] at hrun
            obtain rfl := Except.ok.inj hrun
            exact ⟨_, h, List.Sublist.refl _, rfl⟩

theorem seedOldest {tp : NgxTime} (h : Linked active q ns)
    (hrun : seedOldest tp q = .ok q') : Linked active q' ns := by
  unfold MultiversionBalancer.seedOldest at hrun
  split at hrun
  · next a hrecent htimes =>
      obtain ⟨x, ms, next, rfl, hcell⟩ := h.eq_cons htimes
      rw [hcell] at hrun
      obtain rfl := Except.ok.inj hrun
      refine h.set_old _ ?_
      intro c hc
      obtain rfl := Option.some.inj hc
      exact ⟨x, List.mem_cons_self, rfl⟩
  · obtain rfl := Except.ok.inj hrun
    exact h

theorem refreshQueue {tp : NgxTime} (h : Linked active q ns)
    (hrun : refreshQueue tp q = .ok q') :
    ∃ ms, Linked active q' ms ∧ ms.Sublist ns ∧
      liveNodes ms = liveNodes ns := by
  obtain ⟨q₁, hprune, hseed⟩ := Except.bind_eq_ok.mp hrun
  obtain ⟨ms, hms, hsub, hlive⟩ := h.pruneHead hprune
  exact ⟨ms, hms.seedOldest hseed, hsub, hlive⟩

/-! ## Appending -/

theorem append {a : ℕ} {x : ReqTime} (h : Linked active q ns)
    (hlive : x.live = true) (hfresh : a = q.nodes.fresh)
    (hchain : Chain q'.nodes q'.reqTimes (ns ++ [(a, x)]) none)
    (hbounded : q'.nodes.Bounded) (htail : q'.reqTail = some a)
    (hold : q'.oldRequests = q.oldRequests) :
    Linked (active + 1) q' (ns ++ [(a, x)]) where
  chain := hchain
  bounded := hbounded
  nodup := by
    rw [List.map_append, List.nodup_append]
    refine ⟨h.nodup, by simp, ?_⟩
    rintro b hb c hc rfl
    obtain ⟨n, hn, rfl⟩ := List.mem_map.mp hb
    have hlt := h.lt_fresh hn
    rw [List.map_singleton, List.mem_singleton] at hc
    dsimp only at hc
    omega
  tail := by simp [htail]
  live_count := by
    rw [liveNodes_append, List.length_append, Nat.cast_add, h.live_count]
    simp [liveNodes, hlive]
  recent := by
    rw [hold]
    intro c hc
    obtain ⟨y, hmem, hy⟩ := h.recent c hc
    exact ⟨y, List.mem_append_left _ hmem, hy⟩

theorem appendNode {x : ReqTime} (h : Linked active q ns)
    (hlive : x.live = true) (hrun : appendNode x q = .ok q') :
    Linked (active + 1) q' (ns ++ [(q.nodes.fresh, x)]) := by
  unfold MultiversionBalancer.appendNode at hrun
  rcases List.eq_nil_or_concat' ns with rfl | ⟨ms, ⟨t, y⟩, rfl⟩
  · have hnone : q.reqTimes = none := h.chain
    simp only [hnone] at hrun
    obtain rfl := Except.ok.inj hrun
    exact h.append hlive rfl ⟨rfl, none, Heap.alloc_cell_fresh _ _, rfl⟩
      (h.bounded.alloc _) rfl rfl
  · have htail : q.reqTail = some t := h.tail (t, y) (by simp)
    obtain ⟨next, hcell⟩ := (h.chain.alloc h.bounded
      { val := x, next := none }).cell_of_mem (n := (t, y)) (by simp)
    cases htimes : q.reqTimes with
    | none =>
        have hchain := h.chain
        rw [htimes] at hchain
        cases ms with
        | nil => cases hchain.1
        | cons m ms => cases hchain.1
    | some b =>
        simp only [htimes, htail, hcell] at hrun
        obtain rfl := Except.ok.inj hrun
        refine h.append hlive rfl ?_ ((h.bounded.alloc _).store hcell _) rfl rfl
        have hlinked := h.chain.link_last (y := x) h.bounded h.nodup
        rwa [htimes] at hlinked

/-! ## The top-up loop -/

/-- Unlinking a completed node behind the one the summary ends with.  If it
was the last node, the tail is not adjusted. -/
theorem unlink_dead {pre post : QueueNodes} {c a : ℕ} {y x : ReqTime}
    {next : Option ℕ} (h : Linked active q (pre ++ (c, y) :: (a, x) :: post))
    (hdead : x.live = false) (hcell : q.nodes.cell a = some ⟨x, next⟩)
    (hrecent : q.oldRequests.recentReq = some c) (hpost : post ≠ []) :
    Linked active { q with nodes := (q.nodes.store c ⟨y, next⟩).free a }
      (pre ++ (c, y) :: post) := by
  have hlive : liveNodes (pre ++ (c, y) :: post) =
      liveNodes (pre ++ (c, y) :: (a, x) :: post) := by
    simp only [liveNodes_append]
    simp only [liveNodes, List.filter_cons, hdead, Bool.false_eq_true, if_false]
  obtain ⟨next', hcellc⟩ := h.chain.cell_of_mem (n := (c, y)) (by simp)
  have hsub : (pre ++ (c, y) :: post).Sublist
      (pre ++ (c, y) :: (a, x) :: post) :=
    List.Sublist.append_left
      (List.Sublist.cons_cons _ (List.sublist_cons_self ..)) pre
  refine
    { chain := h.chain.unlink hcell h.nodup
      bounded := (h.bounded.store hcellc _).free a
      nodup := h.nodup.sublist (hsub.map Prod.fst)
      tail := ?_
      live_count := by rw [hlive]; exact h.live_count
      recent := ?_ }
  · intro n hn
    refine h.tail n ?_
    obtain ⟨m, ms, rfl⟩ := List.exists_cons_of_ne_nil hpost
    simpa [List.getLast?_append, List.getLast?_cons_cons] using hn
  · intro b hb
    obtain rfl : c = b := Option.some.inj (hrecent.symm.trans hb)
    obtain ⟨z, hz, hzno⟩ := h.recent c hrecent
    obtain rfl := h.val_unique (List.mem_append_right pre
      List.mem_cons_self) hz
    exact ⟨y, by simp, hzno⟩

/-- The loop cannot go on behind the last node. -/
theorem topUp_stuck {act : ℤ} {fuel : ℕ} {multiple : Bool} {c : ℕ}
    {y : ReqTime} (hless : 5 * q.oldRequests.reqCount < act)
    (hrecent : q.oldRequests.recentReq = some c)
    (hcell : q.nodes.cell c = some ⟨y, none⟩) (res : RequestQueue × Bool) :
    topUp act fuel multiple q ≠ .ok res := by
  cases fuel with
  | zero => simp [topUp, hless]
  | succ fuel => simp [topUp, hless, hrecent, hcell]

/-- One iteration of a loop that ends. -/
theorem topUpBody {act : ℤ} {fuel : ℕ} {multiple : Bool} {t : TopUpTurn}
    {res : RequestQueue × Bool} (h : Linked active q ns)
    (hless : 5 * q.oldRequests.reqCount < act)
    (hbody : topUpBody multiple q = .ok t)
    (hrest : topUp act fuel t.multiple t.queue = .ok res) :
    ∃ ms, Linked active t.queue ms ∧ ms.Sublist ns ∧
      liveNodes ms = liveNodes ns := by
  unfold MultiversionBalancer.topUpBody at hbody
  cases hrecent : q.oldRequests.recentReq with
  | none =>
      cases htimes : q.reqTimes with
      | none => simp [hrecent, htimes] at hbody
      | some a =>
          obtain ⟨x, ms, next, rfl, hcell⟩ := h.eq_cons htimes
          simp only [hrecent, htimes, hcell] at hbody
          by_cases hdead : x.sec = -1
          · rw [if_pos hdead] at hbody
            obtain rfl := Except.ok.inj hbody
            have hx := live_eq_false_iff.mpr hdead
            refine ⟨ms, ?_, List.sublist_cons_self _ _,
              (liveNodes_cons_dead ms hx).symm⟩
            have hdrop := h.drop_dead_head q.oldRequests hx hcell
              (fun c hc => by rw [hrecent] at hc; cases hc) rfl
            simpa only [hrecent] using hdrop
          · rw [if_neg hdead] at hbody
            obtain rfl := Except.ok.inj hbody
            refine ⟨_, ?_, List.Sublist.refl _, rfl⟩
            have hset := h.set_old (coverNode a x q.oldRequests) ?_
            · simpa only [htimes] using hset
            · intro c hc
              obtain rfl := Option.some.inj hc
              exact ⟨x, List.mem_cons_self, rfl⟩
  | some c =>
      obtain ⟨y, hmem, -⟩ := h.recent c hrecent
      obtain ⟨pre, post, rfl⟩ := List.append_of_mem hmem
      obtain ⟨m, -, rfl, next, hcellc, hpost⟩ := Chain.append_iff.mp h.chain
      cases post with
      | nil =>
          obtain rfl : next = none := hpost
          simp [hrecent, hcellc] at hbody
      | cons n post =>
          obtain ⟨a, x⟩ := n
          obtain ⟨rfl, next, hcell, htail⟩ := hpost
          simp only [hrecent, hcellc, hcell] at hbody
          by_cases hdead : x.sec = -1
          · rw [if_pos hdead] at hbody
            obtain rfl := Except.ok.inj hbody
            have hx := live_eq_false_iff.mpr hdead
            have hne : post ≠ [] := by
              rintro rfl
              obtain rfl : next = none := htail
              have hca : c ≠ a := by
                rintro rfl
                have hnodup := h.nodup
                simp [List.nodup_append] at hnodup
              have hlast : ((q.nodes.store c ⟨y, none⟩).free a).cell c =
                  some ⟨y, none⟩ := by
                rw [Heap.free_cell_of_ne hca, Heap.store_cell_self]
              exact topUp_stuck (q := { q with
                nodes := (q.nodes.store c ⟨y, none⟩).free a })
                hless hrecent hlast res hrest
            refine ⟨pre ++ (c, y) :: post, h.unlink_dead hx hcell hrecent hne,
              ?_, ?_⟩
            · exact List.Sublist.append_left
                (List.Sublist.cons_cons _ (List.sublist_cons_self ..)) pre
            · simp [liveNodes, List.filter_cons, hx]
          · rw [if_neg hdead] at hbody
            obtain rfl := Except.ok.inj hbody
            refine ⟨_, h.set_old _ ?_, List.Sublist.refl _, rfl⟩
            intro b hb
            obtain rfl := Option.some.inj hb
            exact ⟨x, by simp, rfl⟩

theorem topUp {act : ℤ} {fuel : ℕ} {multiple m : Bool}
    (h : Linked active q ns) (hrun : topUp act fuel multiple q = .ok (q', m)) :
    ∃ ms, Linked active q' ms ∧ ms.Sublist ns ∧
      liveNodes ms = liveNodes ns := by
  induction fuel generalizing q ns multiple with
  | zero =>
      unfold MultiversionBalancer.topUp at hrun
      split at hrun
      · cases hrun
      · obtain ⟨rfl, -⟩ := Prod.mk.inj (Except.ok.inj hrun)
        exact ⟨ns, h, List.Sublist.refl ns, rfl⟩
  | succ fuel ih =>
      rw [topUp_eq] at hrun
      split at hrun
      · next hless =>
          obtain ⟨t, hbody, hrest⟩ := Except.bind_eq_ok.mp hrun
          obtain ⟨ms, hms, hsub, hlive⟩ := h.topUpBody hless hbody hrest
          obtain ⟨ks, hks, hsub', hlive'⟩ := ih hms hrest
          exact ⟨ks, hks, hsub'.trans hsub, hlive'.trans hlive⟩
      · obtain ⟨rfl, -⟩ := Prod.mk.inj (Except.ok.inj hrun)
        exact ⟨ns, h, List.Sublist.refl ns, rfl⟩

/-! ## Completion -/

theorem dropOldest_recent {no sec msec total : ℤ} {old : OldRequests} {c : ℕ}
    (h : (dropOldest no sec msec total old).recentReq = some c) :
    old.recentReq = some c ∧
      (dropOldest no sec msec total old).recentReqNum = old.recentReqNum := by
  unfold dropOldest at h ⊢
  split
  · next hcond =>
      rw [if_pos hcond] at h
      dsimp only at h
      split at h
      · cases h
      · exact ⟨h, rfl⟩
  · next hcond =>
      rw [if_neg hcond] at h
      exact ⟨h, rfl⟩

/-- The queue with the node of a completed request marked, whatever happens to
the summary. -/
theorem mark {pre post : QueueNodes} {a : ℕ} {x : ReqTime}
    {next : Option ℕ} (old : OldRequests)
    (h : Linked active q (pre ++ (a, x) :: post)) (hlive : x.live = true)
    (hcell : q.nodes.cell a = some ⟨x, next⟩)
    (hold : ∀ c, old.recentReq = some c →
      q.oldRequests.recentReq = some c ∧
        old.recentReqNum = q.oldRequests.recentReqNum) :
    Linked (active - 1)
      { q with
        nodes := q.nodes.store a ⟨x.completed, next⟩
        oldRequests := old }
      (pre ++ (a, x.completed) :: post) where
  chain := h.chain.store_val hcell h.nodup
  bounded := h.bounded.store hcell _
  nodup := by
    have hnodup := h.nodup
    simpa using hnodup
  tail := by
    intro n hn
    rcases List.eq_nil_or_concat' post with rfl | ⟨ms, m, rfl⟩
    · simp only [List.getLast?_append, List.getLast?_singleton,
        Option.some_or, Option.some.injEq] at hn
      subst hn
      exact h.tail (a, x) (by simp)
    · refine h.tail n ?_
      simpa [List.getLast?_append, List.getLast?_cons] using hn
  live_count := by
    have hcount := h.live_count
    rw [liveNodes_append, liveNodes_cons_live post hlive] at hcount
    rw [liveNodes_mark]
    simp only [List.length_append, List.length_cons] at hcount ⊢
    push_cast at hcount ⊢
    omega
  recent := by
    intro c hc
    obtain ⟨hrecent, hnum⟩ := hold c hc
    obtain ⟨y, hy, hyno⟩ := h.recent c hrecent
    obtain ⟨z, hz, hzno⟩ := mem_mark hy
    exact ⟨z, hz, by rw [hzno, hyno, hnum]⟩

/-- A completion takes the node of its request out of the live ones, and at
most removes other nodes. -/
theorem completeQueue {tp : NgxTime} {pre post : QueueNodes} {b : ℕ}
    {x : ReqTime} {no sec msec total act : ℤ} {m : Bool}
    (h : Linked active q (pre ++ (b, x) :: post)) (hlive : x.live = true)
    (hrun : completeQueue tp (some b) no sec msec total act q = .ok (q', m)) :
    ∃ ms, Linked (active - 1) q' ms ∧
      (numbers ms).Sublist (numbers (pre ++ (b, x) :: post)) ∧
      liveNodes ms = liveNodes pre ++ liveNodes post := by
  obtain ⟨next, hcell⟩ := h.chain.cell_of_mem (n := (b, x)) (by simp)
  unfold MultiversionBalancer.completeQueue at hrun
  simp only [markNode, hcell] at hrun
  have hmark := h.mark
    (advanceOldest tp (dropOldest no sec msec total q.oldRequests)) hlive hcell
    fun c hc => dropOldest_recent hc
  obtain ⟨ms, hms, hsub, hlives⟩ := hmark.topUp hrun
  refine ⟨ms, hms, ?_, hlives.trans liveNodes_mark⟩
  have hnumbers := hsub.map fun n : ℕ × ReqTime => (n.1, n.2.no)
  simpa [numbers, ReqTime.completed] using hnumbers

end Linked

end MultiversionBalancer
