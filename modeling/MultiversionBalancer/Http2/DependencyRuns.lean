import MultiversionBalancer.Http2.DependencyTree

/-!
# Runs of the dependencies

In every run of HEADERS and PRIORITY frames, pushes and closings, with the closed nodes
that are used again, the indexed nodes are a tree.
-/

namespace MultiversionBalancer.Http2

open Lib

namespace Dependencies

/-! ## Giving up a node -/

/-- The loop over the children of a node that is given up. -/
theorem orphan_eq (q : Parent) (w total : ℕ) (c : Dependencies) {kids : List ℕ}
    (hkids : kids.Nodup) :
    orphan q w total c kids =
      { c with nodes := fun m =>
          if m ∈ kids then
            { c.nodes m with
              parent := q
              weight := inheritedWeight w (c.nodes m).weight total }
          else c.nodes m } := by
  induction kids generalizing c with
  | nil => rfl
  | cons n kids ih =>
      obtain ⟨hn, hkids'⟩ := List.nodup_cons.mp hkids
      rw [orphan, List.foldl_cons]
      have hrest := ih (c.setNode n fun x =>
        { x with parent := q, weight := inheritedWeight w x.weight total }) hkids'
      rw [orphan] at hrest
      rw [hrest, Dependencies.mk.injEq]
      refine ⟨?_, rfl, rfl, rfl, rfl, rfl, rfl⟩
      funext m
      by_cases hmn : m = n
      · simp [hmn, hn, setNode]
      · simp [hmn, setNode]

theorem inheritedWeight_pos (w w' total : ℕ) : 1 ≤ inheritedWeight w w' total := by
  rw [inheritedWeight]
  split
  · exact Nat.le_refl 1
  · next hne => exact Nat.one_le_iff_ne_zero.mpr hne

theorem zeroNode_links {c : Dependencies} {node : ℕ} {a : QueueLink} (hq : a ≠ .queue node)
    (hc : a ≠ .children node) (hr : a ≠ .reuse node) :
    (c.zeroNode node).links.next a = c.links.next a ∧
      (c.zeroNode node).links.prev a = c.links.prev a := by
  simp only [zeroNode, Links.setNext, Links.setPrev]
  rw [Function.update_of_ne hr, Function.update_of_ne hc, Function.update_of_ne hq,
    Function.update_of_ne hr, Function.update_of_ne hc, Function.update_of_ne hq]
  exact ⟨rfl, rfl⟩

theorem Linked.zero {c : Dependencies} {k node : ℕ} {I A C : Set ℕ} {P : ℕ → Parent}
    {F : QueueLink → List QueueLink} (h : Linked c.links k I A C P F) (hI : node ∉ I)
    (hA : node ∉ A) (hC : node ∉ C) : Linked (c.zeroNode node).links k I A C P F := by
  refine h.congr_links fun a ha => zeroNode_links ?_ ?_ ?_
  · rintro rfl
    exact ha (h.free_queue hA)
  · rintro rfl
    exact ha (h.free_children hI)
  · rintro rfl
    exact ha (h.free_reuse hC)

section GiveUp

variable {c : Dependencies} {k node : ℕ} {I C : Set ℕ} {F : QueueLink → List QueueLink}

/-- The depths when a node is given up, in terms of the parents. -/
theorem dissolve_above {P : ℕ → Parent} (m : ℕ) :
    (if P m = .node node then P node else P m).above =
      dissolve (fun n => (P n).above) node m := by
  rw [dissolve]
  by_cases hp : P m = .node node
  · rw [if_pos hp, if_pos (Parent.above_eq_some.mpr hp)]
  · rw [if_neg hp, if_neg fun h => hp (Parent.above_eq_some.mp h)]

/-- The connection when a node is out of its queue and its children `kids` have its
parent. -/
def adopt (c : Dependencies) (node : ℕ) (kids : List ℕ) : Dependencies :=
  { c with
    links := c.links.remove (.queue node)
    nodes := fun m =>
      if m ∈ kids then
        { c.nodes m with
          parent := (c.nodes node).parent
          weight := inheritedWeight (c.nodes node).weight (c.nodes m).weight
            (kids.map fun child => (c.nodes child).weight).sum }
      else c.nodes m }

theorem adopt_node (c : Dependencies) (node : ℕ) (kids : List ℕ) (m : ℕ) :
    ((c.adopt node kids).nodes m).id = (c.nodes m).id ∧
      ((c.adopt node kids).nodes m).stream = (c.nodes m).stream ∧
      ((c.adopt node kids).nodes m).rank = (c.nodes m).rank := by
  simp only [adopt]
  split
  · exact ⟨rfl, rfl, rfl⟩
  · exact ⟨rfl, rfl, rfl⟩

theorem adopt_rankOf (c : Dependencies) (node : ℕ) (kids : List ℕ) :
    (c.adopt node kids).rankOf = c.rankOf := by
  funext m
  exact (adopt_node c node kids m).2.2

theorem adopt_weight {m : ℕ} {kids : List ℕ} (hm : 1 ≤ (c.nodes m).weight) :
    1 ≤ ((c.adopt node kids).nodes m).weight := by
  simp only [adopt]
  split
  · exact inheritedWeight_pos _ _ _
  · exact hm

theorem adopt_parentOf {m : ℕ} {kids : List ℕ}
    (hiff : m ∈ kids ↔ c.parentOf m = .node node) :
    (c.adopt node kids).parentOf m =
      if c.parentOf m = .node node then c.parentOf node else c.parentOf m := by
  by_cases hp : c.parentOf m = .node node
  · rw [if_pos hp]
    simp only [parentOf, adopt, if_pos (hiff.mpr hp)]
  · rw [if_neg hp]
    simp only [parentOf, adopt, if_neg fun h => hp (hiff.mp h)]

theorem rankAbove_parent (hd : Depth I c.above c.rankOf) (hnode : node ∈ I)
    (hparent : c.parentOf node ≠ .null) {c' : Dependencies} (hranks : c'.rankOf = c.rankOf) :
    c'.rankAbove (c.parentOf node) = some (c.rankOf node - 1) := by
  cases hq : c.parentOf node with
  | null => exact absurd hq hparent
  | root =>
      have hone : c.rankOf node = 1 := hd.root node hnode (by rw [above, hq]; rfl)
      rw [hone]
      rfl
  | node p =>
      have hdepth := (hd.child node hnode p (Parent.above_eq_some.mpr hq)).2
      have hp : (c'.nodes p).rank = c.rankOf p := congrFun hranks p
      rw [rankAbove, hp, hdepth, Nat.add_sub_cancel]

/-- When a node has the rank of its parent, the ranks below it get those of the tree without
the node. -/
theorem exists_dissolved_ranks (hd : Depth I c.above c.rankOf)
    (hfresh : ∀ n ∈ I, n < c.fresh) (hnode : node ∈ I) (c' : Dependencies)
    (hl : Linked c'.links k I (I \ {node}) C c.parentOf F) (hsame : c'.fresh = c.fresh) :
    ∃ r, nodeChildrenUpdate (c'.fresh + 1)
        (c'.withRanks (Function.update c.rankOf node (c.rankOf node - 1))) node =
          some (c'.withRanks r) ∧
      ∀ m ∈ I \ {node}, r m = dissolvedDepth c.above c.rankOf node m := by
  have hrest : I = insert node (I \ {node}) := by
    rw [Set.insert_sdiff_singleton, Set.insert_eq_of_mem hnode]
  have hpos := hd.pos hnode
  have hdis := hd.dissolve hnode
  have hstep (n : ℕ) (_ : n ∈ I) (m : ℕ) (hm : m ∈ I \ {node}) (hp : c.parentOf m = .node n) :
      dissolvedDepth c.above c.rankOf node m = dissolvedDepth c.above c.rankOf node n + 1 := by
    have hp' : c.above m = some n := Parent.above_eq_some.mpr hp
    by_cases hn : n = node
    · subst hn
      have hdepth := (hd.child m hm.1 n hp').2
      rw [dissolvedDepth, if_pos ((Below.refl _ n).parent hp'), dissolvedDepth,
        if_pos (Below.refl _ n)]
      omega
    · refine (hdis.child m hm n ?_).2
      rw [dissolve, if_neg fun h => hn (Option.some.inj (hp'.symm.trans h)), hp']
  have hdepth_node : Function.update c.rankOf node (c.rankOf node - 1) node =
      dissolvedDepth c.above c.rankOf node node := by
    rw [Function.update_self, dissolvedDepth, if_pos (Below.refl _ node)]
  have hbound (n : ℕ) (hn : n ∈ I) : dissolvedDepth c.above c.rankOf node n ≤ c'.fresh := by
    rw [hsame]
    exact Nat.le_trans (dissolvedDepth_le node n) (hd.le_bound hfresh hn)
  rw [← hsame] at hfresh
  obtain ⟨r, hr, hkept, hbelow⟩ :=
    Linked.update (c := c'.withRanks (Function.update c.rankOf node (c.rankOf node - 1)))
      hl hrest hfresh hstep hbound hdepth_node
  refine ⟨r, hr, ?_⟩
  intro m hm
  by_cases hin : Below c.above node m
  · exact hbelow m hm hm.2 hin
  · rcases hkept m with heq | hset
    · rw [heq, dissolvedDepth, if_neg hin]
      exact Function.update_of_ne hm.2 ..
    · exact hset.2

theorem giveUp_children (hl : Linked (c.links.remove (.queue node)) k I (I \ {node}) C
      c.parentOf F) (hfresh : ∀ n ∈ I, n < c.fresh) (hweight : ∀ n ∈ I, 1 ≤ (c.nodes n).weight)
    (hnode : node ∈ I) :
    ∃ kids : List ℕ, kids.Nodup ∧
      ({ c with links := c.links.remove (.queue node) } : Dependencies).childrenOf
        (.children node) = some kids ∧
      (∀ m ∈ I \ {node}, m ∈ kids ↔ c.parentOf m = .node node) ∧
      ¬((kids.map fun child => (c.nodes child).weight).sum = 0 ∧ kids ≠ []) := by
  obtain ⟨kids, hqueue, hnodup, hmem⟩ := hl.exists_children (q := .node node) hnode
  refine ⟨kids, hnodup, ?_, ?_, ?_⟩
  · exact childrenOf_eq hqueue hnodup fun n hn => hfresh n ((hmem n).mp hn).1.1
  · exact fun m hm => (hmem m).trans ⟨fun h => h.2, fun h => ⟨hm, h⟩⟩
  · rintro ⟨hzero, hne⟩
    obtain ⟨n, hn⟩ := List.exists_mem_of_ne_nil kids hne
    have hpos : 0 < (kids.map fun child => (c.nodes child).weight).sum :=
      List.sum_pos_iff_exists_pos_nat.mpr
        ⟨_, List.mem_map_of_mem hn, hweight n ((hmem n).mp hn).1.1⟩
    omega

/-- A closed node leaves the tree, and its children get its parent. -/
theorem giveUp_spec (hl : Linked c.links k I I C c.parentOf F) (hd : Depth I c.above c.rankOf)
    (hfresh : ∀ n ∈ I, n < c.fresh) (hweight : ∀ n ∈ I, 1 ≤ (c.nodes n).weight)
    (hnode : node ∈ I) (hC : node ∉ C) :
    ∃ c', c.giveUp node = some c' ∧
      (∃ F', Linked c'.links k (I \ {node}) (I \ {node}) C c'.parentOf F') ∧
      Depth (I \ {node}) c'.above c'.rankOf ∧
      (∀ n ∈ I \ {node}, 1 ≤ (c'.nodes n).weight) ∧
      c'.nodes node = ⟨0, .null, 0, 0, false⟩ ∧
      (∀ n, n ≠ node → (c'.nodes n).id = (c.nodes n).id ∧
        (c'.nodes n).stream = (c.nodes n).stream) ∧
      (∀ n ∈ I \ {node}, c'.parentOf n =
        if c.parentOf n = .node node then c.parentOf node else c.parentOf n) ∧
      c' = { c with nodes := c'.nodes, links := c'.links } := by
  have hvalid := hl.valid node hnode
  have hself : c.parentOf node ≠ .node node := fun heq =>
    hd.not_below_child hnode (Parent.above_eq_some.mpr heq) (Below.refl _ node)
  have hparent : c.parentOf node ≠ .null := fun heq => by
    rw [heq] at hvalid
    exact hvalid
  have hl₁ := hl.detach hnode
  obtain ⟨kids, hnodup, hloop, hmem, hsum⟩ := giveUp_children hl₁ hfresh hweight hnode
  have hrank : (c.adopt node kids).rankAbove (c.nodes node).parent =
      some (c.rankOf node - 1) :=
    rankAbove_parent hd hnode hparent (adopt_rankOf c node kids)
  obtain ⟨r, hr, hright⟩ :=
    exists_dissolved_ranks hd hfresh hnode (c.adopt node kids) hl₁ rfl
  obtain ⟨F', hl₃⟩ := hl₁.dissolve hnode hvalid hself
  obtain ⟨c', hc'⟩ : ∃ c' : Dependencies, c' =
      ({ (c.adopt node kids).withRanks r with
        links := (c.links.remove (.queue node)).add (c.parentOf node).children
          (.children node) } : Dependencies).zeroNode node := ⟨_, rfl⟩
  have hgive : c.giveUp node = some c' := by
    rw [giveUp]
    simp only [hloop, Option.bind_some, if_neg hsum, orphan_eq _ _ _ _ hnodup]
    refine Eq.trans (congrArg (Option.bind · _) hrank) ?_
    rw [Option.bind_some, setNode_rank]
    change (nodeChildrenUpdate _ ((c.adopt node kids).withRanks
      (Function.update (c.adopt node kids).rankOf node _)) node).bind _ = _
    rw [adopt_rankOf]
    refine Eq.trans (congrArg (Option.bind · _) hr) ?_
    rw [hc']
    rfl
  have hother (m : ℕ) (hm : m ≠ node) :
      c'.nodes m = { (c.adopt node kids).nodes m with rank := r m } := by
    rw [hc']
    exact Function.update_of_ne hm ..
  have hparents (m : ℕ) (hm : m ∈ I \ {node}) : c'.parentOf m =
      if c.parentOf m = .node node then c.parentOf node else c.parentOf m := by
    rw [parentOf, hother m hm.2]
    exact adopt_parentOf (hmem m hm)
  refine ⟨c', hgive, ⟨F', ?_⟩, ?_, ?_, ?_, ?_, hparents, ?_⟩
  · refine Linked.congr ?_ hparents
    rw [hc']
    exact Linked.zero hl₃ (fun h => h.2 rfl) (fun h => h.2 rfl) hC
  · refine ((hd.dissolve hnode).congr ?_).congr_parent ?_
    · intro m hm
      rw [rankOf, hother m hm.2]
      exact hright m hm
    · intro m hm
      exact (congrArg Parent.above (hparents m hm)).trans (dissolve_above m)
  · intro m hm
    rw [hother m hm.2]
    exact adopt_weight (hweight m hm.1)
  · rw [hc']
    exact Function.update_self ..
  · intro m hm
    rw [hother m hm]
    exact ⟨(adopt_node c node kids m).1, (adopt_node c node kids m).2.1⟩
  · rw [hc']
    rfl

end GiveUp

/-! ## The invariant -/

/-- A node keeps its parent, or gets the parent of its parent. -/
def Lifted (c c' : Dependencies) (n : ℕ) : Prop :=
  c'.parentOf n = c.parentOf n ∨
    ∃ x, c.parentOf n = .node x ∧ c'.parentOf n = c.parentOf x

/-- The indexed nodes without a stream. -/
def Closed (c : Dependencies) : Set ℕ :=
  {n | n ∈ c.Indexed ∧ (c.nodes n).stream = false}

/-- What holds of a connection: the nodes `A` are a tree with their depths as ranks, the
nodes `C` are in the queue of the closed nodes. -/
structure Consistent (mask : ℕ) (c : Dependencies) (A C : Set ℕ) : Prop where
  linked : ∃ F, Linked c.links c.closedNodes c.Indexed A C c.parentOf F
  depth : Depth A c.above c.rankOf
  fresh : ∀ n ∈ c.Indexed, n < c.fresh
  place : ∀ b, ∀ n ∈ c.streamsIndex b, ngxHttpV2Index mask (c.nodes n).id = b
  nodup : ∀ b, (c.streamsIndex b).Nodup
  unique : ∀ n ∈ c.Indexed, ∀ m ∈ c.Indexed, (c.nodes n).id = (c.nodes m).id → n = m
  weight : ∀ n ∈ A, 1 ≤ (c.nodes n).weight
  odd : ∀ n ∈ c.Indexed, (c.nodes n).stream → (c.nodes n).id % 2 = 1 → (c.nodes n).id ≤ c.lastSid
  even : ∀ n ∈ c.Indexed, (c.nodes n).stream → (c.nodes n).id % 2 = 0 →
    (c.nodes n).id ≤ c.lastPush
  indexed : ∀ n, (c.nodes n).stream → n ∈ c.Indexed
  push : c.lastPush % 2 = 0

/-- What holds between two events: all indexed nodes are in the tree, and the closed ones
of them are in their queue. -/
def Steady (mask : ℕ) (c : Dependencies) : Prop :=
  Consistent mask c c.Indexed c.Closed

section Consistent

variable {mask sid : ℕ} {c : Dependencies} {A C : Set ℕ}

theorem findNode_some {n : ℕ}
    (hfind : c.findNode mask sid = some n) : n ∈ c.Indexed ∧ (c.nodes n).id = sid := by
  have hmem := List.mem_of_find?_eq_some hfind
  have hid := List.find?_some hfind
  exact ⟨⟨_, hmem⟩, beq_iff_eq.mp hid⟩

theorem Consistent.findNode_none (h : Consistent mask c A C)
    (hfind : c.findNode mask sid = none) {n : ℕ} (hn : n ∈ c.Indexed) :
    (c.nodes n).id ≠ sid := by
  obtain ⟨b, hb⟩ := hn
  intro hid
  have hplace := h.place b n hb
  rw [hid] at hplace
  rw [← hplace] at hb
  have hnot := List.find?_eq_none.mp hfind n hb
  rw [hid, beq_self_eq_true] at hnot
  exact hnot rfl

/-- The parents, the ranks, the streams and the queues change. -/
theorem Consistent.change (h : Consistent mask c A C) {c' : Dependencies} {A' C' : Set ℕ}
    (hid : ∀ n, (c'.nodes n).id = (c.nodes n).id) (hindex : c'.streamsIndex = c.streamsIndex)
    (hfresh : c'.fresh = c.fresh)
    (hlinked : ∃ F, Linked c'.links c'.closedNodes c'.Indexed A' C' c'.parentOf F)
    (hdepth : Depth A' c'.above c'.rankOf) (hweight : ∀ n ∈ A', 1 ≤ (c'.nodes n).weight)
    (hstream : ∀ n, (c'.nodes n).stream → (c.nodes n).stream ∨ n ∈ c.Indexed ∧
      ((c.nodes n).id % 2 = 1 → (c.nodes n).id ≤ c'.lastSid) ∧
      ((c.nodes n).id % 2 = 0 → (c.nodes n).id ≤ c'.lastPush))
    (hsid : c.lastSid ≤ c'.lastSid) (hpush : c.lastPush ≤ c'.lastPush)
    (hparity : c'.lastPush % 2 = 0) :
    Consistent mask c' A' C' := by
  have hI : c'.Indexed = c.Indexed := by
    rw [Indexed, Indexed, hindex]
  refine ⟨hlinked, hdepth, ?_, ?_, ?_, ?_, hweight, ?_, ?_, ?_, hparity⟩
  · rw [hI, hfresh]
    exact h.fresh
  · intro b n hn
    rw [hindex] at hn
    rw [hid]
    exact h.place b n hn
  · rw [hindex]
    exact h.nodup
  · intro n hn m hm heq
    rw [hI] at hn hm
    rw [hid, hid] at heq
    exact h.unique n hn m hm heq
  · intro n hn hs hodd
    rw [hI] at hn
    rw [hid] at hodd ⊢
    rcases hstream n hs with hold | ⟨-, hnew, -⟩
    · exact (h.odd n hn hold hodd).trans hsid
    · exact hnew hodd
  · intro n hn hs heven
    rw [hI] at hn
    rw [hid] at heven ⊢
    rcases hstream n hs with hold | ⟨-, -, hnew⟩
    · exact (h.even n hn hold heven).trans hpush
    · exact hnew heven
  · intro n hs
    rw [hI]
    rcases hstream n hs with hold | ⟨hin, -⟩
    · exact h.indexed n hold
    · exact hin

theorem Steady.exists_closed (h : Steady mask c) (hpos : 0 < c.closedNodes) :
    ∃ node ∈ c.Closed, c.links.next .closed = .reuse node := by
  obtain ⟨F, hl⟩ := h.linked
  have hqueue := hl.queues.queue _ (closed_mem_heads c.Indexed)
  have hcount := hl.count
  have hmem := hl.closed
  cases hF : F .closed with
  | nil =>
      rw [hF] at hcount
      exact absurd hcount (Nat.ne_of_gt hpos)
  | cons a rest =>
      rw [hF] at hqueue hmem
      obtain ⟨node, hnode, rfl⟩ := (hmem a).mp List.mem_cons_self
      exact ⟨node, hnode, hqueue.next_head⟩

theorem Consistent.mem_place (h : Consistent mask c A C) {n : ℕ} (hn : n ∈ c.Indexed) :
    n ∈ c.streamsIndex (ngxHttpV2Index mask (c.nodes n).id) := by
  obtain ⟨b, hb⟩ := hn
  rwa [h.place b n hb]

/-- A node is taken out of `streams_index`. -/
theorem Consistent.mem_erase (h : Consistent mask c A C) {node : ℕ} (b n : ℕ) :
    n ∈ Function.update c.streamsIndex (ngxHttpV2Index mask (c.nodes node).id)
        ((c.streamsIndex (ngxHttpV2Index mask (c.nodes node).id)).erase node) b ↔
      n ∈ c.streamsIndex b ∧ n ≠ node := by
  by_cases hb : b = ngxHttpV2Index mask (c.nodes node).id
  · rw [hb, Function.update_self, (h.nodup _).mem_erase_iff, and_comm]
  · rw [Function.update_of_ne hb]
    refine ⟨fun hn => ⟨hn, ?_⟩, fun hn => hn.1⟩
    rintro rfl
    exact hb (h.place b n hn).symm

theorem Consistent.nodup_erase (h : Consistent mask c A C) (node b : ℕ) :
    (Function.update c.streamsIndex (ngxHttpV2Index mask (c.nodes node).id)
      ((c.streamsIndex (ngxHttpV2Index mask (c.nodes node).id)).erase node) b).Nodup := by
  by_cases hb : b = ngxHttpV2Index mask (c.nodes node).id
  · rw [hb, Function.update_self]
    exact (h.nodup _).erase node
  · rw [Function.update_of_ne hb]
    exact h.nodup b

/-- A connection in which a node without a stream is not indexed, or not any more. -/
structure Without (c c' : Dependencies) (node : ℕ) : Prop where
  index : ∀ b n, n ∈ c'.streamsIndex b ↔ n ∈ c.streamsIndex b ∧ n ≠ node
  nodup : ∀ b, (c'.streamsIndex b).Nodup
  zero : c'.nodes node = ⟨0, .null, 0, 0, false⟩
  same : ∀ n, n ≠ node → (c'.nodes n).id = (c.nodes n).id ∧
    (c'.nodes n).stream = (c.nodes n).stream
  fresh : c.fresh ≤ c'.fresh
  lastSid : c'.lastSid = c.lastSid
  lastPush : c'.lastPush = c.lastPush

theorem Without.indexed {c' : Dependencies} {node : ℕ} (h : Without c c' node) :
    c'.Indexed = c.Indexed \ {node} := by
  ext n
  constructor
  · rintro ⟨b, hb⟩
    obtain ⟨hold, hne⟩ := (h.index b n).mp hb
    exact ⟨⟨b, hold⟩, hne⟩
  · rintro ⟨⟨b, hb⟩, hne⟩
    exact ⟨b, (h.index b n).mpr ⟨hb, hne⟩⟩

theorem Without.closed {c' : Dependencies} {node : ℕ} (h : Without c c' node) :
    c'.Closed = c.Closed \ {node} := by
  ext n
  constructor
  · rintro ⟨hn, hstream⟩
    rw [h.indexed] at hn
    rw [(h.same n hn.2).2] at hstream
    exact ⟨⟨hn.1, hstream⟩, hn.2⟩
  · rintro ⟨⟨hn, hstream⟩, hne⟩
    refine ⟨?_, ?_⟩
    · rw [h.indexed]
      exact ⟨hn, hne⟩
    · rw [(h.same n hne).2]
      exact hstream

theorem Without.steady {c' : Dependencies} {node : ℕ} (hc : Without c c' node)
    (h : Steady mask c)
    (hlinked : ∃ F, Linked c'.links c'.closedNodes (c.Indexed \ {node}) (c.Indexed \ {node})
      (c.Closed \ {node}) c'.parentOf F)
    (hdepth : Depth (c.Indexed \ {node}) c'.above c'.rankOf)
    (hweight : ∀ n ∈ c.Indexed \ {node}, 1 ≤ (c'.nodes n).weight) : Steady mask c' := by
  have hI := hc.indexed
  have hold {n : ℕ} (hn : n ∈ c'.Indexed) : n ∈ c.Indexed ∧ n ≠ node := by
    rw [hI] at hn
    exact hn
  refine
    { linked := by rw [hI, hc.closed]; exact hlinked
      depth := by rw [hI]; exact hdepth
      fresh := fun n hn => lt_of_lt_of_le (h.fresh n (hold hn).1) hc.fresh
      place := ?_
      nodup := hc.nodup
      unique := ?_
      weight := by rw [hI]; exact hweight
      odd := ?_
      even := ?_
      indexed := ?_
      push := by rw [hc.lastPush]; exact h.push }
  · intro b n hn
    obtain ⟨hin, hne⟩ := (hc.index b n).mp hn
    rw [(hc.same n hne).1]
    exact h.place b n hin
  · intro n hn m hm hid
    rw [(hc.same n (hold hn).2).1, (hc.same m (hold hm).2).1] at hid
    exact h.unique n (hold hn).1 m (hold hm).1 hid
  · intro n hn hstream
    rw [(hc.same n (hold hn).2).2] at hstream
    rw [(hc.same n (hold hn).2).1, hc.lastSid]
    exact h.odd n (hold hn).1 hstream
  · intro n hn hstream
    rw [(hc.same n (hold hn).2).2] at hstream
    rw [(hc.same n (hold hn).2).1, hc.lastPush]
    exact h.even n (hold hn).1 hstream
  · intro n hstream
    rw [hI]
    by_cases hne : n = node
    · rw [hne, hc.zero] at hstream
      cases hstream
    · rw [(hc.same n hne).2] at hstream
      exact ⟨h.indexed n hstream, hne⟩

theorem getClosedNode_spec (h : Steady mask c) (hpos : 0 < c.closedNodes) :
    ∃ node c', c.ngxHttpV2GetClosedNode mask = some (node, c') ∧ Steady mask c' ∧
      Without c c' node ∧ node < c'.fresh ∧ (c.nodes node).stream = false ∧
      ∀ n ∈ c'.Indexed, Lifted c c' n := by
  obtain ⟨node, hnode, hhead⟩ := h.exists_closed hpos
  obtain ⟨F, hl⟩ := h.linked
  -- The connection without the node in `streams_index`.
  obtain ⟨c₁, hc₁⟩ : ∃ c₁ : Dependencies, c₁ =
      { c with
        closedNodes := c.closedNodes - 1
        links := c.links.remove (.reuse node)
        streamsIndex := Function.update c.streamsIndex (ngxHttpV2Index mask (c.nodes node).id)
          ((c.streamsIndex (ngxHttpV2Index mask (c.nodes node).id)).erase node) } := ⟨_, rfl⟩
  have hnodes : c₁.nodes = c.nodes := by rw [hc₁]
  have hfresh : c₁.fresh = c.fresh := by rw [hc₁]
  have hold : c₁.parentOf = c.parentOf := by
    rw [hc₁]
    rfl
  have hl₁ : Linked c₁.links c₁.closedNodes c.Indexed c.Indexed (c.Closed \ {node}) c₁.parentOf
      (Function.update F .closed ((F .closed).erase (.reuse node))) := by
    rw [hc₁]
    exact hl.removeClosed hnode
  have hdepth : Depth c.Indexed c₁.above c₁.rankOf := by
    rw [hc₁]
    exact h.depth
  obtain ⟨c', hgive, hlinked, hdepth', hweight, hzero, hsame, hparents, hrest⟩ :=
    giveUp_spec hl₁ hdepth (by rw [hfresh]; exact h.fresh) (by rw [hnodes]; exact h.weight)
      hnode.1 fun hin => hin.2 rfl
  have hindex : c'.streamsIndex = c₁.streamsIndex := by rw [hrest]
  have hclosed : c'.closedNodes = c₁.closedNodes := by rw [hrest]
  have hfresh' : c'.fresh = c.fresh := by
    rw [hrest]
    exact hfresh
  rw [hc₁] at hindex
  rw [hnodes] at hsame
  have hwithout : Without c c' node :=
    { index := fun b n => by rw [hindex]; exact h.mem_erase b n
      nodup := fun b => by rw [hindex]; exact h.nodup_erase node b
      zero := hzero
      same := hsame
      fresh := hfresh'.ge
      lastSid := by rw [hrest, hc₁]
      lastPush := by rw [hrest, hc₁] }
  refine ⟨node, c', ?_, hwithout.steady h ?_ hdepth' hweight, hwithout, ?_, hnode.2, ?_⟩
  · rw [ngxHttpV2GetClosedNode, hhead]
    simp only [if_pos (h.mem_place hnode.1)]
    rw [← hc₁, hgive]
    rfl
  · rw [hclosed]
    exact hlinked
  · rw [hfresh']
    exact h.fresh node hnode.1
  · intro n hn
    rw [hwithout.indexed] at hn
    have hparent := hparents n hn
    rw [hold] at hparent
    by_cases hp : c.parentOf n = .node node
    · rw [if_pos hp] at hparent
      exact .inr ⟨node, hp, hparent⟩
    · rw [if_neg hp] at hparent
      exact .inl hparent

theorem newNode_spec (h : Steady mask c) :
    ∃ node c', c.newNode mask = some (node, c') ∧ Steady mask c' ∧ Without c c' node ∧
      node < c'.fresh ∧ (c.nodes node).stream = false ∧
      ∀ n ∈ c'.Indexed, Lifted c c' n := by
  rw [newNode]
  by_cases hfew : c.closedNodes < 32
  · have hout : c.fresh ∉ c.Indexed := fun hin => Nat.lt_irrefl _ (h.fresh _ hin)
    obtain ⟨c', hc'⟩ : ∃ c' : Dependencies, c' =
        ({ c with fresh := c.fresh + 1 } : Dependencies).zeroNode c.fresh := ⟨_, rfl⟩
    have hnode (n : ℕ) (hn : n ≠ c.fresh) : c'.nodes n = c.nodes n := by
      rw [hc']
      exact Function.update_of_ne hn ..
    have hindexed : c.Indexed \ {c.fresh} = c.Indexed := Set.sdiff_singleton_eq_self hout
    have hclosed : c.Closed \ {c.fresh} = c.Closed :=
      Set.sdiff_singleton_eq_self fun hin => hout hin.1
    have hne {n : ℕ} (hn : n ∈ c.Indexed) : n ≠ c.fresh := by
      rintro rfl
      exact hout hn
    have hfresh : c'.fresh = c.fresh + 1 := by
      rw [hc']
      rfl
    have hindex : c'.streamsIndex = c.streamsIndex := by
      rw [hc']
      rfl
    have hwithout : Without c c' c.fresh :=
      { index := by
          intro b n
          rw [hindex]
          exact ⟨fun hn => ⟨hn, hne ⟨b, hn⟩⟩, fun hn => hn.1⟩
        nodup := by rw [hindex]; exact h.nodup
        zero := by rw [hc']; exact Function.update_self ..
        same := fun n hn => by rw [hnode n hn]; exact ⟨rfl, rfl⟩
        fresh := by rw [hfresh]; exact Nat.le_succ _
        lastSid := by rw [hc']; rfl
        lastPush := by rw [hc']; rfl }
    obtain ⟨F, hl⟩ := h.linked
    rw [if_pos hfew, ← hc']
    refine ⟨c.fresh, c', rfl, hwithout.steady h ⟨F, ?_⟩ ?_ ?_, hwithout, by omega, ?_, ?_⟩
    · rw [hindexed, hclosed]
      refine Linked.congr ?_ fun n hn => congrArg Node.parent (hnode n (hne hn))
      rw [hc']
      exact Linked.zero (c := { c with fresh := c.fresh + 1 }) hl hout hout fun hin => hout hin.1
    · rw [hindexed]
      refine (h.depth.congr ?_).congr_parent ?_
      · exact fun n hn => congrArg Node.rank (hnode n (hne hn))
      · exact fun n hn => congrArg (fun x => Parent.above (Node.parent x)) (hnode n (hne hn))
    · intro n hn
      rw [hnode n hn.2]
      exact h.weight n hn.1
    · by_contra hstream
      exact hout (h.indexed _ (Bool.eq_true_of_not_eq_false hstream))
    · intro n hn
      rw [hwithout.indexed] at hn
      exact .inl (congrArg Node.parent (hnode n hn.2))
  · rw [if_neg hfew]
    exact getClosedNode_spec h (by omega)

theorem addIndex_indexed (node : ℕ) :
    (c.addIndex mask node sid).Indexed = insert node c.Indexed := by
  ext n
  constructor
  · rintro ⟨b, hb⟩
    simp only [addIndex, setNode] at hb
    by_cases hplace : b = ngxHttpV2Index mask sid
    · rw [hplace, Function.update_self] at hb
      rcases List.mem_cons.mp hb with rfl | hb
      · exact Set.mem_insert n _
      · exact Set.mem_insert_of_mem node ⟨_, hb⟩
    · rw [Function.update_of_ne hplace] at hb
      exact Set.mem_insert_of_mem node ⟨b, hb⟩
  · rintro (rfl | ⟨b, hb⟩)
    · refine ⟨ngxHttpV2Index mask sid, ?_⟩
      simp only [addIndex, Function.update_self]
      exact List.mem_cons_self
    · refine ⟨b, ?_⟩
      simp only [addIndex, setNode]
      by_cases hplace : b = ngxHttpV2Index mask sid
      · rw [hplace] at hb
        rw [hplace, Function.update_self]
        exact List.mem_cons_of_mem node hb
      · rw [Function.update_of_ne hplace]
        exact hb

/-- A new node is indexed, but not in the tree yet. -/
theorem addIndex_spec (h : Steady mask c) {node : ℕ} (hnode : node ∉ c.Indexed)
    (hfresh : node < c.fresh) (hstream : (c.nodes node).stream = false)
    (hsid : ∀ n ∈ c.Indexed, (c.nodes n).id ≠ sid) :
    Consistent mask (c.addIndex mask node sid) c.Indexed c.Closed := by
  have hI : (c.addIndex mask node sid).Indexed = insert node c.Indexed := addIndex_indexed node
  have hne {n : ℕ} (hn : n ∈ c.Indexed) : n ≠ node := ne_of_mem_of_not_mem hn hnode
  have hother (n : ℕ) (hn : n ≠ node) : (c.addIndex mask node sid).nodes n = c.nodes n :=
    Function.update_of_ne hn ..
  have hself : (c.addIndex mask node sid).nodes node = { c.nodes node with id := sid } :=
    Function.update_self ..
  have hbucket (b n : ℕ) (hn : n ∈ (c.addIndex mask node sid).streamsIndex b) :
      (n = node ∧ b = ngxHttpV2Index mask sid) ∨ (n ≠ node ∧ n ∈ c.streamsIndex b) := by
    simp only [addIndex, setNode] at hn
    by_cases hplace : b = ngxHttpV2Index mask sid
    · rw [hplace, Function.update_self] at hn
      rcases List.mem_cons.mp hn with rfl | hn
      · exact .inl ⟨rfl, hplace⟩
      · rw [hplace]
        exact .inr ⟨hne ⟨_, hn⟩, hn⟩
    · rw [Function.update_of_ne hplace] at hn
      exact .inr ⟨hne ⟨b, hn⟩, hn⟩
  obtain ⟨F, hl⟩ := h.linked
  refine ⟨⟨Function.update F (.children node) [], ?_⟩, ?_, ?_, ?_, ?_, ?_, ?_, ?_, ?_, ?_, h.push⟩
  · rw [hI]
    refine Linked.congr (hl.index hnode) fun n hn => congrArg Node.parent (hother n (hne hn))
  · refine (h.depth.congr ?_).congr_parent ?_
    · exact fun n hn => congrArg Node.rank (hother n (hne hn))
    · exact fun n hn => congrArg (fun x => Parent.above (Node.parent x)) (hother n (hne hn))
  · intro n hn
    rw [hI] at hn
    rcases hn with rfl | hn
    · exact hfresh
    · exact h.fresh n hn
  · intro b n hn
    rcases hbucket b n hn with ⟨rfl, hb⟩ | ⟨hn', hb⟩
    · rw [hself, hb]
    · rw [hother n hn']
      exact h.place b n hb
  · intro b
    simp only [addIndex, setNode]
    by_cases hplace : b = ngxHttpV2Index mask sid
    · rw [hplace, Function.update_self]
      exact List.nodup_cons.mpr ⟨fun hin => hnode ⟨_, hin⟩, h.nodup _⟩
    · rw [Function.update_of_ne hplace]
      exact h.nodup b
  · intro n hn m hm hid
    rw [hI] at hn hm
    rcases hn with rfl | hn <;> rcases hm with rfl | hm
    · rfl
    · rw [hself, hother m (hne hm)] at hid
      exact absurd hid.symm (hsid m hm)
    · rw [hself, hother n (hne hn)] at hid
      exact absurd hid (hsid n hn)
    · rw [hother n (hne hn), hother m (hne hm)] at hid
      exact h.unique n hn m hm hid
  · intro n hn
    rw [hother n (hne hn)]
    exact h.weight n hn
  · intro n hn hstream'
    rw [hI] at hn
    rcases hn with rfl | hn
    · rw [hself, hstream] at hstream'
      cases hstream'
    · rw [hother n (hne hn)] at hstream' ⊢
      exact h.odd n hn hstream'
  · intro n hn hstream'
    rw [hI] at hn
    rcases hn with rfl | hn
    · rw [hself, hstream] at hstream'
      cases hstream'
    · rw [hother n (hne hn)] at hstream' ⊢
      exact h.even n hn hstream'
  · intro n hstream'
    rw [hI]
    by_cases hn : n = node
    · exact .inl hn
    · rw [hother n hn] at hstream'
      exact .inr (h.indexed n hstream')

/-- What `ngx_http_v2_get_node_by_id` returns: a node of the tree, or a new one. -/
structure Got (mask sid : ℕ) (c c' : Dependencies) (node : ℕ) (A : Set ℕ) : Prop where
  consistent : Consistent mask c' A {n | n ∈ A ∧ (c'.nodes n).stream = false}
  indexed : c'.Indexed = insert node A
  attached : c'.parentOf node ≠ .null ↔ node ∈ A
  id : (c'.nodes node).id = sid
  found : node ∈ A → c' = c
  new : node ∉ A → (c'.nodes node).stream = false ∧ (c.nodes node).stream = false ∧
    (∀ n ∈ c.Indexed, (c.nodes n).id ≠ sid) ∧
    ∀ n ∈ c.Indexed, n ≠ node → n ∈ A ∧ Lifted c c' n
  same : ∀ n, n ≠ node → (c'.nodes n).id = (c.nodes n).id ∧
    (c'.nodes n).stream = (c.nodes n).stream
  lastSid : c'.lastSid = c.lastSid
  lastPush : c'.lastPush = c.lastPush

theorem getNodeById_spec (h : Steady mask c) (sid : ℕ) :
    ∃ node c' A, c.ngxHttpV2GetNodeById mask sid = some (node, c') ∧
      Got mask sid c c' node A := by
  rw [ngxHttpV2GetNodeById]
  cases hfind : c.findNode mask sid with
  | some node =>
      obtain ⟨hnode, hid⟩ := findNode_some hfind
      obtain ⟨F, hl⟩ := h.linked
      refine ⟨node, c, c.Indexed, rfl, h, (Set.insert_eq_of_mem hnode).symm, ?_, hid,
        fun _ => rfl, fun hout => absurd hnode hout, fun _ _ => ⟨rfl, rfl⟩, rfl, rfl⟩
      refine ⟨fun _ => hnode, fun _ heq => ?_⟩
      have hvalid := hl.valid node hnode
      rwa [heq] at hvalid
  | none =>
      obtain ⟨node, c₁, hnew, hsteady, hwithout, hfresh, hstream, hlifted⟩ := newNode_spec h
      have hI := hwithout.indexed
      have hzero := hwithout.zero
      have hout : node ∉ c₁.Indexed := by
        rw [hI]
        exact fun hin => hin.2 rfl
      have hids : ∀ n ∈ c.Indexed, (c.nodes n).id ≠ sid := fun n hn => h.findNode_none hfind hn
      have hids₁ : ∀ n ∈ c₁.Indexed, (c₁.nodes n).id ≠ sid := by
        intro n hn
        have hne : n ≠ node := ne_of_mem_of_not_mem hn hout
        rw [hI] at hn
        rw [(hwithout.same n hne).1]
        exact hids n hn.1
      have hcons := addIndex_spec hsteady hout hfresh (by rw [hzero]) hids₁
      have hother (n : ℕ) (hn : n ≠ node) : (c₁.addIndex mask node sid).nodes n = c₁.nodes n :=
        Function.update_of_ne hn ..
      have hself : (c₁.addIndex mask node sid).nodes node = { c₁.nodes node with id := sid } :=
        Function.update_self ..
      have hclosed : c₁.Closed =
          {n | n ∈ c₁.Indexed ∧ ((c₁.addIndex mask node sid).nodes n).stream = false} := by
        ext n
        refine and_congr_right fun hn => ?_
        rw [hother n (ne_of_mem_of_not_mem hn hout)]
      rw [hclosed] at hcons
      refine ⟨node, c₁.addIndex mask node sid, c₁.Indexed, by rw [hnew]; rfl, hcons,
        addIndex_indexed node, ?_, by rw [hself], fun hin => absurd hin hout, ?_, ?_,
        hwithout.lastSid, hwithout.lastPush⟩
      · rw [parentOf, hself, hzero]
        exact ⟨fun hne => absurd rfl hne, fun hin => absurd hin hout⟩
      · intro _
        refine ⟨by rw [hself, hzero], hstream, hids, ?_⟩
        intro n hn hne
        have hin : n ∈ c₁.Indexed := by
          rw [hI]
          exact ⟨hn, hne⟩
        refine ⟨hin, ?_⟩
        have hparent : (c₁.addIndex mask node sid).parentOf n = c₁.parentOf n :=
          congrArg Node.parent (hother n hne)
        rw [Lifted, hparent]
        exact hlifted n hin
      · intro n hne
        rw [hother n hne]
        exact hwithout.same n hne

/-- A connection before `ngx_http_v2_set_dependency` for a node. -/
structure Ready (mask : ℕ) (c : Dependencies) (node : ℕ) (A : Set ℕ) : Prop where
  consistent : Consistent mask c A c.Closed
  indexed : c.Indexed = insert node A
  attached : c.parentOf node ≠ .null ↔ node ∈ A
  weight : 1 ≤ (c.nodes node).weight

theorem Ready.setDependency {node depend : ℕ} (h : Ready mask c node A) (exclusive : Bool)
    (hdepend : depend ≠ (c.nodes node).id) :
    ∃ c', c.ngxHttpV2SetDependency mask node depend exclusive = some c' ∧ Keeps c c' ∧
      Steady mask c' ∧ ∃ parent e, (∀ p, parent = some p → p ∈ A ∧ p ≠ node) ∧
        ∀ m ∈ c.Indexed, c'.parentOf m = reprioritised c.parentOf node parent e m := by
  obtain ⟨F, hl⟩ := h.consistent.linked
  have hfind (p : ℕ) (hp : c.findNode mask depend = some p) : p ∈ c.Indexed ∧ p ≠ node := by
    obtain ⟨hin, hid⟩ := findNode_some hp
    refine ⟨hin, ?_⟩
    rintro rfl
    exact hdepend hid.symm
  obtain ⟨c', hset, hkeeps, hlinked, hdepth, hparents⟩ :=
    setDependency_spec exclusive hl h.indexed h.attached h.consistent.depth h.consistent.fresh
      (fun n hn hstream => ⟨hn, hstream⟩) hfind
  have hI : c'.Indexed = c.Indexed := by
    rw [Indexed, Indexed, hkeeps.streamsIndex]
  have hC : c'.Closed = c.Closed := by
    rw [Closed, Closed, hI]
    ext n
    rw [Set.mem_ofPred_eq, Set.mem_ofPred_eq, hkeeps.stream]
  have hpush : c'.lastPush % 2 = 0 := by
    rw [hkeeps.lastPush]
    exact h.consistent.push
  refine ⟨c', hset, hkeeps, h.consistent.change hkeeps.id hkeeps.streamsIndex hkeeps.fresh ?_ ?_ ?_
    (fun n hstream => .inl ((hkeeps.stream n).symm.trans hstream)) hkeeps.lastSid.ge
    hkeeps.lastPush.ge hpush, _, _, ?_, hparents⟩
  · rw [hI, hC, hkeeps.closedNodes]
    exact hlinked
  · rw [hI]
    exact hdepth
  · intro n hn
    rw [hI, h.indexed] at hn
    rw [hkeeps.weight]
    rcases hn with rfl | hn
    · exact h.weight
    · exact h.consistent.weight n hn
  · intro p hp
    by_cases hzero : depend = 0
    · rw [if_pos hzero] at hp
      exact absurd hp nofun
    · rw [if_neg hzero] at hp
      obtain ⟨hin, hne⟩ := hfind p hp
      rw [h.indexed] at hin
      exact ⟨hin.resolve_left hne, hne⟩

theorem setWeight_nodes (c : Dependencies) (node w n : ℕ) :
    ((c.setNode node fun x => { x with weight := w }).nodes n).id = (c.nodes n).id ∧
      ((c.setNode node fun x => { x with weight := w }).nodes n).stream = (c.nodes n).stream ∧
      (c.setNode node fun x => { x with weight := w }).parentOf n = c.parentOf n ∧
      (c.setNode node fun x => { x with weight := w }).rankOf n = c.rankOf n ∧
      ((c.setNode node fun x => { x with weight := w }).nodes n).weight =
        if n = node then w else (c.nodes n).weight := by
  simp only [setNode, parentOf, rankOf]
  by_cases hn : n = node
  · rw [hn, Function.update_self, if_pos rfl]
    exact ⟨rfl, rfl, rfl, rfl, rfl⟩
  · rw [Function.update_of_ne hn, if_neg hn]
    exact ⟨rfl, rfl, rfl, rfl, rfl⟩

theorem Consistent.setWeight (h : Consistent mask c A C) (node : ℕ) {w : ℕ} (hw : 1 ≤ w) :
    Consistent mask (c.setNode node fun x => { x with weight := w }) A C := by
  have hnodes (n : ℕ) := setWeight_nodes c node w n
  obtain ⟨F, hl⟩ := h.linked
  refine h.change (fun n => (hnodes n).1) rfl rfl ⟨F, hl.congr fun n _ => (hnodes n).2.2.1⟩ ?_ ?_
    (fun n hstream => .inl ((hnodes n).2.1.symm.trans hstream)) (Nat.le_refl _) (Nat.le_refl _)
    h.push
  · refine (h.depth.congr fun n _ => (hnodes n).2.2.2.1).congr_parent ?_
    exact fun n _ => congrArg Parent.above (hnodes n).2.2.1
  · intro n hn
    rw [(hnodes n).2.2.2.2]
    split
    · exact hw
    · exact h.weight n hn

/-- A node with its new weight gets a parent. -/
theorem Consistent.ready {node w : ℕ} (h : Consistent mask c A c.Closed)
    (hindexed : c.Indexed = insert node A) (hattached : c.parentOf node ≠ .null ↔ node ∈ A)
    (hw : 1 ≤ w) : Ready mask (c.setNode node fun x => { x with weight := w }) node A := by
  have hnodes (n : ℕ) := setWeight_nodes c node w n
  have hC : (c.setNode node fun x => { x with weight := w }).Closed = c.Closed := by
    ext n
    refine and_congr_right fun _ => ?_
    rw [(hnodes n).2.1]
  refine ⟨?_, hindexed, ?_, ?_⟩
  · rw [hC]
    exact h.setWeight node hw
  · rw [(hnodes node).2.2.1]
    exact hattached
  · rw [(hnodes node).2.2.2.2, if_pos rfl]
    exact hw

theorem Consistent.setLast (h : Consistent mask c A C) {s p : ℕ} (hs : c.lastSid ≤ s)
    (hp : c.lastPush ≤ p) (heven : p % 2 = 0) :
    Consistent mask { c with lastSid := s, lastPush := p } A C :=
  h.change (fun _ => rfl) rfl rfl h.linked h.depth h.weight (fun _ hstream => .inl hstream) hs hp
    heven

theorem setStream_nodes (c : Dependencies) (node : ℕ) (b : Bool) (n : ℕ) :
    ((c.setNode node fun x => { x with stream := b }).nodes n).id = (c.nodes n).id ∧
      ((c.setNode node fun x => { x with stream := b }).nodes n).weight = (c.nodes n).weight ∧
      (c.setNode node fun x => { x with stream := b }).parentOf n = c.parentOf n ∧
      (c.setNode node fun x => { x with stream := b }).rankOf n = c.rankOf n ∧
      ((c.setNode node fun x => { x with stream := b }).nodes n).stream =
        if n = node then b else (c.nodes n).stream := by
  simp only [setNode, parentOf, rankOf]
  by_cases hn : n = node
  · rw [hn, Function.update_self, if_pos rfl]
    exact ⟨rfl, rfl, rfl, rfl, rfl⟩
  · rw [Function.update_of_ne hn, if_neg hn]
    exact ⟨rfl, rfl, rfl, rfl, rfl⟩

/-- A node gets or loses its stream, and the queue of the closed nodes changes with it. -/
theorem Consistent.setStream (h : Consistent mask c A C) (node : ℕ) (b : Bool)
    {l : Links QueueLink} {k : ℕ} {C' : Set ℕ} (hl : ∃ F, Linked l k c.Indexed A C' c.parentOf F)
    (hb : b = true → node ∈ c.Indexed ∧
      ((c.nodes node).id % 2 = 1 → (c.nodes node).id ≤ c.lastSid) ∧
      ((c.nodes node).id % 2 = 0 → (c.nodes node).id ≤ c.lastPush)) :
    Consistent mask { c.setNode node (fun x => { x with stream := b }) with
      links := l, closedNodes := k } A C' := by
  have hnodes (n : ℕ) := setStream_nodes c node b n
  obtain ⟨F, hl⟩ := hl
  refine h.change (fun n => (hnodes n).1) rfl rfl ⟨F, hl.congr fun n _ => (hnodes n).2.2.1⟩ ?_ ?_ ?_
    (Nat.le_refl _) (Nat.le_refl _) h.push
  · refine (h.depth.congr fun n _ => (hnodes n).2.2.2.1).congr_parent ?_
    exact fun n _ => congrArg Parent.above (hnodes n).2.2.1
  · intro n hn
    rw [(hnodes n).2.1]
    exact h.weight n hn
  · intro n hstream
    rw [(hnodes n).2.2.2.2] at hstream
    by_cases hn : n = node
    · rw [if_pos hn] at hstream
      rw [hn]
      exact .inr (hb hstream)
    · rw [if_neg hn] at hstream
      exact .inl hstream

/-- A node that may get a stream or a new parent; its queue of closed nodes does not
hold it when it is new. -/
structure Held (mask : ℕ) (c : Dependencies) (node : ℕ) (A : Set ℕ) : Prop where
  consistent : Consistent mask c A {n | n ∈ A ∧ (c.nodes n).stream = false}
  indexed : c.Indexed = insert node A
  attached : c.parentOf node ≠ .null ↔ node ∈ A
  new : node ∉ A → (c.nodes node).stream = false

theorem Held.setWeight {node w : ℕ} (h : Held mask c node A) (hw : 1 ≤ w) :
    Held mask (c.setNode node fun x => { x with weight := w }) node A := by
  have hnodes (n : ℕ) := setWeight_nodes c node w n
  refine ⟨?_, h.indexed, ?_, fun hout => (hnodes node).2.1.trans (h.new hout)⟩
  · simp only [fun n => (hnodes n).2.1]
    exact h.consistent.setWeight node hw
  · rw [(hnodes node).2.2.1]
    exact h.attached

theorem Held.giveStream {node : ℕ} (h : Held mask c node A)
    (hstream : (c.nodes node).stream = false)
    (hodd : (c.nodes node).id % 2 = 1 → (c.nodes node).id ≤ c.lastSid)
    (heven : (c.nodes node).id % 2 = 0 → (c.nodes node).id ≤ c.lastPush) :
    Consistent mask (c.giveStream node) A (c.giveStream node).Closed ∧
      (c.giveStream node).Indexed = c.Indexed ∧ (c.giveStream node).parentOf = c.parentOf ∧
      (∀ n, ((c.giveStream node).nodes n).id = (c.nodes n).id) ∧
      ∀ n, ((c.giveStream node).nodes n).stream =
        if n = node then true else (c.nodes n).stream := by
  have hin : node ∈ c.Indexed := by
    rw [h.indexed]
    exact Set.mem_insert node A
  obtain ⟨F, hl⟩ := h.consistent.linked
  have hnodes (n : ℕ) := setStream_nodes c node true n
  obtain ⟨l, k, hstate, hlinked⟩ : ∃ l k, c.giveStream node =
      { c.setNode node (fun x => { x with stream := true }) with links := l, closedNodes := k } ∧
      ∃ F', Linked l k c.Indexed A ({n | n ∈ A ∧ (c.nodes n).stream = false} \ {node})
        c.parentOf F' := by
    rw [Dependencies.giveStream]
    by_cases hA : node ∈ A
    · have hparent : (c.nodes node).parent ≠ .null := h.attached.mpr hA
      simp only [if_pos hparent]
      exact ⟨_, _, rfl, _, hl.removeClosed ⟨hA, hstream⟩⟩
    · have hparent : ¬(c.nodes node).parent ≠ .null := fun hne => hA (h.attached.mp hne)
      simp only [if_neg hparent]
      have hC : {n | n ∈ A ∧ (c.nodes n).stream = false} \ {node} =
          {n | n ∈ A ∧ (c.nodes n).stream = false} := by
        refine Set.sdiff_singleton_eq_self fun hmem => hA hmem.1
      rw [hC]
      exact ⟨_, _, rfl, F, hl⟩
  have hcons := h.consistent.setStream node true hlinked
    fun _ => ⟨hin, hodd, heven⟩
  rw [hstate]
  have hclosed : ({ c.setNode node (fun x => { x with stream := true }) with
      links := l, closedNodes := k } : Dependencies).Closed =
        {n | n ∈ A ∧ (c.nodes n).stream = false} \ {node} := by
    ext n
    constructor
    · rintro ⟨hn, hs⟩
      have hs' := hs
      simp only [(hnodes n).2.2.2.2] at hs'
      by_cases hne : n = node
      · rw [if_pos hne] at hs'
        exact absurd hs' nofun
      · rw [if_neg hne] at hs'
        have hn' : n ∈ c.Indexed := hn
        rw [h.indexed] at hn'
        exact ⟨⟨hn'.resolve_left hne, hs'⟩, hne⟩
    · rintro ⟨⟨hn, hs⟩, hne⟩
      have hin' : n ∈ c.Indexed := by
        rw [h.indexed]
        exact Set.mem_insert_of_mem node hn
      refine ⟨hin', ?_⟩
      have hne' : n ≠ node := hne
      simp only [(hnodes n).2.2.2.2]
      rwa [if_neg hne']
  rw [← hclosed] at hcons
  refine ⟨hcons, rfl, ?_, fun n => (hnodes n).1, fun n => (hnodes n).2.2.2.2⟩
  funext n
  exact (hnodes n).2.2.1

/-- A node without a stream goes to the end of the closed nodes. -/
theorem Held.keepClosed {node : ℕ} (h : Held mask c node A) :
    Consistent mask (c.keepClosed node) A (c.keepClosed node).Closed ∧
      (c.keepClosed node).Indexed = c.Indexed ∧ (c.keepClosed node).nodes = c.nodes := by
  obtain ⟨F, hl⟩ := h.consistent.linked
  cases hstream : (c.nodes node).stream with
  | true =>
      have hA : node ∈ A := by
        by_contra hout
        exact absurd ((h.new hout).symm.trans hstream) nofun
      have hI : c.Indexed = A := h.indexed.trans (Set.insert_eq_of_mem hA)
      rw [Dependencies.keepClosed, if_pos hstream]
      refine ⟨?_, rfl, rfl⟩
      have hC : c.Closed = {n | n ∈ A ∧ (c.nodes n).stream = false} := by
        rw [Closed, hI]
      rw [hC]
      exact h.consistent
  | false =>
      have hnot : ¬(c.nodes node).stream = true := by
        rw [hstream]
        exact nofun
      have hC : c.Closed = insert node {n | n ∈ A ∧ (c.nodes n).stream = false} := by
        ext n
        constructor
        · rintro ⟨hn, hs⟩
          rw [h.indexed] at hn
          rcases hn with rfl | hn
          · exact .inl rfl
          · exact .inr ⟨hn, hs⟩
        · rintro (rfl | ⟨hn, hs⟩)
          · refine ⟨?_, hstream⟩
            rw [h.indexed]
            exact Set.mem_insert n A
          · refine ⟨?_, hs⟩
            rw [h.indexed]
            exact Set.mem_insert_of_mem node hn
      obtain ⟨l, k, hstate, hlinked⟩ : ∃ l k, c.keepClosed node =
          { c with links := l, closedNodes := k } ∧
          ∃ F', Linked l k c.Indexed A c.Closed c.parentOf F' := by
        rw [Dependencies.keepClosed, if_neg hnot, hC]
        by_cases hA : node ∈ A
        · have hparent : ¬(c.nodes node).parent = .null := h.attached.mpr hA
          have hmem : node ∈ {n | n ∈ A ∧ (c.nodes n).stream = false} := ⟨hA, hstream⟩
          have hpos : 0 < c.closedNodes := by
            rw [hl.count]
            exact List.length_pos_of_mem ((hl.closed _).mpr ⟨node, hmem, rfl⟩)
          have hmoved := (hl.removeClosed hmem).insertClosed (n := node) fun hin => hin.2 rfl
          rw [Set.insert_sdiff_singleton, Nat.sub_add_cancel hpos] at hmoved
          simp only [if_neg hparent]
          exact ⟨_, _, rfl, _, hmoved⟩
        · have hparent : (c.nodes node).parent = .null := by
            by_contra hne
            exact hA (h.attached.mp hne)
          simp only [if_pos hparent]
          exact ⟨_, _, rfl, _, hl.insertClosed fun hin => hA hin.1⟩
      rw [hstate]
      refine ⟨?_, rfl, rfl⟩
      exact h.consistent.change (fun _ => rfl) rfl rfl hlinked h.consistent.depth
        h.consistent.weight (fun _ hs => .inl hs) (Nat.le_refl _) (Nat.le_refl _)
        h.consistent.push

theorem Steady.closeStream {node : ℕ} (h : Steady mask c) (hstream : (c.nodes node).stream) :
    Steady mask (c.closeStream node) ∧ (c.closeStream node).parentOf = c.parentOf := by
  have hin := h.indexed node hstream
  obtain ⟨F, hl⟩ := h.linked
  have hnodes (n : ℕ) := setStream_nodes c node false n
  have hout : node ∉ c.Closed := fun hmem => absurd (hmem.2.symm.trans hstream) nofun
  have hcons := Consistent.setStream h node false ⟨_, hl.insertClosed hout⟩ nofun
  have hclosed : (c.closeStream node).Closed = insert node c.Closed := by
    ext n
    constructor
    · rintro ⟨hn, hs⟩
      by_cases hne : n = node
      · exact .inl hne
      · refine .inr ⟨hn, ?_⟩
        have hs' := (hnodes n).2.2.2.2
        rw [if_neg hne] at hs'
        exact hs'.symm.trans hs
    · rintro (rfl | ⟨hn, hs⟩)
      · exact ⟨hin, (hnodes n).2.2.2.2.trans (if_pos rfl)⟩
      · refine ⟨hn, (hnodes n).2.2.2.2.trans ?_⟩
        split
        · rfl
        · exact hs
  refine ⟨?_, funext fun n => (hnodes n).2.2.1⟩
  rw [Steady, hclosed]
  exact hcons

end Consistent

/-! ## New parents -/

/-- A stream that gets below one of the streams below it: that one has got its old
parent. -/
def Reparents (c c' : Dependencies) : Prop :=
  ∀ n ∈ c.Indexed, ∀ p ∈ c.Indexed, (c'.nodes n).id = (c.nodes n).id →
    (c'.nodes p).id = (c.nodes p).id → p ≠ n → Below c.above n p → c'.parentOf n = .node p →
      c'.parentOf p = c.parentOf n

section Reparents

variable {mask : ℕ} {c c' : Dependencies}

theorem reparents_of_eq (h : Steady mask c) (hparents : c'.parentOf = c.parentOf) :
    Reparents c c' := by
  intro n hn p _ _ _ _ hbelow hp
  rw [hparents] at hp
  exact absurd hbelow (h.depth.not_below_child hn (Parent.above_eq_some.mpr hp))

/-- A node of the tree gets a new parent. -/
theorem reparents_of_found (h : Steady mask c) {node : ℕ} {parent : Option ℕ} {e : Bool}
    (hnode : node ∈ c.Indexed) (hparent : ∀ p, parent = some p → p ∈ c.Indexed ∧ p ≠ node)
    (hparents : ∀ m ∈ c.Indexed, c'.parentOf m = reprioritised c.parentOf node parent e m) :
    Reparents c c' := by
  intro n hn p hp _ _ hne hbelow hnew
  have hchild {m q : ℕ} (hm : m ∈ c.Indexed) (hq : c.parentOf m = .node q) :
      c.rankOf m = c.rankOf q + 1 :=
    (h.depth.child m hm q (Parent.above_eq_some.mpr hq)).2
  have hlt : c.rankOf n < c.rankOf p := (h.depth.below hp hbelow).2.resolve_left hne
  have hold : c.parentOf n ≠ .node p := fun hq => by
    have hrank := hchild hn hq
    omega
  -- The parents behind the first part.
  obtain ⟨P, q, hP, hq, hall⟩ : ∃ P q,
      (P = c.parentOf ∨ ∃ x ∈ c.Indexed, q = .node x ∧ x ≠ node ∧ Below c.above node x ∧
        P = Function.update c.parentOf x (c.parentOf node)) ∧
      (∀ x, q = .node x → Below c.above node x → x ≠ node →
        P = Function.update c.parentOf x (c.parentOf node)) ∧
      ∀ m ∈ c.Indexed, c'.parentOf m = attached P node q e m := by
    cases parent with
    | none =>
        exact ⟨c.parentOf, .root, .inl rfl, nofun, hparents⟩
    | some x =>
        obtain ⟨hx, hxn⟩ := hparent x rfl
        refine ⟨yielded c.parentOf node x, .node x, ?_, ?_, hparents⟩
        · rw [yielded]
          split
          · next hyield => exact .inr ⟨x, hx, rfl, hxn, hyield.2, rfl⟩
          · exact .inl rfl
        · intro y hy hbelow' _
          obtain rfl := Parent.node.inj hy
          obtain ⟨F, hl⟩ := h.linked
          refine if_pos ⟨fun heq => ?_, hbelow'⟩
          have hvalid := hl.valid node hnode
          rwa [heq] at hvalid
  have hn' := hall n hn
  have hp' := hall p hp
  rw [hn'] at hnew
  by_cases hnn : n = node
  · -- The node itself: its parent has taken its place.
    rw [hnn] at hnew hbelow hne hlt ⊢
    rw [attached, if_pos rfl] at hnew
    have hyield := hq p hnew hbelow hne
    rw [hp', attached, if_neg hne, hyield, Function.update_self]
    split
    · next hadopt =>
      rw [hnew] at hadopt
      have hrank := hchild hnode hadopt.2
      omega
    · rfl
  · rw [attached, if_neg hnn] at hnew
    split at hnew
    · -- A child that the node adopts was a child of the node's new parent.
      next hadopt =>
      obtain rfl := Parent.node.inj hnew
      rw [hp', attached, if_pos rfl, ← hadopt.2]
      rcases hP with rfl | ⟨x, hx, hqx, -, hbelow', rfl⟩
      · rfl
      · by_cases hnx : n = x
        · subst hnx
          rw [Function.update_self, hqx] at hadopt
          have hrank := hchild hnode hadopt.2
          have hlt' := (h.depth.below hn hbelow').2.resolve_left hnn
          omega
        · rw [Function.update_of_ne hnx]
    · rcases hP with rfl | ⟨x, hx, -, hxn, hbelow', rfl⟩
      · exact absurd hnew hold
      · by_cases hnx : n = x
        · subst hnx
          rw [Function.update_self] at hnew
          have hrank := hchild hnode hnew
          have hlt' := (h.depth.below hn hbelow').2.resolve_left hxn
          omega
        · rw [Function.update_of_ne hnx] at hnew
          exact absurd hnew hold

theorem reparents_of_new (h : Steady mask c) {c₀ : Dependencies} {node : ℕ}
    {parent : Option ℕ} {e : Bool} (hnull : c₀.parentOf node = .null)
    (hid : node ∈ c.Indexed → (c'.nodes node).id ≠ (c.nodes node).id)
    (hlifted : ∀ n ∈ c.Indexed, n ≠ node → n ∈ c₀.Indexed ∧ Lifted c c₀ n)
    (hparents : ∀ m ∈ c₀.Indexed, c'.parentOf m = reprioritised c₀.parentOf node parent e m) :
    Reparents c c' := by
  intro n hn p hp hidn hidp hne hbelow hnew
  have hchild {m q : ℕ} (hm : m ∈ c.Indexed) (hq : c.parentOf m = .node q) :
      q ∈ c.Indexed ∧ c.rankOf m = c.rankOf q + 1 :=
    h.depth.child m hm q (Parent.above_eq_some.mpr hq)
  have hlt : c.rankOf n < c.rankOf p := (h.depth.below hp hbelow).2.resolve_left hne
  have hnn : n ≠ node := by
    rintro rfl
    exact hid hn hidn
  have hpn : p ≠ node := by
    rintro rfl
    exact hid hp hidp
  obtain ⟨hn₀, hlift⟩ := hlifted n hn hnn
  have hstay : c₀.parentOf n = .node p := by
    have hnew' := (hparents n hn₀).symm.trans hnew
    have hattached (P : ℕ → Parent) (q : Parent) (hP : P = c₀.parentOf)
        (heq : attached P node q e n = .node p) : c₀.parentOf n = .node p := by
      rw [attached, if_neg hnn] at heq
      split at heq
      · exact absurd (Parent.node.inj heq).symm hpn
      · rw [← hP]
        exact heq
    cases parent with
    | none => exact hattached _ _ rfl hnew'
    | some x => exact hattached _ _ (if_neg fun hyield => hyield.1 hnull) hnew'
  rcases hlift with heq | ⟨x, hx, heq⟩
  · have hrank := (hchild hn (heq.symm.trans hstay)).2
    omega
  · obtain ⟨hxI, hrank⟩ := hchild hn hx
    have hrank' := (hchild hxI (heq.symm.trans hstay)).2
    omega

end Reparents

/-! ## Events -/

section Events

variable {mask : ℕ} {c : Dependencies}

theorem Got.held {sid node : ℕ} {c₀ : Dependencies} {A : Set ℕ} (h : Got mask sid c c₀ node A) :
    Held mask c₀ node A :=
  ⟨h.consistent, h.indexed, h.attached, fun hout => (h.new hout).1⟩

/-- The event for a node that `ngx_http_v2_get_node_by_id` has returned and that gets a
new parent. -/
theorem Got.setDependency {sid node depend : ℕ} {c₀ c₁ : Dependencies} {A : Set ℕ}
    (h : Steady mask c) (hgot : Got mask sid c c₀ node A) (hready : Ready mask c₁ node A)
    (hparents : c₁.parentOf = c₀.parentOf) (hindexed : c₁.Indexed = c₀.Indexed)
    (hids : ∀ n, (c₁.nodes n).id = (c₀.nodes n).id) (hdepend : depend ≠ sid) (exclusive : Bool) :
    ∃ c', c₁.ngxHttpV2SetDependency mask node depend exclusive = some c' ∧ Steady mask c' ∧
      Reparents c c' := by
  have hid : (c₁.nodes node).id = sid := (hids node).trans hgot.id
  rw [← hid] at hdepend
  obtain ⟨c', hset, hkeeps, hsteady, parent, e, hparent, hnew⟩ :=
    hready.setDependency exclusive hdepend
  refine ⟨c', hset, hsteady, ?_⟩
  rw [hparents, hindexed] at hnew
  by_cases hA : node ∈ A
  · have hsame := hgot.found hA
    rw [hsame] at hnew
    have hI : c.Indexed = A := by
      rw [← hsame, hgot.indexed, Set.insert_eq_of_mem hA]
    rw [← hI] at hparent hA
    exact reparents_of_found h hA hparent hnew
  · obtain ⟨-, -, hids', hlifted⟩ := hgot.new hA
    refine reparents_of_new h ?_ ?_ ?_ hnew
    · by_contra hne
      exact hA (hgot.attached.mp hne)
    · intro hin heq
      rw [hkeeps.id, hid] at heq
      exact hids' node hin heq.symm
    · intro n hn hne
      obtain ⟨hnA, hlift⟩ := hlifted n hn hne
      refine ⟨?_, hlift⟩
      rw [hgot.indexed]
      exact Set.mem_insert_of_mem node hnA

theorem headers_spec (h : Steady mask c) (sid : ℕ) (priority : Option Priority)
    (refused : Bool) :
    ∃ c', c.headers mask sid priority refused = some c' ∧ Steady mask c' ∧ Reparents c c' := by
  have hsame : Reparents c c := reparents_of_eq h rfl
  rw [headers]
  by_cases hbad : sid % 2 = 0 ∨ sid ≤ c.lastSid
  · exact ⟨c, if_pos hbad, h, hsame⟩
  · simp only [if_neg hbad]
    by_cases hself : (priority.map Priority.depend).getD 0 = sid
    · exact ⟨c, if_pos hself, h, hsame⟩
    · rw [if_neg hself]
      obtain ⟨hodd, hlater⟩ := not_or.mp hbad
      have h₁ : Steady mask { c with lastSid := sid } :=
        Consistent.setLast h (by omega) (Nat.le_refl _) h.push
      cases refused with
      | true => exact ⟨_, rfl, h₁, reparents_of_eq h rfl⟩
      | false =>
          obtain ⟨node, c₀, A, hget, hgot⟩ := getNodeById_spec h₁ sid
          -- A node of the tree with this identifier has no stream yet.
          have hstream : (c₀.nodes node).stream = false := by
            by_cases hA : node ∈ A
            · rw [hgot.found hA]
              by_contra hs
              have hs' := Bool.eq_true_of_not_eq_false hs
              have hid := hgot.id
              rw [hgot.found hA] at hid
              have hle := h.odd node (h.indexed node hs') hs' (by
                rw [show (c.nodes node).id = sid from hid]
                omega)
              rw [show (c.nodes node).id = sid from hid] at hle
              omega
            · exact (hgot.new hA).1
          have hlast : c₀.lastSid = sid := hgot.lastSid
          obtain ⟨hcons, hI, hparents, hids, -⟩ := hgot.held.giveStream hstream
            (fun _ => by rw [hgot.id, hlast]) (fun heven => by rw [hgot.id] at heven; omega)
          rw [if_neg Bool.false_ne_true, hget, Option.bind_some]
          simp only
          have hreparents (c' : Dependencies) (hr : Reparents { c with lastSid := sid } c') :
              Reparents c c' := hr
          by_cases hset : priority.isSome = true ∨
              ((c₀.giveStream node).nodes node).parent = .null
          · rw [if_pos hset]
            have hw : 1 ≤ (priority.map fun p => p.weight.toNat + 1).getD defaultWeight := by
              cases priority with
              | none => decide
              | some p => exact Nat.succ_pos _
            have hready := hcons.ready (hI.trans hgot.indexed)
              (by rw [hparents]; exact hgot.attached) hw
            obtain ⟨c', hrun, hsteady, hr⟩ := hgot.setDependency h₁ hready
              ((funext fun n => (setWeight_nodes _ node _ n).2.2.1).trans hparents) hI
              (fun n => (setWeight_nodes _ node _ n).1.trans (hids n)) hself
              ((priority.map Priority.exclusive).getD false)
            exact ⟨c', hrun, hsteady, hreparents c' hr⟩
          · rw [if_neg hset]
            have hA : node ∈ A := by
              refine hgot.attached.mp ?_
              rw [← hparents]
              exact (not_or.mp hset).2
            have hIA : (c₀.giveStream node).Indexed = A := by
              rw [hI, hgot.indexed, Set.insert_eq_of_mem hA]
            refine ⟨_, rfl, ?_, hreparents _ (reparents_of_eq h₁ ?_)⟩
            · rw [Steady, hIA]
              exact hcons
            · rw [hparents, hgot.found hA]

theorem priority_spec (h : Steady mask c) (sid : ℕ) (p : Priority) :
    ∃ c', c.priority mask sid p = some c' ∧ Steady mask c' ∧ Reparents c c' := by
  rw [priority]
  by_cases hzero : sid = 0
  · exact ⟨c, if_pos hzero, h, reparents_of_eq h rfl⟩
  · rw [if_neg hzero]
    by_cases hself : p.depend = sid
    · exact ⟨c, if_pos hself, h, reparents_of_eq h rfl⟩
    · obtain ⟨node, c₀, A, hget, hgot⟩ := getNodeById_spec h sid
      rw [if_neg hself, hget, Option.bind_some]
      have hheld := hgot.held.setWeight (Nat.succ_pos p.weight.toNat)
      have hnodes (n : ℕ) := setWeight_nodes c₀ node (p.weight.toNat + 1) n
      obtain ⟨hcons, hI, hsame⟩ := hheld.keepClosed
      have hparents : ((c₀.setNode node fun x =>
          { x with weight := p.weight.toNat + 1 }).keepClosed node).parentOf = c₀.parentOf := by
        funext n
        rw [parentOf, hsame]
        exact (hnodes n).2.2.1
      refine hgot.setDependency h
        ⟨hcons, hI.trans hgot.indexed, by rw [hparents]; exact hgot.attached, ?_⟩
        hparents hI ?_ hself p.exclusive
      · rw [hsame, (hnodes node).2.2.2.2, if_pos rfl]
        exact Nat.succ_pos _
      · intro n
        rw [hsame]
        exact (hnodes n).1

theorem push_spec (h : Steady mask c) {parent : ℕ} (hparent : (c.nodes parent).stream) :
    ∃ c', c.push mask parent = some c' ∧ Steady mask c' ∧ Reparents c c' := by
  have heven := h.push
  have h₁ : Steady mask { c with lastPush := c.lastPush + 2 } :=
    Consistent.setLast h (Nat.le_refl _) (Nat.le_add_right _ 2) (by omega)
  -- No stream has the identifier of the push.
  have hother {n : ℕ} (hstream : (c.nodes n).stream) : (c.nodes n).id ≠ c.lastPush + 2 := by
    intro hid
    have hle := h.even n (h.indexed n hstream) hstream (by omega)
    omega
  obtain ⟨node, c₀, A, hget, hgot⟩ := getNodeById_spec h₁ (c.lastPush + 2)
  have hold : (c.nodes node).stream = false := by
    by_cases hA : node ∈ A
    · by_contra hs
      have hid := hgot.id
      rw [hgot.found hA] at hid
      exact hother (Bool.eq_true_of_not_eq_false hs) hid
    · exact (hgot.new hA).2.1
  have hstream : (c₀.nodes node).stream = false := by
    by_cases hA : node ∈ A
    · rw [hgot.found hA]
      exact hold
    · exact (hgot.new hA).1
  have hne : parent ≠ node := by
    rintro rfl
    exact absurd (hold.symm.trans hparent) nofun
  have hlast : c₀.lastPush = c.lastPush + 2 := hgot.lastPush
  obtain ⟨hcons, hI, hparents, hids, -⟩ := hgot.held.giveStream hstream
    (fun hodd => by rw [hgot.id] at hodd; omega) (fun _ => by rw [hgot.id, hlast])
  have hready := hcons.ready (hI.trans hgot.indexed) (by rw [hparents]; exact hgot.attached)
    (show 1 ≤ defaultWeight by decide)
  have hids' (n : ℕ) : (((c₀.giveStream node).setNode node fun x =>
      { x with weight := defaultWeight }).nodes n).id = (c₀.nodes n).id :=
    (setWeight_nodes _ node _ n).1.trans (hids n)
  have hdepend : (((c₀.giveStream node).setNode node fun x =>
      { x with weight := defaultWeight }).nodes parent).id ≠ c.lastPush + 2 := by
    rw [hids', (hgot.same parent hne).1]
    exact hother hparent
  obtain ⟨c', hrun, hsteady, hr⟩ := hgot.setDependency h₁ hready
    ((funext fun n => (setWeight_nodes _ node _ n).2.2.1).trans hparents) hI hids' hdepend false
  refine ⟨c', ?_, hsteady, hr⟩
  rw [push]
  simp only [hget, Option.bind_some]
  exact hrun

theorem step_spec (h : Steady mask c) (event : Event) :
    ∃ c', c.step mask event = some c' ∧ Steady mask c' ∧ Reparents c c' := by
  cases event with
  | headers sid priority refused => exact headers_spec h sid priority refused
  | priority sid p => exact priority_spec h sid p
  | push parent =>
      rw [step]
      by_cases hstream : (c.nodes parent).stream
      · rw [if_pos hstream]
        exact push_spec h hstream
      · exact ⟨c, if_neg hstream, h, reparents_of_eq h rfl⟩
  | close node =>
      rw [step]
      by_cases hstream : (c.nodes node).stream
      · obtain ⟨hsteady, hparents⟩ := h.closeStream hstream
        exact ⟨_, if_pos hstream, hsteady, reparents_of_eq h hparents⟩
      · exact ⟨c, if_neg hstream, h, reparents_of_eq h rfl⟩

end Events

/-! ## Runs -/

/-- Following `parent` from a node reaches the root. -/
inductive ReachesRoot (c : Dependencies) : ℕ → Prop where
  | root {n : ℕ} : c.parentOf n = .root → ReachesRoot c n
  | node {n p : ℕ} : c.parentOf n = .node p → p ∈ c.Indexed → ReachesRoot c p → ReachesRoot c n

/-- The nodes of `streams_index` are a tree, and its closed nodes are in their queue. -/
structure IsTree (c : Dependencies) : Prop where
  reaches : ∀ n ∈ c.Indexed, c.ReachesRoot n
  children : ∀ q, Parent.Valid c.Indexed q → ∃ kids, c.childrenOf q.children = some kids ∧
    kids.Nodup ∧ ∀ n, n ∈ kids ↔ n ∈ c.Indexed ∧ c.parentOf n = q
  rank_root : ∀ n ∈ c.Indexed, c.parentOf n = .root → c.rankOf n = 1
  rank_child : ∀ n ∈ c.Indexed, ∀ p, c.parentOf n = .node p → c.rankOf n = c.rankOf p + 1
  nodup : ∀ b, (c.streamsIndex b).Nodup
  unique : ∀ b n, n ∈ c.streamsIndex b → ∀ b' m, m ∈ c.streamsIndex b' →
    (c.nodes n).id = (c.nodes m).id → b = b' ∧ n = m
  closed : ∃ nodes : List ℕ,
    c.links.elements .closed c.fresh (c.links.next .closed) = some (nodes.map .reuse) ∧
    nodes.Nodup ∧ (∀ n, n ∈ nodes ↔ n ∈ c.Indexed ∧ (c.nodes n).stream = false) ∧
    c.closedNodes = nodes.length

section Runs

variable {mask : ℕ} {c : Dependencies}

theorem Steady.reachesRoot (h : Steady mask c) {n : ℕ} (hn : n ∈ c.Indexed) :
    c.ReachesRoot n := by
  obtain ⟨F, hl⟩ := h.linked
  induction hr : c.rankOf n using Nat.strong_induction_on generalizing n with
  | h r ih =>
      have hvalid := hl.valid n hn
      cases hp : c.parentOf n with
      | null =>
          rw [hp] at hvalid
          exact absurd hvalid not_false
      | root => exact .root hp
      | node p =>
          obtain ⟨hpI, hrank⟩ := h.depth.child n hn p (Parent.above_eq_some.mpr hp)
          exact .node hp hpI (ih _ (by omega) hpI rfl)

theorem Steady.isTree (h : Steady mask c) : c.IsTree := by
  obtain ⟨F, hl⟩ := h.linked
  refine ⟨fun n hn => h.reachesRoot hn, ?_, ?_, ?_, h.nodup, ?_, ?_⟩
  · intro q hq
    obtain ⟨kids, hqueue, hnodup, hmem⟩ := hl.exists_children hq
    exact ⟨kids, childrenOf_eq hqueue hnodup fun n hn => h.fresh n ((hmem n).mp hn).1, hnodup, hmem⟩
  · intro n hn hp
    exact h.depth.root n hn (by rw [above, hp]; rfl)
  · intro n hn p hp
    exact (h.depth.child n hn p (Parent.above_eq_some.mpr hp)).2
  · intro b n hn b' m hm hid
    obtain rfl := h.unique n ⟨b, hn⟩ m ⟨b', hm⟩ hid
    exact ⟨(h.place b n hn).symm.trans (h.place b' n hm), rfl⟩
  · obtain ⟨nodes, hqueue, hnodup, hmem, hcount⟩ := hl.exists_closed
    refine ⟨nodes, hqueue.elements ?_, hnodup, hmem, hcount⟩
    rw [List.length_map]
    exact length_le_fresh hnodup fun n hn => h.fresh n ((hmem n).mp hn).1

/-- A new connection. -/
theorem initial_steady (mask : ℕ) : Steady mask initial := by
  have hI : initial.Indexed = ∅ := by
    ext n
    exact ⟨fun ⟨b, hb⟩ => absurd hb List.not_mem_nil, fun hn => absurd hn (Set.notMem_empty n)⟩
  have hout {n : ℕ} (hn : n ∈ initial.Indexed) : False := by
    rw [hI] at hn
    exact Set.notMem_empty n hn
  have hempty : Queues (⟨fun _ => .null, fun _ => .null⟩ : Links QueueLink) ∅ fun _ => [] :=
    ⟨fun _ hh => absurd hh (Set.notMem_empty _), fun _ hh => absurd hh (Set.notMem_empty _)⟩
  have hone := hempty.init (h := .dependencies) fun _ hh => absurd hh (Set.notMem_empty _)
  have hfree : FreeLink (insert QueueLink.dependencies ∅)
      (Function.update (fun _ => []) QueueLink.dependencies []) QueueLink.closed := by
    rintro k (rfl | hk)
    · rw [Function.update_self]
      exact nofun
    · exact absurd hk (Set.notMem_empty k)
  have hlists : Function.update (Function.update (fun _ => ([] : List QueueLink))
      QueueLink.dependencies []) QueueLink.closed [] = fun _ => [] := by
    rw [Function.update_eq_self_iff.mpr rfl, Function.update_eq_self_iff.mpr rfl]
  have hheads : queueHeads initial.Indexed = insert .closed (insert .dependencies ∅) := by
    ext a
    constructor
    · rintro (rfl | rfl | ⟨n, hn, -⟩)
      · exact .inr (.inl rfl)
      · exact .inl rfl
      · exact (hout hn).elim
    · rintro (rfl | rfl | ha)
      · exact .inr (.inl rfl)
      · exact .inl rfl
      · exact absurd ha (Set.notMem_empty a)
  have hqueues := hone.init hfree
  rw [hlists, ← hheads] at hqueues
  refine ⟨⟨fun _ => [], ⟨hqueues, ?_, ?_, ?_, rfl⟩⟩, ⟨?_, ?_⟩, ?_, ?_, ?_, ?_, ?_, ?_, ?_, ?_, rfl⟩
  · exact fun n hn => (hout hn).elim
  · refine fun q _ a => ⟨fun ha => absurd ha List.not_mem_nil, ?_⟩
    rintro ⟨n, hn, -⟩
    exact (hout hn).elim
  · refine fun a => ⟨fun ha => absurd ha List.not_mem_nil, ?_⟩
    rintro ⟨n, hn, -⟩
    exact (hout hn.1).elim
  · exact fun n hn => (hout hn).elim
  · exact fun n hn => (hout hn).elim
  · exact fun n hn => (hout hn).elim
  · exact fun b n hn => absurd hn List.not_mem_nil
  · exact fun b => List.nodup_nil
  · exact fun n hn => (hout hn).elim
  · exact fun n hn => (hout hn).elim
  · exact fun n hn => (hout hn).elim
  · exact fun n hn => (hout hn).elim
  · exact fun n hs => absurd hs Bool.false_ne_true

theorem Steady.run (h : Steady mask c) (events : List Event) :
    ∃ c', c.run mask events = some c' ∧ Steady mask c' := by
  induction events generalizing c with
  | nil => exact ⟨c, rfl, h⟩
  | cons event events ih =>
      obtain ⟨c₁, hstep, h₁, -⟩ := step_spec h event
      obtain ⟨c', hrun, h'⟩ := ih h₁
      refine ⟨c', ?_, h'⟩
      rw [Dependencies.run, List.foldlM_cons, hstep]
      exact hrun

/-- In every run the nodes are a tree, and a stream gets below one of the streams below
it only when that one has taken its place. -/
theorem dependencies_tree (mask : ℕ) (events : List Event) :
    ∃ c, initial.run mask events = some c ∧ c.IsTree ∧
      ∀ event, ∃ c', c.step mask event = some c' ∧ c'.IsTree ∧ Reparents c c' := by
  obtain ⟨c, hrun, h⟩ := (initial_steady mask).run events
  refine ⟨c, hrun, h.isTree, fun event => ?_⟩
  obtain ⟨c', hstep, h', hr⟩ := step_spec h event
  exact ⟨c', hstep, h'.isTree, hr⟩

end Runs

end Dependencies

end MultiversionBalancer.Http2
