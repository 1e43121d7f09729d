import MultiversionBalancer.Http2.DependencyQueues
import MultiversionBalancer.Lib.Forest

/-!
# The tree of the dependencies

`ngx_http_v2_set_dependency` keeps the nodes a tree with their depths as ranks: it
moves a node with what is below it, where a parent that is below its new child takes
the child's place first.
-/

namespace MultiversionBalancer.Http2

open Lib

/-- The node above, none for a child of the root. -/
def Parent.above : Parent → Option ℕ
  | .node p => some p
  | _ => none

theorem Parent.above_eq_some {q : Parent} {p : ℕ} : q.above = some p ↔ q = .node p := by
  cases q with
  | null => exact ⟨nofun, nofun⟩
  | root => exact ⟨nofun, nofun⟩
  | node p' => rw [Parent.above, Option.some.injEq, Parent.node.injEq]

theorem Parent.above_inj {I : Set ℕ} {q q' : Parent} (hq : Parent.Valid I q)
    (hq' : Parent.Valid I q') : q.above = q'.above ↔ q = q' := by
  cases q with
  | null => exact absurd hq not_false
  | root =>
      cases q' with
      | null => exact absurd hq' not_false
      | root => exact ⟨fun _ => rfl, fun _ => rfl⟩
      | node p => exact ⟨nofun, nofun⟩
  | node p => exact eq_comm.trans (Parent.above_eq_some.trans eq_comm)

namespace Dependencies

def parentOf (c : Dependencies) (n : ℕ) : Parent :=
  (c.nodes n).parent

/-- The node above a node. -/
def above (c : Dependencies) (n : ℕ) : Option ℕ :=
  (c.parentOf n).above

def rankOf (c : Dependencies) (n : ℕ) : ℕ :=
  (c.nodes n).rank

def withRanks (c : Dependencies) (r : ℕ → ℕ) : Dependencies :=
  { c with nodes := fun n => { c.nodes n with rank := r n } }

theorem setNode_rank (c : Dependencies) (n r : ℕ) :
    c.setNode n (fun x => { x with rank := r }) = c.withRanks (Function.update c.rankOf n r) := by
  rw [setNode, withRanks, Dependencies.mk.injEq]
  refine ⟨?_, rfl, rfl, rfl, rfl, rfl, rfl⟩
  funext m
  by_cases hm : m = n
  · rw [hm, Function.update_self, Function.update_self]
  · rw [Function.update_of_ne hm, Function.update_of_ne hm]
    rfl

/-! ## Updating the ranks -/

/-- `ngx_http_v2_node_children_update` sets the ranks below a node; `d` are the ranks
that they ought to have. -/
theorem nodeChildrenUpdate_spec {kids : ℕ → List ℕ} {N : Set ℕ} {d : ℕ → ℕ} {D : ℕ}
    (hkids : ∀ n ∈ N, ∀ m ∈ kids n, m ∈ N ∧ d m = d n + 1) (hD : ∀ n ∈ N, d n ≤ D)
    {fuel : ℕ} {c : Dependencies} (hloop : ∀ n ∈ N, c.childrenOf (.children n) = some (kids n))
    {node : ℕ} (hnode : node ∈ N) (hfuel : D < d node + fuel) (hrank : c.rankOf node = d node) :
    ∃ r, nodeChildrenUpdate fuel c node = some (c.withRanks r) ∧
      (∀ n, r n = c.rankOf n ∨ n ∈ N ∧ r n = d n) ∧
      ∀ m, Relation.TransGen (fun n m => m ∈ kids n) node m → r m = d m := by
  induction fuel generalizing c node with
  | zero => exact absurd (hD node hnode) (by omega)
  | succ fuel ih =>
      -- The children of the list have been done, with all that is below them.
      have hfold (xs : List ℕ) (hxs : xs ⊆ kids node) (c : Dependencies)
          (hloop : ∀ n ∈ N, c.childrenOf (.children n) = some (kids n))
          (hrank : c.rankOf node = d node) :
          ∃ r, xs.foldlM
              (fun c child => nodeChildrenUpdate fuel
                (c.setNode child fun x => { x with rank := (c.nodes node).rank + 1 }) child) c =
              some (c.withRanks r) ∧
            (∀ n, r n = c.rankOf n ∨ n ∈ N ∧ r n = d n) ∧
            ∀ x ∈ xs, ∀ m, Relation.ReflTransGen (fun n m => m ∈ kids n) x m → r m = d m := by
        induction xs generalizing c with
        | nil => exact ⟨c.rankOf, rfl, fun n => .inl rfl, fun x hx => absurd hx List.not_mem_nil⟩
        | cons x xs ihxs =>
            have hx : x ∈ kids node := hxs List.mem_cons_self
            obtain ⟨hxN, hxd⟩ := hkids node hnode x hx
            have hvalue : (c.nodes node).rank + 1 = d x := by
              rw [hxd, ← hrank]
              rfl
            rw [List.foldlM_cons, hvalue, setNode_rank]
            have hfirst : (c.withRanks (Function.update c.rankOf x (d x))).rankOf x = d x :=
              Function.update_self ..
            obtain ⟨r₁, hr₁, hkeep₁, hbelow₁⟩ :=
              ih (c := c.withRanks (Function.update c.rankOf x (d x))) hloop hxN (by omega) hfirst
            have hold (n : ℕ) : r₁ n = c.rankOf n ∨ n ∈ N ∧ r₁ n = d n := by
              rcases hkeep₁ n with heq | hset
              · by_cases hn : n = x
                · subst hn
                  exact .inr ⟨hxN, heq.trans hfirst⟩
                · exact .inl (heq.trans (Function.update_of_ne hn ..))
              · exact .inr hset
            have hnode₁ : (c.withRanks r₁).rankOf node = d node := by
              rcases hold node with heq | hset
              · exact heq.trans hrank
              · exact hset.2
            obtain ⟨r₂, hr₂, hkeep₂, hbelow₂⟩ := ihxs
              (fun y hy => hxs (List.mem_cons_of_mem x hy)) (c.withRanks r₁) hloop hnode₁
            have hstay (m : ℕ) (hm : r₁ m = d m) : r₂ m = d m := by
              rcases hkeep₂ m with heq | hset
              · exact heq.trans hm
              · exact hset.2
            refine ⟨r₂, ?_, ?_, ?_⟩
            · rw [hr₁]
              exact hr₂
            · intro n
              rcases hkeep₂ n with heq | hset
              · rcases hold n with heq' | hset'
                · exact .inl (heq.trans heq')
                · exact .inr ⟨hset'.1, heq.trans hset'.2⟩
              · exact .inr hset
            · intro y hy m hm
              rcases List.mem_cons.mp hy with rfl | hy
              · apply hstay
                rcases Relation.ReflTransGen.cases_head_iff.mp hm with rfl | ⟨z, hz, hzm⟩
                · rcases hkeep₁ y with heq | hset
                  · exact heq.trans hfirst
                  · exact hset.2
                · exact hbelow₁ m (Relation.TransGen.head' hz hzm)
              · exact hbelow₂ y hy m hm
      obtain ⟨r, hr, hkeep, hbelow⟩ := hfold (kids node) (List.Subset.refl _) c hloop hrank
      refine ⟨r, ?_, hkeep, ?_⟩
      · rw [nodeChildrenUpdate, hloop node hnode]
        exact hr
      · intro m hm
        obtain ⟨x, hx, hxm⟩ := Relation.TransGen.head'_iff.mp hm
        exact hbelow x hx m hxm

section Update

variable {c : Dependencies} {k : ℕ} {I A C : Set ℕ} {P : ℕ → Parent}
  {F : QueueLink → List QueueLink} {d : ℕ → ℕ} {node : ℕ}

/-- The same with the queues: the ranks of all nodes that the queues lead to from
`node`. -/
theorem Linked.update (h : Linked c.links k I A C P F) (hI : I = insert node A)
    (hfresh : ∀ n ∈ I, n < c.fresh)
    (hd : ∀ n ∈ I, ∀ m ∈ A, P m = .node n → d m = d n + 1) (hD : ∀ n ∈ I, d n ≤ c.fresh)
    (hrank : c.rankOf node = d node) :
    ∃ r, nodeChildrenUpdate (c.fresh + 1) c node = some (c.withRanks r) ∧
      (∀ n, r n = c.rankOf n ∨ n ∈ I ∧ r n = d n) ∧
      ∀ m ∈ A, m ≠ node → Below (fun n => (P n).above) node m → r m = d m := by
  have hA : A ⊆ I := by
    rw [hI]
    exact Set.subset_insert node A
  have hnode : node ∈ I := by
    rw [hI]
    exact Set.mem_insert node A
  have hexists (n : ℕ) : ∃ kids : List ℕ, n ∈ I →
      IsQueue c.links (.children n) (kids.map .queue) ∧ kids.Nodup ∧
        ∀ m, m ∈ kids ↔ m ∈ A ∧ P m = .node n := by
    by_cases hn : n ∈ I
    · obtain ⟨kids, hkids⟩ := h.exists_children (q := .node n) hn
      exact ⟨kids, fun _ => hkids⟩
    · exact ⟨[], fun hn' => absurd hn' hn⟩
  choose kids hkids using hexists
  have hloop (n : ℕ) (hn : n ∈ I) : c.childrenOf (.children n) = some (kids n) := by
    obtain ⟨hqueue, hnodup, hmem⟩ := hkids n hn
    exact childrenOf_eq hqueue hnodup fun m hm => hfresh m (hA ((hmem m).mp hm).1)
  have hstep (n : ℕ) (hn : n ∈ I) (m : ℕ) (hm : m ∈ kids n) : m ∈ I ∧ d m = d n + 1 := by
    obtain ⟨hmA, hp⟩ := ((hkids n hn).2.2 m).mp hm
    exact ⟨hA hmA, hd n hn m hmA hp⟩
  have hfuel : c.fresh < d node + (c.fresh + 1) := by omega
  obtain ⟨r, hr, hkeep, hbelow⟩ := nodeChildrenUpdate_spec hstep hD hloop hnode hfuel hrank
  refine ⟨r, hr, hkeep, ?_⟩
  have hreach (m : ℕ) (hm : Below (fun n => (P n).above) node m) (hmA : m ∈ A)
      (hne : m ≠ node) : Relation.TransGen (fun n m => m ∈ kids n) node m := by
    induction hm using Relation.ReflTransGen.head_induction_on with
    | refl => exact absurd rfl hne
    | @head m p hp _ ih =>
        have hparent : P m = .node p := Parent.above_eq_some.mp hp
        have hpI : p ∈ I := by
          have hvalid := h.valid m hmA
          rwa [hparent] at hvalid
        have hmem : m ∈ kids p := ((hkids p hpI).2.2 m).mpr ⟨hmA, hparent⟩
        by_cases hpn : p = node
        · subst hpn
          exact Relation.TransGen.single hmem
        · have hpA : p ∈ A := by
            rw [hI] at hpI
            exact hpI.resolve_left hpn
          exact (ih hpA hpn).tail hmem
  exact fun m hmA hne hm => hbelow m (hreach m hm hmA hne)

/-- The same for a tree with the depths `d`: all ranks that are not below `node` are
right, and the other ones get right. -/
theorem Linked.updateTree (h : Linked c.links k I I C P F) (hnode : node ∈ I)
    (hfresh : ∀ n ∈ I, n < c.fresh) (hd : Depth I (fun n => (P n).above) d)
    (hrank : ∀ m ∈ I, (Below (fun n => (P n).above) node m → m = node) → c.rankOf m = d m) :
    ∃ r, nodeChildrenUpdate (c.fresh + 1) c node = some (c.withRanks r) ∧
      Depth I (fun n => (P n).above) r := by
  have hstep (n : ℕ) (_ : n ∈ I) (m : ℕ) (hm : m ∈ I) (hp : P m = .node n) : d m = d n + 1 :=
    (hd.child m hm n (Parent.above_eq_some.mpr hp)).2
  obtain ⟨r, hr, hkeep, hbelow⟩ := h.update (Set.insert_eq_of_mem hnode).symm hfresh hstep
    (fun n hn => hd.le_bound hfresh hn) (hrank node hnode fun _ => rfl)
  refine ⟨r, hr, hd.congr ?_⟩
  intro m hm
  by_cases hdone : Below (fun n => (P n).above) node m → m = node
  · rcases hkeep m with heq | hset
    · exact heq.trans (hrank m hm hdone)
    · exact hset.2
  · obtain ⟨hin, hne⟩ := Classical.not_imp.mp hdone
    exact hbelow m hm hne hin

end Update

/-! ## Moving a node -/

/-- What `ngx_http_v2_set_dependency` leaves as it is. -/
structure Keeps (c c' : Dependencies) : Prop where
  id : ∀ n, (c'.nodes n).id = (c.nodes n).id
  weight : ∀ n, (c'.nodes n).weight = (c.nodes n).weight
  stream : ∀ n, (c'.nodes n).stream = (c.nodes n).stream
  fresh : c'.fresh = c.fresh
  streamsIndex : c'.streamsIndex = c.streamsIndex
  closedNodes : c'.closedNodes = c.closedNodes
  lastSid : c'.lastSid = c.lastSid
  lastPush : c'.lastPush = c.lastPush

theorem Keeps.refl (c : Dependencies) : Keeps c c :=
  ⟨fun _ => rfl, fun _ => rfl, fun _ => rfl, rfl, rfl, rfl, rfl, rfl⟩

theorem Keeps.trans {c c' c'' : Dependencies} (h : Keeps c c') (h' : Keeps c' c'') :
    Keeps c c'' :=
  ⟨fun n => (h'.id n).trans (h.id n), fun n => (h'.weight n).trans (h.weight n),
    fun n => (h'.stream n).trans (h.stream n), h'.fresh.trans h.fresh,
    h'.streamsIndex.trans h.streamsIndex, h'.closedNodes.trans h.closedNodes,
    h'.lastSid.trans h.lastSid, h'.lastPush.trans h.lastPush⟩

theorem keeps_links (c : Dependencies) (l : Links QueueLink) : Keeps c { c with links := l } :=
  ⟨fun _ => rfl, fun _ => rfl, fun _ => rfl, rfl, rfl, rfl, rfl, rfl⟩

theorem keeps_withRanks (c : Dependencies) (r : ℕ → ℕ) : Keeps c (c.withRanks r) :=
  ⟨fun _ => rfl, fun _ => rfl, fun _ => rfl, rfl, rfl, rfl, rfl, rfl⟩

def withParents (c : Dependencies) (P : ℕ → Parent) : Dependencies :=
  { c with nodes := fun n => { c.nodes n with parent := P n } }

theorem keeps_withParents (c : Dependencies) (P : ℕ → Parent) : Keeps c (c.withParents P) :=
  ⟨fun _ => rfl, fun _ => rfl, fun _ => rfl, rfl, rfl, rfl, rfl, rfl⟩

theorem setNode_parent (c : Dependencies) (n : ℕ) (q : Parent) :
    c.setNode n (fun x => { x with parent := q }) =
      c.withParents (Function.update c.parentOf n q) := by
  rw [setNode, withParents, Dependencies.mk.injEq]
  refine ⟨?_, rfl, rfl, rfl, rfl, rfl, rfl⟩
  funext m
  by_cases hm : m = n
  · rw [hm, Function.update_self, Function.update_self]
  · rw [Function.update_of_ne hm, Function.update_of_ne hm]
    rfl

theorem foldl_parent (c : Dependencies) (q : Parent) (kids : List ℕ) :
    kids.foldl (fun c child => c.setNode child fun x => { x with parent := q }) c =
      c.withParents fun m => if m ∈ kids then q else c.parentOf m := by
  induction kids generalizing c with
  | nil => rfl
  | cons n kids ih =>
      rw [List.foldl_cons, ih, setNode_parent]
      simp only [withParents, parentOf]
      congr 1
      funext m
      by_cases hm : m ∈ kids
      · simp [hm]
      · by_cases hmn : m = n
        · simp [hmn]
        · simp [hm, hmn, parentOf]

section Attach

variable {c : Dependencies} {node k : ℕ} {q : Parent} {I A C : Set ℕ}
  {F : QueueLink → List QueueLink} {d : ℕ → ℕ}

theorem takeChildren_spec (hl : Linked c.links k I A C c.parentOf F) (hA : A ⊆ I)
    (hnode : node ∈ I) (hfresh : ∀ n ∈ I, n < c.fresh) (hq : q.Valid I) (hne : q ≠ .node node) :
    ∃ l P F', c.takeChildren node q.children = some { c.withParents P with links := l } ∧
      Linked l k I A C P F' ∧
      (∀ n ∈ A, P n = if c.parentOf n = q then .node node else c.parentOf n) ∧
      ∀ n ∉ A, P n = c.parentOf n := by
  obtain ⟨kids, hqueue, hnodup, hmem⟩ := hl.exists_children hq
  have hloop := childrenOf_eq hqueue hnodup fun n hn => hfresh n (hA ((hmem n).mp hn).1)
  obtain ⟨F', hlinked⟩ := hl.adopt hq hnode hne
  have hparents (n : ℕ) (hn : n ∈ A) : (if n ∈ kids then .node node else c.parentOf n) =
      if c.parentOf n = q then Parent.node node else c.parentOf n := by
    by_cases hp : c.parentOf n = q
    · rw [if_pos ((hmem n).mpr ⟨hn, hp⟩), if_pos hp]
    · rw [if_neg fun hin => hp ((hmem n).mp hin).2, if_neg hp]
  refine ⟨_, _, F', ?_, hlinked.congr hparents, hparents, ?_⟩
  · simp only [takeChildren, hloop, Option.bind_eq_bind, Option.bind_some, foldl_parent]
    rfl
  · exact fun n hn => if_neg fun hin => hn ((hmem n).mp hin).1

theorem putUnder_spec (hl : Linked c.links k I A C c.parentOf F)
    (hnull : c.parentOf node ≠ .null ↔ node ∈ A) (hq : q.Valid I) :
    ∃ l F', c.putUnder node q =
        { c.withParents (Function.update c.parentOf node q) with links := l } ∧
      Linked l k I (insert node A) C (Function.update c.parentOf node q) F' := by
  by_cases hnode : node ∈ A
  · have hlinked := hl.detach hnode
    have hout : node ∉ A \ {node} := fun hin => hin.2 rfl
    have hattached := hlinked.attachTail hout hq
    rw [Set.insert_sdiff_singleton] at hattached
    refine ⟨_, _, ?_, hattached⟩
    have hparent : (c.nodes node).parent ≠ .null := hnull.mpr hnode
    simp only [putUnder, if_pos hparent, setNode_parent]
    rfl
  · refine ⟨_, _, ?_, hl.attachTail hnode hq⟩
    have hparent : ¬(c.nodes node).parent ≠ .null := fun hne => hnode (hnull.mp hne)
    simp only [putUnder, if_neg hparent, setNode_parent]
    rfl

/-- The parents when a node becomes a child of `q`. -/
def attached (P : ℕ → Parent) (node : ℕ) (q : Parent) (exclusive : Bool) (m : ℕ) : Parent :=
  if m = node then q else if exclusive = true ∧ P m = q then .node node else P m

/-- The depths when a node becomes a child of `q`: what is not below the node keeps its
depth. -/
theorem attached_depth {P : ℕ → Parent} (exclusive : Bool) (hI : I = insert node A)
    (hvalid : ∀ n ∈ A, (P n).Valid I) (hd : Depth A (fun n => (P n).above) d) (hq : q.Valid I)
    (hqn : ∀ p, q = .node p → p ≠ node ∧ ¬Below (fun n => (P n).above) node p) :
    ∃ d', Depth I (fun n => (attached P node q exclusive n).above) d' ∧
      d' node = childDepth d q.above ∧
      ∀ m ∈ I, (Below (fun n => (attached P node q exclusive n).above) node m → m = node) →
        m = node ∨ m ∈ A ∧ d' m = d m ∧ ¬Below (fun n => (P n).above) node m ∧
          (exclusive = true → ∀ p, q = .node p → Below (fun n => (P n).above) p m → m = p) := by
  have hmove : Depth I (Function.update (fun n => (P n).above) node q.above)
      (movedDepth (fun n => (P n).above) d node (childDepth d q.above)) := by
    rw [hI]
    apply hd.move
    intro p hp
    rw [Parent.above_eq_some] at hp
    obtain ⟨hne, hnot⟩ := hqn p hp
    rw [hp, hI] at hq
    exact ⟨hq.resolve_left hne, hnot⟩
  have hself : Function.update (fun n => (P n).above) node q.above node = q.above :=
    Function.update_self ..
  cases exclusive with
  | false =>
      have hparents : (fun n => (attached P node q false n).above) =
          Function.update (fun n => (P n).above) node q.above := by
        funext n
        by_cases hn : n = node
        · rw [hn, Function.update_self, attached, if_pos rfl]
        · rw [Function.update_of_ne hn, attached, if_neg hn, if_neg fun h => absurd h.1 nofun]
      rw [hparents]
      refine ⟨_, hmove, movedDepth_self node _, ?_⟩
      intro m hm hnot
      by_cases hne : m = node
      · exact .inl hne
      · rw [below_update_self] at hnot
        have hnot' : ¬Below (fun n => (P n).above) node m := fun hbelow => hne (hnot hbelow)
        rw [hI] at hm
        exact .inr ⟨hm.resolve_left hne, movedDepth_of_not hnot' _, hnot', nofun⟩
  | true =>
      have hin : node ∈ I := by
        rw [hI]
        exact Set.mem_insert node A
      have hadopt := hmove.adopt hin
      rw [hself] at hadopt
      have hparents (n : ℕ) (hn : n ∈ I) : (attached P node q true n).above =
          Lib.adopt (Function.update (fun n => (P n).above) node q.above) node q.above n := by
        by_cases hne : n = node
        · rw [attached, if_pos hne, Lib.adopt, if_pos hne]
        · rw [hI] at hn
          have hiff := Parent.above_inj (hvalid n (hn.resolve_left hne)) hq
          rw [attached, if_neg hne, Lib.adopt, if_neg hne, Function.update_of_ne hne]
          by_cases hp : P n = q
          · rw [if_pos ⟨rfl, hp⟩, if_pos (hiff.mpr hp)]
            rfl
          · rw [if_neg fun h => hp h.2, if_neg fun h => hp (hiff.mp h)]
      refine ⟨_, hadopt.congr_parent hparents, ?_, ?_⟩
      · rw [adoptedDepth_self hmove hin, movedDepth_self]
      · intro m hm hnot
        by_cases hne : m = node
        · exact .inl hne
        · have hout : ¬Below (Lib.adopt
              (Function.update (fun n => (P n).above) node q.above) node q.above) node m :=
            fun hbelow => hne (hnot ((hadopt.below_congr hparents hm).mpr hbelow))
          have hout_node : ¬Below (fun n => (P n).above) node m := fun hbelow =>
            hout (below_adopt (.inl rfl) (below_update_self.mpr hbelow))
          rw [hI] at hm
          refine .inr ⟨hm.resolve_left hne, ?_, hout_node, ?_⟩
          · have hnone : ¬∃ x ∈ I, x ≠ node ∧
                Function.update (fun n => (P n).above) node q.above x =
                  Function.update (fun n => (P n).above) node q.above node ∧
                Below (Function.update (fun n => (P n).above) node q.above) x m := by
              rintro ⟨x, -, -, hx, hbelow⟩
              exact hout (below_adopt (.inr (hx.trans hself)) hbelow)
            rw [adoptedDepth, if_neg hnone, movedDepth_of_not hout_node]
          · intro _ p hp hbelow
            by_contra hmp
            obtain ⟨x, hx, hbelow'⟩ := hbelow.exists_child hmp
            have hxn : x ≠ node := by
              rintro rfl
              exact hout_node hbelow'
            refine hout (below_adopt (.inr ?_) (hbelow'.update hout_node q.above))
            rw [Function.update_of_ne hxn, hx, hp]
            rfl

/-- The last part of `ngx_http_v2_set_dependency`; all ranks but those below the node,
and below its parent when its other children are adopted, are the depths `d`. -/
theorem attach_spec (exclusive : Bool) (hl : Linked c.links k I A C c.parentOf F)
    (hI : I = insert node A) (hnull : c.parentOf node ≠ .null ↔ node ∈ A)
    (hfresh : ∀ n ∈ I, n < c.fresh) (hd : Depth A c.above d) (hq : q.Valid I)
    (hqn : ∀ p, q = .node p → p ≠ node ∧ ¬Below c.above node p)
    (hnode : c.rankOf node = childDepth d q.above)
    (hrank : ∀ m ∈ A, ¬Below c.above node m →
      (exclusive = true → ∀ p, q = .node p → Below c.above p m → m = p) → c.rankOf m = d m) :
    ∃ c', c.attach node q exclusive = some c' ∧ Keeps c c' ∧
      (∃ F', Linked c'.links k I I C c'.parentOf F') ∧ Depth I c'.above c'.rankOf ∧
      ∀ m ∈ I, c'.parentOf m = attached c.parentOf node q exclusive m := by
  have hA : A ⊆ I := by
    rw [hI]
    exact Set.subset_insert node A
  have hin : node ∈ I := by
    rw [hI]
    exact Set.mem_insert node A
  have hne : q ≠ .node node := fun heq => (hqn node heq).1 rfl
  -- The children of the parent, when they are adopted.
  obtain ⟨l, P, F₁, hfirst, hlinked, hparents, hnode_parent⟩ : ∃ l P F₁,
      (if exclusive = true then c.takeChildren node q.children else some c) =
        some { c.withParents P with links := l } ∧ Linked l k I A C P F₁ ∧
      (∀ n ∈ A, P n = if exclusive = true ∧ c.parentOf n = q then .node node else c.parentOf n) ∧
      (P node ≠ .null ↔ node ∈ A) := by
    cases exclusive with
    | false =>
        refine ⟨c.links, c.parentOf, F, rfl, hl, ?_, hnull⟩
        exact fun n _ => (if_neg fun h => absurd h.1 nofun).symm
    | true =>
        obtain ⟨l, P, F', htake, hlinked, hin_A, hout_A⟩ :=
          takeChildren_spec hl hA hin hfresh hq hne
        refine ⟨l, P, F', htake, hlinked, ?_, ?_⟩
        · intro n hn
          rw [hin_A n hn]
          simp only [true_and]
        · by_cases hnA : node ∈ A
          · rw [hin_A node hnA]
            refine ⟨fun _ => hnA, fun _ => ?_⟩
            split
            · exact nofun
            · exact hnull.mpr hnA
          · rw [hout_A node hnA]
            exact hnull
  obtain ⟨l', F₂, hput, hlinked'⟩ :=
    putUnder_spec (c := { c.withParents P with links := l }) hlinked hnode_parent hq
  rw [← hI] at hlinked'
  have hall (m : ℕ) (hm : m ∈ I) :
      Function.update P node q m = attached c.parentOf node q exclusive m := by
    by_cases hmn : m = node
    · rw [hmn, Function.update_self, attached, if_pos rfl]
    · rw [hI] at hm
      rw [Function.update_of_ne hmn, attached, if_neg hmn, hparents m (hm.resolve_left hmn)]
  obtain ⟨d', hd', hd_node, hd_other⟩ := attached_depth exclusive hI hl.valid hd hq hqn
  have hranks (m : ℕ) (hm : m ∈ I)
      (hnot : Below (fun n => (attached c.parentOf node q exclusive n).above) node m → m = node) :
      c.rankOf m = d' m := by
    rcases hd_other m hm hnot with heq | ⟨hmA, hdm, hout, hexcl⟩
    · rw [heq, hd_node, hnode]
    · rw [hdm]
      exact hrank m hmA hout hexcl
  have hlinked'' : Linked l' k I I C (attached c.parentOf node q exclusive) F₂ :=
    hlinked'.congr fun m hm => (hall m hm).symm
  obtain ⟨r, hr, hdepth⟩ := Linked.updateTree
    (c := { c.withParents (Function.update P node q) with links := l' })
    hlinked'' hin hfresh hd' hranks
  refine ⟨({ c.withParents (Function.update P node q) with links := l' } :
    Dependencies).withRanks r, ?_, ?_, ⟨F₂, hlinked'⟩, ?_, hall⟩
  · rw [attach, hfirst, Option.bind_some, hput]
    exact hr
  · exact (keeps_withParents c (Function.update P node q)).trans
      ((keeps_links _ l').trans (keeps_withRanks _ r))
  · exact hdepth.congr_parent fun m hm => congrArg Parent.above (hall m hm)

end Attach

section SetDependency

variable {c : Dependencies} {node k : ℕ} {I A C : Set ℕ} {F : QueueLink → List QueueLink}

/-- The loop of `ngx_http_v2_set_dependency` finds the nodes above. -/
theorem findAbove_spec (hd : Depth A c.above c.rankOf) {fuel p : ℕ} {q : Parent}
    (hq : q = .root ∨ q = .node p ∧ p ∈ A ∧ c.rankOf p ≤ fuel)
    (hvalid : ∀ n ∈ A, c.parentOf n ≠ .null) :
    ∃ found, c.findAbove node fuel q = some found ∧
      (found = true ↔ ∃ p, q = .node p ∧ Below c.above node p) := by
  induction fuel generalizing p q with
  | zero =>
      rcases hq with rfl | ⟨-, hp, hle⟩
      · exact ⟨false, rfl, nofun, nofun⟩
      · have hpos := hd.pos hp
        omega
  | succ fuel ih =>
      rcases hq with rfl | ⟨rfl, hp, hle⟩
      · exact ⟨false, rfl, nofun, nofun⟩
      · by_cases hrank : (c.nodes node).rank ≤ (c.nodes p).rank
        · rw [findAbove, if_pos hrank]
          by_cases hpn : p = node
          · rw [if_pos hpn]
            refine ⟨true, rfl, fun _ => ⟨p, rfl, ?_⟩, fun _ => rfl⟩
            rw [← hpn]
            exact Below.refl _ p
          · rw [if_neg hpn]
            have hparent : (c.nodes p).parent = .root ∨
                ∃ p', (c.nodes p).parent = .node p' ∧ p' ∈ A ∧ c.rankOf p' ≤ fuel := by
              cases hq : (c.nodes p).parent with
              | null => exact absurd hq (hvalid p hp)
              | root => exact .inl rfl
              | node p' =>
                  obtain ⟨hp', hdepth⟩ := hd.child p hp p' (Parent.above_eq_some.mpr hq)
                  exact .inr ⟨p', rfl, hp', by omega⟩
            have hiff : (∃ p', (c.nodes p).parent = .node p' ∧ Below c.above node p') ↔
                ∃ p', Parent.node p = .node p' ∧ Below c.above node p' := by
              constructor
              · rintro ⟨p', hq, hbelow⟩
                exact ⟨p, rfl, hbelow.parent (Parent.above_eq_some.mpr hq)⟩
              · rintro ⟨p', hpp', hbelow⟩
                obtain rfl := Parent.node.inj hpp'
                rcases hbelow.cases with heq | ⟨p', hq, hbelow'⟩
                · exact absurd heq hpn
                · exact ⟨p', Parent.above_eq_some.mp hq, hbelow'⟩
            rw [← hiff]
            rcases hparent with hroot | ⟨p', hq, hp', hle'⟩
            · exact ih (p := p) (.inl hroot)
            · exact ih (.inr ⟨hq, hp', hle'⟩)
        · rw [findAbove, if_neg hrank]
          refine ⟨false, rfl, nofun, ?_⟩
          rintro ⟨p', hpp', hbelow⟩
          obtain rfl := Parent.node.inj hpp'
          exfalso
          apply hrank
          rcases (hd.below hp hbelow).2 with rfl | hlt
          · exact Nat.le_refl _
          · exact hlt.le

open Classical in
/-- The parents when a parent that is below its new child has taken the child's
place. -/
noncomputable def yielded (P : ℕ → Parent) (node parent : ℕ) : ℕ → Parent :=
  if P node ≠ .null ∧ Below (fun n => (P n).above) node parent then
    Function.update P parent (P node)
  else P

theorem childRank_eq {q : Parent} (hq : q.Valid I) :
    c.childRank q = childDepth c.rankOf q.above := by
  cases q with
  | null => exact absurd hq not_false
  | root => rfl
  | node p => rfl

theorem raise_state (parent : ℕ) (hq : (c.parentOf node).Valid I) :
    c.raise node parent =
      (({ c with links := (c.links.remove (.queue parent)).insertHead (.queue node)
                  (.queue parent) } : Dependencies).withParents
        (Function.update c.parentOf parent (c.parentOf node))).withRanks
          (Function.update c.rankOf parent (childDepth c.rankOf (c.above node))) := by
  have hrank : c.childRank (c.parentOf node) = childDepth c.rankOf (c.above node) :=
    childRank_eq hq
  rw [← hrank]
  simp only [raise, setNode_parent, setNode_rank]
  rfl

theorem raise_keeps (parent : ℕ) (hq : (c.parentOf node).Valid I) :
    Keeps c (c.raise node parent) := by
  rw [raise_state parent hq]
  exact (keeps_links c _).trans ((keeps_withParents _ _).trans (keeps_withRanks _ _))

theorem raise_eq (parent : ℕ) (hq : (c.parentOf node).Valid I) :
    (c.raise node parent).links =
        (c.links.remove (.queue parent)).insertHead (.queue node) (.queue parent) ∧
      (c.raise node parent).parentOf = Function.update c.parentOf parent (c.parentOf node) ∧
      (c.raise node parent).rankOf =
        Function.update c.rankOf parent (childDepth c.rankOf (c.above node)) := by
  rw [raise_state parent hq]
  exact ⟨rfl, rfl, rfl⟩

/-- The connection before the last part: the new parent is not below the node, and the
ranks are the depths `d`, but those below a parent that gives its children away. -/
structure Yielded (c c' : Dependencies) (k : ℕ) (I A C : Set ℕ) (node parent : ℕ)
    (exclusive : Bool) (d : ℕ → ℕ) : Prop where
  keeps : Keeps c c'
  linked : ∃ F, Linked c'.links k I A C c'.parentOf F
  depth : Depth A c'.above d
  parents : c'.parentOf = yielded c.parentOf node parent
  out : ¬Below c'.above node parent
  rank : ∀ m ∈ A, (exclusive = true → Below c'.above parent m → m = parent) → c'.rankOf m = d m

/-- A parent that is below its new child takes the child's place. -/
theorem moveUp_spec (exclusive : Bool) (hl : Linked c.links k I I C c.parentOf F)
    (hd : Depth I c.above c.rankOf) (hfresh : ∀ n ∈ I, n < c.fresh) {parent : ℕ}
    (hnode : node ∈ I) (hparent : parent ∈ I) (hne : parent ≠ node)
    (hbelow : Below c.above node parent) :
    ∃ c' d, c.moveUp node parent exclusive = some c' ∧
      Yielded c c' k I I C node parent exclusive d := by
  have hlt : c.rankOf node < c.rankOf parent :=
    (hd.below hparent hbelow).2.resolve_left hne
  -- The parent leaves its queue and goes behind the node.
  have hin : node ∈ I \ {parent} := ⟨hnode, fun heq => hne heq.symm⟩
  have hout : parent ∉ I \ {parent} := fun h => h.2 rfl
  obtain ⟨F', hlinked⟩ := (hl.detach hparent).attachAfter hout hin
  rw [Set.insert_sdiff_singleton, Set.insert_eq_of_mem hparent] at hlinked
  -- The depths with the new parent.
  have hplace : ∀ p, c.above node = some p → p ∈ I ∧ ¬Below c.above parent p := by
    intro p hp
    obtain ⟨hpI, hdepth⟩ := hd.child node hnode p hp
    refine ⟨hpI, fun hbelow' => ?_⟩
    rcases (hd.below hpI hbelow').2 with rfl | hlt'
    · omega
    · omega
  have hmove := hd.move hplace
  rw [Set.insert_eq_of_mem hparent] at hmove
  have habove : (fun n => (Function.update c.parentOf parent (c.parentOf node) n).above) =
      Function.update c.above parent (c.above node) := by
    funext n
    by_cases hn : n = parent
    · rw [hn, Function.update_self, Function.update_self]
      rfl
    · rw [Function.update_of_ne hn, Function.update_of_ne hn]
      rfl
  have hranks (m : ℕ) (hm : Below c.above parent m → m = parent) :
      Function.update c.rankOf parent (childDepth c.rankOf (c.above node)) m =
        movedDepth c.above c.rankOf parent (childDepth c.rankOf (c.above node)) m := by
    by_cases hmp : m = parent
    · rw [hmp, Function.update_self, movedDepth_self]
    · rw [Function.update_of_ne hmp, movedDepth_of_not fun h => hmp (hm h)]
  have hnot : ¬Below (Function.update c.above parent (c.above node)) node parent := by
    intro hbelow'
    rcases hbelow'.cases with heq | ⟨p, hp, hbelow''⟩
    · exact hne heq
    · rw [Function.update_self] at hp
      obtain ⟨hpI, hpout⟩ := hplace p hp
      have hdepth := (hd.child node hnode p hp).2
      have hnode_out : ¬Below c.above parent node := by
        intro h
        rcases (hd.below hnode h).2 with heq | hlt'
        · exact hne heq.symm
        · omega
      have hle := (hmove.below hpI hbelow'').2
      rw [movedDepth_of_not hpout, movedDepth_of_not hnode_out] at hle
      rcases hle with rfl | hlt'
      · omega
      · omega
  have hraise := raise_eq (c := c) (I := I) parent (hl.valid node hnode)
  have hkeeps := raise_keeps (c := c) (I := I) parent (hl.valid node hnode)
  rw [moveUp]
  generalize c.raise node parent = c₁ at hraise hkeeps
  obtain ⟨hlinks, hparents, hc₁⟩ := hraise
  have habove₁ : c₁.above = Function.update c.above parent (c.above node) := by
    rw [← habove, ← hparents]
    rfl
  rw [← hlinks, ← hparents] at hlinked
  rw [← habove₁] at hmove hnot
  rw [← hc₁] at hranks
  have hattached : c.parentOf node ≠ .null := fun heq => by
    have hvalid := hl.valid node hnode
    rwa [heq] at hvalid
  have hyielded : c₁.parentOf = yielded c.parentOf node parent :=
    hparents.trans (if_pos ⟨hattached, hbelow⟩).symm
  have hbelow_iff (m : ℕ) : Below c₁.above parent m ↔ Below c.above parent m := by
    rw [habove₁]
    exact below_update_self
  cases exclusive with
  | true =>
      refine ⟨c₁, _, if_pos rfl, hkeeps, ⟨F', hlinked⟩, hmove, hyielded, hnot, ?_⟩
      exact fun m _ hm => hranks m fun h => hm rfl ((hbelow_iff m).mpr h)
  | false =>
      rw [← hkeeps.fresh] at hfresh
      obtain ⟨r, hr, hdepth⟩ := hlinked.updateTree hparent hfresh hmove
        fun m _ hm => hranks m fun h => hm ((hbelow_iff m).mpr h)
      refine ⟨_, r, (if_neg nofun).trans hr, ?_, ⟨F', hlinked⟩, hdepth, hyielded, hnot, ?_⟩
      · exact hkeeps.trans (keeps_withRanks c₁ r)
      · exact fun m _ _ => rfl

theorem yield_spec (exclusive : Bool) (hl : Linked c.links k I A C c.parentOf F)
    (hI : I = insert node A) (hnull : c.parentOf node ≠ .null ↔ node ∈ A)
    (hd : Depth A c.above c.rankOf) (hfresh : ∀ n ∈ I, n < c.fresh) {parent : ℕ}
    (hparent : parent ∈ A) (hne : parent ≠ node) :
    ∃ c' d, c.yield node parent exclusive = some c' ∧
      Yielded c c' k I A C node parent exclusive d := by
  have hvalid (n : ℕ) (hn : n ∈ A) : c.parentOf n ≠ .null := fun heq => by
    have h := hl.valid n hn
    rwa [heq] at h
  have hstay (hout : ¬Below c.above node parent) :
      Yielded c c k I A C node parent exclusive c.rankOf :=
    ⟨Keeps.refl c, ⟨F, hl⟩, hd, (if_neg fun h => hout h.2).symm, hout, fun _ _ _ => rfl⟩
  by_cases hnode : node ∈ A
  · obtain rfl : I = A := hI.trans (Set.insert_eq_of_mem hnode)
    have hstart : c.parentOf parent = .root ∨ ∃ p, c.parentOf parent = .node p ∧ p ∈ I ∧
        c.rankOf p ≤ c.fresh + 1 := by
      cases hq : c.parentOf parent with
      | null => exact absurd hq (hvalid parent hparent)
      | root => exact .inl rfl
      | node p =>
          obtain ⟨hp, -⟩ := hd.child parent hparent p (Parent.above_eq_some.mpr hq)
          exact .inr ⟨p, rfl, hp, Nat.le_succ_of_le (hd.le_bound hfresh hp)⟩
    have hfound : ∃ found,
        c.findAbove node (c.fresh + 1) (c.parentOf parent) = some found ∧
          (found = true ↔ ∃ p, c.parentOf parent = .node p ∧ Below c.above node p) := by
      rcases hstart with hroot | ⟨p, hq, hp, hle⟩
      · exact findAbove_spec (p := parent) hd (.inl hroot) hvalid
      · exact findAbove_spec hd (.inr ⟨hq, hp, hle⟩) hvalid
    have hiff : (∃ p, c.parentOf parent = .node p ∧ Below c.above node p) ↔
        Below c.above node parent := by
      constructor
      · rintro ⟨p, hq, hbelow⟩
        exact hbelow.parent (Parent.above_eq_some.mpr hq)
      · intro hbelow
        rcases hbelow.cases with heq | ⟨p, hq, hbelow'⟩
        · exact absurd heq hne
        · exact ⟨p, Parent.above_eq_some.mp hq, hbelow'⟩
    obtain ⟨found, hloop, hmeans⟩ := hfound
    rw [hiff] at hmeans
    have hattached : ¬(c.nodes node).parent = .null := hnull.mpr hnode
    rw [Dependencies.yield, if_neg hattached]
    have hloop' : c.findAbove node (c.fresh + 1) (c.nodes parent).parent = some found := hloop
    rw [hloop', Option.bind_some]
    by_cases hbelow : Below c.above node parent
    · rw [if_pos (hmeans.mpr hbelow)]
      exact moveUp_spec exclusive hl hd hfresh hnode hparent hne hbelow
    · rw [if_neg fun h => hbelow (hmeans.mp h)]
      exact ⟨c, c.rankOf, rfl, hstay hbelow⟩
  · have hdetached : (c.nodes node).parent = .null := by
      by_contra hne'
      exact hnode (hnull.mp hne')
    rw [Dependencies.yield, if_pos hdetached]
    exact ⟨c, c.rankOf, rfl, hstay fun hbelow => hnode (hd.below hparent hbelow).1⟩

theorem touchClosed_spec {P : ℕ → Parent} (hl : Linked c.links k I A C P F) {parent : ℕ}
    (hparent : (c.nodes parent).stream = false → parent ∈ C) :
    Keeps c (c.touchClosed parent) ∧ (c.touchClosed parent).parentOf = c.parentOf ∧
      (c.touchClosed parent).rankOf = c.rankOf ∧
      ∃ F', Linked (c.touchClosed parent).links k I A C P F' := by
  rw [touchClosed]
  cases hstream : (c.nodes parent).stream with
  | true => exact ⟨Keeps.refl c, rfl, rfl, F, hl⟩
  | false =>
      have hin := hparent hstream
      have hout : parent ∉ C \ {parent} := fun h => h.2 rfl
      have hmoved := (hl.removeClosed hin).insertClosed hout
      have hpos : 0 < k := by
        rw [hl.count]
        exact List.length_pos_of_mem ((hl.closed _).mpr ⟨parent, hin, rfl⟩)
      rw [Set.insert_sdiff_singleton, Set.insert_eq_of_mem hin, Nat.sub_add_cancel hpos] at hmoved
      exact ⟨keeps_links c _, rfl, rfl, _, hmoved⟩

/-- The parents when a node gets a new parent, as RFC 7540 section 5.3 has it. -/
noncomputable def reprioritised (P : ℕ → Parent) (node : ℕ) (parent : Option ℕ)
    (exclusive : Bool) : ℕ → Parent :=
  match parent with
  | none => attached P node .root exclusive
  | some p => attached (yielded P node p) node (.node p) exclusive

/-- The branch of `ngx_http_v2_set_dependency` for a node without a parent in the tree. -/
theorem setDependency_root {mask depend : ℕ} (exclusive : Bool)
    (hl : Linked c.links k I A C c.parentOf F)
    (hI : I = insert node A) (hnull : c.parentOf node ≠ .null ↔ node ∈ A)
    (hd : Depth A c.above c.rankOf) (hfresh : ∀ n ∈ I, n < c.fresh)
    (hparent : (if depend = 0 then none else c.findNode mask depend) = none) :
    ∃ c', c.ngxHttpV2SetDependency mask node depend exclusive = some c' ∧ Keeps c c' ∧
      (∃ F', Linked c'.links k I I C c'.parentOf F') ∧ Depth I c'.above c'.rankOf ∧
      ∀ m ∈ I, c'.parentOf m =
        reprioritised c.parentOf node none (exclusive && depend == 0) m := by
  rw [ngxHttpV2SetDependency, hparent]
  have hl' : Linked (c.setNode node fun x => { x with rank := 1 }).links k I A C
      (c.setNode node fun x => { x with rank := 1 }).parentOf F := by
    rw [setNode_rank]
    exact hl
  rw [setNode_rank] at hl' ⊢
  have hranks (m : ℕ) (hm : ¬Below c.above node m) :
      Function.update c.rankOf node 1 m = c.rankOf m := by
    have hne : m ≠ node := by
      rintro rfl
      exact hm (Below.refl _ m)
    rw [Function.update_of_ne hne]
  have hvalid : Parent.root.Valid I := trivial
  obtain ⟨c', hattach, hkeeps, hlinked, hdepth, hparents⟩ :=
    attach_spec (exclusive && depend == 0) hl' hI hnull hfresh hd hvalid
      (fun _ heq => absurd heq nofun) (Function.update_self ..) fun m _ hm _ => hranks m hm
  exact ⟨c', hattach, (keeps_withRanks c _).trans hkeeps, hlinked, hdepth, hparents⟩

/-- The branch of `ngx_http_v2_set_dependency` for a parent in the tree, which gives way when it
is below the node. -/
theorem setDependency_parent {mask depend parent : ℕ} (exclusive : Bool)
    (hl : Linked c.links k I A C c.parentOf F)
    (hI : I = insert node A) (hnull : c.parentOf node ≠ .null ↔ node ∈ A)
    (hd : Depth A c.above c.rankOf) (hfresh : ∀ n ∈ I, n < c.fresh)
    (hclosed : (c.nodes parent).stream = false → parent ∈ C) (hpA : parent ∈ A)
    (hpn : parent ≠ node)
    (hparent : (if depend = 0 then none else c.findNode mask depend) = some parent) :
    ∃ c', c.ngxHttpV2SetDependency mask node depend exclusive = some c' ∧ Keeps c c' ∧
      (∃ F', Linked c'.links k I I C c'.parentOf F') ∧ Depth I c'.above c'.rankOf ∧
      ∀ m ∈ I, c'.parentOf m =
        reprioritised c.parentOf node (some parent) exclusive m := by
  rw [ngxHttpV2SetDependency, hparent]
  obtain ⟨c₁, d, hyield, hy⟩ := yield_spec exclusive hl hI hnull hd hfresh hpA hpn
  obtain ⟨F₁, hl₁⟩ := hy.linked
  have hrank_parent : c₁.rankOf parent = d parent := hy.rank parent hpA fun _ _ => rfl
  -- The rank of the node, and the place of its parent among the closed nodes.
  have hl₂ : Linked (c₁.setNode node fun x =>
      { x with rank := (c₁.nodes parent).rank + 1 }).links k I A C c₁.parentOf F₁ := hl₁
  have hkeeps₂ : Keeps c (c₁.setNode node fun x =>
      { x with rank := (c₁.nodes parent).rank + 1 }) := by
    rw [setNode_rank]
    exact hy.keeps.trans (keeps_withRanks c₁ _)
  have hrank₂ : (c₁.setNode node fun x =>
      { x with rank := (c₁.nodes parent).rank + 1 }).rankOf =
        Function.update c₁.rankOf node (d parent + 1) := by
    rw [setNode_rank, ← hrank_parent]
    rfl
  have hparents₂ : (c₁.setNode node fun x =>
      { x with rank := (c₁.nodes parent).rank + 1 }).parentOf = c₁.parentOf := by
    rw [setNode_rank]
    rfl
  obtain ⟨hkeeps₃, hparents₃, hrank₃, F₃, hl₃⟩ := touchClosed_spec hl₂
    fun hstream => hclosed ((hkeeps₂.stream parent).symm.trans hstream)
  simp only [hyield, Option.bind_some]
  generalize (c₁.setNode node fun x => { x with rank := (c₁.nodes parent).rank + 1 }) = c₂
    at hkeeps₂ hkeeps₃ hrank₂ hrank₃ hparents₂ hparents₃ hl₃ ⊢
  generalize c₂.touchClosed parent = c₃ at hkeeps₃ hrank₃ hparents₃ hl₃ ⊢
  have hkeeps := hkeeps₂.trans hkeeps₃
  rw [hrank₂] at hrank₃
  rw [hparents₂] at hparents₃
  rw [← hparents₃] at hl₃
  have habove : c₃.above = c₁.above := by
    funext n
    rw [Dependencies.above, hparents₃]
    rfl
  have hnode_parent : c₃.parentOf node = c.parentOf node := by
    rw [hparents₃, hy.parents, yielded]
    split
    · exact Function.update_of_ne (Ne.symm hpn) ..
    · rfl
  have hvalid : (Parent.node parent).Valid I := by
    rw [hI]
    exact Set.mem_insert_of_mem node hpA
  obtain ⟨c', hattach, hkeeps', hlinked, hdepth, hparents⟩ :=
    attach_spec (q := .node parent) exclusive hl₃ hI (by rw [hnode_parent]; exact hnull)
      (by rw [hkeeps.fresh]; exact hfresh) (by rw [habove]; exact hy.depth) hvalid
      (by
        rintro p heq
        obtain rfl := Parent.node.inj heq
        rw [habove]
        exact ⟨hpn, hy.out⟩)
      (by rw [hrank₃, Function.update_self]; rfl)
      (by
        intro m hm hnot hexcl
        have hmn : m ≠ node := by
          rintro rfl
          exact hnot (Below.refl _ m)
        rw [hrank₃, Function.update_of_ne hmn]
        rw [habove] at hexcl
        exact hy.rank m hm fun he hbelow => hexcl he parent rfl hbelow)
  refine ⟨c', hattach, hkeeps.trans hkeeps', hlinked, hdepth, ?_⟩
  intro m hm
  rw [hparents m hm, hparents₃, hy.parents]
  rfl

/-- `ngx_http_v2_set_dependency` makes a tree with the nodes `A` and `node` of a tree
with the nodes `A`. -/
theorem setDependency_spec {mask depend : ℕ} (exclusive : Bool)
    (hl : Linked c.links k I A C c.parentOf F)
    (hI : I = insert node A) (hnull : c.parentOf node ≠ .null ↔ node ∈ A)
    (hd : Depth A c.above c.rankOf) (hfresh : ∀ n ∈ I, n < c.fresh)
    (hclosed : ∀ n ∈ I, (c.nodes n).stream = false → n ∈ C)
    (hfind : ∀ p, c.findNode mask depend = some p → p ∈ I ∧ p ≠ node) :
    ∃ c', c.ngxHttpV2SetDependency mask node depend exclusive = some c' ∧ Keeps c c' ∧
      (∃ F', Linked c'.links k I I C c'.parentOf F') ∧ Depth I c'.above c'.rankOf ∧
      ∀ m ∈ I, c'.parentOf m = reprioritised c.parentOf node
        (if depend = 0 then none else c.findNode mask depend)
        (exclusive && (depend == 0 || (c.findNode mask depend).isSome)) m := by
  cases hparent : if depend = 0 then none else c.findNode mask depend with
  | none =>
      have hexclusive : (exclusive && (depend == 0 || (c.findNode mask depend).isSome)) =
          (exclusive && depend == 0) := by
        by_cases hzero : depend = 0
        · simp [hzero]
        · rw [if_neg hzero] at hparent
          simp [hparent]
      rw [hexclusive]
      exact setDependency_root exclusive hl hI hnull hd hfresh hparent
  | some parent =>
      have hfound : c.findNode mask depend = some parent := by
        split at hparent
        · cases hparent
        · exact hparent
      obtain ⟨hpI, hpn⟩ := hfind parent hfound
      have hpA : parent ∈ A := by
        rw [hI] at hpI
        exact hpI.resolve_left hpn
      have hexclusive : (exclusive && (depend == 0 || (c.findNode mask depend).isSome)) =
          exclusive := by
        simp [hfound]
      rw [hexclusive]
      exact setDependency_parent exclusive hl hI hnull hd hfresh (hclosed parent hpI) hpA hpn
        hparent

end SetDependency

end Dependencies

end MultiversionBalancer.Http2
