import MultiversionBalancer.Http2.Dependencies
import Mathlib.Data.Set.List
import Mathlib.Data.List.Perm.Subperm
import Mathlib.Data.Set.Insert

/-!
# The queues of the dependencies

Which nodes the queues of a connection hold: the children of each node, and the closed
nodes.  Each operation on a queue changes the parent of a node, or whether it is closed.
-/

namespace MultiversionBalancer.Http2

open Lib

def queueHeads (I : Set ℕ) : Set QueueLink :=
  {h | h = .dependencies ∨ h = .closed ∨ ∃ n ∈ I, h = .children n}

/-- A parent that is the root or one of the nodes `I`. -/
def Parent.Valid (I : Set ℕ) : Parent → Prop
  | .null => False
  | .root => True
  | .node p => p ∈ I

theorem Parent.Valid.head {I : Set ℕ} {q : Parent} (h : Parent.Valid I q) :
    Parent.children q ∈ queueHeads I := by
  cases q with
  | null => exact absurd h not_false
  | root => exact .inl rfl
  | node p => exact .inr (.inr ⟨p, h, rfl⟩)

theorem Parent.children_inj {I : Set ℕ} {q q' : Parent} (h : Parent.Valid I q)
    (heq : Parent.children q = Parent.children q') : q = q' := by
  cases q with
  | null => exact absurd h not_false
  | root =>
      cases q' with
      | root => rfl
      | null => exact absurd heq nofun
      | node p => exact absurd heq nofun
  | node p =>
      cases q' with
      | root => exact absurd heq nofun
      | null => exact absurd heq nofun
      | node p' => rw [QueueLink.children.inj heq]

theorem Parent.children_ne_closed (q : Parent) : Parent.children q ≠ .closed := by
  cases q <;> exact nofun

theorem closed_mem_heads (I : Set ℕ) : QueueLink.closed ∈ queueHeads I :=
  .inr (.inl rfl)

theorem heads_cases {I : Set ℕ} {h : QueueLink} (hh : h ∈ queueHeads I) :
    h = .closed ∨ ∃ q, Parent.Valid I q ∧ h = Parent.children q := by
  rcases hh with rfl | rfl | ⟨n, hn, rfl⟩
  · exact .inr ⟨.root, trivial, rfl⟩
  · exact .inl rfl
  · exact .inr ⟨.node n, hn, rfl⟩

namespace Dependencies

/-- The nodes of `streams_index`. -/
def Indexed (c : Dependencies) : Set ℕ :=
  {n | ∃ b, n ∈ c.streamsIndex b}

/-- The queues `F` of the nodes `I`: the nodes `A` are in the queues of the children of
their parents `P`, the nodes `C` are in the queue of the `k` closed nodes. -/
structure Linked (l : Links QueueLink) (k : ℕ) (I A C : Set ℕ) (P : ℕ → Parent)
    (F : QueueLink → List QueueLink) : Prop where
  queues : Queues l (queueHeads I) F
  valid : ∀ n ∈ A, Parent.Valid I (P n)
  children : ∀ q, Parent.Valid I q →
    ∀ a, a ∈ F (Parent.children q) ↔ ∃ n ∈ A, a = .queue n ∧ P n = q
  closed : ∀ a, a ∈ F .closed ↔ ∃ n ∈ C, a = .reuse n
  count : k = (F .closed).length

section Linked

variable {l : Links QueueLink} {k : ℕ} {I A C : Set ℕ} {P : ℕ → Parent}
  {F : QueueLink → List QueueLink}

theorem Linked.free_queue (h : Linked l k I A C P F) {n : ℕ} (hn : n ∉ A) :
    FreeLink (queueHeads I) F (.queue n) := by
  intro head hhead hmem
  rcases heads_cases hhead with rfl | ⟨q, hq, rfl⟩
  · rcases List.mem_cons.mp hmem with heq | hmem
    · exact absurd heq nofun
    · obtain ⟨m, -, heq⟩ := (h.closed _).mp hmem
      exact absurd heq nofun
  · rcases List.mem_cons.mp hmem with heq | hmem
    · cases q <;> exact absurd heq nofun
    · obtain ⟨m, hm, heq, -⟩ := (h.children q hq _).mp hmem
      obtain rfl := QueueLink.queue.inj heq
      exact hn hm

theorem Linked.free_reuse (h : Linked l k I A C P F) {n : ℕ} (hn : n ∉ C) :
    FreeLink (queueHeads I) F (.reuse n) := by
  intro head hhead hmem
  rcases heads_cases hhead with rfl | ⟨q, hq, rfl⟩
  · rcases List.mem_cons.mp hmem with heq | hmem
    · exact absurd heq nofun
    · obtain ⟨m, hm, heq⟩ := (h.closed _).mp hmem
      obtain rfl := QueueLink.reuse.inj heq
      exact hn hm
  · rcases List.mem_cons.mp hmem with heq | hmem
    · cases q <;> exact absurd heq nofun
    · obtain ⟨m, -, heq, -⟩ := (h.children q hq _).mp hmem
      exact absurd heq nofun

theorem Linked.free_children (h : Linked l k I A C P F) {n : ℕ} (hn : n ∉ I) :
    FreeLink (queueHeads I) F (.children n) := by
  intro head hhead hmem
  rcases heads_cases hhead with rfl | ⟨q, hq, rfl⟩
  · rcases List.mem_cons.mp hmem with heq | hmem
    · exact absurd heq nofun
    · obtain ⟨m, -, heq⟩ := (h.closed _).mp hmem
      exact absurd heq nofun
  · rcases List.mem_cons.mp hmem with heq | hmem
    · cases q with
      | node p =>
          obtain rfl := QueueLink.children.inj heq
          exact hn hq
      | root => exact absurd heq nofun
      | null => exact absurd heq nofun
    · obtain ⟨m, -, heq, -⟩ := (h.children q hq _).mp hmem
      exact absurd heq nofun

theorem Linked.congr (h : Linked l k I A C P F) {P' : ℕ → Parent} (hP : ∀ n ∈ A, P' n = P n) :
    Linked l k I A C P' F := by
  refine ⟨h.queues, ?_, ?_, h.closed, h.count⟩
  · intro n hn
    rw [hP n hn]
    exact h.valid n hn
  · intro q hq a
    rw [h.children q hq a]
    constructor
    · rintro ⟨n, hn, heq, hp⟩
      exact ⟨n, hn, heq, (hP n hn).trans hp⟩
    · rintro ⟨n, hn, heq, hp⟩
      exact ⟨n, hn, heq, (hP n hn).symm.trans hp⟩

theorem Linked.changeClosed (h : Linked l k I A C P F) {l' : Links QueueLink}
    {xs : List QueueLink} (hqueues : Queues l' (queueHeads I) (Function.update F .closed xs))
    {C' : Set ℕ} (hclosed : ∀ a, a ∈ xs ↔ ∃ n ∈ C', a = .reuse n) :
    Linked l' xs.length I A C' P (Function.update F .closed xs) := by
  refine ⟨hqueues, h.valid, ?_, ?_, ?_⟩
  · intro q hq a
    rw [Function.update_of_ne (Parent.children_ne_closed q)]
    exact h.children q hq a
  · intro a
    rw [Function.update_self]
    exact hclosed a
  · rw [Function.update_self]

theorem Linked.insertClosed (h : Linked l k I A C P F) {n : ℕ} (hn : n ∉ C) :
    Linked (l.insertTail .closed (.reuse n)) (k + 1) I A (insert n C) P
      (Function.update F .closed (F .closed ++ [.reuse n])) := by
  have hqueues := h.queues.insertTail (closed_mem_heads I) (h.free_reuse hn)
  have hlength : k + 1 = (F .closed ++ [QueueLink.reuse n]).length := by
    rw [List.length_append, ← h.count, List.length_singleton]
  rw [hlength]
  refine h.changeClosed hqueues ?_
  intro a
  rw [List.mem_append, List.mem_singleton, h.closed]
  constructor
  · rintro (⟨m, hm, rfl⟩ | rfl)
    · exact ⟨m, Set.mem_insert_of_mem n hm, rfl⟩
    · exact ⟨n, Set.mem_insert n C, rfl⟩
  · rintro ⟨m, rfl | hm, rfl⟩
    · exact .inr rfl
    · exact .inl ⟨m, hm, rfl⟩

theorem Linked.removeClosed (h : Linked l k I A C P F) {n : ℕ} (hn : n ∈ C) :
    Linked (l.remove (.reuse n)) (k - 1) I A (C \ {n}) P
      (Function.update F .closed ((F .closed).erase (.reuse n))) := by
  have hmem : QueueLink.reuse n ∈ F .closed := (h.closed _).mpr ⟨n, hn, rfl⟩
  have hqueues := (h.queues.remove (closed_mem_heads I) hmem).1
  have hlength : k - 1 = ((F .closed).erase (QueueLink.reuse n)).length := by
    rw [List.length_erase_of_mem hmem, ← h.count]
  have hnodup := (List.nodup_cons.mp (h.queues.queue _ (closed_mem_heads I)).nodup).2
  rw [hlength]
  refine h.changeClosed hqueues ?_
  intro a
  rw [hnodup.mem_erase_iff, h.closed]
  constructor
  · rintro ⟨hne, m, hm, rfl⟩
    exact ⟨m, ⟨hm, fun heq => hne (congrArg QueueLink.reuse heq)⟩, rfl⟩
  · rintro ⟨m, ⟨hm, hne⟩, rfl⟩
    exact ⟨fun heq => hne (QueueLink.reuse.inj heq), m, hm, rfl⟩

theorem Linked.changeChildren (h : Linked l k I A C P F) {l' : Links QueueLink} {q : Parent}
    {xs : List QueueLink} (hq : Parent.Valid I q)
    (hqueues : Queues l' (queueHeads I) (Function.update F (Parent.children q) xs))
    {A' : Set ℕ} {P' : ℕ → Parent} (hvalid : ∀ n ∈ A', Parent.Valid I (P' n))
    (hxs : ∀ a, a ∈ xs ↔ ∃ n ∈ A', a = .queue n ∧ P' n = q)
    (hother : ∀ n q', q' ≠ q → (n ∈ A' ∧ P' n = q' ↔ n ∈ A ∧ P n = q')) :
    Linked l' k I A' C P' (Function.update F (Parent.children q) xs) := by
  refine ⟨hqueues, hvalid, ?_, ?_, ?_⟩
  · intro q' hq' a
    by_cases heq : q' = q
    · subst heq
      rw [Function.update_self]
      exact hxs a
    · rw [Function.update_of_ne fun heq' => heq (Parent.children_inj hq' heq'),
        h.children q' hq' a]
      constructor
      · rintro ⟨n, hn, ha, hp⟩
        obtain ⟨hn', hp'⟩ := (hother n q' heq).mpr ⟨hn, hp⟩
        exact ⟨n, hn', ha, hp'⟩
      · rintro ⟨n, hn, ha, hp⟩
        obtain ⟨hn', hp'⟩ := (hother n q' heq).mp ⟨hn, hp⟩
        exact ⟨n, hn', ha, hp'⟩
  · intro a
    rw [Function.update_of_ne (Ne.symm (Parent.children_ne_closed q))]
    exact h.closed a
  · rw [Function.update_of_ne (Ne.symm (Parent.children_ne_closed q))]
    exact h.count

theorem Linked.detach (h : Linked l k I A C P F) {n : ℕ} (hn : n ∈ A) :
    Linked (l.remove (.queue n)) k I (A \ {n}) C P
      (Function.update F (Parent.children (P n))
        ((F (Parent.children (P n))).erase (.queue n))) := by
  have hvalid := h.valid n hn
  have hmem : QueueLink.queue n ∈ F (Parent.children (P n)) :=
    (h.children _ hvalid _).mpr ⟨n, hn, rfl, rfl⟩
  have hqueues := (h.queues.remove hvalid.head hmem).1
  have hnodup := (List.nodup_cons.mp (h.queues.queue _ hvalid.head).nodup).2
  refine h.changeChildren hvalid hqueues (fun m hm => h.valid m hm.1) ?_ ?_
  · intro a
    rw [hnodup.mem_erase_iff, h.children _ hvalid]
    constructor
    · rintro ⟨hne, m, hm, rfl, hp⟩
      exact ⟨m, ⟨hm, fun heq => hne (congrArg QueueLink.queue heq)⟩, rfl, hp⟩
    · rintro ⟨m, ⟨hm, hne⟩, rfl, hp⟩
      exact ⟨fun heq => hne (QueueLink.queue.inj heq), m, hm, rfl, hp⟩
  · intro m q' hne
    constructor
    · rintro ⟨hm, hp⟩
      exact ⟨hm.1, hp⟩
    · rintro ⟨hm, hp⟩
      refine ⟨⟨hm, ?_⟩, hp⟩
      rintro rfl
      exact hne hp.symm

theorem Linked.enter (h : Linked l k I A C P F) {l' : Links QueueLink} {n : ℕ} {q : Parent}
    {xs : List QueueLink} (hn : n ∉ A) (hq : Parent.Valid I q)
    (hqueues : Queues l' (queueHeads I) (Function.update F (Parent.children q) xs))
    (hxs : ∀ a, a ∈ xs ↔ a ∈ F (Parent.children q) ∨ a = .queue n) :
    Linked l' k I (insert n A) C (Function.update P n q)
      (Function.update F (Parent.children q) xs) := by
  have hne {m : ℕ} (hm : m ∈ A) : m ≠ n := ne_of_mem_of_not_mem hm hn
  refine h.changeChildren hq hqueues ?_ ?_ ?_
  · rintro m (rfl | hm)
    · rwa [Function.update_self]
    · rw [Function.update_of_ne (hne hm)]
      exact h.valid m hm
  · intro a
    rw [hxs, h.children q hq]
    constructor
    · rintro (⟨m, hm, rfl, hp⟩ | rfl)
      · exact ⟨m, Set.mem_insert_of_mem n hm, rfl, by rwa [Function.update_of_ne (hne hm)]⟩
      · exact ⟨n, Set.mem_insert n A, rfl, Function.update_self ..⟩
    · rintro ⟨m, rfl | hm, rfl, hp⟩
      · exact .inr rfl
      · rw [Function.update_of_ne (hne hm)] at hp
        exact .inl ⟨m, hm, rfl, hp⟩
  · intro m q' hne'
    constructor
    · rintro ⟨rfl | hm, hp⟩
      · rw [Function.update_self] at hp
        exact absurd hp.symm hne'
      · rw [Function.update_of_ne (hne hm)] at hp
        exact ⟨hm, hp⟩
    · rintro ⟨hm, hp⟩
      exact ⟨Set.mem_insert_of_mem n hm, by rwa [Function.update_of_ne (hne hm)]⟩

theorem Linked.attachTail (h : Linked l k I A C P F) {n : ℕ} {q : Parent} (hn : n ∉ A)
    (hq : Parent.Valid I q) :
    Linked (l.insertTail (Parent.children q) (.queue n)) k I (insert n A) C
      (Function.update P n q)
      (Function.update F (Parent.children q) (F (Parent.children q) ++ [.queue n])) := by
  refine h.enter hn hq (h.queues.insertTail hq.head (h.free_queue hn)) ?_
  intro a
  rw [List.mem_append, List.mem_singleton]

theorem Linked.attachAfter (h : Linked l k I A C P F) {n m : ℕ} (hn : n ∉ A) (hm : m ∈ A) :
    ∃ F', Linked (l.insertHead (.queue m) (.queue n)) k I (insert n A) C
      (Function.update P n (P m)) F' := by
  have hvalid := h.valid m hm
  have hmem : QueueLink.queue m ∈ F (Parent.children (P m)) :=
    (h.children _ hvalid _).mpr ⟨m, hm, rfl, rfl⟩
  obtain ⟨xs, ys, hF⟩ := List.append_of_mem hmem
  refine ⟨_, h.enter hn hvalid (h.queues.insertAfter hvalid.head hF (h.free_queue hn)) ?_⟩
  intro a
  rw [hF]
  simp only [List.mem_append, List.mem_cons]
  tauto

theorem Linked.moveChildren (h : Linked l k I A C P F) {l' : Links QueueLink} {I' : Set ℕ}
    {q q' : Parent} (hq : Parent.Valid I q) (hq' : Parent.Valid I' q') (hne : q ≠ q')
    (hI : ∀ p, Parent.Valid I' p → Parent.Valid I p)
    (hI' : ∀ p, Parent.Valid I p → p ≠ q → Parent.Valid I' p) {F' : QueueLink → List QueueLink}
    (hqueues : Queues l' (queueHeads I') F')
    (hto : F' (Parent.children q') = F (Parent.children q') ++ F (Parent.children q))
    (hfrom : Parent.Valid I' q → F' (Parent.children q) = [])
    (hother : ∀ head, head ≠ Parent.children q' → head ≠ Parent.children q → F' head = F head) :
    Linked l' k I' A C (fun m => if P m = q then q' else P m) F' := by
  have hclosed : F' .closed = F .closed :=
    hother _ (Ne.symm (Parent.children_ne_closed q')) (Ne.symm (Parent.children_ne_closed q))
  refine ⟨hqueues, ?_, ?_, ?_, ?_⟩
  · intro n hn
    by_cases hp : P n = q
    · simp only [if_pos hp]
      exact hq'
    · simp only [if_neg hp]
      exact hI' _ (h.valid n hn) hp
  · intro r hr a
    have hsplit (n : ℕ) : (if P n = q then q' else P n) = r ↔
        (P n = q ∧ q' = r) ∨ (P n ≠ q ∧ P n = r) := by
      by_cases hp : P n = q
      · simp [hp]
      · simp [hp]
    simp only [hsplit]
    by_cases hto' : r = q'
    · subst hto'
      rw [hto, List.mem_append, h.children r (hI r hr), h.children q hq]
      constructor
      · rintro (⟨n, hn, rfl, hp⟩ | ⟨n, hn, rfl, hp⟩)
        · exact ⟨n, hn, rfl, .inr ⟨fun heq => hne (heq.symm.trans hp), hp⟩⟩
        · exact ⟨n, hn, rfl, .inl ⟨hp, rfl⟩⟩
      · rintro ⟨n, hn, rfl, ⟨hp, -⟩ | ⟨-, hp⟩⟩
        · exact .inr ⟨n, hn, rfl, hp⟩
        · exact .inl ⟨n, hn, rfl, hp⟩
    · by_cases hfrom' : r = q
      · subst hfrom'
        rw [hfrom hr]
        constructor
        · exact fun ha => absurd ha List.not_mem_nil
        · rintro ⟨n, hn, rfl, ⟨-, heq⟩ | ⟨hp, hp'⟩⟩
          · exact absurd heq.symm hto'
          · exact absurd hp' hp
      · have hhead : F' (Parent.children r) = F (Parent.children r) :=
          hother _ (fun heq => hto' (Parent.children_inj hr heq))
            (fun heq => hfrom' (Parent.children_inj hr heq))
        rw [hhead, h.children r (hI r hr)]
        constructor
        · rintro ⟨n, hn, rfl, hp⟩
          exact ⟨n, hn, rfl, .inr ⟨fun heq => hfrom' (hp.symm.trans heq), hp⟩⟩
        · rintro ⟨n, hn, rfl, ⟨-, heq⟩ | ⟨-, hp⟩⟩
          · exact absurd heq.symm hto'
          · exact ⟨n, hn, rfl, hp⟩
  · rw [hclosed]
    exact h.closed
  · rw [hclosed]
    exact h.count

theorem heads_diff_insert {I : Set ℕ} {head : QueueLink} (h : head ∈ queueHeads I) :
    insert head (queueHeads I \ {head}) = queueHeads I := by
  ext other
  constructor
  · rintro (rfl | hother)
    · exact h
    · exact hother.1
  · intro hother
    by_cases heq : other = head
    · exact .inl heq
    · exact .inr ⟨hother, heq⟩

/-- `node` takes all children of a parent. -/
theorem Linked.adopt (h : Linked l k I A C P F) {node : ℕ} {q : Parent}
    (hq : Parent.Valid I q) (hnode : node ∈ I) (hne : q ≠ .node node) :
    ∃ F', Linked ((l.add (.children node) (Parent.children q)).init (Parent.children q)) k I A C
      (fun m => if P m = q then .node node else P m) F' := by
  have hhead : QueueLink.children node ∈ queueHeads I := .inr (.inr ⟨node, hnode, rfl⟩)
  have hheads : Parent.children q ≠ Parent.children (.node node) := fun heq =>
    hne (Parent.children_inj hq heq)
  have hadd := h.queues.add hhead hq.head hheads
  have hfree : FreeLink (queueHeads I \ {Parent.children q})
      (Function.update F (.children node) (F (.children node) ++ F (Parent.children q)))
      (Parent.children q) := by
    rintro head ⟨hmem, hne'⟩ hin
    have hold : ∀ head' ∈ queueHeads I, head' ≠ Parent.children q →
        Parent.children q ∉ head' :: F head' := by
      intro head' hmem' hne'' hin'
      exact hne'' (h.queues.apart head' hmem' _ hq.head _ hin' List.mem_cons_self)
    by_cases heq : head = .children node
    · rw [heq, Function.update_self] at hin
      rcases List.mem_cons.mp hin with heq' | hin
      · exact hheads heq'
      · rcases List.mem_append.mp hin with hin | hin
        · exact hold _ hhead (Ne.symm hheads) (List.mem_cons_of_mem _ hin)
        · exact (List.nodup_cons.mp (h.queues.queue _ hq.head).nodup).1 hin
    · rw [Function.update_of_ne heq] at hin
      exact hold head hmem hne' hin
  have hqueues := hadd.init hfree
  rw [heads_diff_insert hq.head] at hqueues
  have hvalid : Parent.Valid I (.node node) := hnode
  refine ⟨_, h.moveChildren hq hvalid hne (fun _ hp => hp) (fun _ hp _ => hp) hqueues ?_ ?_ ?_⟩
  · rw [Function.update_of_ne (show Parent.children (.node node) ≠ _ from Ne.symm hheads)]
    exact Function.update_self ..
  · exact fun _ => Function.update_self ..
  · intro head hto hfrom
    rw [Function.update_of_ne hfrom]
    exact Function.update_of_ne hto ..

/-- A node that is in no queue of children gives them to its parent and goes. -/
theorem Linked.dissolve (h : Linked l k I A C P F) {node : ℕ} {q : Parent} (hnode : node ∈ I)
    (hq : Parent.Valid I q) (hne : q ≠ .node node) :
    ∃ F', Linked (l.add (Parent.children q) (.children node)) k (I \ {node}) A C
      (fun m => if P m = .node node then q else P m) F' := by
  have hhead : QueueLink.children node ∈ queueHeads I := .inr (.inr ⟨node, hnode, rfl⟩)
  have hheads : Parent.children (.node node) ≠ Parent.children q := fun heq =>
    hne (Parent.children_inj hq heq.symm)
  have hadd := h.queues.add hq.head hhead hheads
  have hI : queueHeads I \ {QueueLink.children node} = queueHeads (I \ {node}) := by
    ext head
    constructor
    · rintro ⟨rfl | rfl | ⟨n, hn, rfl⟩, hne'⟩
      · exact .inl rfl
      · exact .inr (.inl rfl)
      · exact .inr (.inr ⟨n, ⟨hn, fun heq => hne' (congrArg QueueLink.children heq)⟩, rfl⟩)
    · rintro (rfl | rfl | ⟨n, ⟨hn, hne'⟩, rfl⟩)
      · exact ⟨.inl rfl, nofun⟩
      · exact ⟨.inr (.inl rfl), nofun⟩
      · exact ⟨.inr (.inr ⟨n, hn, rfl⟩), fun heq => hne' (QueueLink.children.inj heq)⟩
  rw [hI] at hadd
  have hless (p : Parent) (hp : Parent.Valid (I \ {node}) p) : Parent.Valid I p := by
    cases p with
    | null => exact hp
    | root => trivial
    | node p => exact hp.1
  have hmore (p : Parent) (hp : Parent.Valid I p) (hne' : p ≠ .node node) :
      Parent.Valid (I \ {node}) p := by
    cases p with
    | null => exact hp
    | root => trivial
    | node p => exact ⟨hp, fun heq => hne' (congrArg Parent.node heq)⟩
  refine ⟨_, h.moveChildren (q := .node node) hnode (hmore q hq hne) (Ne.symm hne) hless hmore
    hadd ?_ ?_ ?_⟩
  · exact Function.update_self ..
  · exact fun hvalid => absurd rfl hvalid.2
  · intro head hto _
    rw [Function.update_of_ne hto]

/-- A new node without children. -/
theorem Linked.index (h : Linked l k I A C P F) {node : ℕ} (hnode : node ∉ I) :
    Linked (l.init (.children node)) k (insert node I) A C P
      (Function.update F (.children node) []) := by
  have hqueues := h.queues.init (h.free_children hnode)
  have hI : insert (QueueLink.children node) (queueHeads I) = queueHeads (insert node I) := by
    ext head
    constructor
    · rintro (rfl | rfl | rfl | ⟨n, hn, rfl⟩)
      · exact .inr (.inr ⟨node, Set.mem_insert node I, rfl⟩)
      · exact .inl rfl
      · exact .inr (.inl rfl)
      · exact .inr (.inr ⟨n, Set.mem_insert_of_mem node hn, rfl⟩)
    · rintro (rfl | rfl | ⟨n, rfl | hn, rfl⟩)
      · exact .inr (.inl rfl)
      · exact .inr (.inr (.inl rfl))
      · exact .inl rfl
      · exact .inr (.inr (.inr ⟨n, hn, rfl⟩))
  rw [hI] at hqueues
  have hmore (p : Parent) (hp : Parent.Valid I p) : Parent.Valid (insert node I) p := by
    cases p with
    | null => exact hp
    | root => trivial
    | node p => exact Set.mem_insert_of_mem node hp
  have hold (n : ℕ) (hn : n ∈ A) : P n ≠ .node node := by
    intro heq
    have hvalid := h.valid n hn
    rw [heq] at hvalid
    exact hnode hvalid
  have hclosed : QueueLink.closed ≠ .children node := nofun
  refine ⟨hqueues, fun n hn => hmore _ (h.valid n hn), ?_, ?_, ?_⟩
  · intro q hq a
    by_cases heq : q = .node node
    · rw [heq, show Parent.children (.node node) = .children node from rfl, Function.update_self]
      constructor
      · exact fun ha => absurd ha List.not_mem_nil
      · rintro ⟨n, hn, -, hp⟩
        exact absurd hp (hold n hn)
    · have hvalid : Parent.Valid I q := by
        cases q with
        | null => exact hq
        | root => trivial
        | node p =>
            rcases hq with rfl | hq
            · exact absurd rfl heq
            · exact hq
      have hsame (heq' : Parent.children q = Parent.children (.node node)) : q = .node node :=
        Parent.children_inj hvalid heq'
      have hhead : Parent.children q ≠ .children node := fun heq' => heq (hsame heq')
      rw [Function.update_of_ne hhead]
      exact h.children q hvalid a
  · rw [Function.update_of_ne hclosed]
    exact h.closed
  · rw [Function.update_of_ne hclosed]
    exact h.count

theorem Linked.congr_links (h : Linked l k I A C P F) {l' : Links QueueLink}
    (hframe : ∀ a, ¬FreeLink (queueHeads I) F a → l'.next a = l.next a ∧ l'.prev a = l.prev a) :
    Linked l' k I A C P F :=
  ⟨h.queues.congr_free hframe, h.valid, h.children, h.closed, h.count⟩

theorem Linked.exists_children (h : Linked l k I A C P F) {q : Parent}
    (hq : Parent.Valid I q) :
    ∃ kids : List ℕ, IsQueue l (Parent.children q) (kids.map .queue) ∧ kids.Nodup ∧
      ∀ n, n ∈ kids ↔ n ∈ A ∧ P n = q := by
  have hqueue := h.queues.queue _ hq.head
  have hmem := h.children q hq
  obtain ⟨kids, hkids⟩ : F (Parent.children q) ∈ Set.range (List.map QueueLink.queue) := by
    rw [Set.range_list_map]
    intro a ha
    obtain ⟨n, -, heq, -⟩ := (hmem a).mp ha
    exact ⟨n, heq.symm⟩
  rw [← hkids] at hqueue hmem
  refine ⟨kids, hqueue, List.Nodup.of_map _ (List.nodup_cons.mp hqueue.nodup).2, ?_⟩
  intro n
  constructor
  · intro hn
    obtain ⟨m, hm, heq, hp⟩ := (hmem _).mp (List.mem_map_of_mem hn)
    obtain rfl := QueueLink.queue.inj heq
    exact ⟨hm, hp⟩
  · rintro ⟨hn, hp⟩
    obtain ⟨m, hm, heq⟩ := List.mem_map.mp ((hmem _).mpr ⟨n, hn, rfl, hp⟩)
    obtain rfl := QueueLink.queue.inj heq
    exact hm

theorem Linked.exists_closed (h : Linked l k I A C P F) :
    ∃ nodes : List ℕ, IsQueue l .closed (nodes.map .reuse) ∧ nodes.Nodup ∧
      (∀ n, n ∈ nodes ↔ n ∈ C) ∧ k = nodes.length := by
  have hqueue := h.queues.queue _ (closed_mem_heads I)
  have hmem := h.closed
  have hcount := h.count
  obtain ⟨nodes, hnodes⟩ : F .closed ∈ Set.range (List.map QueueLink.reuse) := by
    rw [Set.range_list_map]
    intro a ha
    obtain ⟨n, -, heq⟩ := (hmem a).mp ha
    exact ⟨n, heq.symm⟩
  rw [← hnodes] at hqueue hmem hcount
  rw [List.length_map] at hcount
  refine ⟨nodes, hqueue, List.Nodup.of_map _ (List.nodup_cons.mp hqueue.nodup).2, ?_, hcount⟩
  intro n
  constructor
  · intro hn
    obtain ⟨m, hm, heq⟩ := (hmem _).mp (List.mem_map_of_mem hn)
    obtain rfl := QueueLink.reuse.inj heq
    exact hm
  · intro hn
    obtain ⟨m, hm, heq⟩ := List.mem_map.mp ((hmem _).mpr ⟨n, hn, rfl⟩)
    obtain rfl := QueueLink.reuse.inj heq
    exact hm

end Linked

theorem length_le_fresh {c : Dependencies} {nodes : List ℕ} (hnodup : nodes.Nodup)
    (hfresh : ∀ n ∈ nodes, n < c.fresh) : nodes.length ≤ c.fresh := by
  have hsub : nodes ⊆ List.range c.fresh := fun n hn => List.mem_range.mpr (hfresh n hn)
  have hle := (List.subperm_of_subset hnodup hsub).length_le
  rwa [List.length_range] at hle

theorem childrenOf_eq {c : Dependencies} {head : QueueLink} {kids : List ℕ}
    (hqueue : IsQueue c.links head (kids.map .queue)) (hnodup : kids.Nodup)
    (hfresh : ∀ n ∈ kids, n < c.fresh) : c.childrenOf head = some kids := by
  have hlength : (kids.map QueueLink.queue).length ≤ c.fresh := by
    rw [List.length_map]
    exact length_le_fresh hnodup hfresh
  have hdata : (kids.map QueueLink.queue).mapM queueData = some kids := by
    clear hqueue hnodup hfresh hlength
    induction kids with
    | nil => rfl
    | cons n kids ih => simp [List.mapM_cons, queueData, ih]
  rw [childrenOf, hqueue.elements hlength]
  exact hdata

end Dependencies

end MultiversionBalancer.Http2
