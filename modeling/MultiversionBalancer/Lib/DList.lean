import MultiversionBalancer.Lib.Heap

/-!
# Doubly linked lists

A cell of a doubly linked list keeps its backward link beside its value.
`DChain h p ns` says that following the forward links from `p` visits the cells
`ns` and that every backward link leads to the cell before.  The two edits are
linking a cell in front of the first one and cutting off the last one.
-/

namespace MultiversionBalancer.Lib

/-- A value with the address of the cell before. -/
structure Linked (α : Type*) where
  val : α
  prev : Option ℕ
  deriving DecidableEq

variable {α : Type*}

/-- The cells `ns` with their backward links, when `p` comes before them. -/
def linkUp : Option ℕ → List (ℕ × α) → List (ℕ × Linked α)
  | _, [] => []
  | p, n :: ns => (n.1, ⟨n.2, p⟩) :: linkUp (some n.1) ns

/-- The cells `ns` are linked in both directions, starting at `p`. -/
def DChain (h : Heap (Linked α)) (p : Option ℕ) (ns : List (ℕ × α)) : Prop :=
  Chain h p (linkUp none ns) none

theorem map_fst_linkUp (p : Option ℕ) (ns : List (ℕ × α)) :
    (linkUp p ns).map Prod.fst = ns.map Prod.fst := by
  induction ns generalizing p with
  | nil => rfl
  | cons n ns ih => simp [linkUp, ih]

theorem linkUp_append (p : Option ℕ) (ns ms : List (ℕ × α)) (c : ℕ) (y : α) :
    linkUp p (ns ++ (c, y) :: ms) =
      linkUp p (ns ++ [(c, y)]) ++ linkUp (some c) ms := by
  induction ns generalizing p with
  | nil => rfl
  | cons n ns ih => simp [linkUp, ih]

theorem linkUp_concat (p : Option ℕ) (ns : List (ℕ × α)) (c : ℕ) (y : α) :
    ∃ prev, linkUp p (ns ++ [(c, y)]) = linkUp p ns ++ [(c, ⟨y, prev⟩)] := by
  induction ns generalizing p with
  | nil => exact ⟨p, rfl⟩
  | cons n ns ih =>
      obtain ⟨prev, hprev⟩ := ih (some n.1)
      exact ⟨prev, by simp [linkUp, hprev]⟩

namespace DChain

variable {h : Heap (Linked α)} {p : Option ℕ}

theorem alloc_single (h : Heap (Linked α)) (v : α) :
    DChain (h.alloc ⟨⟨v, none⟩, none⟩) (some h.fresh) [(h.fresh, v)] := by
  refine ⟨rfl, none, ?_, rfl⟩
  exact Heap.alloc_cell_fresh h _

theorem cell_head {b : ℕ} {w : α} {ns : List (ℕ × α)}
    (hc : DChain h p ((b, w) :: ns)) :
    p = some b ∧ ∃ next, h.cell b = some ⟨⟨w, none⟩, next⟩ := by
  obtain ⟨hp, next, hcell, -⟩ := hc
  exact ⟨hp, next, hcell⟩

theorem pushFront {b : ℕ} {v w : α} {next : Option ℕ} {ns : List (ℕ × α)}
    (hb : h.Bounded) (hc : DChain h p ((b, w) :: ns))
    (hcell : h.cell b = some ⟨⟨w, none⟩, next⟩)
    (hnodup : (((b, w) :: ns).map Prod.fst).Nodup) :
    DChain ((h.alloc ⟨⟨v, none⟩, some b⟩).store b ⟨⟨w, some h.fresh⟩, next⟩)
      (some h.fresh) ((h.fresh, v) :: (b, w) :: ns) := by
  obtain ⟨rfl, -⟩ := hc.cell_head
  have hne : h.fresh ≠ b := Nat.ne_of_gt (hb.lt_fresh hcell)
  have hnodup' : (([] ++ linkUp none ((b, w) :: ns)).map Prod.fst).Nodup := by
    rw [List.nil_append, map_fst_linkUp]
    exact hnodup
  have hcell' : (h.alloc ⟨⟨v, none⟩, some b⟩).cell b =
      some ⟨⟨w, none⟩, next⟩ := by
    rw [Heap.alloc_cell_of_ne _ hne.symm, hcell]
  have hback : Chain
      ((h.alloc ⟨⟨v, none⟩, some b⟩).store b ⟨⟨w, some h.fresh⟩, next⟩)
      (some b) ([] ++ (b, ⟨w, some h.fresh⟩) :: linkUp (some b) ns) none :=
    Chain.store_val (Chain.alloc hc hb _) hcell' hnodup'
  refine ⟨rfl, some b, ?_, hback⟩
  rw [Heap.store_cell_of_ne _ hne, Heap.alloc_cell_fresh]

/-- Cutting off the last of at least two cells. -/
theorem dropLast {ns : List (ℕ × α)} {c t : ℕ} {y z : α}
    (hc : DChain h p (ns ++ [(c, y), (t, z)]))
    (hnodup : ((ns ++ [(c, y), (t, z)]).map Prod.fst).Nodup) :
    h.cell t = some ⟨⟨z, some c⟩, none⟩ ∧
      ∃ prev, h.cell c = some ⟨⟨y, prev⟩, some t⟩ ∧
        DChain (h.store c ⟨⟨y, prev⟩, none⟩) p (ns ++ [(c, y)]) := by
  obtain ⟨prev, hlink⟩ := linkUp_concat none ns c y
  unfold DChain at hc
  rw [linkUp_append, hlink, Chain.append_iff] at hc
  obtain ⟨m, hfront, rfl, next, hcell, rfl⟩ := hc
  have hnodup' : ((linkUp none ns ++ [(c, (⟨y, prev⟩ : Linked α))]).map
      Prod.fst).Nodup := by
    rw [← hlink, map_fst_linkUp]
    rw [show ns ++ [(c, y), (t, z)] = (ns ++ [(c, y)]) ++ [(t, z)] by simp,
      List.map_append] at hnodup
    exact (List.nodup_append.mp hnodup).1
  refine ⟨hcell, prev, ?_, ?_⟩
  · obtain ⟨m, -, rfl, next, hlast, rfl⟩ := Chain.append_iff.mp hfront
    exact hlast
  · unfold DChain
    rw [hlink]
    exact hfront.relink hnodup'

end DChain

/-- Following the links `link` from `p` visits the cells `ns` and ends there. -/
def Follows (h : Heap (Linked α)) (link : Cell (Linked α) → Option ℕ) :
    Option ℕ → List (ℕ × α) → Prop
  | p, [] => p = none
  | p, n :: ns =>
      p = some n.1 ∧ ∃ c, h.cell n.1 = some c ∧ c.val.val = n.2 ∧ Follows h link (link c) ns

namespace DChain

variable {h : Heap (Linked α)} {p : Option ℕ}

/-- Nothing is before the first cell. -/
theorem prev_head {a : ℕ} {c : Cell (Linked α)} {ns : List (ℕ × α)}
    (hc : DChain h (some a) ns) (hcell : h.cell a = some c) : c.val.prev = none := by
  cases ns with
  | nil => cases hc
  | cons n ns =>
      obtain ⟨hp, next, hhead⟩ := hc.cell_head
      obtain rfl := Option.some.inj hp
      rw [Option.some.inj (hcell.symm.trans hhead)]

theorem next_last {a : ℕ} {c : Cell (Linked α)} {ns : List (ℕ × α)} (hc : DChain h p ns)
    (ha : ns.getLast?.map Prod.fst = some a) (hcell : h.cell a = some c) : c.next = none := by
  rcases List.eq_nil_or_concat' ns with rfl | ⟨ms, ⟨t, z⟩, rfl⟩
  · cases ha
  · rw [List.getLast?_concat] at ha
    obtain rfl := Option.some.inj ha
    obtain ⟨prev, hlink⟩ := linkUp_concat none ms t z
    unfold DChain at hc
    rw [hlink, Chain.append_iff] at hc
    obtain ⟨m, -, -, next, hlast, rfl⟩ := hc
    rw [Option.some.inj (hcell.symm.trans hlast)]

/-- The forward links visit the cells in their order. -/
theorem follows_next {ns : List (ℕ × α)} (hc : DChain h p ns) :
    Follows h Cell.next p ns := by
  have hgo : ∀ (q : Option ℕ) (ns : List (ℕ × α)) (p : Option ℕ),
      Chain h p (linkUp q ns) none → Follows h Cell.next p ns := by
    intro q ns
    induction ns generalizing q with
    | nil => exact fun p hc => hc
    | cons n ns ih =>
        rintro p ⟨hp, next, hcell, hrest⟩
        exact ⟨hp, _, hcell, rfl, ih _ _ hrest⟩
  exact hgo none ns p hc

/-- The backward links visit the cells in the opposite order. -/
theorem follows_prev {ns : List (ℕ × α)} (hc : DChain h p ns) :
    Follows h (fun c => c.val.prev) (ns.getLast?.map Prod.fst) ns.reverse := by
  -- the cells before are visited behind those of the list
  have hgo : ∀ (ns : List (ℕ × α)) (q p : Option ℕ) (before : List (ℕ × α)),
      Chain h p (linkUp q ns) none → Follows h (fun c => c.val.prev) q before →
      Follows h (fun c => c.val.prev)
        ((ns.getLast?.map Prod.fst).or q) (ns.reverse ++ before) := by
    intro ns
    induction ns with
    | nil => exact fun q p before _ hbefore => hbefore
    | cons n ns ih =>
        rintro q p before ⟨hp, next, hcell, hrest⟩ hbefore
        have hnext := ih (some n.1) next (n :: before) hrest ⟨rfl, _, hcell, rfl, hbefore⟩
        have hlast : ((n :: ns).getLast?.map Prod.fst).or q =
            (ns.getLast?.map Prod.fst).or (some n.1) := by
          cases ns with
          | nil => rfl
          | cons m ns =>
              rw [List.getLast?_cons_cons, List.getLast?_cons]
              rfl
        rw [hlast, List.reverse_cons, List.append_assoc]
        exact hnext
  have hall := hgo ns none p [] hc rfl
  rwa [Option.or_none, List.append_nil] at hall

end DChain

end MultiversionBalancer.Lib
