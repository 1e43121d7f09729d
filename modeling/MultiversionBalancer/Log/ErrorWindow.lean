import MultiversionBalancer.Log.RequestTime
import Mathlib.Data.List.Nodup

/-!
# The window of squared errors

The last 200 squared errors are a linked list with a tail pointer.  As long as
the list is as long as `size_count` says, a further error can be recorded, and
the list stays so.
-/

namespace MultiversionBalancer

open Lib

variable {F : Type}

/-- The window is the linked list `ns`. -/
structure WindowOk (d : ProbabilityDistribution F) (ns : List (ℕ × F)) :
    Prop where
  chain : Chain d.nodes d.listHead ns none
  bounded : d.nodes.Bounded
  nodup : (ns.map Prod.fst).Nodup
  tail : ∀ n, ns.getLast? = some n → d.listTail = some n.1
  size : d.sizeCount = ns.length

namespace WindowOk

variable {d : ProbabilityDistribution F} {ns : List (ℕ × F)}

theorem lt_fresh (h : WindowOk d ns) {n : ℕ × F} (hn : n ∈ ns) :
    n.1 < d.nodes.fresh := by
  obtain ⟨next, hcell⟩ := h.chain.cell_of_mem hn
  exact h.bounded.lt_fresh hcell

/-- An error at the end, behind the head the source takes. -/
theorem linkError (h : WindowOk d ns) (val : F) :
    ∃ nodes, linkError val d = .ok nodes ∧ nodes.Bounded ∧
      Chain nodes (if d.sizeCount = 0 then some d.nodes.fresh else d.listHead)
        (ns ++ [(d.nodes.fresh, val)]) none := by
  rcases List.eq_nil_or_concat' ns with rfl | ⟨ms, ⟨t, y⟩, rfl⟩
  · have hsize : d.sizeCount = 0 := h.size
    refine ⟨d.nodes.alloc ⟨val, none⟩, ?_, h.bounded.alloc _, ?_⟩
    · simp [MultiversionBalancer.linkError, hsize]
    · rw [if_pos hsize]
      exact ⟨rfl, none, Heap.alloc_cell_fresh _ _, rfl⟩
  · have hsize : d.sizeCount ≠ 0 := by
      rw [h.size, List.length_append, List.length_singleton]
      omega
    have htail : d.listTail = some t := h.tail (t, y) (by simp)
    obtain ⟨next, hcell⟩ := (h.chain.alloc h.bounded
      { val := val, next := none }).cell_of_mem (n := (t, y)) (by simp)
    refine ⟨(d.nodes.alloc ⟨val, none⟩).store t ⟨y, some d.nodes.fresh⟩, ?_,
      (h.bounded.alloc _).store hcell _, ?_⟩
    · simp [MultiversionBalancer.linkError, hsize, htail, hcell]
    · rw [if_neg hsize]
      exact h.chain.link_last h.bounded h.nodup

variable [CFloat F]

/-- A further error can be recorded: at the end of the list, in place of the first one
when there are 200 of them. -/
theorem pushError_spec (h : WindowOk d ns) (val : F) :
    ∃ d' ms, pushError val d = .ok d' ∧ WindowOk d' ms ∧
      ((∃ n rest, 200 ≤ ns.length ∧ ns = n :: rest ∧
          ms = rest ++ [(d.nodes.fresh, val)] ∧
          d'.squaredErrorSum = CFloat.narrow
            (CFloat.narrow (d.squaredErrorSum + val) - n.2)) ∨
        (ns.length < 200 ∧
          ms = ns ++ [(d.nodes.fresh, if d.sizeCount = 0 then CFloat.ofInt 0 else val)] ∧
          d'.squaredErrorSum = CFloat.narrow (d.squaredErrorSum +
            if d.sizeCount = 0 then CFloat.ofInt 0 else val))) := by
  obtain ⟨nodes, hlink, hbounded, hchain⟩ :=
    h.linkError (if d.sizeCount = 0 then CFloat.ofInt 0 else val)
  have hnodup : ((ns ++ [(d.nodes.fresh,
      if d.sizeCount = 0 then CFloat.ofInt 0 else val)]).map Prod.fst).Nodup := by
    rw [List.map_append, List.map_singleton, List.nodup_append]
    refine ⟨h.nodup, List.nodup_singleton _, ?_⟩
    rintro b hb c hc rfl
    obtain ⟨n, hn, rfl⟩ := List.mem_map.mp hb
    have hlt := h.lt_fresh hn
    rw [List.mem_singleton.mp hc] at hlt
    exact absurd hlt (lt_irrefl _)
  unfold MultiversionBalancer.pushError
  simp only [hlink]
  by_cases hfull : d.sizeCount ≥ 200
  · -- the first error makes room
    have hsize : d.sizeCount ≠ 0 := by omega
    cases ns with
    | nil =>
        have hzero : d.sizeCount = 0 := h.size
        exact absurd hzero hsize
    | cons n ns =>
        simp only [if_neg hsize] at hchain hnodup ⊢
        obtain ⟨hhead, next, hcell, hrest⟩ := hchain
        rw [List.cons_append, List.map_cons, List.nodup_cons] at hnodup
        refine ⟨{ d with
            nodes := nodes.free n.1
            listHead := next
            listTail := some d.nodes.fresh
            squaredErrorSum := CFloat.narrow
              (CFloat.narrow (d.squaredErrorSum + val) - n.2) },
          ns ++ [(d.nodes.fresh, val)], ?_, ?_, ?_⟩
        · simp only [bind, Except.bind, if_pos hfull, hhead, hcell]
          rfl
        · exact
            { chain := hrest.free hnodup.1
              bounded := hbounded.free n.1
              nodup := hnodup.2
              tail := by simp
              size := by
                have hlen := h.size
                simp only [List.length_cons, List.length_append,
                  List.length_nil] at hlen ⊢
                omega }
        · exact .inl ⟨n, ns, by have hlen := h.size; omega, rfl, rfl, rfl⟩
  · refine ⟨{ d with
        nodes := nodes
        listHead := if d.sizeCount = 0 then some d.nodes.fresh else d.listHead
        listTail := some d.nodes.fresh
        squaredErrorSum := CFloat.narrow (d.squaredErrorSum +
          if d.sizeCount = 0 then CFloat.ofInt 0 else val)
        sizeCount := d.sizeCount + 1 },
      ns ++ [(d.nodes.fresh,
        if d.sizeCount = 0 then CFloat.ofInt 0 else val)], ?_, ?_, ?_⟩
    · simp only [bind, Except.bind, if_neg hfull]
      rfl
    · exact
        { chain := hchain
          bounded := hbounded
          nodup := hnodup
          tail := by simp
          size := by
            rw [List.length_append, List.length_singleton, Nat.cast_add,
              ← h.size]
            rfl }
    · exact .inr ⟨by have hlen := h.size; omega, rfl, rfl⟩

theorem pushError (h : WindowOk d ns) (val : F) :
    ∃ d' ms, pushError val d = .ok d' ∧ WindowOk d' ms := by
  obtain ⟨d', ms, hpush, hok, -⟩ := h.pushError_spec val
  exact ⟨d', ms, hpush, hok⟩

end WindowOk

end MultiversionBalancer
