import Mathlib.Data.List.Basic
import Mathlib.Logic.Function.Basic

/-!
# Heaps of singly linked cells

A heap maps addresses to cells; a cell holds a value and the address of the
next cell.  Addresses are handed out in increasing order and are never reused,
so a dangling address can never be confused with a live one.

`Chain h p ns q` says that following the links from `p` visits exactly the
cells `ns`, in this order, and stops at `q`.  The lemmas below say how a chain
changes when a cell is allocated, released, overwritten or relinked; programs
that work on linked lists are verified through them and never look at the
underlying address map.
-/

namespace MultiversionBalancer.Lib

/-- A list cell: a value and the address of the next cell. -/
structure Cell (α : Type*) where
  val : α
  next : Option ℕ
  deriving DecidableEq

/-- A heap of cells.  `fresh` is the next address to be handed out. -/
structure Heap (α : Type*) where
  cell : ℕ → Option (Cell α)
  fresh : ℕ

namespace Heap

variable {α : Type*}

/-- The heap in which nothing is allocated. -/
def empty : Heap α where
  cell := fun _ => none
  fresh := 0

/-- Allocate a cell at the address `h.fresh`. -/
def alloc (h : Heap α) (c : Cell α) : Heap α where
  cell := Function.update h.cell h.fresh (some c)
  fresh := h.fresh + 1

/-- Release the cell at `a`. -/
def free (h : Heap α) (a : ℕ) : Heap α :=
  { h with cell := Function.update h.cell a none }

/-- Overwrite the cell at `a`. -/
def store (h : Heap α) (a : ℕ) (c : Cell α) : Heap α :=
  { h with cell := Function.update h.cell a (some c) }

/-- Nothing is allocated at or above `fresh`. -/
def Bounded (h : Heap α) : Prop :=
  ∀ a, h.fresh ≤ a → h.cell a = none

@[simp] theorem alloc_cell_fresh (h : Heap α) (c : Cell α) :
    (h.alloc c).cell h.fresh = some c := by
  simp [alloc]

theorem alloc_cell_of_ne
    {h : Heap α} {a : ℕ} (c : Cell α) (ha : a ≠ h.fresh) :
    (h.alloc c).cell a = h.cell a := by
  simp [alloc, ha]

theorem free_cell_of_ne {h : Heap α} {a b : ℕ} (hab : b ≠ a) :
    (h.free a).cell b = h.cell b := by
  simp [free, hab]

@[simp] theorem store_cell_self (h : Heap α) (a : ℕ) (c : Cell α) :
    (h.store a c).cell a = some c := by
  simp [store]

theorem store_cell_of_ne {h : Heap α} {a b : ℕ} (c : Cell α) (hab : b ≠ a) :
    (h.store a c).cell b = h.cell b := by
  simp [store, hab]

theorem bounded_empty : (empty : Heap α).Bounded := by
  intro a _
  rfl

theorem Bounded.lt_fresh
    {h : Heap α} (hb : h.Bounded) {a : ℕ} {c : Cell α}
    (hc : h.cell a = some c) : a < h.fresh := by
  by_contra hge
  rw [hb a (Nat.le_of_not_lt hge)] at hc
  cases hc

theorem Bounded.alloc {h : Heap α} (hb : h.Bounded) (c : Cell α) :
    (h.alloc c).Bounded := by
  intro a ha
  have hlt : h.fresh < a := Nat.lt_of_succ_le ha
  rw [alloc_cell_of_ne c (Nat.ne_of_gt hlt)]
  exact hb a (Nat.le_of_lt hlt)

theorem Bounded.free {h : Heap α} (hb : h.Bounded) (a : ℕ) :
    (h.free a).Bounded := by
  intro b hfresh
  by_cases hba : b = a
  · subst b
    simp [Heap.free]
  · rw [free_cell_of_ne hba]
    exact hb b hfresh

theorem Bounded.store
    {h : Heap α} (hb : h.Bounded) {a : ℕ} {c₀ : Cell α}
    (hc : h.cell a = some c₀) (c : Cell α) :
    (h.store a c).Bounded := by
  intro b hfresh
  have hba : b ≠ a := by
    rintro rfl
    exact absurd (hb.lt_fresh hc) (Nat.not_lt.mpr hfresh)
  rw [store_cell_of_ne c hba]
  exact hb b hfresh

end Heap

/-- Following the links of `h` from `p` visits the cells `ns` and stops at
`q`. -/
def Chain {α : Type*} (h : Heap α) :
    Option ℕ → List (ℕ × α) → Option ℕ → Prop
  | p, [], q => p = q
  | p, n :: ns, q =>
      p = some n.1 ∧
        ∃ next, h.cell n.1 = some ⟨n.2, next⟩ ∧ Chain h next ns q

namespace Chain

variable {α : Type*} {h h' : Heap α} {p q : Option ℕ}

@[simp] theorem nil_iff : Chain h p [] q ↔ p = q := Iff.rfl

theorem cons_iff {n : ℕ × α} {ns : List (ℕ × α)} :
    Chain h p (n :: ns) q ↔
      p = some n.1 ∧
        ∃ next, h.cell n.1 = some ⟨n.2, next⟩ ∧ Chain h next ns q :=
  Iff.rfl

/-- A chain can be cut at any point. -/
theorem append_iff {ns ms : List (ℕ × α)} :
    Chain h p (ns ++ ms) q ↔
      ∃ m, Chain h p ns m ∧ Chain h m ms q := by
  induction ns generalizing p with
  | nil => simp
  | cons n ns ih =>
      simp only [List.cons_append, cons_iff, ih]
      constructor
      · rintro ⟨hp, next, hc, m, hns, hms⟩
        exact ⟨m, ⟨hp, next, hc, hns⟩, hms⟩
      · rintro ⟨m, ⟨hp, next, hc, hns⟩, hms⟩
        exact ⟨hp, next, hc, m, hns, hms⟩

/-- A chain only depends on the cells it visits. -/
theorem frame {ns : List (ℕ × α)} (hc : Chain h p ns q)
    (hagree : ∀ n ∈ ns, h'.cell n.1 = h.cell n.1) :
    Chain h' p ns q := by
  induction ns generalizing p with
  | nil => exact hc
  | cons n ns ih =>
      obtain ⟨hp, next, hcell, hrest⟩ := hc
      refine ⟨hp, next, ?_, ih hrest ?_⟩
      · rw [hagree n (by simp), hcell]
      · intro m hm
        exact hagree m (by simp [hm])

theorem cell_of_mem {ns : List (ℕ × α)} (hc : Chain h p ns q)
    {n : ℕ × α} (hn : n ∈ ns) :
    ∃ next, h.cell n.1 = some ⟨n.2, next⟩ := by
  induction ns generalizing p with
  | nil => simp at hn
  | cons m ns ih =>
      obtain ⟨-, next, hcell, hrest⟩ := hc
      rcases List.mem_cons.mp hn with rfl | hmem
      · exact ⟨next, hcell⟩
      · exact ih hrest hmem

theorem alloc {ns : List (ℕ × α)} (hc : Chain h p ns q)
    (hb : h.Bounded) (c : Cell α) : Chain (h.alloc c) p ns q := by
  refine hc.frame fun n hn => ?_
  obtain ⟨next, hcell⟩ := hc.cell_of_mem hn
  exact Heap.alloc_cell_of_ne c (Nat.ne_of_lt (hb.lt_fresh hcell))

/-- Releasing a cell leaves chains that avoid it alone. -/
theorem free {ns : List (ℕ × α)} (hc : Chain h p ns q) {a : ℕ}
    (ha : a ∉ ns.map Prod.fst) : Chain (h.free a) p ns q := by
  refine hc.frame fun n hn => Heap.free_cell_of_ne ?_
  rintro rfl
  exact ha (List.mem_map_of_mem hn)

/-- Overwriting a cell leaves chains that avoid it alone. -/
theorem store {ns : List (ℕ × α)} (hc : Chain h p ns q) {a : ℕ}
    (c : Cell α) (ha : a ∉ ns.map Prod.fst) :
    Chain (h.store a c) p ns q := by
  refine hc.frame fun n hn => Heap.store_cell_of_ne c ?_
  rintro rfl
  exact ha (List.mem_map_of_mem hn)

/-- Relinking the last cell of a chain moves its end. -/
theorem relink {ns : List (ℕ × α)} {a : ℕ} {x : α} {q' : Option ℕ}
    (hc : Chain h p (ns ++ [(a, x)]) q)
    (hnodup : ((ns ++ [(a, x)]).map Prod.fst).Nodup) :
    Chain (h.store a ⟨x, q'⟩) p (ns ++ [(a, x)]) q' := by
  obtain ⟨m, hns, hlast⟩ := append_iff.mp hc
  obtain ⟨rfl, -⟩ := hlast
  have ha : a ∉ ns.map Prod.fst := by
    rw [List.map_append, List.nodup_append] at hnodup
    intro hmem
    exact hnodup.2.2 a hmem a (by simp) rfl
  exact append_iff.mpr
    ⟨some a, hns.store _ ha, rfl, q', Heap.store_cell_self _ _ _, rfl⟩

/-- Allocating a cell and linking it behind the last one lengthens a chain. -/
theorem link_last {ns : List (ℕ × α)} {a : ℕ} {x y : α}
    (hc : Chain h p (ns ++ [(a, x)]) q) (hb : h.Bounded)
    (hnodup : ((ns ++ [(a, x)]).map Prod.fst).Nodup) :
    Chain ((h.alloc ⟨y, none⟩).store a ⟨x, some h.fresh⟩) p
      ((ns ++ [(a, x)]) ++ [(h.fresh, y)]) none := by
  obtain ⟨next, hcell⟩ := hc.cell_of_mem (n := (a, x)) (by simp)
  have hne : h.fresh ≠ a := Nat.ne_of_gt (hb.lt_fresh hcell)
  refine append_iff.mpr ⟨some h.fresh, (hc.alloc hb _).relink hnodup, rfl,
    none, ?_, rfl⟩
  rw [Heap.store_cell_of_ne _ hne, Heap.alloc_cell_fresh]

/-- Overwriting the value of one visited cell changes that value only. -/
theorem store_val {ns ms : List (ℕ × α)} {a : ℕ} {x y : α}
    {next : Option ℕ}
    (hc : Chain h p (ns ++ (a, x) :: ms) q)
    (hcell : h.cell a = some ⟨x, next⟩)
    (hnodup : ((ns ++ (a, x) :: ms).map Prod.fst).Nodup) :
    Chain (h.store a ⟨y, next⟩) p (ns ++ (a, y) :: ms) q := by
  obtain ⟨m, hns, rfl, next', hcell', hms⟩ := append_iff.mp hc
  have hnext : next' = next := by
    have := hcell'.symm.trans hcell
    simpa using this
  subst hnext
  rw [List.map_append, List.map_cons, List.nodup_append,
    List.nodup_cons] at hnodup
  have hans : a ∉ ns.map Prod.fst := by
    intro hmem
    exact hnodup.2.2 a hmem a (by simp) rfl
  exact append_iff.mpr
    ⟨some a, hns.store _ hans, rfl, next', Heap.store_cell_self _ _ _,
      hms.store _ hnodup.2.1.1⟩

/-- Unlinking the cell after `c` and releasing it drops it from the chain. -/
theorem unlink {ns ms : List (ℕ × α)} {c a : ℕ} {y x : α}
    {next : Option ℕ}
    (hc : Chain h p (ns ++ (c, y) :: (a, x) :: ms) q)
    (hcell : h.cell a = some ⟨x, next⟩)
    (hnodup : ((ns ++ (c, y) :: (a, x) :: ms).map Prod.fst).Nodup) :
    Chain ((h.store c ⟨y, next⟩).free a) p (ns ++ (c, y) :: ms) q := by
  obtain ⟨m, hns, rfl, next', hcell', rfl, next'', hcell'', hms⟩ :=
    append_iff.mp hc
  have hnext : next'' = next := by
    have := hcell''.symm.trans hcell
    simpa using this
  subst hnext
  simp only [List.map_append, List.map_cons, List.nodup_append,
    List.nodup_cons, List.mem_cons, not_or] at hnodup
  obtain ⟨-, ⟨⟨hca, hcms⟩, ⟨hams, -⟩⟩, hdisj⟩ := hnodup
  have hcns : c ∉ ns.map Prod.fst := fun hmem => hdisj c hmem c (by simp) rfl
  have hans : a ∉ ns.map Prod.fst := fun hmem => hdisj a hmem a (by simp) rfl
  refine append_iff.mpr ⟨some c, (hns.store _ hcns).free hans, rfl, next'', ?_,
    (hms.store _ hcms).free hams⟩
  rw [Heap.free_cell_of_ne hca, Heap.store_cell_self]

/-- A chain without repetitions is not longer than the number of cells ever
allocated. -/
theorem length_le_fresh {ns : List (ℕ × α)} (hc : Chain h p ns q)
    (hb : h.Bounded) (hnodup : (ns.map Prod.fst).Nodup) :
    ns.length ≤ h.fresh := by
  have hsub : ns.map Prod.fst ⊆ List.range h.fresh := by
    intro a ha
    obtain ⟨n, hn, rfl⟩ := List.mem_map.mp ha
    obtain ⟨next, hcell⟩ := hc.cell_of_mem hn
    exact List.mem_range.mpr (hb.lt_fresh hcell)
  simpa using hnodup.length_le_of_subset hsub

end Chain

end MultiversionBalancer.Lib
