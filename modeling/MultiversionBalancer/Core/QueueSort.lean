import Mathlib.Data.List.Sort

/-!
# Sorted queues

The functions of `ngx_queue.c` on a queue of any elements.
-/

namespace MultiversionBalancer.Core

variable {α : Type}

/-- The steps of `ngx_queue_middle`: how many elements come after `next`, and where `middle` is. -/
def middleLoop : ℕ → ℕ → ℕ
  | 0, middle => middle
  | 1, middle => middle + 1
  | 2, middle => middle + 1
  | left + 3, middle => middleLoop (left + 1) (middle + 1)

/-- `ngx_queue_middle`: the place of the middle element of a queue that is not empty. -/
def ngxQueueMiddle (queue : List α) : ℕ :=
  middleLoop (queue.length - 1) 0

theorem middleLoop_eq (left middle : ℕ) : middleLoop left middle = middle + (left + 1) / 2 := by
  induction left, middle using middleLoop.induct with
  | case1 | case2 | case3 => simp [middleLoop]
  | case4 left middle ih =>
      rw [middleLoop, ih]
      omega

theorem ngxQueueMiddle_eq (queue : List α) : ngxQueueMiddle queue = queue.length / 2 := by
  rw [ngxQueueMiddle, middleLoop_eq]
  cases queue with
  | nil => simp
  | cons => simp

/-- An element is put back after the last one before it that it does not have to precede; `sorted`
is what stands before it, from the end. -/
def sortInsert (cmp : α → α → ℤ) (q : α) : List α → List α
  | [] => [q]
  | prev :: sorted =>
    if cmp prev q ≤ 0 then q :: prev :: sorted else prev :: sortInsert cmp q sorted

def ngxQueueSort (cmp : α → α → ℤ) (queue : List α) : List α :=
  (queue.foldl (fun sorted q => sortInsert cmp q sorted) []).reverse

section Sorts

variable (cmp : α → α → ℤ)

theorem sortInsert_eq (q : α) (sorted : List α) :
    sortInsert cmp q sorted = sorted.orderedInsert (fun q prev => cmp prev q ≤ 0) q := by
  induction sorted with
  | nil => rfl
  | cons prev sorted ih => rw [sortInsert, List.orderedInsert, ih]

theorem ngxQueueSort_eq (queue : List α) : ngxQueueSort cmp queue =
    (queue.reverse.insertionSort fun q prev => cmp prev q ≤ 0).reverse := by
  rw [ngxQueueSort, List.insertionSort, List.foldr_reverse]
  simp only [sortInsert_eq]

theorem ngxQueueSort_perm (queue : List α) : (ngxQueueSort cmp queue).Perm queue := by
  rw [ngxQueueSort_eq]
  exact (List.reverse_perm _).trans ((List.perm_insertionSort _ _).trans (List.reverse_perm _))

theorem mem_ngxQueueSort {queue : List α} {q : α} : q ∈ ngxQueueSort cmp queue ↔ q ∈ queue :=
  (ngxQueueSort_perm cmp queue).mem_iff

theorem ngxQueueSort_sorted {queue : List α}
    (htotal : ∀ a ∈ queue, ∀ b ∈ queue, cmp a b ≤ 0 ∨ cmp b a ≤ 0)
    (htrans : ∀ a ∈ queue, ∀ b ∈ queue, ∀ c ∈ queue,
      cmp a b ≤ 0 → cmp b c ≤ 0 → cmp a c ≤ 0) :
    (ngxQueueSort cmp queue).Pairwise fun a b => cmp a b ≤ 0 := by
  -- The elements of the queue as a type of their own, on which the comparison is an order.
  let le (q prev : {q // q ∈ queue}) : Prop := cmp prev.val q.val ≤ 0
  have : Std.Total le := ⟨fun a b => htotal b.val b.property a.val a.property⟩
  have : IsTrans _ le := ⟨fun a b c hab hbc =>
    htrans c.val c.property b.val b.property a.val a.property hbc hab⟩
  have hmap := List.map_insertionSort le (fun q prev => cmp prev q ≤ 0) Subtype.val
    queue.attach.reverse fun _ _ _ _ => Iff.rfl
  rw [List.map_reverse, List.attach_map_subtype_val] at hmap
  rw [ngxQueueSort_eq, List.pairwise_reverse, ← hmap, List.pairwise_map]
  exact List.pairwise_insertionSort le _

/-- Elements that are in order already stay in this order. -/
theorem sublist_ngxQueueSort {queue l : List α} (h : l.Pairwise fun a b => cmp a b ≤ 0)
    (hl : l.Sublist queue) : l.Sublist (ngxQueueSort cmp queue) := by
  rw [ngxQueueSort_eq, ← List.reverse_sublist, List.reverse_reverse]
  exact List.sublist_insertionSort (List.pairwise_reverse.mpr h) hl.reverse

end Sorts

end MultiversionBalancer.Core
