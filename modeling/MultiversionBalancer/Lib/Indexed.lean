import Mathlib.Algebra.BigOperators.Group.List.Basic
import Mathlib.Data.List.Nodup
import Mathlib.Data.Int.Basic
import Mathlib.Algebra.Ring.Int.Defs

/-!
# Replacing an element of a list

Processes of a system are kept in a list and replaced at their position.  A
sum over all of them changes by the difference of the replaced one.
-/

namespace MultiversionBalancer.Lib

variable {α : Type*} {l : List α} {i : ℕ} {x : α}

theorem getElem?_set_of_some (y : α) (h : l[i]? = some x) :
    (l.set i y)[i]? = some y := by
  obtain ⟨hlt, -⟩ := List.getElem?_eq_some_iff.mp h
  rw [List.getElem?_set_self hlt]

/-- An element after a replacement is the new one, at its position, or an old
one. -/
theorem getElem?_set_cases {y z : α} {j : ℕ} (h : (l.set i y)[j]? = some z) :
    j = i ∧ z = y ∨ j ≠ i ∧ l[j]? = some z := by
  by_cases hij : i = j
  · subst hij
    obtain ⟨hlt, -⟩ := List.getElem?_eq_some_iff.mp h
    rw [List.length_set] at hlt
    rw [List.getElem?_set_self hlt] at h
    exact .inl ⟨rfl, (Option.some.inj h).symm⟩
  · rw [List.getElem?_set_ne hij] at h
    exact .inr ⟨Ne.symm hij, h⟩

theorem getElem?_concat_cases {y z : α} {j : ℕ}
    (h : (l ++ [y])[j]? = some z) : l[j]? = some z ∨ z = y := by
  by_cases hlt : j < l.length
  · rw [List.getElem?_append_left hlt] at h
    exact .inl h
  · rw [List.getElem?_append_right (Nat.le_of_not_lt hlt)] at h
    exact .inr (List.mem_singleton.mp (List.mem_of_getElem? h))

/-- What holds of the new element and of all old ones holds after the
replacement. -/
theorem forall_mem_set {p : α → Prop} {y : α} (hl : ∀ z ∈ l, p z) (hy : p y) :
    ∀ z ∈ l.set i y, p z := by
  intro z hz
  rcases List.mem_or_eq_of_mem_set hz with hz | rfl
  · exact hl z hz
  · exact hy

theorem sum_map_set (f : α → ℤ) (y : α) (h : l[i]? = some x) :
    ((l.set i y).map f).sum = (l.map f).sum - f x + f y := by
  obtain ⟨hlt, hx⟩ := List.getElem?_eq_some_iff.mp h
  rw [List.map_set, List.sum_set', dif_pos (by rwa [List.length_map]),
    List.getElem_map, hx]
  omega

theorem sum_map_eq_countP_add {f g : α → ℤ} {p : α → Bool}
    (h : ∀ x ∈ l, f x = (if p x then 1 else 0) + g x) :
    (l.map f).sum = l.countP p + (l.map g).sum := by
  induction l with
  | nil => simp
  | cons x l ih =>
      have hx := h x (by simp)
      have hl := ih fun y hy => h y (List.mem_cons_of_mem x hy)
      rw [List.map_cons, List.map_cons, List.sum_cons, List.sum_cons, hx, hl,
        List.countP_cons]
      push_cast
      split
      · omega
      · omega

/-- Summing a table by rows or by columns. -/
theorem sum_map_sum_comm {β : Type*} (l : List α) (m : List β)
    (f : α → β → ℤ) :
    (l.map fun a => (m.map fun b => f a b).sum).sum =
      (m.map fun b => (l.map fun a => f a b).sum).sum := by
  induction l with
  | nil => simp
  | cons a l ih =>
      simp only [List.map_cons, List.sum_cons, List.sum_map_add]
      rw [ih]

/-- The length of a list of pairs with a fixed first component, counted by the
second one. -/
theorem length_eq_sum_count [DecidableEq α] {a : α} {l : List (α × ℕ)} {n : ℕ}
    (h : ∀ x ∈ l, x.1 = a ∧ x.2 < n) :
    (l.length : ℤ) =
      ((List.range n).map fun i => (l.count (a, i) : ℤ)).sum := by
  induction l with
  | nil => simp
  | cons x l ih =>
      obtain ⟨rfl, hlt⟩ := h x (by simp)
      have hone : (List.range n).countP (· == x.2) = 1 :=
        List.count_eq_one_of_mem List.nodup_range (List.mem_range.mpr hlt)
      have hcons := sum_map_eq_countP_add (l := List.range n)
        (f := fun i => ((x :: l).count (x.1, i) : ℤ))
        (g := fun i => (l.count (x.1, i) : ℤ)) (p := (· == x.2)) ?_
      · rw [hcons, hone, ← ih fun y hy => h y (List.mem_cons_of_mem x hy)]
        simp
        omega
      · intro i _
        rw [List.count_cons]
        by_cases hi : i = x.2
        · subst hi
          simp
          omega
        · have hne : x ≠ (x.1, i) := fun heq => hi (congrArg Prod.snd heq).symm
          simp [hi, hne]

end MultiversionBalancer.Lib
