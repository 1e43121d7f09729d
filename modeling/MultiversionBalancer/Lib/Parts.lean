import Mathlib.Algebra.Ring.Nat
import Mathlib.Data.List.Basic

/-!
# Parts of a text

The parts of a list between separators, each with the place where it starts, and
the first place that a search finds.
-/

namespace MultiversionBalancer.Lib

/-- The first place from `i` on with the property, if there is one. -/
def FirstFrom (P : ℕ → Prop) (i : ℕ) : Option ℕ → Prop
  | none => ∀ j, i ≤ j → ¬ P j
  | some p => i ≤ p ∧ P p ∧ ∀ j, i ≤ j → j < p → ¬ P j

theorem FirstFrom.here {P : ℕ → Prop} {i : ℕ} (h : P i) : FirstFrom P i (some i) :=
  ⟨Nat.le_refl i, h, fun _ hj hlt => absurd hlt (Nat.not_lt.mpr hj)⟩

theorem FirstFrom.skip_to {P : ℕ → Prop} {i k : ℕ} {r : Option ℕ} (hik : i ≤ k)
    (hnot : ∀ j, i ≤ j → j < k → ¬ P j) (h : FirstFrom P k r) : FirstFrom P i r := by
  have hrest {j : ℕ} (hj : i ≤ j) (hafter : k ≤ j → ¬ P j) : ¬ P j := by
    rcases Nat.lt_or_ge j k with hlt | hge
    · exact hnot j hj hlt
    · exact hafter hge
  cases r with
  | none => exact fun j hj => hrest hj (h j)
  | some p =>
      obtain ⟨hp, hhere, hbefore⟩ := h
      exact ⟨Nat.le_trans hik hp, hhere, fun j hj hlt => hrest hj fun hj' =>
        hbefore j hj' hlt⟩

theorem FirstFrom.skip {P : ℕ → Prop} {i : ℕ} {r : Option ℕ} (hi : ¬ P i)
    (h : FirstFrom P (i + 1) r) : FirstFrom P i r :=
  h.skip_to (Nat.le_succ i) fun _ hj hlt => by
    rwa [← Nat.le_antisymm hj (Nat.le_of_lt_succ hlt)]

variable {α : Type*} {c : α} {l part : List α} {i : ℕ}

/-- The text is free of `c`, or has a first one. -/
theorem notMem_or_split (c : α) (l : List α) :
    c ∉ l ∨ ∃ a r, c ∉ a ∧ l = a ++ c :: r := by
  by_cases hmem : c ∈ l
  · obtain ⟨a, r, hl, ha⟩ := List.eq_append_cons_of_mem hmem
    exact .inr ⟨a, r, ha, hl⟩
  · exact .inl hmem

/-- The text up to the first `c`. -/
theorem exists_notMem_append (c : α) (l : List α) :
    ∃ a r, l = a ++ r ∧ c ∉ a ∧ (r = [] ∨ ∃ t, r = c :: t) := by
  rcases notMem_or_split c l with hc | ⟨a, r, ha, rfl⟩
  · exact ⟨l, [], (List.append_nil l).symm, hc, .inl rfl⟩
  · exact ⟨a, c :: r, rfl, ha, .inr ⟨r, rfl⟩⟩

/-- `part` starts at `i`, is free of `c`, and has a `c` or an end of the text on both
sides. -/
def PartAt (c : α) (l : List α) (i : ℕ) (part : List α) : Prop :=
  ∃ a r, l = a ++ (part ++ r) ∧ a.length = i ∧ c ∉ part ∧
    (a = [] ∨ ∃ b, a = b ++ [c]) ∧ (r = [] ∨ ∃ t, r = c :: t)

def partStart (before : List (List α)) : ℕ :=
  (before.map fun part => part.length + 1).sum

theorem partStart_append (before after : List (List α)) :
    partStart (before ++ after) = partStart before + partStart after := by
  rw [partStart, List.map_append, List.sum_append, partStart, partStart]

theorem partStart_cons (part : List α) (before : List (List α)) :
    partStart (part :: before) = part.length + 1 + partStart before :=
  List.sum_cons

variable [BEq α] [LawfulBEq α]

theorem partStart_splitOn (c : α) (l : List α) : partStart (l.splitOn c) = l.length + 1 := by
  induction hn : l.length using Nat.strongRecOn generalizing l with
  | ind n ih =>
      rcases notMem_or_split c l with hc | ⟨a, r, ha, rfl⟩
      · rw [List.splitOn_eq_singleton hc, partStart_cons, hn]
        rfl
      · have hlen : r.length < n := by
          rw [← hn, List.length_append, List.length_cons]
          omega
        rw [List.splitOn_append_cons_self_of_not_mem ha, partStart_cons, ih _ hlen r rfl, ← hn,
          List.length_append, List.length_cons]
        omega

theorem partAt_of_splitOn {before after : List (List α)}
    (h : l.splitOn c = before ++ part :: after) : PartAt c l (partStart before) part := by
  induction before generalizing l with
  | nil =>
      rcases notMem_or_split c l with hc | ⟨a, r, ha, rfl⟩
      · rw [List.splitOn_eq_singleton hc] at h
        obtain ⟨rfl, -⟩ := List.cons.inj h
        exact ⟨[], [], by rw [List.append_nil, List.nil_append], rfl, hc, .inl rfl, .inl rfl⟩
      · rw [List.splitOn_append_cons_self_of_not_mem ha] at h
        obtain ⟨rfl, -⟩ := List.cons.inj h
        exact ⟨[], c :: r, rfl, rfl, ha, .inl rfl, .inr ⟨r, rfl⟩⟩
  | cons first before ih =>
      rcases notMem_or_split c l with hc | ⟨a, r, ha, rfl⟩
      · rw [List.splitOn_eq_singleton hc] at h
        have hlen := congrArg List.length h
        rw [List.length_append, List.length_cons, List.length_cons, List.length_cons,
          List.length_nil] at hlen
        omega
      · rw [List.splitOn_append_cons_self_of_not_mem ha] at h
        obtain ⟨rfl, hrest⟩ := List.cons.inj h
        obtain ⟨b, t, rfl, hb, hpart, hbefore, hafter⟩ := ih hrest
        refine ⟨a ++ c :: b, t, ?_, ?_, hpart, .inr ?_, hafter⟩
        · rw [List.append_assoc, List.cons_append]
        · rw [List.length_append, List.length_cons, partStart_cons, hb]
          omega
        · rcases hbefore with rfl | ⟨b', rfl⟩
          · exact ⟨a, rfl⟩
          · exact ⟨a ++ c :: b', by rw [List.append_assoc, List.cons_append]⟩

theorem PartAt.splitOn (h : PartAt c l i part) :
    ∃ before after, l.splitOn c = before ++ part :: after ∧ partStart before = i := by
  obtain ⟨a, r, rfl, rfl, hpart, hbefore, hafter⟩ := h
  have hsplit : ∃ after, (part ++ r).splitOn c = part :: after := by
    rcases hafter with rfl | ⟨t, rfl⟩
    · rw [List.append_nil]
      exact ⟨[], List.splitOn_eq_singleton hpart⟩
    · exact ⟨t.splitOn c, List.splitOn_append_cons_self_of_not_mem hpart t⟩
  obtain ⟨after, hsplit⟩ := hsplit
  rcases hbefore with rfl | ⟨b, rfl⟩
  · exact ⟨[], after, hsplit, rfl⟩
  · refine ⟨b.splitOn c, after, ?_, ?_⟩
    · rw [List.append_assoc, List.singleton_append, List.splitOn_append_cons_self, hsplit]
    · rw [partStart_splitOn, List.length_append, List.length_singleton]

end MultiversionBalancer.Lib
