import Mathlib.Data.List.GetD
import Mathlib.Data.List.Induction
import Mathlib.Data.Nat.Notation

/-!
# Buffers of a fixed size

A buffer is a list whose length does not change.  Writing beyond its end is a
failure of its own.
-/

namespace MultiversionBalancer.Lib

variable {ε α : Type}

/-- A write of one element. -/
def store (bad : ε) (buf : List α) (i : ℕ) (a : α) : Except ε (List α) :=
  if i < buf.length then .ok (buf.set i a) else .error bad

/-- A write at the end of a part. -/
theorem store_append (bad : ε) (l rest : List α) (x a : α) :
    store bad (l ++ x :: rest) l.length a = .ok (l ++ a :: rest) := by
  have hlt : l.length < (l ++ x :: rest).length := by
    rw [List.length_append, List.length_cons]
    omega
  rw [store, if_pos hlt, List.set_append_right _ _ (Nat.le_refl _), Nat.sub_self,
    List.set_cons_zero]

/-- The same element in consecutive places, from the first to the last one. -/
def fill (bad : ε) (a : α) : ℕ → List α → ℕ → Except ε (List α)
  | _, buf, 0 => .ok buf
  | i, buf, k + 1 => do
      let buf ← store bad buf i a
      fill bad a (i + 1) buf k

theorem fill_append (bad : ε) (a : α) (l junk rest : List α) :
    fill bad a l.length (l ++ junk ++ rest) junk.length =
      .ok (l ++ List.replicate junk.length a ++ rest) := by
  induction junk generalizing l with
  | nil => rfl
  | cons x junk ih =>
      have ih := ih (l ++ [a])
      rw [List.length_append, List.length_singleton] at ih
      rw [List.length_cons, fill, List.append_assoc, List.cons_append, store_append]
      simp only [bind, Except.bind]
      rw [List.append_cons, ← List.append_assoc, ih, List.replicate_succ]
      simp only [List.append_assoc, List.cons_append, List.nil_append]

/-- A part of `k` elements from `start` on is moved up by `gap` places, its last
element first. -/
def moveUp [Inhabited α] (bad : ε) (start gap : ℕ) (buf : List α) : ℕ → Except ε (List α)
  | 0 => .ok buf
  | k + 1 => do
      let buf ← store bad buf (start + k + gap) (buf.getD (start + k) default)
      moveUp bad start gap buf k

/-- The elements of the part are read before they are overwritten. -/
theorem moveUp_append [Inhabited α] (bad : ε) (l part gap rest : List α) :
    ∃ junk, junk.length = gap.length ∧
      moveUp bad l.length gap.length (l ++ part ++ gap ++ rest) part.length =
        .ok (l ++ junk ++ part ++ rest) := by
  induction part using List.reverseRecOn generalizing gap rest with
  | nil =>
      refine ⟨gap, rfl, ?_⟩
      rw [List.length_nil, moveUp, List.append_nil, List.append_nil]
  | append_singleton part b ih =>
      obtain ⟨gap', x, hgap⟩ : ∃ gap' x, b :: gap = gap' ++ [x] :=
        ⟨_, _, (List.dropLast_concat_getLast (List.cons_ne_nil b gap)).symm⟩
      have hlength : gap'.length = gap.length := by
        have := congrArg List.length hgap
        rw [List.length_cons, List.length_append, List.length_singleton] at this
        omega
      obtain ⟨junk, hjunk, hmove⟩ := ih gap' (b :: rest)
      rw [hlength] at hjunk hmove
      refine ⟨junk, hjunk, ?_⟩
      have hbuf : l ++ (part ++ [b]) ++ gap ++ rest = l ++ part ++ b :: gap ++ rest := by
        simp only [List.append_assoc, List.cons_append, List.nil_append]
      have hread : (l ++ part ++ b :: gap ++ rest).getD (l.length + part.length) default =
          b := by
        rw [List.append_assoc (l ++ part), ← List.length_append,
          List.getD_append_right _ _ _ _ (Nat.le_refl _), Nat.sub_self]
        rfl
      have hplace : l.length + part.length + gap.length = (l ++ part ++ gap').length := by
        rw [List.length_append, List.length_append, hlength]
      have hend : l ++ part ++ (gap' ++ [x]) ++ rest = (l ++ part ++ gap') ++ x :: rest := by
        simp only [List.append_assoc, List.singleton_append]
      rw [List.length_append, List.length_singleton, moveUp, hbuf, hread, hplace, hgap, hend,
        store_append]
      simp only [bind, Except.bind]
      rw [hmove]
      simp only [List.append_assoc, List.singleton_append]

/-- A gap is opened before a part at the end of what is written, and filled. -/
def openGap [Inhabited α] (bad : ε) (a : α) (start stop gap : ℕ) (buf : List α) :
    Except ε (List α) := do
  let buf ← moveUp bad start gap buf (stop - start)
  fill bad a start buf gap

theorem openGap_append [Inhabited α] (bad : ε) (a : α) (l part gap rest : List α) :
    openGap bad a l.length (l.length + part.length) gap.length (l ++ part ++ gap ++ rest) =
      .ok (l ++ List.replicate gap.length a ++ part ++ rest) := by
  obtain ⟨junk, hjunk, hmove⟩ := moveUp_append bad l part gap rest
  rw [openGap, Nat.add_sub_cancel_left, hmove]
  simp only [bind, Except.bind]
  rw [← hjunk, List.append_assoc, fill_append, ← List.append_assoc]

end MultiversionBalancer.Lib
