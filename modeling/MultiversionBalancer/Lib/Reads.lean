import Mathlib.Data.List.Basic

/-!
# Reads with bounds

A text that is read at places of it.  A read outside of the text is a failure, and so is
a loop that runs out of its turns; `Except.Returns` says that a computation has neither.
-/

namespace MultiversionBalancer.Lib

/-- How a computation on a text fails. -/
inductive ReadFailure where
  /-- A place outside of the text is read. -/
  | outside
  /-- A loop has used up its turns. -/
  | turns
  deriving DecidableEq

/-- The computation ends with a result that has the property. -/
def Except.Returns {ε α : Type} (Q : α → Prop) (x : Except ε α) : Prop :=
  ∃ a, x = .ok a ∧ Q a

theorem Except.Returns.pure {ε α : Type} {Q : α → Prop} {a : α} (h : Q a) :
    Except.Returns Q (.ok a : Except ε α) :=
  ⟨a, rfl, h⟩

theorem Except.Returns.bind {ε α β : Type} {P : α → Prop} {Q : β → Prop} {x : Except ε α}
    {f : α → Except ε β} (hx : Except.Returns P x)
    (hf : ∀ a, P a → Except.Returns Q (f a)) : Except.Returns Q (x >>= f) := by
  obtain ⟨a, rfl, ha⟩ := hx
  exact hf a ha

theorem Except.Returns.mono {ε α : Type} {P Q : α → Prop} {x : Except ε α}
    (hx : Except.Returns P x) (h : ∀ a, P a → Q a) : Except.Returns Q x := by
  obtain ⟨a, ha, hP⟩ := hx
  exact ⟨a, ha, h a hP⟩

theorem Except.Returns.ite {ε α : Type} {Q : α → Prop} {c : Prop} [Decidable c]
    {x y : Except ε α} (hx : c → Except.Returns Q x) (hy : ¬c → Except.Returns Q y) :
    Except.Returns Q (if c then x else y) := by
  by_cases h : c
  · rw [if_pos h]
    exact hx h
  · rw [if_neg h]
    exact hy h

variable {α : Type} {s : List α} {i n : ℕ}

/-- An element of a text. -/
def readAt (s : List α) (i : ℕ) : Except ReadFailure α :=
  match s[i]? with
  | none => .error .outside
  | some c => .ok c

/-- A part of a text. -/
def readRange (s : List α) (i : ℕ) : ℕ → Except ReadFailure (List α)
  | 0 => .ok []
  | n + 1 => do
      let c ← readAt s i
      let rest ← readRange s (i + 1) n
      .ok (c :: rest)

theorem readAt_of_lt (h : i < s.length) : readAt s i = .ok s[i] := by
  rw [readAt, List.getElem?_eq_getElem h]

theorem readAt_returns (h : i < s.length) : Except.Returns (fun _ => True) (readAt s i) :=
  ⟨_, readAt_of_lt h, trivial⟩

theorem readAt_append (l r : List α) (c : α) : readAt (l ++ c :: r) l.length = .ok c := by
  rw [readAt, List.getElem?_append_right (Nat.le_refl _), Nat.sub_self]
  rfl

theorem readRange_of_le (h : i + n ≤ s.length) :
    readRange s i n = .ok ((s.drop i).take n) := by
  induction n generalizing i with
  | zero => rfl
  | succ n ih =>
      have hlt : i < s.length := by omega
      have hrest : i + 1 + n ≤ s.length := by omega
      rw [readRange, readAt_of_lt hlt, ih hrest, List.drop_eq_getElem_cons hlt,
        List.take_succ_cons]
      rfl

theorem readRange_returns (h : i + n ≤ s.length) :
    Except.Returns (fun _ => True) (readRange s i n) :=
  ⟨_, readRange_of_le h, trivial⟩

theorem readRange_append (l part r : List α) :
    readRange (l ++ (part ++ r)) l.length part.length = .ok part := by
  have hle : l.length + part.length ≤ (l ++ (part ++ r)).length := by
    rw [List.length_append, List.length_append]
    omega
  rw [readRange_of_le hle, List.drop_left, List.take_left]

end MultiversionBalancer.Lib
