import Mathlib.Data.List.Basic

/-!
# Scanning machines

A machine reads its input element by element.  At each element it sees what it
has read so far and its state, and either goes on or stops with a result.
Input that arrives in pieces is read as if it had arrived at once: a machine
that has used up a piece goes on with the next one in the state it is in.
-/

namespace MultiversionBalancer.Lib

/-- What a machine does at one element. -/
inductive Verdict (σ ρ : Type*) where
  | more (s : σ)
  | stop (r : ρ)

/-- What holds of the next state, or of the result. -/
def Verdict.All {σ ρ : Type*} (P : σ → Prop) (Q : ρ → Prop) :
    Verdict σ ρ → Prop
  | .more s => P s
  | .stop r => Q r

theorem Verdict.all_ite {σ ρ : Type*} {P : σ → Prop} {Q : ρ → Prop} {c : Prop}
    [Decidable c] {v w : Verdict σ ρ} (hv : v.All P Q) (hw : w.All P Q) :
    (if c then v else w).All P Q := by
  by_cases hc : c
  · rwa [if_pos hc]
  · rwa [if_neg hc]

/-- How far a machine gets: it uses the input up, or it stops at the last
element of `seen` and leaves `rest`. -/
inductive Scanned (α σ ρ : Type*) where
  | again (s : σ)
  | stopped (seen : List α) (r : ρ) (rest : List α)

variable {α σ ρ : Type*}

/-- Run a machine on an input, after the elements it has already seen. -/
def scan (step : List α → α → σ → Verdict σ ρ) :
    List α → σ → List α → Scanned α σ ρ
  | _, s, [] => .again s
  | seen, s, x :: xs =>
      match step seen x s with
      | .more s' => scan step (seen ++ [x]) s' xs
      | .stop r => .stopped (seen ++ [x]) r xs

variable {step : List α → α → σ → Verdict σ ρ} {seen : List α} {s : σ}

@[simp] theorem scan_nil : scan step seen s [] = .again s := rfl

theorem scan_cons_more {x : α} {s' : σ} (xs : List α)
    (h : step seen x s = .more s') :
    scan step seen s (x :: xs) = scan step (seen ++ [x]) s' xs := by
  simp [scan, h]

theorem scan_cons_stop {x : α} {r : ρ} (xs : List α)
    (h : step seen x s = .stop r) :
    scan step seen s (x :: xs) = .stopped (seen ++ [x]) r xs := by
  simp [scan, h]

/-- A machine that uses up the first piece goes on with the second one. -/
theorem scan_append_again {xs : List α} {s' : σ} (ys : List α)
    (h : scan step seen s xs = .again s') :
    scan step seen s (xs ++ ys) = scan step (seen ++ xs) s' ys := by
  induction xs generalizing seen s with
  | nil =>
      cases h
      simp
  | cons x xs ih =>
      rw [List.cons_append]
      cases hx : step seen x s with
      | more s₁ =>
          rw [scan_cons_more _ hx] at h ⊢
          rw [ih h, List.append_assoc, List.singleton_append]
      | stop r =>
          rw [scan_cons_stop _ hx] at h
          cases h

/-- A machine that stops in the first piece does not look at the second one. -/
theorem scan_append_stopped {xs : List α} {seen' rest : List α} {r : ρ}
    (ys : List α) (h : scan step seen s xs = .stopped seen' r rest) :
    scan step seen s (xs ++ ys) = .stopped seen' r (rest ++ ys) := by
  induction xs generalizing seen s with
  | nil => cases h
  | cons x xs ih =>
      rw [List.cons_append]
      cases hx : step seen x s with
      | more s₁ =>
          rw [scan_cons_more _ hx] at h ⊢
          exact ih h
      | stop r' =>
          rw [scan_cons_stop _ hx] at h ⊢
          cases h
          rfl

theorem scan_stopped_split {xs : List α} {seen' rest : List α} {r : ρ}
    (h : scan step seen s xs = .stopped seen' r rest) :
    seen ++ xs = seen' ++ rest ∧ rest.length < xs.length := by
  induction xs generalizing seen s with
  | nil => cases h
  | cons x xs ih =>
      cases hx : step seen x s with
      | more s₁ =>
          rw [scan_cons_more _ hx] at h
          obtain ⟨hsplit, hlen⟩ := ih h
          rw [List.append_assoc, List.singleton_append] at hsplit
          exact ⟨hsplit, Nat.lt_succ_of_lt hlen⟩
      | stop r' =>
          rw [scan_cons_stop _ hx] at h
          cases h
          exact ⟨by simp, Nat.lt_succ_self _⟩

/-- What holds of the state at the start and is kept by every step holds when
the input is used up. -/
theorem scan_again_invariant {inv : List α → σ → Prop} {xs : List α} {s' : σ}
    (hinit : inv seen s)
    (hstep : ∀ seen x s s', inv seen s → step seen x s = .more s' →
      inv (seen ++ [x]) s')
    (h : scan step seen s xs = .again s') : inv (seen ++ xs) s' := by
  induction xs generalizing seen s with
  | nil =>
      cases h
      simpa using hinit
  | cons x xs ih =>
      cases hx : step seen x s with
      | more s₁ =>
          rw [scan_cons_more _ hx] at h
          have hrest := ih (hstep _ _ _ _ hinit hx) h
          rwa [List.append_assoc, List.singleton_append] at hrest
      | stop r =>
          rw [scan_cons_stop _ hx] at h
          cases h

/-- What holds at the start and is kept by every step holds before the element
a machine stops at. -/
theorem scan_stopped_invariant {inv : List α → σ → Prop} {xs : List α}
    {seen' rest : List α} {r : ρ} (hinit : inv seen s)
    (hstep : ∀ seen x s s', inv seen s → step seen x s = .more s' →
      inv (seen ++ [x]) s')
    (h : scan step seen s xs = .stopped seen' r rest) :
    ∃ before x s', inv before s' ∧ step before x s' = .stop r ∧
      seen' = before ++ [x] := by
  induction xs generalizing seen s with
  | nil => cases h
  | cons x xs ih =>
      cases hx : step seen x s with
      | more s₁ =>
          rw [scan_cons_more _ hx] at h
          exact ih (hstep _ _ _ _ hinit hx) h
      | stop r' =>
          rw [scan_cons_stop _ hx] at h
          cases h
          exact ⟨seen, x, s, hinit, hx, rfl⟩

/-- A machine goes from one state to another over a piece of input, whatever it
has seen and whatever follows. -/
def Passes (step : List α → α → σ → Verdict σ ρ) (s : σ) (xs : List α)
    (s' : σ) : Prop :=
  ∀ seen ys, scan step seen s (xs ++ ys) = scan step (seen ++ xs) s' ys

theorem Passes.refl (step : List α → α → σ → Verdict σ ρ) (s : σ) :
    Passes step s [] s := by
  intro seen ys
  simp

theorem Passes.single {x : α} {s' : σ} (h : ∀ seen, step seen x s = .more s') :
    Passes step s [x] s' := by
  intro seen ys
  exact scan_cons_more ys (h seen)

theorem Passes.trans {xs ys : List α} {s' s'' : σ} (h : Passes step s xs s')
    (h' : Passes step s' ys s'') : Passes step s (xs ++ ys) s'' := by
  intro seen zs
  rw [List.append_assoc, h, h', List.append_assoc]

theorem Passes.cons {x : α} {xs : List α} {s' s'' : σ}
    (h : ∀ seen, step seen x s = .more s') (h' : Passes step s' xs s'') :
    Passes step s (x :: xs) s'' :=
  (Passes.single h).trans h'

end MultiversionBalancer.Lib
