import Mathlib.Data.List.Basic

/-!
# Fallible steps and runs

`Except.bind_eq_ok` takes a successful fallible computation apart.

`Reach init ok step` is the set of states reached from an initial state by
steps that all meet the guard `ok`; an invariant of the initial states that
every guarded step keeps holds throughout.
-/

namespace MultiversionBalancer.Lib

theorem Except.bind_eq_ok {ε α β : Type} {x : Except ε α}
    {f : α → Except ε β} {b : β} :
    (x >>= f) = .ok b ↔ ∃ a, x = .ok a ∧ f a = .ok b := by
  cases x with
  | error e => simp [bind, Except.bind]
  | ok a => simp [bind, Except.bind]

theorem Except.map_eq_ok {ε α β : Type} {x : Except ε α} {f : α → β}
    {b : β} : x.map f = .ok b ↔ ∃ a, x = .ok a ∧ f a = b := by
  cases x with
  | error e => simp [Except.map]
  | ok a => simp [Except.map]

theorem Except.forM_eq_ok {ε α : Type} {f : α → Except ε Unit} {l : List α} :
    l.forM f = .ok () ↔ ∀ a ∈ l, f a = .ok () := by
  induction l with
  | nil => exact iff_of_true rfl fun _ h => absurd h List.not_mem_nil
  | cons a l ih =>
      rw [List.forall_mem_cons, ← ih]
      change (f a >>= fun _ => l.forM f) = .ok () ↔ _
      rw [Except.bind_eq_ok]
      exact ⟨fun ⟨(), hfirst, hrest⟩ => ⟨hfirst, hrest⟩, fun ⟨hfirst, hrest⟩ => ⟨(), hfirst, hrest⟩⟩

theorem Except.map_bind_pair {ε α β γ : Type} (x : Except ε α) (b : β)
    (g : α → γ) :
    (x >>= fun a => pure (b, a)).map (fun p : β × α => g p.2) = x.map g := by
  cases x with
  | error e => rfl
  | ok a => rfl

/-- A computation does not fail in a way that none of its parts fails. -/
theorem Except.bind_ne_error {ε α β : Type} {x : Except ε α}
    {f : α → Except ε β} {e : ε} (hx : x ≠ .error e)
    (hf : ∀ a, x = .ok a → f a ≠ .error e) : x >>= f ≠ .error e := by
  cases x with
  | error e' => exact fun h => hx (congrArg Except.error (Except.error.inj h))
  | ok a => exact hf a rfl

/-- Computations with the same image fail together. -/
theorem Except.cases_of_map_eq {ε α β γ : Type} {x : Except ε α}
    {y : Except ε β} {f : α → γ} {g : β → γ} (h : x.map f = y.map g) :
    (∃ e, x = .error e ∧ y = .error e) ∨
      ∃ a b, x = .ok a ∧ y = .ok b ∧ f a = g b := by
  cases x with
  | error e =>
      cases y with
      | error e' => exact .inl ⟨e, rfl, congrArg _ (Except.error.inj h).symm⟩
      | ok b => cases h
  | ok a =>
      cases y with
      | error e => cases h
      | ok b => exact .inr ⟨a, b, rfl, rfl, Except.ok.inj h⟩

theorem Except.toOption_eq_some {ε α : Type} {x : Except ε α} {a : α} :
    x.toOption = some a ↔ x = .ok a := by
  cases x with
  | error e => simp [Except.toOption]
  | ok b => simp [Except.toOption]

/-- A test of the result that can be evaluated. -/
theorem Except.exists_ok_of_any {ε α : Type} {x : Except ε α} {p : α → Bool}
    (h : x.toOption.any p = true) : ∃ a, x = .ok a ∧ p a = true := by
  cases x with
  | error e => cases h
  | ok a => exact ⟨a, rfl, h⟩

/-- A computation that does not fail in one way, and gives what has a property. -/
def Except.Ensures {ε α : Type} (bad : ε) (Q : α → Prop) : Except ε α → Prop
  | .ok a => Q a
  | .error e => e ≠ bad

theorem Except.Ensures.bind {ε α β : Type} {bad : ε} {P : α → Prop} {Q : β → Prop}
    {x : Except ε α} {f : α → Except ε β} (hx : Except.Ensures bad P x)
    (hf : ∀ a, P a → Except.Ensures bad Q (f a)) : Except.Ensures bad Q (x >>= f) := by
  cases x with
  | error e => exact hx
  | ok a => exact hf a hx

theorem Except.Ensures.mono {ε α : Type} {bad : ε} {P Q : α → Prop} {x : Except ε α}
    (hx : Except.Ensures bad P x) (h : ∀ a, P a → Q a) : Except.Ensures bad Q x := by
  cases x with
  | error e => exact hx
  | ok a => exact h a hx

theorem Except.Ensures.ite {ε α : Type} {bad : ε} {Q : α → Prop} {c : Prop} [Decidable c]
    {x y : Except ε α} (hx : c → Except.Ensures bad Q x) (hy : ¬c → Except.Ensures bad Q y) :
    Except.Ensures bad Q (if c then x else y) := by
  by_cases h : c
  · rw [if_pos h]
    exact hx h
  · rw [if_neg h]
    exact hy h

/-- States reached by runs whose steps all meet the guard. -/
inductive Reach {σ ε : Type*} (init : σ → Prop) (ok : σ → ε → Prop)
    (step : σ → ε → σ → Prop) : σ → Prop where
  | init {s : σ} (h : init s) : Reach init ok step s
  | step {s s' : σ} {e : ε} (h : Reach init ok step s) (hok : ok s e)
      (hstep : step s e s') : Reach init ok step s'

namespace Reach

variable {σ ε : Type*} {init : σ → Prop} {ok : σ → ε → Prop}
  {step : σ → ε → σ → Prop}

/-- What holds initially and is kept by every guarded step always holds. -/
theorem invariant {inv : σ → Prop} (hinit : ∀ s, init s → inv s)
    (hstep : ∀ s e s', Reach init ok step s → inv s → ok s e →
      step s e s' → inv s')
    {s : σ} (h : Reach init ok step s) : inv s := by
  induction h with
  | init h => exact hinit _ h
  | step h hok hs ih => exact hstep _ _ _ h ih hok hs

/-- The state after a list of events that all meet the guard. -/
theorem of_foldlM {ok : ε → Prop} {next : σ → ε → Option σ} (events : List ε) {s s' : σ}
    (h : Reach init (fun _ e => ok e) (fun s e s' => next s e = some s') s)
    (hok : ∀ e ∈ events, ok e) (hrun : events.foldlM next s = some s') :
    Reach init (fun _ e => ok e) (fun s e s' => next s e = some s') s' := by
  induction events generalizing s with
  | nil =>
      obtain rfl := Option.some.inj hrun
      exact h
  | cons e events ih =>
      obtain ⟨he, hevents⟩ := List.forall_mem_cons.mp hok
      rw [List.foldlM_cons] at hrun
      obtain ⟨s₁, hs₁, hrun⟩ := Option.bind_eq_some_iff.mp hrun
      exact ih (.step h he hs₁) hevents hrun

end Reach

end MultiversionBalancer.Lib
