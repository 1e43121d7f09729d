import Mathlib.Algebra.BigOperators.Group.Finset.Basic
import Mathlib.Algebra.BigOperators.Group.Finset.Piecewise
import Mathlib.Algebra.Order.BigOperators.Group.Finset
import Mathlib.Data.Fintype.BigOperators
import MultiversionBalancer.Lib.Run

/-!
# Processes that take turns

Processes with a local state each share a state.  A step is a step of one of them; the others
stay where they are.  A quantity that adds up over the local states changes by what the
process that moves changes.
-/

namespace MultiversionBalancer.Lib

/-- A shared state, and the local state of every process. -/
structure Processes (P S L : Type*) where
  shared : S
  loc : P → L

namespace Processes

variable {P S L E : Type*}

section Moves

variable [DecidableEq P]

/-- The processes after the process `p` has gone to `l` and left `s`. -/
def move (c : Processes P S L) (p : P) (s : S) (l : L) : Processes P S L :=
  ⟨s, Function.update c.loc p l⟩

@[simp] theorem move_shared (c : Processes P S L) (p : P) (s : S) (l : L) :
    (c.move p s l).shared = s := rfl

@[simp] theorem move_loc (c : Processes P S L) (p : P) (s : S) (l : L) :
    (c.move p s l).loc = Function.update c.loc p l := rfl

/-- What holds of every local state, and of the one that a process comes to, holds after the
move. -/
theorem forall_move {c : Processes P S L} {good : L → Prop} (h : ∀ q, good (c.loc q)) (p : P)
    (s : S) {l : L} (hl : good l) (q : P) : good ((c.move p s l).loc q) := by
  by_cases hq : q = p
  · rw [hq, move_loc, Function.update_self]
    exact hl
  · rw [move_loc, Function.update_of_ne hq]
    exact h q

/-- The process that an event is about takes its step. -/
def next (step : P → E → S → L → Option (S × L)) (c : Processes P S L) (e : P × E) :
    Option (Processes P S L) :=
  (step e.1 e.2 c.shared (c.loc e.1)).map fun r => c.move e.1 r.1 r.2

/-- The states that the processes reach, from those in which all of them are in `l₀`, by
events that meet the guard. -/
def Reaches (step : P → E → S → L → Option (S × L)) (ok : P → E → Prop) (s₀ : S) (l₀ : L) :
    Processes P S L → Prop :=
  Reach (fun c => c = ⟨s₀, fun _ => l₀⟩) (fun _ e => ok e.1 e.2)
    (fun c e c' => c.next step e = some c')

/-- What holds at first and is kept whenever a process moves holds in every state reached. -/
theorem Reaches.invariant {step : P → E → S → L → Option (S × L)} {ok : P → E → Prop} {s₀ : S}
    {l₀ : L} {inv : Processes P S L → Prop} (hinit : inv ⟨s₀, fun _ => l₀⟩)
    (hstep : ∀ c p e s l, Reaches step ok s₀ l₀ c → inv c → ok p e →
      step p e c.shared (c.loc p) = some (s, l) → inv (c.move p s l))
    {c : Processes P S L} (h : Reaches step ok s₀ l₀ c) : inv c := by
  refine Reach.invariant (fun c hc => hc ▸ hinit) (fun c e c' hreach hinv hok hnext => ?_) h
  obtain ⟨⟨s, l⟩, hs, rfl⟩ := Option.map_eq_some_iff.mp hnext
  exact hstep c e.1 e.2 s l hreach hinv hok hs

/-- The state after a list of events that meet the guard. -/
theorem Reaches.of_foldlM {step : P → E → S → L → Option (S × L)} {ok : P → E → Prop} {s₀ : S}
    {l₀ : L} (events : List (P × E)) (hok : ∀ e ∈ events, ok e.1 e.2) {c : Processes P S L}
    (hrun : events.foldlM (next step) ⟨s₀, fun _ => l₀⟩ = some c) : Reaches step ok s₀ l₀ c :=
  Reach.of_foldlM events (.init rfl) hok hrun

end Moves

section Total

variable [Fintype P] {M : Type*} [AddCommMonoid M]

/-- A quantity of the local states, over all of the processes. -/
def total (g : L → M) (loc : P → L) : M := ∑ p, g (loc p)

/-- The quantity loses what the process had and gains what it has now. -/
theorem total_update [DecidableEq P] (g : L → M) (loc : P → L) (p : P) (l : L) :
    total g (Function.update loc p l) + g (loc p) = total g loc + g l := by
  have hrest : ∑ q ∈ Finset.univ.erase p, g (Function.update loc p l q) =
      ∑ q ∈ Finset.univ.erase p, g (loc q) :=
    Finset.sum_congr rfl fun q hq => by rw [Function.update_of_ne (Finset.ne_of_mem_erase hq)]
  rw [total, total, ← Finset.sum_erase_add _ _ (Finset.mem_univ p), hrest, Function.update_self,
    ← Finset.sum_erase_add _ (fun q => g (loc q)) (Finset.mem_univ p)]
  exact add_right_comm _ _ _

end Total

section Count

variable [Fintype P]

/-- How many processes are where `here` says. -/
def count (here : L → Bool) (loc : P → L) : ℕ := total (fun l => (here l).toNat) loc

theorem count_le_card (here : L → Bool) (loc : P → L) : count here loc ≤ Fintype.card P := by
  rw [Fintype.card, Finset.card_eq_sum_ones]
  exact Finset.sum_le_sum fun p _ => Bool.toNat_le _

theorem count_const {here : L → Bool} {l : L} (h : here l = false) :
    count here (fun _ : P => l) = 0 := by
  simp [count, total, h]

theorem count_pos {here : L → Bool} {loc : P → L} : 0 < count here loc ↔ ∃ p, here (loc p) := by
  rw [count, total, Finset.sum_pos_iff]
  refine exists_congr fun p => ?_
  cases here (loc p) with
  | false => simp
  | true => simp

theorem count_update [DecidableEq P] (here : L → Bool) (loc : P → L) (p : P) (l : L) :
    count here (Function.update loc p l) + (here (loc p)).toNat =
      count here loc + (here l).toNat :=
  total_update _ loc p l

theorem eq_of_count_le_one {here : L → Bool} {loc : P → L} (h : count here loc ≤ 1) {p q : P}
    (hp : here (loc p) = true) (hq : here (loc q) = true) : p = q := by
  by_contra hne
  have htwo : (here (loc p)).toNat + (here (loc q)).toNat ≤ count here loc :=
    Finset.add_le_sum (f := fun r => (here (loc r)).toNat) (fun _ _ => Nat.zero_le _)
      (Finset.mem_univ p) (Finset.mem_univ q) hne
  rw [hp, hq] at htwo
  exact absurd (htwo.trans h) (by decide)

end Count

end Processes

end MultiversionBalancer.Lib
