import Mathlib.Data.List.Infix
import Mathlib.Order.RelClasses

/-!
# Words

Words over an ordered alphabet.  Two words either differ at some place, and the first such place
tells which is below the other, or one of them begins with the other.
-/

namespace MultiversionBalancer.Lib

variable {α : Type} {r : α → α → Prop}

/-- The first place where two words differ decides for the first one. -/
inductive WordLt (r : α → α → Prop) : List α → List α → Prop
  | head {a b : α} (h : r a b) (s t : List α) : WordLt r (a :: s) (b :: t)
  | cons (a : α) {s t : List α} (h : WordLt r s t) : WordLt r (a :: s) (a :: t)

/-- A word comes no later than another one in the dictionary. -/
def UpTo (r : α → α → Prop) (s t : List α) : Prop :=
  s <+: t ∨ WordLt r s t

theorem not_nil_wordLt (t : List α) : ¬ WordLt r [] t := nofun

theorem not_wordLt_nil (s : List α) : ¬ WordLt r s [] := nofun

theorem wordLt_cons_of_ne {a b : α} (hab : a ≠ b) (s t : List α) :
    WordLt r (a :: s) (b :: t) ↔ r a b := by
  refine ⟨fun h => ?_, fun h => .head h s t⟩
  cases h with
  | head h => exact h
  | cons => exact absurd rfl hab

theorem WordLt.append {s t : List α} (h : WordLt r s t) (u v : List α) :
    WordLt r (s ++ u) (t ++ v) := by
  induction h with
  | head h s t => exact .head h _ _
  | cons a _ ih => exact .cons a ih

theorem WordLt.extend {s t s' t' : List α} (h : WordLt r s t) (hs : s <+: s') (ht : t <+: t') :
    WordLt r s' t' := by
  obtain ⟨u, rfl⟩ := hs
  obtain ⟨v, rfl⟩ := ht
  exact h.append u v

theorem WordLt.append_left {s t : List α} (h : WordLt r s t) (p : List α) :
    WordLt r (p ++ s) (p ++ t) := by
  induction p with
  | nil => exact h
  | cons a p ih => exact .cons a ih

theorem WordLt.trans [IsTrans α r] {s t u : List α} (h : WordLt r s t) (h' : WordLt r t u) :
    WordLt r s u := by
  induction h generalizing u with
  | head h s t =>
      cases h' with
      | head h' => exact .head (IsTrans.trans _ _ _ h h') _ _
      | cons => exact .head h _ _
  | cons a _ ih =>
      cases h' with
      | head h' => exact .head h' _ _
      | cons _ h' => exact .cons a (ih h')

/-- What a word begins with is no later than anything above the word. -/
theorem WordLt.shorten {p s t : List α} (h : WordLt r s t) (hp : p <+: s) : UpTo r p t := by
  induction h generalizing p with
  | head h s t =>
      cases p with
      | nil => exact .inl List.nil_prefix
      | cons b p =>
          obtain ⟨rfl, -⟩ := List.cons_prefix_cons.mp hp
          exact .inr (.head h _ _)
  | cons a h ih =>
      cases p with
      | nil => exact .inl List.nil_prefix
      | cons b p =>
          obtain ⟨rfl, hp'⟩ := List.cons_prefix_cons.mp hp
          exact (ih hp').imp (fun h => List.cons_prefix_cons.mpr ⟨rfl, h⟩) (.cons _)

theorem UpTo.refl (s : List α) : UpTo r s s := .inl List.prefix_rfl

theorem UpTo.trans [IsTrans α r] {s t u : List α} (h : UpTo r s t) (h' : UpTo r t u) :
    UpTo r s u := by
  rcases h with h | h
  · rcases h' with h' | h'
    · exact .inl (h.trans h')
    · exact h'.shorten h
  · exact .inr (h'.elim (fun h' => h.extend List.prefix_rfl h') h.trans)

/-- What is below a word is below all that comes no earlier. -/
theorem WordLt.trans_upTo [IsTrans α r] {s t u : List α} (h : WordLt r s t) (h' : UpTo r t u) :
    WordLt r s u :=
  h'.elim (fun h' => h.extend List.prefix_rfl h') h.trans

section Irrefl

variable [Std.Irrefl r]

theorem wordLt_cons_iff {a : α} {s t : List α} : WordLt r (a :: s) (a :: t) ↔ WordLt r s t := by
  refine ⟨fun h => ?_, .cons a⟩
  cases h with
  | head h => exact absurd h (Std.Irrefl.irrefl a)
  | cons _ h => exact h

theorem WordLt.not_begins {s t : List α} (h : WordLt r s t) : ¬ s <+: t := by
  induction h with
  | head h s t =>
      intro hp
      obtain ⟨rfl, -⟩ := List.cons_prefix_cons.mp hp
      exact Std.Irrefl.irrefl _ h
  | cons a _ ih => exact fun hp => ih (List.cons_prefix_cons.mp hp).2

theorem WordLt.not_begins' {s t : List α} (h : WordLt r s t) : ¬ t <+: s := by
  induction h with
  | head h s t =>
      intro hp
      obtain ⟨rfl, -⟩ := List.cons_prefix_cons.mp hp
      exact Std.Irrefl.irrefl _ h
  | cons a _ ih => exact fun hp => ih (List.cons_prefix_cons.mp hp).2

theorem WordLt.ne {s t : List α} (h : WordLt r s t) : s ≠ t :=
  fun he => h.not_begins (he ▸ List.prefix_rfl)

theorem WordLt.asymm [IsTrans α r] {s t : List α} (h : WordLt r s t) : ¬ WordLt r t s :=
  fun h' => (h.trans h').not_begins List.prefix_rfl

theorem UpTo.antisymm [IsTrans α r] {s t : List α} (h : UpTo r s t) (h' : UpTo r t s) :
    s = t := by
  rcases h with h | h
  · rcases h' with h' | h'
    · exact h.eq_of_length (Nat.le_antisymm h.length_le h'.length_le)
    · exact absurd h h'.not_begins'
  · exact h'.elim (fun h' => absurd h' h.not_begins') fun h' => absurd h' h.asymm

end Irrefl

theorem upTo_total [Std.Trichotomous r] (s t : List α) : UpTo r s t ∨ UpTo r t s := by
  induction s generalizing t with
  | nil => exact .inl (.inl List.nil_prefix)
  | cons a s ih =>
      cases t with
      | nil => exact .inr (.inl List.nil_prefix)
      | cons b t =>
          by_cases hab : r a b
          · exact .inl (.inr (.head hab _ _))
          · by_cases hba : r b a
            · exact .inr (.inr (.head hba _ _))
            · obtain rfl := Std.Trichotomous.trichotomous a b hab hba
              exact (ih t).imp
                (·.imp (fun h => List.cons_prefix_cons.mpr ⟨rfl, h⟩) (.cons _))
                (·.imp (fun h => List.cons_prefix_cons.mpr ⟨rfl, h⟩) (.cons _))

end MultiversionBalancer.Lib
