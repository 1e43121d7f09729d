import Mathlib.Data.Fintype.Card
import Mathlib.Logic.Relation
import Mathlib.Order.Interval.Finset.Nat

/-!
# Forests by parents

A forest on a set of nodes, given by the parent of each of them, with the depths of
the nodes.  A node is moved with all that is below it, and a node can adopt the other
children of its parent.
-/

namespace MultiversionBalancer.Lib

variable {α : Type*} {A : Set α} {P : α → Option α} {d : α → ℕ}

/-- The nodes `A` with the parents `P` have the depths `d`; a node without a parent
has the depth 1. -/
structure Depth (A : Set α) (P : α → Option α) (d : α → ℕ) : Prop where
  root : ∀ n ∈ A, P n = none → d n = 1
  child : ∀ n ∈ A, ∀ p, P n = some p → p ∈ A ∧ d n = d p + 1

def Below (P : α → Option α) (n m : α) : Prop :=
  Relation.ReflTransGen (fun m p => P m = some p) m n

theorem Below.refl (P : α → Option α) (n : α) : Below P n n :=
  Relation.ReflTransGen.refl

theorem Below.parent {n m p : α} (h : Below P n p) (hm : P m = some p) : Below P n m :=
  Relation.ReflTransGen.head hm h

theorem Below.cases {n m : α} (h : Below P n m) : m = n ∨ ∃ p, P m = some p ∧ Below P n p := by
  rcases Relation.ReflTransGen.cases_head h with heq | ⟨p, hp, hbelow⟩
  · exact .inl heq
  · exact .inr ⟨p, hp, hbelow⟩

theorem Depth.congr (h : Depth A P d) {d' : α → ℕ} (hd : ∀ n ∈ A, d' n = d n) :
    Depth A P d' := by
  refine ⟨fun n hn hp => (hd n hn).trans (h.root n hn hp), ?_⟩
  intro n hn p hp
  obtain ⟨hp_mem, hdepth⟩ := h.child n hn p hp
  exact ⟨hp_mem, by rw [hd n hn, hd p hp_mem, hdepth]⟩

theorem Depth.congr_parent (h : Depth A P d) {P' : α → Option α} (hP : ∀ n ∈ A, P' n = P n) :
    Depth A P' d :=
  ⟨fun n hn hp => h.root n hn ((hP n hn).symm.trans hp),
    fun n hn p hp => h.child n hn p ((hP n hn).symm.trans hp)⟩

theorem Depth.pos (h : Depth A P d) {n : α} (hn : n ∈ A) : 0 < d n := by
  cases hp : P n with
  | none =>
      rw [h.root n hn hp]
      exact Nat.one_pos
  | some p =>
      rw [(h.child n hn p hp).2]
      exact Nat.succ_pos _

theorem Depth.below (h : Depth A P d) {n m : α} (hm : m ∈ A) (hbelow : Below P n m) :
    n ∈ A ∧ (m = n ∨ d n < d m) := by
  induction hbelow using Relation.ReflTransGen.head_induction_on with
  | refl => exact ⟨hm, .inl rfl⟩
  | head hp _ ih =>
      obtain ⟨hp_mem, hp_depth⟩ := h.child _ hm _ hp
      obtain ⟨hn, hle⟩ := ih hp_mem
      refine ⟨hn, .inr ?_⟩
      rcases hle with rfl | hlt
      · omega
      · omega

/-- A node is below one of the children of a node above it. -/
theorem Below.exists_child {n m : α} (h : Below P n m) (hne : m ≠ n) :
    ∃ x, P x = some n ∧ Below P x m := by
  induction h using Relation.ReflTransGen.head_induction_on with
  | refl => exact absurd rfl hne
  | @head m p hp _ ih =>
      by_cases hpn : p = n
      · rw [hpn] at hp
        exact ⟨m, hp, Below.refl P m⟩
      · obtain ⟨x, hx, hbelow⟩ := ih hpn
        exact ⟨x, hx, hbelow.parent hp⟩

theorem Depth.not_below_child (h : Depth A P d) {n p : α} (hn : n ∈ A) (hp : P n = some p) :
    ¬Below P n p := by
  intro hbelow
  obtain ⟨hp_mem, hdepth⟩ := h.child n hn p hp
  rcases (h.below hp_mem hbelow).2 with rfl | hlt
  · omega
  · omega

theorem Depth.eq_of_parent (h : Depth A P d) {n c : α} (hn : n ∈ A) (hc : c ∈ A)
    (hparent : P c = P n) : d c = d n := by
  cases hp : P n with
  | none => rw [h.root n hn hp, h.root c hc (hparent.trans hp)]
  | some p => rw [(h.child n hn p hp).2, (h.child c hc p (hparent.trans hp)).2]

theorem Depth.not_below_sibling (h : Depth A P d) {n c : α} (hn : n ∈ A) (hc : c ∈ A)
    (hne : c ≠ n) (hparent : P c = P n) : ¬Below P c n := by
  intro hbelow
  rcases (h.below hn hbelow).2 with heq | hlt
  · exact hne heq.symm
  · exact absurd (h.eq_of_parent hn hc hparent) (by omega)

theorem Depth.exists_above (h : Depth A P d) {n : α} (hn : n ∈ A) {k : ℕ} (hk : 1 ≤ k)
    (hkn : k ≤ d n) : ∃ m ∈ A, d m = k := by
  obtain ⟨i, hi⟩ := Nat.exists_eq_add_of_le hkn
  induction i generalizing n with
  | zero => exact ⟨n, hn, hi⟩
  | succ i ih =>
      cases hp : P n with
      | none =>
          have hroot := h.root n hn hp
          omega
      | some p =>
          obtain ⟨hp_mem, hp_depth⟩ := h.child n hn p hp
          exact ih hp_mem (by omega) (by omega)

theorem Depth.le_bound {A : Set ℕ} {P : ℕ → Option ℕ} {d : ℕ → ℕ} (h : Depth A P d) {N : ℕ}
    (hN : ∀ n ∈ A, n < N) {n : ℕ} (hn : n ∈ A) : d n ≤ N := by
  have hsub : Finset.Icc 1 (d n) ⊆ (Finset.range N).image d := by
    intro k hk
    obtain ⟨hk1, hk2⟩ := Finset.mem_Icc.mp hk
    obtain ⟨m, hm, rfl⟩ := h.exists_above hn hk1 hk2
    exact Finset.mem_image_of_mem d (Finset.mem_range.mpr (hN m hm))
  calc
    d n = (Finset.Icc 1 (d n)).card := by rw [Nat.card_Icc, Nat.add_sub_cancel]
    _ ≤ ((Finset.range N).image d).card := Finset.card_le_card hsub
    _ ≤ (Finset.range N).card := Finset.card_image_le
    _ = N := Finset.card_range N

/-- The ways up from a set of nodes depend on their parents only. -/
theorem Depth.below_congr (h : Depth A P d) {P' : α → Option α} (hP : ∀ n ∈ A, P' n = P n)
    {n m : α} (hm : m ∈ A) : Below P' n m ↔ Below P n m := by
  constructor
  · intro hbelow
    induction hbelow using Relation.ReflTransGen.head_induction_on with
    | refl => exact Below.refl P n
    | @head m p hp _ ih =>
        rw [hP m hm] at hp
        exact (ih (h.child m hm p hp).1).parent hp
  · intro hbelow
    induction hbelow using Relation.ReflTransGen.head_induction_on with
    | refl => exact Below.refl P' n
    | @head m p hp _ ih => exact (ih (h.child m hm p hp).1).parent ((hP m hm).trans hp)

/-! ## Moving a node -/

section Move

open Classical in
/-- The depths when `n` gets the depth `k` and takes along what is below it. -/
noncomputable def movedDepth (P : α → Option α) (d : α → ℕ) (n : α) (k : ℕ) (m : α) : ℕ :=
  if Below P n m then d m - d n + k else d m

theorem movedDepth_self (n : α) (k : ℕ) : movedDepth P d n k n = k := by
  rw [movedDepth, if_pos (Below.refl P n), Nat.sub_self, Nat.zero_add]

theorem movedDepth_of_not {n m : α} (h : ¬Below P n m) (k : ℕ) : movedDepth P d n k m = d m :=
  if_neg h

/-- The depth of a child of `q`, a root for `none`. -/
def childDepth (d : α → ℕ) : Option α → ℕ
  | none => 1
  | some p => d p + 1

variable [DecidableEq α]

/-- A node gets another parent, which is not below it. -/
theorem Depth.move (h : Depth A P d) {n : α} {q : Option α}
    (hq : ∀ p, q = some p → p ∈ A ∧ ¬Below P n p) :
    Depth (insert n A) (Function.update P n q) (movedDepth P d n (childDepth d q)) := by
  have hother {m : α} (hm : m ∈ insert n A) (hne : m ≠ n) : m ∈ A := by
    rcases hm with rfl | hm
    · exact absurd rfl hne
    · exact hm
  refine ⟨?_, ?_⟩
  · intro m hm hroot
    by_cases hne : m = n
    · subst hne
      rw [Function.update_self] at hroot
      rw [movedDepth_self, hroot, childDepth]
    · rw [Function.update_of_ne hne] at hroot
      have hnot : ¬Below P n m := by
        intro hbelow
        rcases hbelow.cases with heq | ⟨p, hp, -⟩
        · exact hne heq
        · exact absurd (hroot.symm.trans hp) nofun
      rw [movedDepth_of_not hnot]
      exact h.root m (hother hm hne) hroot
  · intro m hm p hp
    by_cases hne : m = n
    · subst hne
      rw [Function.update_self] at hp
      obtain ⟨hp_mem, hp_not⟩ := hq p hp
      refine ⟨Set.mem_insert_of_mem m hp_mem, ?_⟩
      rw [movedDepth_self, movedDepth_of_not hp_not, hp, childDepth]
    · rw [Function.update_of_ne hne] at hp
      have hm' := hother hm hne
      obtain ⟨hp_mem, hdepth⟩ := h.child m hm' p hp
      refine ⟨Set.mem_insert_of_mem n hp_mem, ?_⟩
      by_cases hbelow : Below P n p
      · have hle : d n ≤ d p := by
          rcases (h.below hp_mem hbelow).2 with rfl | hlt
          · exact Nat.le_refl _
          · exact hlt.le
        rw [movedDepth, movedDepth, if_pos hbelow, if_pos (hbelow.parent hp)]
        omega
      · have hnot : ¬Below P n m := by
          intro hbelow'
          rcases hbelow'.cases with heq | ⟨p', hp', hbelow'⟩
          · exact hne heq
          · obtain rfl : p = p' := Option.some.inj (hp.symm.trans hp')
            exact hbelow hbelow'
        rw [movedDepth_of_not hbelow, movedDepth_of_not hnot]
        exact hdepth

theorem below_update_self {n m : α} {q : Option α} :
    Below (Function.update P n q) n m ↔ Below P n m := by
  constructor
  · intro h
    induction h using Relation.ReflTransGen.head_induction_on with
    | refl => exact Relation.ReflTransGen.refl
    | @head m p hp _ ih =>
        by_cases hne : m = n
        · subst hne
          exact Relation.ReflTransGen.refl
        · rw [Function.update_of_ne hne] at hp
          exact Below.parent ih hp
  · intro h
    induction h using Relation.ReflTransGen.head_induction_on with
    | refl => exact Relation.ReflTransGen.refl
    | @head m p hp _ ih =>
        by_cases hne : m = n
        · subst hne
          exact Relation.ReflTransGen.refl
        · rw [← Function.update_of_ne hne q P] at hp
          exact Below.parent ih hp

/-! ## Adopting the other children -/

/-- `n` becomes the parent of all other children of `q`. -/
def adopt (P : α → Option α) (n : α) (q : Option α) (m : α) : Option α :=
  if m = n then q else if P m = q then some n else P m

open Classical in
/-- The depths when `n` adopts the other children of its parent. -/
noncomputable def adoptedDepth (A : Set α) (P : α → Option α) (d : α → ℕ) (n : α) (m : α) : ℕ :=
  if ∃ c ∈ A, c ≠ n ∧ P c = P n ∧ Below P c m then d m + 1 else d m

theorem below_adopt {n x m : α} {q : Option α} (hx : x = n ∨ P x = q) (h : Below P x m) :
    Below (adopt P n q) n m := by
  induction h using Relation.ReflTransGen.head_induction_on with
  | refl =>
      by_cases hxn : x = n
      · rw [hxn]
        exact Below.refl _ n
      · refine Below.parent (Below.refl _ n) ?_
        rw [Lib.adopt, if_neg hxn, if_pos (hx.resolve_left hxn)]
  | @head m p hp _ ih =>
      by_cases hmn : m = n
      · rw [hmn]
        exact Below.refl _ n
      · by_cases hmq : P m = q
        · refine Below.parent (Below.refl _ n) ?_
          rw [Lib.adopt, if_neg hmn, if_pos hmq]
        · refine Below.parent ih ?_
          rw [Lib.adopt, if_neg hmn, if_neg hmq, hp]

/-- A way up that does not pass `n` stays. -/
theorem Below.update {n x m : α} (h : Below P x m) (hn : ¬Below P n m) (q : Option α) :
    Below (Function.update P n q) x m := by
  induction h using Relation.ReflTransGen.head_induction_on with
  | refl => exact Below.refl _ x
  | @head m p hp _ ih =>
      have hmn : m ≠ n := by
        rintro rfl
        exact hn (Below.refl P m)
      refine Below.parent (ih fun hbelow => hn (hbelow.parent hp)) ?_
      rw [Function.update_of_ne hmn, hp]

omit [DecidableEq α] in
theorem adoptedDepth_self (h : Depth A P d) {n : α} (hn : n ∈ A) :
    adoptedDepth A P d n n = d n := by
  refine if_neg ?_
  rintro ⟨c, hc, hne, hparent, hbelow⟩
  exact h.not_below_sibling hn hc hne hparent hbelow

theorem Depth.adopt (h : Depth A P d) {n : α} (hn : n ∈ A) :
    Depth A (Lib.adopt P n (P n)) (adoptedDepth A P d n) := by
  refine ⟨?_, ?_⟩
  · intro m hm hroot
    by_cases hne : m = n
    · subst hne
      rw [Lib.adopt, if_pos rfl] at hroot
      rw [adoptedDepth_self h hn]
      exact h.root m hn hroot
    · rw [Lib.adopt, if_neg hne] at hroot
      split at hroot
      · exact absurd hroot nofun
      · next hparent =>
        have hnot : ¬∃ c ∈ A, c ≠ n ∧ P c = P n ∧ Below P c m := by
          rintro ⟨c, hc, hcn, hparent', hbelow⟩
          rcases hbelow.cases with heq | ⟨p, hp, -⟩
          · rw [← heq] at hparent'
            exact hparent hparent'
          · exact absurd (hroot.symm.trans hp) nofun
        rw [adoptedDepth, if_neg hnot]
        exact h.root m hm hroot
  · intro m hm p hp
    by_cases hne : m = n
    · subst hne
      rw [Lib.adopt, if_pos rfl] at hp
      obtain ⟨hp_mem, hdepth⟩ := h.child m hn p hp
      have hnot : ¬∃ c ∈ A, c ≠ m ∧ P c = P m ∧ Below P c p := by
        rintro ⟨c, hc, hcm, hparent, hbelow⟩
        exact h.not_below_child hc (hparent.trans hp) hbelow
      refine ⟨hp_mem, ?_⟩
      rw [adoptedDepth_self h hn, adoptedDepth, if_neg hnot]
      exact hdepth
    · rw [Lib.adopt, if_neg hne] at hp
      split at hp
      · next hparent =>
        obtain rfl : n = p := Option.some.inj hp
        refine ⟨hn, ?_⟩
        have hmoved : ∃ c ∈ A, c ≠ n ∧ P c = P n ∧ Below P c m :=
          ⟨m, hm, hne, hparent, Below.refl P m⟩
        rw [adoptedDepth_self h hn, adoptedDepth, if_pos hmoved, h.eq_of_parent hn hm hparent]
      · next hparent =>
        obtain ⟨hp_mem, hdepth⟩ := h.child m hm p hp
        refine ⟨hp_mem, ?_⟩
        have hiff : (∃ c ∈ A, c ≠ n ∧ P c = P n ∧ Below P c m) ↔
            ∃ c ∈ A, c ≠ n ∧ P c = P n ∧ Below P c p := by
          constructor
          · rintro ⟨c, hc, hcn, hparent', hbelow⟩
            rcases hbelow.cases with heq | ⟨p', hp', hbelow'⟩
            · rw [← heq] at hparent'
              exact absurd hparent' hparent
            · obtain rfl : p = p' := Option.some.inj (hp.symm.trans hp')
              exact ⟨c, hc, hcn, hparent', hbelow'⟩
          · rintro ⟨c, hc, hcn, hparent', hbelow⟩
            exact ⟨c, hc, hcn, hparent', hbelow.parent hp⟩
        by_cases hmoved : ∃ c ∈ A, c ≠ n ∧ P c = P n ∧ Below P c p
        · rw [adoptedDepth, adoptedDepth, if_pos (hiff.mpr hmoved), if_pos hmoved, hdepth]
        · rw [adoptedDepth, adoptedDepth, if_neg (fun h => hmoved (hiff.mp h)), if_neg hmoved,
            hdepth]

end Move

/-! ## Removing a node -/

section Dissolve

open Classical in
/-- The parents when the children of `n` get its parent. -/
noncomputable def dissolve (P : α → Option α) (n m : α) : Option α :=
  if P m = some n then P n else P m

open Classical in
/-- The depths when the children of `n` get its parent. -/
noncomputable def dissolvedDepth (P : α → Option α) (d : α → ℕ) (n m : α) : ℕ :=
  if Below P n m then d m - 1 else d m

theorem Depth.dissolve (h : Depth A P d) {n : α} (hn : n ∈ A) :
    Depth (A \ {n}) (dissolve P n) (dissolvedDepth P d n) := by
  have hparent {m p : α} (hne : m ≠ n) (hp : P m = some p) : Below P n m ↔ Below P n p := by
    constructor
    · intro hbelow
      rcases hbelow.cases with heq | ⟨p', hp', hbelow'⟩
      · exact absurd heq hne
      · obtain rfl : p = p' := Option.some.inj (hp.symm.trans hp')
        exact hbelow'
    · exact fun hbelow => hbelow.parent hp
  refine ⟨?_, ?_⟩
  · rintro m ⟨hm, hne⟩ hroot
    by_cases hchild : P m = some n
    · rw [Lib.dissolve, if_pos hchild] at hroot
      rw [dissolvedDepth, if_pos ((Below.refl P n).parent hchild), (h.child m hm n hchild).2,
        h.root n hn hroot]
    · rw [Lib.dissolve, if_neg hchild] at hroot
      have hnot : ¬Below P n m := by
        intro hbelow
        rcases hbelow.cases with heq | ⟨p, hp, -⟩
        · exact hne heq
        · exact absurd (hroot.symm.trans hp) nofun
      rw [dissolvedDepth, if_neg hnot]
      exact h.root m hm hroot
  · rintro m ⟨hm, hne⟩ p hp
    by_cases hchild : P m = some n
    · rw [Lib.dissolve, if_pos hchild] at hp
      obtain ⟨hpA, hdepth⟩ := h.child n hn p hp
      have hnot : ¬Below P n p := h.not_below_child hn hp
      have hpn : p ≠ n := by
        rintro rfl
        exact hnot (Below.refl P p)
      refine ⟨⟨hpA, hpn⟩, ?_⟩
      rw [dissolvedDepth, if_pos ((Below.refl P n).parent hchild), dissolvedDepth, if_neg hnot,
        (h.child m hm n hchild).2, hdepth, Nat.add_sub_cancel]
    · rw [Lib.dissolve, if_neg hchild] at hp
      obtain ⟨hpA, hdepth⟩ := h.child m hm p hp
      have hpn : p ≠ n := by
        rintro rfl
        exact hchild hp
      have hpos := h.pos hpA
      refine ⟨⟨hpA, hpn⟩, ?_⟩
      by_cases hbelow : Below P n p
      · rw [dissolvedDepth, if_pos ((hparent hne hp).mpr hbelow), dissolvedDepth, if_pos hbelow]
        omega
      · rw [dissolvedDepth, if_neg fun hb => hbelow ((hparent hne hp).mp hb), dissolvedDepth,
          if_neg hbelow, hdepth]

theorem dissolvedDepth_le (n m : α) : dissolvedDepth P d n m ≤ d m := by
  rw [dissolvedDepth]
  split
  · exact Nat.sub_le _ _
  · exact Nat.le_refl _

end Dissolve

end MultiversionBalancer.Lib
