import MultiversionBalancer.Core.RadixLookup

/-!
# Deletions from the radix tree

`ngx_radix32tree_delete` and `ngx_radix128tree_delete` on every prefix, whether or not it
has a value.  A node with children is left in the tree, and its value is looked at; a leaf
is released without a look at its value, together with the parents that it leaves empty,
and the root has no parent to be released from.  So a deletion does what it should exactly
when the node of the prefix is not such a leaf, in every tree that calls can make.
-/

namespace MultiversionBalancer.Core

namespace RadixTree

/-- The node of a path, if there is one, may be deleted: it has a child, or it has a value
and is not the root. -/
def Removable (t : RadixTree) (p : List Bool) : Prop :=
  ∀ n, t.walk p = some n → (∀ b, t.child n b = none) →
    p ≠ [] ∧ (t.nodes n).value ≠ noRadixValue

variable {t t' : RadixTree} {d n : ℕ} {p : List Bool} {r : RadixResult}

theorem isLeaf_iff (t : RadixTree) (n : ℕ) :
    ((t.nodes n).right.isSome || (t.nodes n).left.isSome) = false ↔
      ∀ b, t.child n b = none := by
  rw [Bool.or_eq_false_iff, Option.isSome_eq_false_iff, Option.isSome_eq_false_iff,
    Option.isNone_iff_eq_none, Option.isNone_iff_eq_none, Bool.forall_bool, and_comm]
  rfl

theorem delete_missing (h : t.walk p = none) : t.delete p = some (t, .error) := by
  rw [delete, h]

/-- A node with children stays. -/
theorem delete_inner (h : t.walk p = some n) (hchild : ¬∀ b, t.child n b = none) :
    t.delete p = if t.valueAt p ≠ noRadixValue then some (t.setValue n noRadixValue, .ok)
      else some (t, .error) := by
  rw [← isLeaf_iff, Bool.not_eq_false] at hchild
  rw [delete, h, valueAt_of_walk h]
  simp only [hchild, if_true]

theorem delete_leaf (h : t.walk p = some n) (hleaf : ∀ b, t.child n b = none) :
    t.delete p = (t.prune (p.length + 1) n).map (·, .ok) := by
  rw [← isLeaf_iff] at hleaf
  rw [delete, h]
  simp only [hleaf, Bool.false_eq_true, if_false]

theorem Sound.delete_root (h : t.Sound d) (hleaf : ∀ b, t.child t.root b = none) :
    t.delete [] = none := by
  rw [RadixTree.delete_leaf (walk_nil t) hleaf, RadixTree.prune, h.root]
  rfl

theorem Sound.delete_leaf (h : t.Sound d) (hn : t.walk p = some n)
    (hleaf : ∀ b, t.child n b = none) (hne : p ≠ []) :
    ∃ t', t.delete p = some (t', .ok) ∧ t'.Sound d := by
  obtain ⟨t', hprune, hsound, -⟩ := Sound.prune h hn hne (Nat.le_succ _) hleaf
  exact ⟨t', by rw [RadixTree.delete_leaf hn hleaf, hprune]; rfl, hsound⟩

/-- A deletion that ends leaves a sound tree. -/
theorem Sound.delete_sound (h : t.Sound d) (hdelete : t.delete p = some (t', r)) :
    t'.Sound d := by
  cases hn : t.walk p with
  | none =>
      cases (delete_missing hn).symm.trans hdelete
      exact h
  | some n =>
      by_cases hleaf : ∀ b, t.child n b = none
      · by_cases hne : p = []
        · subst hne
          obtain rfl := Option.some.inj hn
          cases (h.delete_root hleaf).symm.trans hdelete
        · obtain ⟨t₁, hdelete', hsound⟩ := h.delete_leaf hn hleaf hne
          cases hdelete'.symm.trans hdelete
          exact hsound
      · rw [delete_inner hn hleaf] at hdelete
        split_ifs at hdelete
        · cases hdelete
          exact h.setValue n noRadixValue
        · cases hdelete
          exact h

/-- A removable node is deleted with the right result, and a refusal changes nothing. -/
theorem Sound.delete_removable (h : t.Sound d) (hremovable : t.Removable p) :
    ∃ t' r, t.delete p = some (t', r) ∧ (r = .ok ↔ t.valueAt p ≠ noRadixValue) ∧
      (r = .ok ∨ r = .error) ∧ (r = .error → t' = t) := by
  cases hn : t.walk p with
  | none =>
      have hnone : t.valueAt p = noRadixValue := by
        rw [valueAt, hn]
        rfl
      exact ⟨t, .error, delete_missing hn, iff_of_false (by decide) (not_not.mpr hnone), .inr rfl,
        fun _ => rfl⟩
  | some n =>
      by_cases hleaf : ∀ b, t.child n b = none
      · obtain ⟨hne, hvalue⟩ := hremovable n hn hleaf
        rw [← valueAt_of_walk hn] at hvalue
        obtain ⟨t', hdelete, -⟩ := h.delete_leaf hn hleaf hne
        exact ⟨t', .ok, hdelete, iff_of_true rfl hvalue, .inl rfl,
          fun hr => absurd hr (by decide)⟩
      · rw [delete_inner hn hleaf]
        by_cases hvalue : t.valueAt p ≠ noRadixValue
        · rw [if_pos hvalue]
          exact ⟨_, .ok, rfl, iff_of_true rfl hvalue, .inl rfl,
          fun hr => absurd hr (by decide)⟩
        · rw [if_neg hvalue]
          exact ⟨t, .error, rfl, iff_of_false (by decide) hvalue, .inr rfl, fun _ => rfl⟩

/-- A leaf that is deleted with the right result has a value, and a parent. -/
theorem Sound.removable (h : t.Sound d) (hdelete : t.delete p = some (t', r))
    (hok : r = .ok ↔ t.valueAt p ≠ noRadixValue) : t.Removable p := by
  intro n hn hleaf
  by_cases hne : p = []
  · subst hne
    obtain rfl := Option.some.inj hn
    cases (h.delete_root hleaf).symm.trans hdelete
  · obtain ⟨t₁, hdelete', -⟩ := h.delete_leaf hn hleaf hne
    cases hdelete'.symm.trans hdelete
    rw [valueAt_of_walk hn] at hok
    exact ⟨hne, hok.mp rfl⟩

end RadixTree

/-! ## Runs -/

open RadixTree

/-- The number of bits of the mask in a call. -/
def RadixCall.length {K : Type} : RadixCall K → ℕ
  | .insert _ length _ => length
  | .delete _ length => length

namespace RadixFunctions

variable {K : Type} (f : RadixFunctions K) (kind : KeyKind K) (bits : K → ℕ → Bool)

/-- What a deletion should do: it reads through no `NULL` pointer, returns `NGX_OK` exactly
when the prefix had a value and else `NGX_ERROR`, and then finds stay as they were. -/
def DeletesWell (t : RadixTree) (key : K) (n : ℕ) : Prop :=
  ∃ t' r, f.delete t key (kind.mask n) = some (t', r) ∧
    (r = .ok ↔ t.valueAt ((List.range n).map (bits key)) ≠ noRadixValue) ∧
    (r = .ok ∨ r = .error) ∧
    (r = .error → ∀ key fuel, kind.width < fuel → f.find t' fuel key = f.find t fuel key)

def RemovableRun : RadixTree → List (RadixCall K) → Prop
  | _, [] => True
  | t, c :: calls =>
    (∀ key n, c = .delete key n → t.Removable ((List.range n).map (bits key))) ∧
      ∀ t' r, f.call kind t c = some (t', r) → RemovableRun t' calls

/-- What deletions do from the tree `t₀` on: calls that delete removable nodes only all
return, and in whatever tree calls lead to a deletion does what it should exactly when the
node is removable. -/
def DeletesFrom (t₀ : RadixTree) : Prop :=
  ∀ calls : List (RadixCall K), (∀ c ∈ calls, c.length ≤ kind.width) →
    (f.RemovableRun kind bits t₀ calls → ∃ t results, f.run kind t₀ calls = some (t, results)) ∧
      ∀ t results, f.run kind t₀ calls = some (t, results) → ∀ key n, n ≤ kind.width →
        (f.DeletesWell kind bits t key n ↔ t.Removable ((List.range n).map (bits key)))

variable {f kind bits} {t t' : RadixTree} {r : RadixResult}

theorem Reads.call_sound (hf : f.Reads kind bits) (ht : t.Sound kind.width) {c : RadixCall K}
    (hc : c.length ≤ kind.width) (hcall : f.call kind t c = some (t', r)) :
    t'.Sound kind.width := by
  cases c with
  | insert key n v =>
      have hlen : ((List.range n).map (bits key)).length ≤ kind.width := by
        rw [List.length_map, List.length_range]
        exact hc
      have hins : t.insert ((List.range n).map (bits key)) v = (t', r) :=
        (hf.insert t key n v hc).symm.trans (Option.some.inj hcall)
      obtain ⟨hbusy, hok⟩ := ht.insert hlen v
      rw [hins] at hbusy hok
      by_cases hv : t.valueAt ((List.range n).map (bits key)) = noRadixValue
      · exact (hok hv).2.1
      · cases hbusy hv
        exact ht
  | delete key n => exact ht.delete_sound ((hf.delete t key n hc).symm.trans hcall)

theorem Reads.deletesWell_iff (hf : f.Reads kind bits) (ht : t.Sound kind.width) (key : K)
    {n : ℕ} (hn : n ≤ kind.width) :
    f.DeletesWell kind bits t key n ↔ t.Removable ((List.range n).map (bits key)) := by
  rw [DeletesWell, hf.delete t key n hn]
  constructor
  · rintro ⟨t', r, hdelete, hok, -⟩
    exact ht.removable hdelete hok
  · intro hremovable
    obtain ⟨t', r, hdelete, hok, hor, hsame⟩ := ht.delete_removable hremovable
    exact ⟨t', r, hdelete, hok, hor, fun hr key fuel _ => by rw [hsame hr]⟩

theorem Reads.run_sound (hf : f.Reads kind bits) (ht : t.Sound kind.width)
    {calls : List (RadixCall K)} (hcalls : ∀ c ∈ calls, c.length ≤ kind.width)
    {results : List RadixResult} (hrun : f.run kind t calls = some (t', results)) :
    t'.Sound kind.width := by
  induction calls generalizing t results with
  | nil =>
      cases hrun
      exact ht
  | cons c calls ih =>
      obtain ⟨hc, hrest⟩ := List.forall_mem_cons.mp hcalls
      obtain ⟨⟨t₁, r⟩, hcall, hrun⟩ := Option.bind_eq_some_iff.mp hrun
      obtain ⟨⟨t₂, rs⟩, hafter, hpure⟩ := Option.bind_eq_some_iff.mp hrun
      cases hpure
      exact ih (hf.call_sound ht hc hcall) hrest hafter

/-- Calls that delete removable nodes only all return. -/
theorem Reads.run_removable (hf : f.Reads kind bits) (ht : t.Sound kind.width)
    {calls : List (RadixCall K)} (hcalls : ∀ c ∈ calls, c.length ≤ kind.width)
    (hremovable : f.RemovableRun kind bits t calls) :
    ∃ t' results, f.run kind t calls = some (t', results) := by
  induction calls generalizing t with
  | nil => exact ⟨t, [], rfl⟩
  | cons c calls ih =>
      obtain ⟨hc, hrest⟩ := List.forall_mem_cons.mp hcalls
      obtain ⟨hdelete, hafter⟩ := hremovable
      obtain ⟨t₁, r, hcall⟩ : ∃ t₁ r, f.call kind t c = some (t₁, r) := by
        cases c with
        | insert key n v => exact ⟨_, _, rfl⟩
        | delete key n =>
            obtain ⟨t₁, r, heq, -⟩ := ht.delete_removable (hdelete key n rfl)
            exact ⟨t₁, r, (hf.delete t key n hc).trans heq⟩
      obtain ⟨t', results, hrun⟩ := ih (hf.call_sound ht hc hcall) hrest (hafter t₁ r hcall)
      exact ⟨t', r :: results, by simp [RadixFunctions.run, hcall, hrun]⟩

theorem Reads.deletesFrom (hf : f.Reads kind bits) (ht : t.Sound kind.width) :
    f.DeletesFrom kind bits t := fun _ hcalls =>
  ⟨hf.run_removable ht hcalls, fun _ _ hrun key _ hn =>
    hf.deletesWell_iff (hf.run_sound ht hcalls hrun) key hn⟩

end RadixFunctions

/-- From the tree that is created with any preallocation, deletions of either width do
what they should exactly at removable nodes. -/
theorem radix_tree_deletions (pagesize : ℕ) (preallocate : ℤ) :
    ∃ t₀, ngxRadixTreeCreate pagesize preallocate = some t₀ ∧
      functions32.DeletesFrom keys32 bit32 t₀ ∧ functions128.DeletesFrom keys128 bit128 t₀ := by
  obtain ⟨t₀, hcreate, hsound, -⟩ := create_blank pagesize preallocate
  have hsound128 : t₀.Sound keys128.width := hsound.mono (by decide)
  exact ⟨t₀, hcreate, functions32_reads.deletesFrom hsound,
    functions128_reads.deletesFrom hsound128⟩

/-- The deletion of the prefix of no bits from the tree that has only the root. -/
theorem radix_tree_delete_root :
    ¬∀ pagesize preallocate t₀, ngxRadixTreeCreate pagesize preallocate = some t₀ →
      ∀ key n, n ≤ 32 → functions32.DeletesWell keys32 bit32 t₀ key n := by
  intro h
  obtain ⟨t', r, hdelete, -⟩ := h 4096 0 rootOnly rfl 0 0 (Nat.zero_le _)
  cases hdelete

end MultiversionBalancer.Core
