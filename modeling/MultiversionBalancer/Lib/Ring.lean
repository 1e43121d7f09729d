import Mathlib.Data.List.Basic
import Mathlib.Data.Nat.Notation
import Mathlib.Tactic.SplitIfs

/-!
# Rings of cells

A memory of `n` cells that is read and written in circles.  What is written
behind the cells in use does not touch them as long as all fit together.
-/

namespace MultiversionBalancer.Lib

variable {α : Type*}

/-- The cells from `start` on, in a circle. -/
def ringRead (n : ℕ) (mem : ℕ → α) (start len : ℕ) : List α :=
  (List.range len).map fun j => mem ((start + j) % n)

def readCells (mem : ℕ → α) (start len : ℕ) : List α :=
  (List.range len).map fun j => mem (start + j)

/-- Overwrite cells of a memory. -/
def writeCells (mem : ℕ → α) (start : ℕ) (xs : List α) : ℕ → α :=
  fun i => if start ≤ i then (xs[i - start]?).getD (mem i) else mem i

section Read

variable {n : ℕ} {mem mem' : ℕ → α} {start len : ℕ}

theorem ringRead_length : (ringRead n mem start len).length = len := by
  simp [ringRead]

theorem ringRead_add (len len' : ℕ) :
    ringRead n mem start (len + len') =
      ringRead n mem start len ++ ringRead n mem (start + len) len' := by
  simp [ringRead, List.range_add, Nat.add_assoc]

theorem ringRead_congr
    (h : ∀ j < len, mem ((start + j) % n) = mem' ((start + j) % n)) :
    ringRead n mem start len = ringRead n mem' start len := by
  rw [ringRead, ringRead, List.map_inj_left]
  exact fun j hj => h j (List.mem_range.mp hj)

theorem ringRead_mod (h : start % n = len % n) (k : ℕ) :
    ringRead n mem start k = ringRead n mem len k := by
  rw [ringRead, ringRead, List.map_inj_left]
  intro j _
  rw [Nat.add_mod, h, ← Nat.add_mod]

theorem readCells_eq_ringRead (h : start + len ≤ n) :
    readCells mem start len = ringRead n mem start len := by
  rw [readCells, ringRead, List.map_inj_left]
  intro j hj
  rw [Nat.mod_eq_of_lt]
  have hlt := List.mem_range.mp hj
  omega

theorem readCells_wrap (hstart : start ≤ n) (hlen : n - start ≤ len)
    (hle : len - (n - start) ≤ n) :
    readCells mem start (n - start) ++ readCells mem 0 (len - (n - start)) =
      ringRead n mem start len := by
  have hsplit : len = (n - start) + (len - (n - start)) := by omega
  rw [readCells_eq_ringRead (n := n) (by omega),
    readCells_eq_ringRead (n := n) (by omega), hsplit, ringRead_add,
    Nat.add_sub_cancel_left]
  congr 1
  apply ringRead_mod
  rw [Nat.add_sub_of_le hstart]
  simp

end Read

section Write

variable {n : ℕ} {mem : ℕ → α} {start : ℕ} {xs : List α}

theorem writeCells_of_lt {i : ℕ} (h : i < start) :
    writeCells mem start xs i = mem i :=
  if_neg (Nat.not_le.mpr h)

theorem writeCells_of_ge {i : ℕ} (h : start + xs.length ≤ i) :
    writeCells mem start xs i = mem i := by
  rw [writeCells, if_pos (by omega), List.getElem?_eq_none (by omega)]
  rfl

theorem writeCells_get {j : ℕ} (h : j < xs.length) :
    writeCells mem start xs (start + j) = xs[j] := by
  rw [writeCells, if_pos (Nat.le_add_right _ _), Nat.add_sub_cancel_left,
    List.getElem?_eq_getElem h]
  rfl

/-- `mem'` is `mem` with `xs` written in a circle from `start` on. -/
structure RingWrite (n : ℕ) (mem : ℕ → α) (start : ℕ) (xs : List α)
    (mem' : ℕ → α) : Prop where
  new : ringRead n mem' start xs.length = xs
  old : ∀ i < n, (∀ j < xs.length, (start + j) % n ≠ i) → mem' i = mem i

theorem ringWrite_direct (h : start + xs.length ≤ n) :
    RingWrite n mem start xs (writeCells mem start xs) where
  new := by
    rw [← readCells_eq_ringRead h]
    apply List.ext_getElem
    · simp [readCells]
    · intro j hj hj'
      simp only [readCells, List.getElem_map, List.getElem_range]
      exact writeCells_get hj'
  old := by
    intro i hi hne
    by_cases hlt : i < start
    · exact writeCells_of_lt hlt
    · apply writeCells_of_ge
      by_contra hin
      refine hne (i - start) (by omega) ?_
      rw [Nat.add_sub_of_le (by omega), Nat.mod_eq_of_lt hi]

theorem ringWrite_wrap (hstart : start ≤ n) (hlen : n - start ≤ xs.length)
    (hle : xs.length ≤ n) :
    RingWrite n mem start xs
      (writeCells (writeCells mem start (xs.take (n - start))) 0
        (xs.drop (n - start))) where
  new := by
    rw [← readCells_wrap hstart hlen (by omega)]
    have htake : (xs.take (n - start)).length = n - start := by
      rw [List.length_take]
      omega
    have hdrop : (xs.drop (n - start)).length = xs.length - (n - start) :=
      List.length_drop
    have hfirst : readCells (writeCells (writeCells mem start
        (xs.take (n - start))) 0 (xs.drop (n - start))) start (n - start) =
        xs.take (n - start) := by
      apply List.ext_getElem
      · simp [readCells, htake]
      · intro j hj hj'
        simp only [readCells, List.getElem_map, List.getElem_range]
        rw [writeCells_of_ge (by omega), writeCells_get]
    have hsecond : readCells (writeCells (writeCells mem start
        (xs.take (n - start))) 0 (xs.drop (n - start))) 0
        (xs.length - (n - start)) = xs.drop (n - start) := by
      apply List.ext_getElem
      · simp [readCells]
      · intro j hj hj'
        simp only [readCells, List.getElem_map, List.getElem_range]
        exact writeCells_get hj'
    rw [hfirst, hsecond, List.take_append_drop]
  old := by
    intro i hi hne
    have htake : (xs.take (n - start)).length = n - start := by
      rw [List.length_take]
      omega
    have hlow : xs.length - (n - start) ≤ i := by
      by_contra hlt
      refine hne (n - start + i) (by omega) ?_
      rw [← Nat.add_assoc, Nat.add_sub_of_le hstart, Nat.add_mod_left,
        Nat.mod_eq_of_lt hi]
    have hhigh : i < start := by
      by_contra hge
      refine hne (i - start) (by omega) ?_
      rw [Nat.add_sub_of_le (by omega), Nat.mod_eq_of_lt hi]
    rw [writeCells_of_ge, writeCells_of_lt hhigh]
    rw [List.length_drop]
    omega

/-- Cells before a write that all fit in the ring stay as they are. -/
theorem RingWrite.before {mem' : ℕ → α} {base len : ℕ}
    (h : RingWrite n mem start xs mem') (hn : 0 < n)
    (hstart : start % n = (base + len) % n) (hfit : len + xs.length ≤ n) :
    ringRead n mem' base len = ringRead n mem base len := by
  apply ringRead_congr
  intro j hj
  apply h.old _ (Nat.mod_lt _ hn)
  intro k hk heq
  have hmod : (base + len + k) % n = (base + j) % n := by
    rw [← heq, Nat.add_mod, ← hstart, ← Nat.add_mod]
  have hdiv : (len + k - j) % n = 0 := by
    have hsub := Nat.sub_mod_eq_zero_of_mod_eq hmod
    rwa [show base + len + k - (base + j) = len + k - j by omega] at hsub
  rw [Nat.mod_eq_of_lt (by omega)] at hdiv
  omega

end Write

end MultiversionBalancer.Lib
