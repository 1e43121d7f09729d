import Mathlib.Data.List.GetD
import Mathlib.Algebra.Ring.Nat

/-!
# Blocks of memory

A block holds a byte at each of its addresses.  A read or a write that leaves the block is a
failure.  `Block.Holds b a bs` says that the bytes `bs` lie at `a`: a write makes it true
of the bytes that are written, and keeps it for bytes that lie elsewhere.
-/

namespace MultiversionBalancer.Lib

/-- A block of memory: the address it begins at, its size and its bytes. -/
structure Block where
  start : ℕ
  size : ℕ
  data : ℕ → UInt8

namespace Block

variable {ε : Type} {b b' : Block} {a n : ℕ} {bs l r : List UInt8}

def bytesAt (b : Block) (a n : ℕ) : List UInt8 :=
  (List.range n).map fun i => b.data (a + i)

/-- `n` bytes from `a` on are inside of the block. -/
def Inside (b : Block) (a n : ℕ) : Prop :=
  b.start ≤ a ∧ a + n ≤ b.start + b.size

instance (b : Block) (a n : ℕ) : Decidable (b.Inside a n) :=
  inferInstanceAs (Decidable (_ ∧ _))

def read (bad : ε) (b : Block) (a n : ℕ) : Except ε (List UInt8) :=
  if b.Inside a n then .ok (b.bytesAt a n) else .error bad

/-- The block with other bytes from an address on. -/
def put (b : Block) (a : ℕ) (bs : List UInt8) : Block :=
  { b with data := fun x => if a ≤ x ∧ x < a + bs.length then bs.getD (x - a) 0 else b.data x }

def write (bad : ε) (b : Block) (a : ℕ) (bs : List UInt8) : Except ε Block :=
  if b.Inside a bs.length then .ok (b.put a bs) else .error bad

/-- The bytes lie at the address. -/
def Holds (b : Block) (a : ℕ) (bs : List UInt8) : Prop :=
  ∀ i < bs.length, b.data (a + i) = bs.getD i 0

theorem Inside.mono {a' n' : ℕ} (h : b.Inside a n) (ha : a ≤ a') (hn : a' + n' ≤ a + n) :
    b.Inside a' n' :=
  ⟨Nat.le_trans h.1 ha, Nat.le_trans hn h.2⟩

theorem write_of_inside (bad : ε) (h : b.Inside a bs.length) :
    b.write bad a bs = .ok (b.put a bs) :=
  if_pos h

theorem Holds.bytesAt (h : b.Holds a bs) : b.bytesAt a bs.length = bs := by
  refine List.ext_getElem ?_ fun i hi hbs => ?_
  · rw [Block.bytesAt, List.length_map, List.length_range]
  · simp only [Block.bytesAt, List.getElem_map, List.getElem_range, h i hbs,
      List.getD_eq_getElem _ _ hbs]

theorem Holds.read (bad : ε) (h : b.Holds a bs) (hin : b.Inside a bs.length) :
    b.read bad a bs.length = .ok bs := by
  rw [Block.read, if_pos hin, h.bytesAt]

theorem holds_append :
    b.Holds a (l ++ r) ↔ b.Holds a l ∧ b.Holds (a + l.length) r := by
  refine ⟨fun h => ⟨fun i hi => ?_, fun i hi => ?_⟩, fun h i hi => ?_⟩
  · rw [h i (by rw [List.length_append]; omega), List.getD_append _ _ _ _ hi]
  · have hboth := h (l.length + i) (by rw [List.length_append]; omega)
    rw [List.getD_append_right _ _ _ _ (Nat.le_add_right _ _), Nat.add_sub_cancel_left] at hboth
    rw [Nat.add_assoc, hboth]
  · by_cases hlt : i < l.length
    · rw [h.1 i hlt, List.getD_append _ _ _ _ hlt]
    · have hle := Nat.le_of_not_lt hlt
      have hright := h.2 (i - l.length) (by rw [List.length_append] at hi; omega)
      rw [Nat.add_assoc, Nat.add_sub_cancel' hle] at hright
      rw [hright, List.getD_append_right _ _ _ _ hle]

theorem holds_put (b : Block) (a : ℕ) (bs : List UInt8) : (b.put a bs).Holds a bs := by
  intro i hi
  have hin : a ≤ a + i ∧ a + i < a + bs.length := by omega
  simp only [put, if_pos hin, Nat.add_sub_cancel_left]

/-- Nothing changes outside of the bytes that are written. -/
theorem put_data {x : ℕ} (h : x < a ∨ a + bs.length ≤ x) : (b.put a bs).data x = b.data x :=
  if_neg (by omega)

/-- Bytes that lie elsewhere are kept. -/
theorem Holds.put {a' : ℕ} (h : b.Holds a l) (hapart : a + l.length ≤ a' ∨ a' + bs.length ≤ a) :
    (b.put a' bs).Holds a l := by
  intro i hi
  rw [put_data (by omega), h i hi]

/-- Two writes side by side. -/
theorem put_put (b : Block) (a : ℕ) (l r : List UInt8) :
    (b.put a l).put (a + l.length) r = b.put a (l ++ r) := by
  have hdata : ((b.put a l).put (a + l.length) r).data = (b.put a (l ++ r)).data := by
    funext x
    simp only [Block.put, List.length_append]
    by_cases hr : a + l.length ≤ x ∧ x < a + l.length + r.length
    · have hall : a ≤ x ∧ x < a + (l.length + r.length) := by omega
      rw [if_pos hr, if_pos hall, List.getD_append_right _ _ _ _ (by omega)]
      congr 1
      omega
    · by_cases hl : a ≤ x ∧ x < a + l.length
      · have hall : a ≤ x ∧ x < a + (l.length + r.length) := by omega
        rw [if_neg hr, if_pos hl, if_pos hall, List.getD_append _ _ _ _ (by omega)]
      · have hall : ¬(a ≤ x ∧ x < a + (l.length + r.length)) := by omega
        rw [if_neg hr, if_neg hl, if_neg hall]
  simp only [Block.put] at hdata ⊢
  rw [hdata]

end Block

/-! ## Numbers in memory -/

/-- The bytes of a number, the lowest one first. -/
def leBytes : ℕ → ℕ → List UInt8
  | 0, _ => []
  | k + 1, n => UInt8.ofNat n :: leBytes k (n / 256)

/-- The number of some bytes, the lowest one first. -/
def leValue : List UInt8 → ℕ
  | [] => 0
  | c :: bs => c.toNat + 256 * leValue bs

theorem length_leBytes (k n : ℕ) : (leBytes k n).length = k := by
  induction k generalizing n with
  | zero => rfl
  | succ k ih => rw [leBytes, List.length_cons, ih]

/-- A number that fits is read as it was written. -/
theorem leValue_leBytes {k n : ℕ} (hn : n < 256 ^ k) : leValue (leBytes k n) = n := by
  induction k generalizing n with
  | zero =>
      rw [Nat.pow_zero, Nat.lt_one_iff] at hn
      rw [hn]
      rfl
  | succ k ih =>
      have hnext : n / 256 < 256 ^ k := Nat.div_lt_of_lt_mul (by rwa [Nat.pow_succ'] at hn)
      rw [leBytes, leValue, ih hnext, UInt8.toNat_ofNat', Nat.mod_add_div]

end MultiversionBalancer.Lib
