import MultiversionBalancer.Core.RadixTree
import Mathlib.Data.List.MinMax
import Mathlib.Data.Nat.Bitwise
import Mathlib.Tactic.Ring

/-!
# Longest prefixes

The functions of the radix tree for 32 and for 128 bits find the longest prefix of a key.
Prefixes are compared through their masks, and both kinds of functions read the same bits of
a key in the same order.
-/

namespace MultiversionBalancer.Core

open RadixTree

/-! ## The bits of a key -/

theorem visited_eq {σ : Type*} {masked : σ → Bool} {advance : σ → σ} {fuel n : ℕ} {s : σ}
    (hmasked : ∀ i < n, masked (advance^[i] s) = true) (hend : masked (advance^[n] s) = false)
    (hfuel : n < fuel) :
    visited masked advance fuel s = (List.range n).map fun i => advance^[i] s := by
  induction n generalizing fuel s with
  | zero =>
    obtain ⟨fuel, rfl⟩ := Nat.exists_eq_add_one_of_ne_zero (Nat.ne_of_gt hfuel)
    have hs : masked s = false := hend
    simp [visited, hs]
  | succ n ih =>
    obtain ⟨fuel, rfl⟩ := Nat.exists_eq_add_one_of_ne_zero (Nat.ne_of_gt (Nat.zero_lt_of_lt hfuel))
    have hs : masked s = true := hmasked 0 n.succ_pos
    have hrest := ih (s := advance s) (fun i hi => hmasked (i + 1) (by omega)) hend
      (Nat.lt_of_succ_lt_succ hfuel)
    rw [visited, if_pos hs, hrest, List.range_succ_eq_map, List.map_cons, List.map_map]
    rfl

/-- The mask with `n` leading bits of 32. -/
def mask32 (n : ℕ) : UInt32 :=
  UInt32.ofNat (2 ^ 32 - 2 ^ (32 - n))

/-- The `i`-th byte of the mask with `n` leading bits of 128. -/
def mask128 (n i : ℕ) : UInt8 :=
  UInt8.ofNat (2 ^ 8 - 2 ^ (8 - (n - 8 * i)))

/-- The bit that a search for 32 bits reads in its `i`-th round. -/
def bit32 (key : UInt32) (i : ℕ) : Bool :=
  key &&& advance32^[i] 0x80000000 != 0

/-- The bit that a search for 128 bits reads in its `i`-th round. -/
def bit128 (key : ℕ → UInt8) (i : ℕ) : Bool :=
  key (advanceFind128^[i] (0, 0x80)).1 &&& (advanceFind128^[i] (0, 0x80)).2 != 0

theorem testBit_leading {w n j : ℕ} (hj : j < w) :
    (2 ^ w - 2 ^ (w - n)).testBit j = decide (w - n ≤ j) := by
  have hmul : 2 ^ w - 2 ^ (w - n) = 2 ^ (w - n) * (2 ^ (w - (w - n)) - 1) := by
    rw [Nat.mul_sub, ← pow_add, mul_one, Nat.add_sub_cancel' (Nat.sub_le w n)]
  rw [hmul, Nat.testBit_two_pow_mul]
  by_cases h : w - n ≤ j
  · simp [h]
    omega
  · simp [h]

theorem leading_lt (w n : ℕ) : 2 ^ w - 2 ^ (w - n) < 2 ^ w :=
  Nat.sub_lt (Nat.two_pow_pos w) (Nat.two_pow_pos _)

/-- Two numbers agree under a mask when they have the same leading bits. -/
theorem and_leading_eq_iff {w n x y : ℕ} (hx : x < 2 ^ w) (hy : y < 2 ^ w) :
    x &&& (2 ^ w - 2 ^ (w - n)) = y &&& (2 ^ w - 2 ^ (w - n)) ↔
      ∀ j < w, w - n ≤ j → x.testBit j = y.testBit j := by
  constructor
  · intro h j hj hle
    have hbit := congrArg (Nat.testBit · j) h
    simpa [testBit_leading hj, hle] using hbit
  · intro h
    refine Nat.eq_of_testBit_eq fun j => ?_
    rw [Nat.testBit_and, Nat.testBit_and]
    by_cases hj : j < w
    · rw [testBit_leading hj]
      by_cases hle : w - n ≤ j
      · rw [h j hj hle]
      · simp [hle]
    · have hbig : 2 ^ w ≤ 2 ^ j := Nat.pow_le_pow_right (by omega) (by omega)
      rw [Nat.testBit_lt_two_pow (hx.trans_le hbig), Nat.testBit_lt_two_pow (hy.trans_le hbig)]

theorem uint32_and_ne_zero (key : UInt32) {k : ℕ} (hk : k < 32) :
    (key &&& UInt32.ofNat (2 ^ k) != 0) = key.toNat.testBit k := by
  have hlt : 2 ^ k < 2 ^ 32 := Nat.pow_lt_pow_right (by omega) hk
  have hnat : (key &&& UInt32.ofNat (2 ^ k)).toNat = (key.toNat.testBit k).toNat * 2 ^ k := by
    rw [UInt32.toNat_and, UInt32.toNat_ofNat', Nat.mod_eq_of_lt hlt, Nat.and_two_pow]
  have hiff : key &&& UInt32.ofNat (2 ^ k) = 0 ↔ key.toNat.testBit k = false := by
    rw [← UInt32.toNat_inj, hnat]
    simp
  rw [Bool.eq_iff_iff, bne_iff_ne, ne_eq, hiff, Bool.not_eq_false]

theorem uint8_and_ne_zero (key : UInt8) {k : ℕ} (hk : k < 8) :
    (key &&& UInt8.ofNat (2 ^ k) != 0) = key.toNat.testBit k := by
  have hlt : 2 ^ k < 2 ^ 8 := Nat.pow_lt_pow_right (by omega) hk
  have hnat : (key &&& UInt8.ofNat (2 ^ k)).toNat = (key.toNat.testBit k).toNat * 2 ^ k := by
    rw [UInt8.toNat_and, UInt8.toNat_ofNat', Nat.mod_eq_of_lt hlt, Nat.and_two_pow]
  have hiff : key &&& UInt8.ofNat (2 ^ k) = 0 ↔ key.toNat.testBit k = false := by
    rw [← UInt8.toNat_inj, hnat]
    simp
  rw [Bool.eq_iff_iff, bne_iff_ne, ne_eq, hiff, Bool.not_eq_false]

theorem advance32_iterate : ∀ i < 32, advance32^[i] 0x80000000 = UInt32.ofNat (2 ^ (31 - i)) := by
  decide

theorem advance128_iterate :
    ∀ i < 128, advance128^[i] (0, 0x80) = (i / 8, UInt8.ofNat (2 ^ (7 - i % 8))) := by
  decide

theorem advance128_end : advance128^[128] (0, 0x80) = (16, 0) := by
  rw [Function.iterate_succ_apply', advance128_iterate 127 (by omega)]
  rfl

theorem advanceFind128_iterate :
    ∀ i < 128, advanceFind128^[i] (0, 0x80) = (i / 8, UInt8.ofNat (2 ^ (7 - i % 8))) := by
  decide

theorem bit32_eq (key : UInt32) {i : ℕ} (hi : i < 32) :
    bit32 key i = key.toNat.testBit (31 - i) := by
  rw [bit32, advance32_iterate i hi, uint32_and_ne_zero key (by omega)]

theorem bit128_eq (key : ℕ → UInt8) {i : ℕ} (hi : i < 128) :
    bit128 key i = (key (i / 8)).toNat.testBit (7 - i % 8) := by
  rw [bit128, advanceFind128_iterate i hi, uint8_and_ne_zero _ (by omega)]

/-- The loops for 32 bits read the bits that a search reads, as many as the mask has. -/
theorem maskedBits32_mask (key : UInt32) {n : ℕ} (hn : n ≤ 32) :
    maskedBits32 key (mask32 n) = (List.range n).map (bit32 key) := by
  have hmask (i : ℕ) (hi : i < 32) :
      (advance32^[i] 0x80000000 &&& mask32 n != 0) = decide (i < n) := by
    rw [advance32_iterate i hi, UInt32.and_comm, uint32_and_ne_zero _ (by omega), mask32,
      UInt32.toNat_ofNat', Nat.mod_eq_of_lt (leading_lt 32 n), testBit_leading (by omega)]
    exact decide_eq_decide.mpr (by omega)
  rw [maskedBits32, visited_eq (n := n) ?_ ?_ (by omega), List.map_map]
  · rfl
  · intro i hi
    rw [hmask i (by omega)]
    exact decide_eq_true hi
  · by_cases h32 : n = 32
    · subst h32
      decide
    · rw [hmask n (by omega)]
      exact decide_eq_false (lt_irrefl n)

theorem maskedBits128_mask (key : ℕ → UInt8) {n : ℕ} (hn : n ≤ 128) :
    maskedBits128 key (mask128 n) = (List.range n).map (bit128 key) := by
  have hmask (i : ℕ) (hi : i < 128) :
      ((advance128^[i] (0, 0x80)).2 &&& mask128 n (advance128^[i] (0, 0x80)).1 != 0) =
        decide (i < n) := by
    rw [advance128_iterate i hi, UInt8.and_comm, uint8_and_ne_zero _ (by omega), mask128,
      UInt8.toNat_ofNat', Nat.mod_eq_of_lt (leading_lt 8 _), testBit_leading (by omega)]
    exact decide_eq_decide.mpr (by omega)
  rw [maskedBits128, visited_eq (n := n) ?_ ?_ (by omega), List.map_map]
  · refine List.map_congr_left fun i hi => ?_
    have hi' : i < 128 := (List.mem_range.mp hi).trans_le hn
    simp only [Function.comp, bit128, advance128_iterate i hi', advanceFind128_iterate i hi']
  · intro i hi
    rw [hmask i (by omega)]
    exact decide_eq_true hi
  · by_cases h128 : n = 128
    · subst h128
      rw [advance128_end]
      rfl
    · rw [hmask n (by omega)]
      exact decide_eq_false (lt_irrefl n)

/-- Two keys agree under a mask when they have the same leading bits. -/
theorem and_mask32_eq_iff (x y : UInt32) {n : ℕ} (hn : n ≤ 32) :
    x &&& mask32 n = y &&& mask32 n ↔ ∀ i < n, bit32 x i = bit32 y i := by
  rw [← UInt32.toNat_inj, UInt32.toNat_and, UInt32.toNat_and, mask32, UInt32.toNat_ofNat',
    Nat.mod_eq_of_lt (leading_lt 32 n), and_leading_eq_iff x.toNat_lt y.toNat_lt]
  constructor
  · intro h i hi
    rw [bit32_eq x (by omega), bit32_eq y (by omega)]
    exact h (31 - i) (by omega) (by omega)
  · intro h j hj hle
    have hi := h (31 - j) (by omega)
    rw [bit32_eq x (by omega), bit32_eq y (by omega), show 31 - (31 - j) = j by omega] at hi
    exact hi

theorem and_mask128_eq_iff (x y : ℕ → UInt8) {n : ℕ} (hn : n ≤ 128) :
    (∀ i < 16, x i &&& mask128 n i = y i &&& mask128 n i) ↔
      ∀ i < n, bit128 x i = bit128 y i := by
  have hbyte (i : ℕ) : x i &&& mask128 n i = y i &&& mask128 n i ↔
      ∀ j < 8, 8 - (n - 8 * i) ≤ j → (x i).toNat.testBit j = (y i).toNat.testBit j := by
    rw [← UInt8.toNat_inj, UInt8.toNat_and, UInt8.toNat_and, mask128, UInt8.toNat_ofNat',
      Nat.mod_eq_of_lt (leading_lt 8 _), and_leading_eq_iff (x i).toNat_lt (y i).toNat_lt]
  constructor
  · intro h i hi
    rw [bit128_eq x (by omega), bit128_eq y (by omega)]
    exact (hbyte (i / 8)).mp (h (i / 8) (by omega)) (7 - i % 8) (by omega) (by omega)
  · intro h i hi
    refine (hbyte i).mpr fun j hj hle => ?_
    have hbit := h (8 * i + (7 - j)) (by omega)
    rw [bit128_eq x (by omega), bit128_eq y (by omega),
      show (8 * i + (7 - j)) / 8 = i by omega,
      show 7 - (8 * i + (7 - j)) % 8 = j by omega] at hbit
    exact hbit

/-! ## Sets of prefixes -/

/-- A prefix of `length` bits with its value. -/
structure Prefix (K : Type) where
  key : K
  length : ℕ
  value : UInt64

/-- How the keys of one width are compared: `same mask x y` says that two keys agree on the
bits of a mask. -/
structure KeyKind (K : Type) where
  width : ℕ
  mask : ℕ → K
  same : K → K → K → Bool

def keys32 : KeyKind UInt32 where
  width := 32
  mask := mask32
  same mask x y := x &&& mask == y &&& mask

def keys128 : KeyKind (ℕ → UInt8) where
  width := 128
  mask := mask128
  same mask x y := (List.range 16).all fun i => x i &&& mask i == y i &&& mask i

/-- The calls that change a tree. -/
inductive RadixCall (K : Type) where
  | insert (key : K) (length : ℕ) (value : UInt64)
  | delete (key : K) (length : ℕ)

namespace KeyKind

variable {K : Type} (kind : KeyKind K)

/-- The prefix of `length` bits of `key` is in the set. -/
def has (L : List (Prefix K)) (key : K) (length : ℕ) : Bool :=
  L.any fun e => e.length == length && kind.same (kind.mask length) e.key key

/-- The prefixes after a call.  A prefix that is inserted without a value is not added. -/
def after (L : List (Prefix K)) : RadixCall K → List (Prefix K)
  | .insert key length value =>
    if kind.has L key length || value == noRadixValue then L else ⟨key, length, value⟩ :: L
  | .delete key length =>
    L.filter fun e => !(e.length == length && kind.same (kind.mask length) e.key key)

def result (L : List (Prefix K)) : RadixCall K → RadixResult
  | .insert key length _ => if kind.has L key length then .busy else .ok
  | .delete _ _ => .ok

/-- Only prefixes that are there and have bits are deleted. -/
def Allowed (L : List (Prefix K)) : RadixCall K → Prop
  | .insert _ length _ => length ≤ kind.width
  | .delete key length => 0 < length ∧ length ≤ kind.width ∧ kind.has L key length = true

/-- Every call is allowed in the set that the calls before it have made. -/
def AllowedRun : List (Prefix K) → List (RadixCall K) → Prop
  | _, [] => True
  | L, c :: calls => kind.Allowed L c ∧ AllowedRun (kind.after L c) calls

instance decidableAllowed (L : List (Prefix K)) : ∀ c, Decidable (kind.Allowed L c)
  | .insert _ length _ => inferInstanceAs (Decidable (length ≤ kind.width))
  | .delete key length =>
    inferInstanceAs (Decidable (0 < length ∧ length ≤ kind.width ∧ kind.has L key length = true))

instance decidableAllowedRun : ∀ L calls, Decidable (kind.AllowedRun L calls)
  | _, [] => isTrue trivial
  | L, c :: calls =>
    have := decidableAllowedRun (kind.after L c) calls
    inferInstanceAs (Decidable (kind.Allowed L c ∧ kind.AllowedRun (kind.after L c) calls))

/-- The results of a sequence of calls. -/
def results : List (Prefix K) → List (RadixCall K) → List RadixResult
  | _, [] => []
  | L, c :: calls => kind.result L c :: results (kind.after L c) calls

/-- The value of the longest prefix in the set that covers the key. -/
def lookup (L : List (Prefix K)) (key : K) : UInt64 :=
  ((L.filter fun e => kind.same (kind.mask e.length) e.key key).argmax Prefix.length).elim
    noRadixValue Prefix.value

end KeyKind

/-- The three functions for keys of one width. -/
structure RadixFunctions (K : Type) where
  insert : RadixTree → K → K → UInt64 → RadixTree × RadixResult
  delete : RadixTree → K → K → Option (RadixTree × RadixResult)
  find : RadixTree → ℕ → K → Option UInt64

def functions32 : RadixFunctions UInt32 :=
  ⟨ngxRadix32treeInsert, ngxRadix32treeDelete, ngxRadix32treeFind⟩

def functions128 : RadixFunctions (ℕ → UInt8) :=
  ⟨ngxRadix128treeInsert, ngxRadix128treeDelete, ngxRadix128treeFind⟩

namespace RadixFunctions

variable {K : Type} (f : RadixFunctions K) (kind : KeyKind K)

def call (t : RadixTree) : RadixCall K → Option (RadixTree × RadixResult)
  | .insert key length value => some (f.insert t key (kind.mask length) value)
  | .delete key length => f.delete t key (kind.mask length)

def run : RadixTree → List (RadixCall K) → Option (RadixTree × List RadixResult)
  | t, [] => some (t, [])
  | t, c :: calls => do
    let (t, result) ← f.call kind t c
    let (t, results) ← run t calls
    pure (t, result :: results)

/-- The functions read the bits `bits` of a key, as many as the mask has. -/
structure Reads (bits : K → ℕ → Bool) : Prop where
  insert : ∀ t key n v, n ≤ kind.width →
    f.insert t key (kind.mask n) v = t.insert ((List.range n).map (bits key)) v
  delete : ∀ t key n, n ≤ kind.width →
    f.delete t key (kind.mask n) = t.delete ((List.range n).map (bits key))
  find : ∀ t fuel key, f.find t fuel key = t.find (bits key) fuel 0 noRadixValue (some t.root)
  same : ∀ n x y, n ≤ kind.width →
    (kind.same (kind.mask n) x y = true ↔ ∀ i < n, bits x i = bits y i)

end RadixFunctions

theorem functions32_reads : functions32.Reads keys32 bit32 where
  insert t key n v hn := by
    have hn' : n ≤ 32 := hn
    simp only [functions32, keys32, ngxRadix32treeInsert, maskedBits32_mask key hn']
  delete t key n hn := by
    have hn' : n ≤ 32 := hn
    simp only [functions32, keys32, ngxRadix32treeDelete, maskedBits32_mask key hn']
  find t fuel key := rfl
  same n x y hn := by
    rw [← and_mask32_eq_iff x y hn]
    exact beq_iff_eq

theorem functions128_reads : functions128.Reads keys128 bit128 where
  insert t key n v hn := by
    have hn' : n ≤ 128 := hn
    simp only [functions128, keys128, ngxRadix128treeInsert, maskedBits128_mask key hn']
  delete t key n hn := by
    have hn' : n ≤ 128 := hn
    simp only [functions128, keys128, ngxRadix128treeDelete, maskedBits128_mask key hn']
  find t fuel key := rfl
  same n x y hn := by
    rw [← and_mask128_eq_iff x y hn]
    simp [keys128]

/-! ## Trees and sets of prefixes -/

section

variable {K : Type} {f : RadixFunctions K} {kind : KeyKind K} {bits : K → ℕ → Bool}
  {t : RadixTree} {L : List (Prefix K)}

def Prefix.path (bits : K → ℕ → Bool) (e : Prefix K) : List Bool :=
  (List.range e.length).map (bits e.key)

/-- The values in the tree are those of the prefixes. -/
structure Holds (kind : KeyKind K) (bits : K → ℕ → Bool) (t : RadixTree)
    (L : List (Prefix K)) : Prop where
  sound : t.Sound kind.width
  entry : ∀ e ∈ L, e.length ≤ kind.width ∧ e.value ≠ noRadixValue ∧
    t.valueAt (e.path bits) = e.value
  only : ∀ p, t.valueAt p ≠ noRadixValue → ∃ e ∈ L, e.path bits = p

theorem path_eq_iff (x y : ℕ → Bool) (m n : ℕ) :
    (List.range m).map x = (List.range n).map y ↔ m = n ∧ ∀ i < n, x i = y i := by
  constructor
  · intro h
    have hlen : m = n := by simpa using congrArg List.length h
    subst hlen
    refine ⟨rfl, fun i hi => ?_⟩
    have hi' := congrArg (·[i]?) h
    simpa [hi] using hi'
  · rintro ⟨rfl, h⟩
    exact List.map_congr_left fun i hi => h i (List.mem_range.mp hi)

theorem RadixFunctions.Reads.path_eq (h : f.Reads kind bits) {e : Prefix K} {key : K} {n : ℕ}
    (hn : n ≤ kind.width) :
    (e.length == n && kind.same (kind.mask n) e.key key) = true ↔
      e.path bits = (List.range n).map (bits key) := by
  rw [Prefix.path, path_eq_iff, Bool.and_eq_true, beq_iff_eq, h.same n _ _ hn]

theorem RadixFunctions.Reads.has_iff (h : f.Reads kind bits) (hL : Holds kind bits t L) {key : K}
    {n : ℕ} (hn : n ≤ kind.width) :
    kind.has L key n = true ↔ t.valueAt ((List.range n).map (bits key)) ≠ noRadixValue := by
  rw [KeyKind.has, List.any_eq_true]
  constructor
  · rintro ⟨e, he, hsame⟩
    rw [← (h.path_eq hn).mp hsame, (hL.entry e he).2.2]
    exact (hL.entry e he).2.1
  · intro hv
    obtain ⟨e, he, hpath⟩ := hL.only _ hv
    exact ⟨e, he, (h.path_eq hn).mpr hpath⟩

/-- The prefixes stay when the values do. -/
theorem Holds.congr (hL : Holds kind bits t L) {t' : RadixTree} (hsound : t'.Sound kind.width)
    (hvalue : ∀ p, t'.valueAt p = t.valueAt p) : Holds kind bits t' L where
  sound := hsound
  entry e he := by
    rw [hvalue]
    exact hL.entry e he
  only p hp := by
    rw [hvalue] at hp
    exact hL.only p hp

theorem Holds.insert (hf : f.Reads kind bits) (hL : Holds kind bits t L) {key : K} {n : ℕ}
    {v : UInt64} (hn : kind.Allowed L (.insert key n v)) :
    (f.insert t key (kind.mask n) v).2 = kind.result L (.insert key n v) ∧
      Holds kind bits (f.insert t key (kind.mask n) v).1 (kind.after L (.insert key n v)) ∧
      (kind.has L key n = true → (f.insert t key (kind.mask n) v).1 = t) := by
  replace hn : n ≤ kind.width := hn
  rw [hf.insert t key n v hn]
  have hlen : ((List.range n).map (bits key)).length ≤ kind.width := by simpa using hn
  obtain ⟨hbusy, hok⟩ := hL.sound.insert hlen v
  by_cases hhas : kind.has L key n = true
  · rw [hbusy ((hf.has_iff hL hn).mp hhas)]
    simp only [KeyKind.result, KeyKind.after, hhas, if_true, Bool.true_or]
    exact ⟨trivial, hL, fun _ => trivial⟩
  · have hno : t.valueAt ((List.range n).map (bits key)) = noRadixValue := by
      by_contra hv
      exact hhas ((hf.has_iff hL hn).mpr hv)
    obtain ⟨hres, hsound, hvalue⟩ := hok hno
    refine ⟨?_, ?_, fun h => absurd h hhas⟩
    · rw [hres, KeyKind.result, if_neg hhas]
    by_cases hv : v = noRadixValue
    · -- without a value nothing is added
      rw [KeyKind.after, if_pos (by simp [hv])]
      refine hL.congr hsound fun p => ?_
      rw [hvalue]
      by_cases hp : p = (List.range n).map (bits key)
      · rw [if_pos hp, hp, hno, hv]
      · rw [if_neg hp]
    · rw [KeyKind.after, if_neg (by simp [hhas, hv])]
      refine ⟨hsound, ?_, ?_⟩
      · intro e he
        obtain rfl | he := List.mem_cons.mp he
        · refine ⟨hn, hv, ?_⟩
          rw [hvalue, Prefix.path, if_pos rfl]
        · obtain ⟨hlen, hne, heq⟩ := hL.entry e he
          refine ⟨hlen, hne, ?_⟩
          rw [hvalue, if_neg, heq]
          intro hpath
          rw [hpath, hno] at heq
          exact hne heq.symm
      · intro p hp
        rw [hvalue] at hp
        by_cases hpath : p = (List.range n).map (bits key)
        · exact ⟨_, List.mem_cons_self, hpath.symm⟩
        · rw [if_neg hpath] at hp
          obtain ⟨e, he, heq⟩ := hL.only p hp
          exact ⟨e, List.mem_cons_of_mem _ he, heq⟩

theorem Holds.delete (hf : f.Reads kind bits) (hL : Holds kind bits t L) {key : K} {n : ℕ}
    (hallowed : kind.Allowed L (.delete key n)) :
    ∃ t', f.delete t key (kind.mask n) = some (t', .ok) ∧
      Holds kind bits t' (kind.after L (.delete key n)) := by
  obtain ⟨hpos, hn, hhas⟩ := hallowed
  have hne : (List.range n).map (bits key) ≠ [] := by
    simp only [ne_eq, List.map_eq_nil_iff, List.range_eq_nil]
    omega
  obtain ⟨t', heq, hsound, hvalue⟩ := hL.sound.delete hne ((hf.has_iff hL hn).mp hhas)
  refine ⟨t', ?_, hsound, ?_, ?_⟩
  · rw [hf.delete t key n hn, heq]
  · intro e he
    obtain ⟨he, hother⟩ := List.mem_filter.mp he
    rw [Bool.not_eq_true', ← Bool.not_eq_true, hf.path_eq hn] at hother
    rw [hvalue, if_neg hother]
    exact hL.entry e he
  · intro p hp
    rw [hvalue] at hp
    split at hp
    · exact absurd rfl hp
    · rename_i hpath
      obtain ⟨e, he, rfl⟩ := hL.only p hp
      refine ⟨e, List.mem_filter.mpr ⟨he, ?_⟩, rfl⟩
      rw [Bool.not_eq_true', ← Bool.not_eq_true, hf.path_eq hn]
      exact hpath

theorem longest_of_last {x : ℕ → Bool} {k d : ℕ} (hkd : k ≤ d)
    (hk : t.valueAt ((List.range k).map x) ≠ noRadixValue ∨ k = 0)
    (hlater : ∀ j, k < j → j ≤ d → t.valueAt ((List.range j).map x) = noRadixValue) :
    t.longest x d = t.valueAt ((List.range k).map x) := by
  induction d, hkd using Nat.le_induction with
  | base =>
    cases k with
    | zero => rfl
    | succ k =>
      rw [longest, if_pos]
      simpa using hk
  | succ d hkd ih =>
    rw [longest, if_neg (by simp [hlater (d + 1) (by omega) le_rfl])]
    exact ih fun j hj hjd => hlater j hj (by omega)

/-- A search returns the value of the longest prefix that covers the key. -/
theorem Holds.find (hf : f.Reads kind bits) (hL : Holds kind bits t L) {fuel : ℕ}
    (hfuel : kind.width < fuel) (key : K) : f.find t fuel key = some (kind.lookup L key) := by
  rw [hf.find, hL.sound.find (bits key) hfuel]
  have hcovers (e : Prefix K) (he : e ∈ L) :
      e ∈ L.filter (fun e => kind.same (kind.mask e.length) e.key key) ↔
        e.path bits = (List.range e.length).map (bits key) := by
    rw [List.mem_filter, Prefix.path, path_eq_iff, hf.same _ _ _ (hL.entry e he).1]
    simp [he]
  -- a value on the path of the key is the value of a prefix that covers it
  have hentry (j : ℕ) (hj : t.valueAt ((List.range j).map (bits key)) ≠ noRadixValue) :
      ∃ e ∈ L.filter (fun e => kind.same (kind.mask e.length) e.key key), e.length = j := by
    obtain ⟨e, he, hpath⟩ := hL.only _ hj
    have hlen : e.length = j := by simpa [Prefix.path] using congrArg List.length hpath
    refine ⟨e, (hcovers e he).mpr ?_, hlen⟩
    rw [hpath, hlen]
  rw [KeyKind.lookup]
  cases hmax : (L.filter fun e => kind.same (kind.mask e.length) e.key key).argmax
    Prefix.length with
  | none =>
    rw [List.argmax_eq_none] at hmax
    have hall (j : ℕ) : t.valueAt ((List.range j).map (bits key)) = noRadixValue := by
      by_contra hj
      obtain ⟨e, he, -⟩ := hentry j hj
      simp [hmax] at he
    rw [longest_of_last (Nat.zero_le _) (.inr rfl) fun j _ _ => hall j, hall 0]
    rfl
  | some e =>
    have hmem := List.argmax_mem hmax
    have he := (List.mem_filter.mp hmem).1
    obtain ⟨hlen, hne, hval⟩ := hL.entry e he
    rw [(hcovers e he).mp hmem] at hval
    rw [longest_of_last hlen (.inl (by rwa [hval])), hval]
    · rfl
    · intro j hj _
      by_contra hv
      obtain ⟨e', he', rfl⟩ := hentry j hv
      exact absurd (List.le_of_mem_argmax he' hmax) (by omega)

/-- What the functions do with a tree that holds the prefixes `L`. -/
structure Serves (f : RadixFunctions K) (kind : KeyKind K) (t : RadixTree)
    (L : List (Prefix K)) : Prop where
  find : ∀ key fuel, kind.width < fuel → f.find t fuel key = some (kind.lookup L key)
  busy : ∀ key n v, n ≤ kind.width →
    ((f.insert t key (kind.mask n) v).2 = .busy ↔ kind.has L key n = true) ∧
    (kind.has L key n = true → (f.insert t key (kind.mask n) v).1 = t)

theorem Holds.serves (hf : f.Reads kind bits) (hL : Holds kind bits t L) : Serves f kind t L where
  find key fuel hfuel := hL.find hf hfuel key
  busy key n v hn := by
    have hinsert : kind.Allowed L (.insert key n v) := hn
    obtain ⟨hres, -, hsame⟩ := hL.insert hf hinsert
    refine ⟨?_, hsame⟩
    rw [hres, KeyKind.result]
    split <;> simp_all

/-- Allowed calls have the results that the prefixes call for. -/
theorem Holds.run (hf : f.Reads kind bits) (hL : Holds kind bits t L)
    {calls : List (RadixCall K)} (hcalls : kind.AllowedRun L calls) :
    ∃ t', f.run kind t calls = some (t', kind.results L calls) ∧
      Holds kind bits t' (calls.foldl kind.after L) := by
  induction calls generalizing t L with
  | nil => exact ⟨t, rfl, hL⟩
  | cons c calls ih =>
    obtain ⟨hc, hrest⟩ := hcalls
    obtain ⟨t₁, hcall, hL₁⟩ : ∃ t₁, f.call kind t c = some (t₁, kind.result L c) ∧
        Holds kind bits t₁ (kind.after L c) := by
      cases c with
      | insert key n v =>
        obtain ⟨hres, hafter, -⟩ := hL.insert hf hc
        exact ⟨_, by rw [RadixFunctions.call, ← hres], hafter⟩
      | delete key n => exact hL.delete hf hc
    obtain ⟨t', hrun, hL'⟩ := ih hL₁ hrest
    exact ⟨t', by simp [RadixFunctions.run, hcall, hrun, KeyKind.results], hL'⟩

end

/-! ## The tree that is created -/

theorem visited_length_le {σ : Type*} {masked : σ → Bool} {advance : σ → σ} {fuel n : ℕ} {s : σ}
    (hend : masked (advance^[n] s) = false) : (visited masked advance fuel s).length ≤ n := by
  induction fuel generalizing n s with
  | zero => exact Nat.zero_le n
  | succ fuel ih =>
    rw [visited]
    split_ifs with hs
    · cases n with
      | zero => exact absurd hs (by simpa using hend)
      | succ n =>
        rw [List.length_cons]
        exact Nat.succ_le_succ (ih hend)
    · exact Nat.zero_le n

theorem maskedBits32_length (key mask : UInt32) : (maskedBits32 key mask).length ≤ 32 := by
  rw [maskedBits32, List.length_map]
  refine visited_length_le ?_
  have hzero : advance32^[32] 0x80000000 = 0 := by decide
  simp [hzero]

/-- A sound tree without values. -/
def Blank (t : RadixTree) : Prop :=
  t.Sound 32 ∧ ∀ p, t.valueAt p = noRadixValue

theorem Blank.insert {t : RadixTree} (h : Blank t) (key mask : UInt32) :
    (t.ngxRadix32treeInsert key mask noRadixValue).2 = .ok ∧
      Blank (t.ngxRadix32treeInsert key mask noRadixValue).1 := by
  obtain ⟨hres, hsound, hvalue⟩ :=
    (h.1.insert (maskedBits32_length key mask) noRadixValue).2 (h.2 _)
  refine ⟨hres, hsound, fun p => ?_⟩
  rw [ngxRadix32treeInsert, hvalue, h.2 p, ite_self]

/-- The inner loop ends when `key` has come round. -/
theorem Blank.fillLevel {t : RadixTree} (h : Blank t) (mask inc : UInt32) {fuel k : ℕ}
    {key : UInt32} (hk : k < fuel)
    (hround : (key.toNat + (k + 1) * inc.toNat) % 2 ^ 32 = 0) :
    ∃ t', fillLevel mask inc fuel t key = some t' ∧ Blank t' := by
  induction fuel generalizing t k key with
  | zero => omega
  | succ fuel ih =>
    obtain ⟨hres, hblank⟩ := h.insert key mask
    have hcall : t.ngxRadix32treeInsert key mask noRadixValue =
        ((t.ngxRadix32treeInsert key mask noRadixValue).1, .ok) := by
      rw [← hres]
    rw [RadixTree.fillLevel, hcall]
    by_cases hzero : key + inc = 0
    · exact ⟨_, if_pos hzero, hblank⟩
    · simp only [if_neg hzero]
      cases k with
      | zero =>
        refine absurd (UInt32.toNat.inj ?_) hzero
        rw [UInt32.toNat_add]
        simpa using hround
      | succ k =>
        refine ih hblank (Nat.lt_of_succ_lt_succ hk) ?_
        rw [UInt32.toNat_add, Nat.mod_add_mod, ← hround]
        congr 1
        ring

theorem Blank.preallocateLevels {t : RadixTree} (h : Blank t) (rounds : ℕ) (mask inc : UInt32) :
    ∃ t', preallocateLevels rounds mask inc t = some t' ∧ Blank t' := by
  induction rounds generalizing t mask inc with
  | zero => exact ⟨t, rfl, h⟩
  | succ rounds ih =>
    have hround : ((0 : UInt32).toNat + (2 ^ 32 - 1 + 1) * inc.toNat) % 2 ^ 32 = 0 := by simp
    obtain ⟨t₁, hfill, hblank⟩ :=
      h.fillLevel (mask >>> 1 ||| 0x80000000) inc (Nat.sub_lt (by omega) Nat.one_pos) hround
    obtain ⟨t', hrest, hblank'⟩ := ih hblank (mask >>> 1 ||| 0x80000000) (inc >>> 1)
    refine ⟨t', ?_, hblank'⟩
    rw [RadixTree.preallocateLevels]
    simp only [hfill, Option.bind_eq_bind, Option.bind_some]
    exact hrest

theorem walk_isolated {t : RadixTree} (h : ∀ n b, t.child n b = none) {p : List Bool} {n : ℕ}
    (hp : t.walk p = some n) : p = [] ∧ n = t.root := by
  cases p using List.reverseRecOn with
  | nil => exact ⟨rfl, by simpa [walk_nil] using hp.symm⟩
  | append_singleton p b =>
    obtain ⟨m, -, hc⟩ := walk_of_concat hp
    simp [h] at hc

/-- Whatever is preallocated, the tree that is created has no values. -/
theorem create_blank (pagesize : ℕ) (preallocate : ℤ) :
    ∃ t, ngxRadixTreeCreate pagesize preallocate = some t ∧ Blank t := by
  rw [ngxRadixTreeCreate]
  refine Blank.preallocateLevels ?_ _ _ _
  have hchild : ∀ n b, rootOnly.child n b = none := by
    intro n b
    cases b <;> rfl
  refine ⟨⟨?_, rfl, ?_, ?_, ?_, ⟨[], rfl, List.nodup_nil, by simp⟩⟩, ?_⟩
  · intro p q n hp hq
    rw [(walk_isolated hchild hp).1, (walk_isolated hchild hq).1]
  · intro p b n hp
    exact absurd (walk_isolated hchild hp).1 (by simp)
  · intro p n hp
    rw [(walk_isolated hchild hp).2]
    exact Nat.one_pos
  · intro p n hp
    rw [(walk_isolated hchild hp).1]
    exact Nat.zero_le _
  · intro p
    rw [valueAt]
    cases rootOnly.walk p <;> rfl

theorem Blank.holds {K : Type} {kind : KeyKind K} (bits : K → ℕ → Bool) {t : RadixTree}
    (h : Blank t) (hwidth : 32 ≤ kind.width) : Holds kind bits t [] where
  sound := h.1.mono hwidth
  entry _ he := absurd he List.not_mem_nil
  only p hp := absurd (h.2 p) hp

/-! ## Keys of 32 bits among those of 128 -/

/-- The four bytes of a key, in network order, with zeros behind. -/
def embed (key : UInt32) (i : ℕ) : UInt8 :=
  if i < 4 then UInt8.ofNat (key.toNat / 2 ^ (8 * (3 - i))) else 0

def RadixCall.embed : RadixCall UInt32 → RadixCall (ℕ → UInt8)
  | .insert key length value => .insert (Core.embed key) length value
  | .delete key length => .delete (Core.embed key) length

theorem bit128_of_embed {key : UInt32} {x : ℕ → UInt8} (hx : ∀ i < 4, x i = embed key i) {i : ℕ}
    (hi : i < 32) : bit128 x i = bit32 key i := by
  rw [bit128_eq x (by omega), bit32_eq key hi, hx (i / 8) (by omega), embed,
    if_pos (by omega), UInt8.toNat_ofNat', Nat.testBit_mod_two_pow, Nat.testBit_div_two_pow,
    decide_eq_true (by omega), Bool.true_and]
  congr 1
  omega

theorem path_embed (key : UInt32) {n : ℕ} (hn : n ≤ 32) :
    (List.range n).map (bit128 (embed key)) = (List.range n).map (bit32 key) := by
  rw [path_eq_iff]
  exact ⟨rfl, fun i hi => bit128_of_embed (fun _ _ => rfl) (by omega)⟩

/-- The functions for 128 bits do what those for 32 do. -/
theorem run_embed (t : RadixTree) (L : List (Prefix UInt32)) {calls : List (RadixCall UInt32)}
    (hcalls : keys32.AllowedRun L calls) :
    functions128.run keys128 t (calls.map RadixCall.embed) = functions32.run keys32 t calls := by
  induction calls generalizing t L with
  | nil => rfl
  | cons c calls ih =>
    obtain ⟨hc, hrest⟩ := hcalls
    have hcall : functions128.call keys128 t c.embed = functions32.call keys32 t c := by
      cases c with
      | insert key n v =>
        have hn : n ≤ 32 := hc
        have hn' : n ≤ keys128.width := hn.trans (by decide)
        rw [RadixCall.embed, RadixFunctions.call, RadixFunctions.call,
          functions128_reads.insert t _ n v hn', functions32_reads.insert t key n v hn,
          path_embed key hn]
      | delete key n =>
        have hn : n ≤ 32 := hc.2.1
        have hn' : n ≤ keys128.width := hn.trans (by decide)
        rw [RadixCall.embed, RadixFunctions.call, RadixFunctions.call,
          functions128_reads.delete t _ n hn', functions32_reads.delete t key n hn,
          path_embed key hn]
    rw [List.map_cons, RadixFunctions.run, RadixFunctions.run, hcall]
    cases hres : functions32.call keys32 t c with
    | none => rfl
    | some r =>
      simp only [Option.bind_eq_bind, Option.bind_some]
      rw [ih r.1 _ hrest]

theorem longest_congr (t : RadixTree) {x y : ℕ → Bool} {d : ℕ} (h : ∀ i < d, x i = y i) :
    t.longest x d = t.longest y d := by
  induction d with
  | zero => rfl
  | succ d ih =>
    have hpath : (List.range (d + 1)).map x = (List.range (d + 1)).map y :=
      (path_eq_iff x y _ _).mpr ⟨rfl, h⟩
    rw [longest, longest, hpath, ih fun i hi => h i (by omega)]

theorem find_embed {t : RadixTree} (ht : t.Sound 32) {fuel fuel' : ℕ} (hfuel : 32 < fuel)
    (hfuel' : 32 < fuel') {key : UInt32} {x : ℕ → UInt8} (hx : ∀ i < 4, x i = embed key i) :
    t.ngxRadix128treeFind fuel x = t.ngxRadix32treeFind fuel' key := by
  have h128 : t.ngxRadix128treeFind fuel x = some (t.longest (bit128 x) 32) := ht.find _ hfuel
  have h32 : t.ngxRadix32treeFind fuel' key = some (t.longest (bit32 key) 32) := ht.find _ hfuel'
  rw [h128, h32, longest_congr t fun i hi => bit128_of_embed hx hi]

/-- The radix tree finds longest prefixes: from the tree that is created with any
preallocation, allowed calls have the results that the set of prefixes calls for, and then
searches and insertions agree with this set, for 32 and for 128 bits alike; on prefixes of
at most 32 bits both kinds of functions build the same tree and find the same values. -/
theorem radix_tree_longest_prefix (pagesize : ℕ) (preallocate : ℤ) :
    ∃ t₀, ngxRadixTreeCreate pagesize preallocate = some t₀ ∧
      (∀ calls, keys32.AllowedRun [] calls →
        ∃ t, functions32.run keys32 t₀ calls = some (t, keys32.results [] calls) ∧
          Serves functions32 keys32 t (calls.foldl keys32.after [])) ∧
      (∀ calls, keys128.AllowedRun [] calls →
        ∃ t, functions128.run keys128 t₀ calls = some (t, keys128.results [] calls) ∧
          Serves functions128 keys128 t (calls.foldl keys128.after [])) ∧
      ∀ calls, keys32.AllowedRun [] calls →
        ∃ t results, functions32.run keys32 t₀ calls = some (t, results) ∧
          functions128.run keys128 t₀ (calls.map RadixCall.embed) = some (t, results) ∧
          ∀ key x, (∀ i < 4, x i = embed key i) → ∀ fuel, 128 < fuel →
            t.ngxRadix128treeFind fuel x = t.ngxRadix32treeFind fuel key := by
  obtain ⟨t₀, hcreate, hblank⟩ := create_blank pagesize preallocate
  refine ⟨t₀, hcreate, ?_, ?_, ?_⟩
  · intro calls hcalls
    have hL : Holds keys32 bit32 t₀ [] := hblank.holds bit32 le_rfl
    obtain ⟨t, hrun, hholds⟩ := hL.run functions32_reads hcalls
    exact ⟨t, hrun, hholds.serves functions32_reads⟩
  · intro calls hcalls
    have hL : Holds keys128 bit128 t₀ [] := hblank.holds bit128 (by decide)
    obtain ⟨t, hrun, hholds⟩ := hL.run functions128_reads hcalls
    exact ⟨t, hrun, hholds.serves functions128_reads⟩
  · intro calls hcalls
    have hL : Holds keys32 bit32 t₀ [] := hblank.holds bit32 le_rfl
    obtain ⟨t, hrun, hholds⟩ := hL.run functions32_reads hcalls
    refine ⟨t, _, hrun, ?_, ?_⟩
    · rw [run_embed t₀ [] hcalls, hrun]
    · intro key x hx fuel hfuel
      exact find_embed hholds.sound (by omega) (by omega) hx

/-- After the longer of two prefixes is deleted, the shorter one is found. -/
theorem radix_tree_longest_prefix_example :
    ∃ t₀ t, ngxRadixTreeCreate 4096 (-1) = some t₀ ∧
      functions32.run keys32 t₀ [.insert 0x0a000000 8 1, .insert 0x0a010000 16 2,
        .insert 0x0a01ffff 16 3, .delete 0x0a010000 16] = some (t, [.ok, .ok, .busy, .ok]) ∧
      t.ngxRadix32treeFind 33 0x0a010203 = some 1 := by
  obtain ⟨t₀, hcreate, h32, -, -⟩ := radix_tree_longest_prefix 4096 (-1)
  have hallowed : keys32.AllowedRun [] [.insert 0x0a000000 8 1, .insert 0x0a010000 16 2,
      .insert 0x0a01ffff 16 3, .delete 0x0a010000 16] := by
    decide
  obtain ⟨t, hrun, hserves⟩ := h32 _ hallowed
  exact ⟨t₀, t, hcreate, hrun, hserves.find 0x0a010203 33 (by decide)⟩

end MultiversionBalancer.Core
