import MultiversionBalancer.Http.Bytes
import MultiversionBalancer.Lib.Memory
import Mathlib.Logic.Function.Basic

/-!
# Static hashes

`ngx_hash_init` and `ngx_hash_find` of `ngx_hash.c` on a 64-bit machine.  The elements lie
in one block of memory; a read or a write that leaves the block is a failure.  Sizes of
what lies in memory do not wrap; the sizes of buckets are kept in 16 bits.
-/

namespace MultiversionBalancer.Core.Hash

open Http (bytes ngxTolower)
open Lib

/-! ## The functions of the source -/

inductive Failure where
  | outside
  | divideByZero
  | turns
  deriving DecidableEq

/-- `ngx_hash_key_t`; `key.data` may be `NULL`. -/
structure HashKey where
  key : Option (List UInt8)
  keyHash : BitVec 64
  value : BitVec 64

/-- A key whose data is not `NULL`. -/
structure Entry where
  key : List UInt8
  keyHash : BitVec 64
  value : BitVec 64

def HashKey.entry (n : HashKey) : Option Entry :=
  n.key.map fun key => ⟨key, n.keyHash, n.value⟩

/-- The keys that the loops do not skip. -/
def entries (names : List HashKey) : List Entry :=
  names.filterMap HashKey.entry

structure HashInit where
  maxSize : ℕ
  bucketSize : ℕ

/-- The size of a cache line and the memory that is handed out, with what it holds at first. -/
structure System where
  cachelineSize : ℕ
  ngxAlloc : ℕ → Bool
  ngxPcalloc : ℕ → Bool
  ngxPalloc : ℕ → Option ℕ
  junk : ℕ → UInt8
  eight_dvd : 8 ∣ cachelineSize
  dvd_word : cachelineSize ∣ 65536
  palloc_pos : ∀ n p, ngxPalloc n = some p → 0 < p

/-- `ngx_hash_t` and the block that the elements lie in; the address 0 is `NULL`. -/
structure HashTable where
  buckets : ℕ → ℕ
  size : ℕ
  elts : Block

/-- `ngx_align` and `ngx_align_ptr` to a power of two. -/
def ngxAlign (d a : ℕ) : ℕ := (d + (a - 1)) / a * a

/-- A number that is kept in a `u_short`. -/
def ushort (n : ℕ) : ℕ := n % 65536

def Entry.eltSize (e : Entry) : ℕ := 8 + ngxAlign (e.key.length + 2) 8

/-- The element of a name: its value, its length and its bytes in lower case. -/
def putElt (elts : Block) (p : ℕ) (e : Entry) : Except Failure Block := do
  let elts ← elts.write .outside p (leBytes 8 e.value.toNat)
  let elts ← elts.write .outside (p + 8) (leBytes 2 (ushort e.key.length))
  elts.write .outside (p + 10) (e.key.map ngxTolower)

def Entry.bucket (e : Entry) (size : ℕ) : ℕ := e.keyHash.toNat % size

/-- The two loops that add up the sizes of the buckets, each up to a limit; `none` stands for
the jump out of the loop. -/
def packSizes (size limit : ℕ) : List Entry → (ℕ → ℕ) → Option (ℕ → ℕ)
  | [], test => some test
  | e :: es, test =>
      let key := e.bucket size
      let len := test key + e.eltSize
      if limit < len then none
      else packSizes size limit es (Function.update test key (ushort len))

/-- The loop over the sizes, and the last size if none is found. -/
def searchSize (bucketSize maxSize : ℕ) (es : List Entry) : ℕ → ℕ → ℕ
  | 0, _ => maxSize
  | turns + 1, size =>
      if (packSizes size bucketSize es fun _ => 0).isSome then size
      else searchSize bucketSize maxSize es turns (size + 1)

/-- The size of a bucket that is not empty, in whole cache lines. -/
def alignSize (cacheline : ℕ) (test : ℕ → ℕ) (i : ℕ) : ℕ :=
  if test i = 8 then 8 else ushort (ngxAlign (test i) cacheline)

/-- The sum of the sizes of the buckets that are not empty, from `i` on. -/
def sumSizes (test : ℕ → ℕ) : ℕ → ℕ → ℕ
  | 0, _ => 0
  | turns + 1, i => (if test i = 8 then 0 else test i) + sumSizes test turns (i + 1)

/-- The loop that places the buckets that are not empty. -/
def placeBuckets (test : ℕ → ℕ) : ℕ → ℕ → ℕ → (ℕ → ℕ) → ℕ → ℕ
  | 0, _, _, buckets => buckets
  | turns + 1, i, elts, buckets =>
      if test i = 8 then placeBuckets test turns (i + 1) elts buckets
      else placeBuckets test turns (i + 1) (elts + test i) (Function.update buckets i elts)

/-- The loop that writes the elements. -/
def placeElts (size : ℕ) (buckets : ℕ → ℕ) : List Entry → (ℕ → ℕ) → Block →
    Except Failure ((ℕ → ℕ) × Block)
  | [], test, elts => .ok (test, elts)
  | e :: es, test, elts => do
      let key := e.bucket size
      let elts ← putElt elts (buckets key + test key) e
      placeElts size buckets es (Function.update test key (ushort (test key + e.eltSize))) elts

/-- The loop that ends the buckets with a `NULL`. -/
def endBuckets (test buckets : ℕ → ℕ) : ℕ → ℕ → Block → Except Failure Block
  | 0, _, elts => .ok elts
  | turns + 1, i, elts =>
      if buckets i = 0 then endBuckets test buckets turns (i + 1) elts
      else do
        let elts ← elts.write .outside (buckets i + test i) (leBytes 8 0)
        endBuckets test buckets turns (i + 1) elts

/-- `ngx_hash_init` from the label `found` on. -/
def buildHash (sys : System) (es : List Entry) (size : ℕ) :
    Except Failure (Option HashTable) :=
  match packSizes size (65536 - sys.cachelineSize) es fun _ => 8 with
  | none => .ok none
  | some test =>
      let test := alignSize sys.cachelineSize test
      let len := sumSizes test size 0
      if sys.ngxPcalloc (24 + size * 8) = false then .ok none
      else
        match sys.ngxPalloc (len + sys.cachelineSize) with
        | none => .ok none
        | some p => do
            let first := ngxAlign p sys.cachelineSize
            let buckets := placeBuckets test size 0 first fun _ => 0
            let block : Block := ⟨p, len + sys.cachelineSize, sys.junk⟩
            let (test, elts) ← placeElts size buckets es (fun _ => 0) block
            let elts ← endBuckets test buckets size 0 elts
            .ok (some ⟨buckets, size, elts⟩)

/-- The size at which the search begins. -/
def startSize (maxSize bucketSize nelts : ℕ) : ℕ :=
  if 10000 < maxSize ∧ nelts ≠ 0 ∧ maxSize / nelts < 100 then maxSize - 1000
  else if nelts / (bucketSize / 16) = 0 then 1
  else nelts / (bucketSize / 16)

/-- `ngx_hash_init`; `none` stands for `NGX_ERROR`. -/
def ngxHashInit (sys : System) (hinit : HashInit) (names : List HashKey) :
    Except Failure (Option HashTable) :=
  let es := entries names
  if hinit.maxSize = 0 then .ok none
  else if 65536 - sys.cachelineSize < hinit.bucketSize then .ok none
  else if es.any fun e => hinit.bucketSize < e.eltSize + 8 then .ok none
  else if sys.ngxAlloc (hinit.maxSize * 2) = false then .ok none
  else
    let bucketSize := (hinit.bucketSize + (2 ^ 64 - 8)) % 2 ^ 64
    if bucketSize / 16 = 0 then .error .divideByZero
    else
      let start := startSize hinit.maxSize bucketSize names.length
      buildHash sys es
        (searchSize bucketSize hinit.maxSize es (hinit.maxSize + 1 - start) start)

/-- The comparison of a name with the bytes of an element. -/
def sameName (elts : Block) : ℕ → List UInt8 → Except Failure Bool
  | _, [] => .ok true
  | p, c :: name => do
      let byte ← elts.read .outside p 1
      if byte = [c] then sameName elts (p + 1) name else .ok false

/-- The loop of `ngx_hash_find` from an element on. -/
def findElt (elts : Block) (name : List UInt8) : ℕ → ℕ → Except Failure (BitVec 64)
  | 0, _ => .error .turns
  | turns + 1, elt => do
      let value ← elts.read .outside elt 8
      if leValue value = 0 then .ok 0
      else do
        let len ← elts.read .outside (elt + 8) 2
        let same ← if name.length ≠ leValue len then .ok false
          else sameName elts (elt + 10) name
        if same then .ok (BitVec.ofNat 64 (leValue value))
        else findElt elts name turns (ngxAlign (elt + 10 + leValue len) 8)

def ngxHashFind (hash : HashTable) (key : BitVec 64) (name : List UInt8) :
    Except Failure (BitVec 64) :=
  if hash.size = 0 then .error .divideByZero
  else
    let elt := hash.buckets (key.toNat % hash.size)
    if elt = 0 then .ok 0 else findElt hash.elts name (hash.elts.size + 1) elt

/-! ## The sizes of the buckets -/

/-- The entries of a bucket, in their order. -/
def bucketOf (size : ℕ) (es : List Entry) (i : ℕ) : List Entry :=
  es.filter fun e => e.bucket size = i

/-- The size of some elements. -/
def extent (es : List Entry) : ℕ := (es.map Entry.eltSize).sum

@[simp] theorem extent_nil : extent [] = 0 := rfl

@[simp] theorem extent_cons (e : Entry) (es : List Entry) :
    extent (e :: es) = e.eltSize + extent es := rfl

theorem extent_append (l r : List Entry) : extent (l ++ r) = extent l + extent r := by
  rw [extent, List.map_append, List.sum_append]
  rfl

theorem le_ngxAlign {d a : ℕ} (ha : 0 < a) : d ≤ ngxAlign d a := by
  have hdiv := Nat.div_add_mod (d + (a - 1)) a
  have hmod := Nat.mod_lt (d + (a - 1)) ha
  rw [ngxAlign, Nat.mul_comm]
  omega

theorem ngxAlign_le {d a : ℕ} : ngxAlign d a ≤ d + (a - 1) :=
  Nat.div_mul_le_self _ _

theorem dvd_ngxAlign (d a : ℕ) : a ∣ ngxAlign d a :=
  Nat.dvd_mul_left _ _

/-- A multiple that is not exceeded is not exceeded by the aligned number. -/
theorem ngxAlign_le_of_dvd {d a m : ℕ} (ha : 0 < a) (hm : a ∣ m) (hd : d ≤ m) :
    ngxAlign d a ≤ m := by
  obtain ⟨k, rfl⟩ := hm
  have hlt : (d + (a - 1)) / a < k + 1 := by
    rw [Nat.div_lt_iff_lt_mul ha, Nat.add_mul, Nat.mul_comm k a]
    omega
  rw [ngxAlign, Nat.mul_comm]
  exact Nat.mul_le_mul_left a (Nat.le_of_lt_succ hlt)

theorem Entry.length_le_eltSize (e : Entry) : 10 + e.key.length ≤ e.eltSize := by
  have hle : e.key.length + 2 ≤ ngxAlign (e.key.length + 2) 8 := le_ngxAlign (by decide)
  rw [eltSize]
  omega

theorem Entry.dvd_eltSize (e : Entry) : 8 ∣ e.eltSize :=
  Nat.dvd_add (Nat.dvd_refl 8) (dvd_ngxAlign _ 8)

theorem ngxAlign_add {p : ℕ} (hp : 8 ∣ p) (d : ℕ) : ngxAlign (p + d) 8 = p + ngxAlign d 8 := by
  obtain ⟨k, rfl⟩ := hp
  rw [ngxAlign, ngxAlign]
  omega

theorem bucketOf_cons_self (size : ℕ) (e : Entry) (es : List Entry) :
    bucketOf size (e :: es) (e.bucket size) = e :: bucketOf size es (e.bucket size) :=
  List.filter_cons_of_pos (decide_eq_true rfl)

theorem bucketOf_cons_of_ne {size i : ℕ} {e : Entry} (h : i ≠ e.bucket size) (es : List Entry) :
    bucketOf size (e :: es) i = bucketOf size es i :=
  List.filter_cons_of_neg fun h' => h (of_decide_eq_true h').symm

section Packing

variable {size limit : ℕ} {es : List Entry} {test test' : ℕ → ℕ}

theorem update_len (hlimit : limit < 65536) {e : Entry}
    (hlen : ¬limit < test (e.bucket size) + e.eltSize) (es : List Entry) (i : ℕ) :
    Function.update test (e.bucket size) (ushort (test (e.bucket size) + e.eltSize)) i +
      extent (bucketOf size es i) = test i + extent (bucketOf size (e :: es) i) := by
  have hshort : ushort (test (e.bucket size) + e.eltSize) = test (e.bucket size) + e.eltSize :=
    Nat.mod_eq_of_lt (by omega)
  by_cases hi : i = e.bucket size
  · rw [hi, Function.update_self, hshort, bucketOf_cons_self, extent_cons, Nat.add_assoc]
  · rw [Function.update_of_ne hi, bucketOf_cons_of_ne hi]

/-- The loop adds up exactly, as long as the limit is that of a `u_short`. -/
theorem packSizes_spec (hlimit : limit < 65536) (h : packSizes size limit es test = some test') :
    ∀ i, test' i = test i + extent (bucketOf size es i) ∧
      (bucketOf size es i ≠ [] → test' i ≤ limit) := by
  induction es generalizing test with
  | nil =>
      cases h
      exact fun i => ⟨rfl, fun hne => absurd rfl hne⟩
  | cons e es ih =>
      rw [packSizes] at h
      split_ifs at h with hover
      intro i
      obtain ⟨hsum, hle⟩ := ih h i
      rw [update_len hlimit hover] at hsum
      refine ⟨hsum, fun hne => ?_⟩
      by_cases hrest : bucketOf size es i = []
      · -- the entry is the last one of its bucket
        have hi : i = e.bucket size := by
          by_contra hi
          exact hne ((bucketOf_cons_of_ne hi es).trans hrest)
        rw [hi] at hrest
        rw [hsum, hi, bucketOf_cons_self, hrest, extent_cons, extent_nil]
        omega
      · exact hle hrest

/-- The loop ends if and only if every bucket is within the limit. -/
theorem packSizes_isSome_iff (hlimit : limit < 65536) :
    (packSizes size limit es test).isSome = true ↔
      ∀ i, bucketOf size es i ≠ [] → test i + extent (bucketOf size es i) ≤ limit := by
  refine ⟨fun h i hne => ?_, fun h => ?_⟩
  · obtain ⟨test', htest'⟩ := Option.isSome_iff_exists.mp h
    obtain ⟨hsum, hle⟩ := packSizes_spec hlimit htest' i
    rw [← hsum]
    exact hle hne
  · induction es generalizing test with
    | nil => rfl
    | cons e es ih =>
        have hself := h (e.bucket size) (by
          rw [bucketOf_cons_self]
          exact List.cons_ne_nil _ _)
        rw [bucketOf_cons_self, extent_cons] at hself
        have hlen : ¬limit < test (e.bucket size) + e.eltSize := by omega
        rw [packSizes]
        simp only [if_neg hlen]
        refine ih fun i hne => ?_
        rw [update_len hlimit hlen]
        refine h i fun hnil => hne ?_
        by_cases hi : i = e.bucket size
        · rw [hi, bucketOf_cons_self] at hnil
          cases hnil
        · rwa [bucketOf_cons_of_ne hi] at hnil

/-- Every bucket of this size is within the limit. -/
def Fits (limit : ℕ) (es : List Entry) (size : ℕ) : Prop :=
  ∀ i, extent (bucketOf size es i) ≤ limit

/-- The size that is used: the first one from `start` on that fits, or the last one. -/
def Chosen (limit maxSize : ℕ) (es : List Entry) (start size : ℕ) : Prop :=
  (start ≤ size ∧ size ≤ maxSize ∧ Fits limit es size ∧
      ∀ s, start ≤ s → s < size → ¬Fits limit es s) ∨
    (size = maxSize ∧ ∀ s, start ≤ s → s ≤ maxSize → ¬Fits limit es s)

theorem trial_iff (hlimit : es ≠ [] → limit < 65536) :
    (packSizes size limit es fun _ => 0).isSome = true ↔ Fits limit es size := by
  by_cases hes : es = []
  · rw [hes]
    exact iff_of_true rfl fun i => Nat.zero_le limit
  · rw [packSizes_isSome_iff (hlimit hes)]
    refine ⟨fun h i => ?_, fun h i _ => ?_⟩
    · by_cases hnil : bucketOf size es i = []
      · rw [hnil]
        exact Nat.zero_le limit
      · have hle := h i hnil
        rwa [Nat.zero_add] at hle
    · rw [Nat.zero_add]
      exact h i

theorem searchSize_chosen (hlimit : es ≠ [] → limit < 65536) {maxSize turns start : ℕ}
    (hturns : turns = maxSize + 1 - start) :
    Chosen limit maxSize es start (searchSize limit maxSize es turns start) := by
  induction turns generalizing start with
  | zero => exact .inr ⟨rfl, fun s hs hle => by omega⟩
  | succ turns ih =>
      have hnext : turns = maxSize + 1 - (start + 1) := by omega
      rw [searchSize]
      split_ifs with hfits
      · rw [trial_iff hlimit] at hfits
        exact .inl ⟨Nat.le_refl _, by omega, hfits, fun s hs hlt => by omega⟩
      · rw [trial_iff hlimit] at hfits
        have hlater {s : ℕ} (hs : start ≤ s) (h : start + 1 ≤ s → ¬Fits limit es s) :
            ¬Fits limit es s := by
          rcases Nat.eq_or_lt_of_le hs with rfl | hlt
          · exact hfits
          · exact h hlt
        rcases ih hnext with ⟨hle, hmax, hsize, hsmaller⟩ | ⟨heq, hnone⟩
        · exact .inl ⟨by omega, hmax, hsize, fun s hs hlt =>
            hlater hs fun hs' => hsmaller s hs' hlt⟩
        · exact .inr ⟨heq, fun s hs hle => hlater hs fun hs' => hnone s hs' hle⟩

end Packing

/-! ## The places of the buckets -/

section Places

variable (cacheline size : ℕ) (es : List Entry)

/-- The bytes of a bucket, in whole cache lines. -/
def capacity (i : ℕ) : ℕ :=
  if bucketOf size es i = [] then 0 else ngxAlign (8 + extent (bucketOf size es i)) cacheline

/-- The bytes of the buckets before a bucket. -/
def offset (i : ℕ) : ℕ := ((List.range i).map (capacity cacheline size es)).sum

/-- The place of a bucket; an empty one has none. -/
def place (first i : ℕ) : ℕ :=
  if bucketOf size es i = [] then 0 else first + offset cacheline size es i

variable {cacheline size es}

theorem offset_succ (i : ℕ) :
    offset cacheline size es (i + 1) =
      offset cacheline size es i + capacity cacheline size es i := by
  rw [offset, List.range_succ, List.map_append, List.sum_append]
  rfl

theorem offset_mono {i j : ℕ} (h : i ≤ j) :
    offset cacheline size es i ≤ offset cacheline size es j := by
  induction h with
  | refl => exact Nat.le_refl _
  | step h ih =>
      refine Nat.le_trans ih ?_
      rw [offset_succ]
      exact Nat.le_add_right _ _

theorem dvd_offset (i : ℕ) : cacheline ∣ offset cacheline size es i := by
  induction i with
  | zero => exact Nat.dvd_zero _
  | succ i ih =>
      rw [offset_succ]
      refine Nat.dvd_add ih ?_
      rw [capacity]
      split_ifs
      · exact Nat.dvd_zero _
      · exact dvd_ngxAlign _ _

/-- The buckets lie one behind the other. -/
theorem offset_capacity_le {i j : ℕ} (h : i < j) :
    offset cacheline size es i + capacity cacheline size es i ≤ offset cacheline size es j := by
  rw [← offset_succ]
  exact offset_mono h

theorem extent_pos {l : List Entry} (h : l ≠ []) : 10 ≤ extent l := by
  cases l with
  | nil => exact absurd rfl h
  | cons e l =>
      have hlen := e.length_le_eltSize
      rw [extent_cons]
      omega

theorem extent_le_capacity (hcacheline : 0 < cacheline) {i : ℕ} (h : bucketOf size es i ≠ []) :
    extent (bucketOf size es i) + 8 ≤ capacity cacheline size es i := by
  rw [capacity, if_neg h, Nat.add_comm]
  exact le_ngxAlign hcacheline

/-- What the second pass and the rounding leave of a bucket. -/
theorem alignSize_eq (hcacheline : 0 < cacheline) (hdvd : cacheline ∣ 65536) {test : ℕ → ℕ}
    (htest : packSizes size (65536 - cacheline) es (fun _ => 8) = some test) (i : ℕ) :
    (bucketOf size es i ≠ [] → 8 + extent (bucketOf size es i) ≤ 65536 - cacheline) ∧
      (alignSize cacheline test i = 8 ↔ bucketOf size es i = []) ∧
      (bucketOf size es i ≠ [] → alignSize cacheline test i = capacity cacheline size es i) := by
  have hlimit : 65536 - cacheline < 65536 := by omega
  obtain ⟨hsum, hle⟩ := packSizes_spec hlimit htest i
  by_cases hnil : bucketOf size es i = []
  · have height : test i = 8 := by rw [hsum, hnil, extent_nil]
    refine ⟨fun h => absurd hnil h, ?_, fun h => absurd hnil h⟩
    rw [alignSize, if_pos height]
    exact iff_of_true rfl hnil
  · have hpos := extent_pos hnil
    have hmore : test i ≠ 8 := by omega
    have hfits := hle hnil
    have hround : ngxAlign (test i) cacheline ≤ 65536 - cacheline :=
      ngxAlign_le_of_dvd hcacheline (Nat.dvd_sub hdvd (Nat.dvd_refl _)) hfits
    have hgrow : test i ≤ ngxAlign (test i) cacheline := le_ngxAlign hcacheline
    have hshort : ushort (ngxAlign (test i) cacheline) = ngxAlign (test i) cacheline :=
      Nat.mod_eq_of_lt (by omega)
    rw [alignSize, if_neg hmore, hshort, capacity, if_neg hnil, ← hsum]
    exact ⟨fun _ => hfits, iff_of_false (by omega) hnil, fun _ => rfl⟩

/-- The sizes of the buckets, with 8 for the empty ones. -/
def Sizes (cacheline size : ℕ) (es : List Entry) (test : ℕ → ℕ) : Prop :=
  ∀ i, (test i = 8 ↔ bucketOf size es i = []) ∧
    (bucketOf size es i ≠ [] → test i = capacity cacheline size es i)

theorem sumSizes_eq {test : ℕ → ℕ} (htest : Sizes cacheline size es test) (turns i : ℕ) :
    offset cacheline size es i + sumSizes test turns i =
      offset cacheline size es (i + turns) := by
  induction turns generalizing i with
  | zero => rfl
  | succ turns ih =>
      have hcapacity : (if test i = 8 then 0 else test i) = capacity cacheline size es i := by
        split_ifs with h
        · rw [capacity, if_pos ((htest i).1.mp h)]
        · exact (htest i).2 fun hnil => h ((htest i).1.mpr hnil)
      rw [sumSizes, hcapacity, ← Nat.add_assoc, ← offset_succ, ih]
      congr 1
      omega

theorem placeBuckets_eq {test : ℕ → ℕ} (htest : Sizes cacheline size es test) (first : ℕ)
    {turns i : ℕ} {buckets : ℕ → ℕ} (hbuckets : ∀ j, i ≤ j → buckets j = 0) {j : ℕ} :
    placeBuckets test turns i (first + offset cacheline size es i) buckets j =
      if i ≤ j ∧ j < i + turns then place cacheline size es first j else buckets j := by
  induction turns generalizing i buckets with
  | zero => rw [placeBuckets, if_neg (by omega)]
  | succ turns ih =>
      rw [placeBuckets]
      by_cases hnil : bucketOf size es i = []
      · have hsame : offset cacheline size es (i + 1) = offset cacheline size es i := by
          rw [offset_succ, capacity, if_pos hnil, Nat.add_zero]
        rw [if_pos ((htest i).1.mpr hnil), ← hsame, ih fun j hj => hbuckets j (by omega)]
        by_cases hj : j = i
        · rw [if_neg (by omega), if_pos (by omega), hj, place, if_pos hnil,
            hbuckets i (Nat.le_refl i)]
        · have hiff : (i + 1 ≤ j ∧ j < i + 1 + turns) ↔ (i ≤ j ∧ j < i + (turns + 1)) := by omega
          simp only [hiff]
      · have hnext : first + offset cacheline size es i + test i =
            first + offset cacheline size es (i + 1) := by
          rw [offset_succ, (htest i).2 hnil, Nat.add_assoc]
        have hlater : ∀ j, i + 1 ≤ j →
            Function.update buckets i (first + offset cacheline size es i) j = 0 := fun j hj => by
          rw [Function.update_of_ne (by omega), hbuckets j (by omega)]
        rw [if_neg fun h => hnil ((htest i).1.mp h), hnext, ih hlater]
        by_cases hj : j = i
        · rw [if_neg (by omega), if_pos (by omega), hj, Function.update_self, place, if_neg hnil]
        · have hiff : (i + 1 ≤ j ∧ j < i + 1 + turns) ↔ (i ≤ j ∧ j < i + (turns + 1)) := by omega
          simp only [hiff, Function.update_of_ne hj]

end Places

/-! ## The elements of a bucket -/

def Entry.name (e : Entry) : List UInt8 := e.key.map ngxTolower

/-- The bytes of an element. -/
def Entry.image (e : Entry) : List UInt8 :=
  leBytes 8 e.value.toNat ++ (leBytes 2 (ushort e.key.length) ++ e.name)

theorem Entry.length_image (e : Entry) : e.image.length = 10 + e.key.length := by
  rw [image, name, List.length_append, List.length_append, length_leBytes, length_leBytes,
    List.length_map]
  omega

/-- The elements lie one behind the other from an address on. -/
def ChainAt (b : Block) : ℕ → List Entry → Prop
  | _, [] => True
  | a, e :: es => b.Holds a e.image ∧ ChainAt b (a + e.eltSize) es

theorem chainAt_append {b : Block} {a : ℕ} {l r : List Entry} :
    ChainAt b a (l ++ r) ↔ ChainAt b a l ∧ ChainAt b (a + extent l) r := by
  induction l generalizing a with
  | nil => exact (and_iff_right trivial).symm
  | cons e l ih =>
      rw [List.cons_append, ChainAt, ChainAt, ih, extent_cons, and_assoc, Nat.add_assoc]

/-- Elements stay where they are when bytes are written elsewhere. -/
theorem ChainAt.put {b : Block} {a p : ℕ} {l : List Entry} {bs : List UInt8}
    (h : ChainAt b a l) (hapart : a + extent l ≤ p ∨ p + bs.length ≤ a) :
    ChainAt (b.put p bs) a l := by
  induction l generalizing a with
  | nil => trivial
  | cons e l ih =>
      have hlen := e.length_le_eltSize
      have himage := e.length_image
      rw [extent_cons] at hapart
      exact ⟨h.1.put (by omega), ih h.2 (by omega)⟩

theorem putElt_eq {b : Block} {p : ℕ} (e : Entry) (h : b.Inside p (10 + e.key.length)) :
    putElt b p e = .ok (b.put p e.image) := by
  obtain ⟨b₁, hb₁⟩ : ∃ b₁, b₁ = b.put p (leBytes 8 e.value.toNat) := ⟨_, rfl⟩
  obtain ⟨b₂, hb₂⟩ : ∃ b₂, b₂ = b₁.put (p + 8) (leBytes 2 (ushort e.key.length)) := ⟨_, rfl⟩
  have hvalue : b.Inside p (leBytes 8 e.value.toNat).length :=
    h.mono (Nat.le_refl p) (by rw [length_leBytes]; omega)
  have hlen : b₁.Inside (p + 8) (leBytes 2 (ushort e.key.length)).length := by
    rw [hb₁]
    exact h.mono (Nat.le_add_right p 8) (by rw [length_leBytes]; omega)
  have hname : b₂.Inside (p + 10) (e.key.map ngxTolower).length := by
    rw [hb₂, hb₁]
    exact h.mono (Nat.le_add_right p 10) (by rw [List.length_map]; omega)
  have himage : b₂.put (p + 10) (e.key.map ngxTolower) = b.put p e.image := by
    have hfirst := Block.put_put b p (leBytes 8 e.value.toNat) (leBytes 2 (ushort e.key.length))
    have hall := Block.put_put b p
      (leBytes 8 e.value.toNat ++ leBytes 2 (ushort e.key.length)) e.name
    rw [length_leBytes] at hfirst
    rw [List.length_append, length_leBytes, length_leBytes, Entry.name] at hall
    rw [hb₂, hb₁, hfirst, hall, List.append_assoc, Entry.image, Entry.name]
  rw [putElt, Block.write_of_inside _ hvalue, ← hb₁]
  simp only [bind, Except.bind]
  rw [Block.write_of_inside _ hlen, ← hb₂]
  simp only
  rw [Block.write_of_inside _ hname, himage]

section Elements

variable {cacheline size first : ℕ} {es : List Entry}

/-- The block holds the elements of the buckets, each bucket with the entries of `done`. -/
structure Placed (cacheline size first : ℕ) (es done : List Entry) (b : Block) : Prop where
  inside : b.start ≤ first ∧ first + offset cacheline size es size ≤ b.start + b.size
  chains : ∀ i < size, bucketOf size es i ≠ [] →
    ChainAt b (place cacheline size es first i) (bucketOf size done i)

/-- A part of a bucket is inside of the block. -/
theorem Placed.room {done : List Entry} {b : Block} (h : Placed cacheline size first es done b)
    {i n m : ℕ} (hi : i < size) (hne : bucketOf size es i ≠ [])
    (hm : n + m ≤ capacity cacheline size es i) :
    b.Inside (place cacheline size es first i + n) m := by
  have hnext : offset cacheline size es (i + 1) ≤ offset cacheline size es size :=
    offset_mono (Nat.succ_le_of_lt hi)
  obtain ⟨hstart, hend⟩ := h.inside
  rw [offset_succ] at hnext
  rw [place, if_neg hne]
  exact ⟨by omega, by omega⟩

/-- A write behind the elements of a bucket keeps all elements. -/
theorem Placed.put {done : List Entry} {b : Block} (h : Placed cacheline size first es done b)
    (hcacheline : 0 < cacheline) (hdone : ∀ i, extent (bucketOf size done i) ≤
      extent (bucketOf size es i)) {k : ℕ} (hk : k < size) (hne : bucketOf size es k ≠ [])
    {bs : List UInt8} (hbs : extent (bucketOf size done k) + bs.length ≤
      capacity cacheline size es k) :
    Placed cacheline size first es done
      (b.put (place cacheline size es first k + extent (bucketOf size done k)) bs) := by
  refine ⟨h.inside, fun i hi hnil => (h.chains i hi hnil).put ?_⟩
  rw [place, place, if_neg hnil, if_neg hne]
  rcases Nat.lt_trichotomy i k with hlt | rfl | hgt
  · have hapart : offset cacheline size es i + capacity cacheline size es i ≤
        offset cacheline size es k := offset_capacity_le hlt
    have hcap := extent_le_capacity hcacheline hnil
    have hle := hdone i
    omega
  · exact .inl (Nat.le_refl _)
  · have hapart : offset cacheline size es k + capacity cacheline size es k ≤
        offset cacheline size es i := offset_capacity_le hgt
    omega

theorem bucketOf_append (size : ℕ) (l r : List Entry) (i : ℕ) :
    bucketOf size (l ++ r) i = bucketOf size l i ++ bucketOf size r i :=
  List.filter_append ..

/-- The elements are written into their buckets, in the order of the names. -/
theorem placeElts_eq (hcacheline : 0 < cacheline) (hsize : 0 < size)
    (hshort : ∀ i, extent (bucketOf size es i) < 65536) {done rest : List Entry}
    (hes : es = done ++ rest) {buckets : ℕ → ℕ}
    (hbuckets : ∀ i < size, buckets i = place cacheline size es first i) {b : Block}
    (h : Placed cacheline size first es done b) :
    ∃ b', placeElts size buckets rest (fun i => extent (bucketOf size done i)) b =
        .ok (fun i => extent (bucketOf size es i), b') ∧
      b'.start = b.start ∧ b'.size = b.size ∧ Placed cacheline size first es es b' := by
  induction rest generalizing done b with
  | nil =>
      rw [List.append_nil] at hes
      rw [← hes] at h ⊢
      exact ⟨b, rfl, rfl, rfl, h⟩
  | cons e rest ih =>
      obtain ⟨k, hk⟩ : ∃ k, k = e.bucket size := ⟨_, rfl⟩
      have hlt : k < size := by
        rw [hk]
        exact Nat.mod_lt _ hsize
      have hone : bucketOf size [e] k = [e] := by
        rw [hk]
        exact bucketOf_cons_self size e []
      have hother {i : ℕ} (hi : i ≠ k) : bucketOf size [e] i = [] :=
        bucketOf_cons_of_ne (by rwa [← hk]) []
      have hsplit (i : ℕ) : extent (bucketOf size es i) = extent (bucketOf size done i) +
          (extent (bucketOf size [e] i) + extent (bucketOf size rest i)) := by
        rw [hes, ← List.singleton_append, bucketOf_append, bucketOf_append, extent_append,
          extent_append]
      have hself := hsplit k
      rw [hone, extent_cons, extent_nil] at hself
      have hlen := e.length_le_eltSize
      have hne : bucketOf size es k ≠ [] := fun hnil => by
        rw [hnil, extent_nil] at hself
        omega
      have hcapacity := extent_le_capacity hcacheline hne
      have hroom : b.Inside (place cacheline size es first k + extent (bucketOf size done k))
          (10 + e.key.length) := h.room hlt hne (by omega)
      have himage : extent (bucketOf size done k) + e.image.length ≤
          capacity cacheline size es k := by
        rw [e.length_image]
        omega
      have hdone (i : ℕ) : extent (bucketOf size done i) ≤ extent (bucketOf size es i) := by
        rw [hsplit i]
        omega
      have hkept := h.put hcacheline hdone hlt hne himage
      have hplaced : Placed cacheline size first es (done ++ [e])
          (b.put (place cacheline size es first k + extent (bucketOf size done k)) e.image) := by
        refine ⟨hkept.inside, fun i hi hnil => ?_⟩
        rw [bucketOf_append, chainAt_append]
        refine ⟨hkept.chains i hi hnil, ?_⟩
        by_cases hik : i = k
        · rw [hik, hone]
          exact ⟨Block.holds_put _ _ _, trivial⟩
        · rw [hother hik]
          trivial
      have htest : Function.update (fun i => extent (bucketOf size done i)) k
          (ushort (extent (bucketOf size done k) + e.eltSize)) =
          fun i => extent (bucketOf size (done ++ [e]) i) := by
        have hsmall := hshort k
        have hexact : ushort (extent (bucketOf size done k) + e.eltSize) =
            extent (bucketOf size done k) + e.eltSize := Nat.mod_eq_of_lt (by omega)
        funext i
        rw [bucketOf_append, extent_append]
        by_cases hik : i = k
        · rw [hik, Function.update_self, hexact, hone]
          rfl
        · rw [Function.update_of_ne hik, hother hik]
          rfl
      have hnext : es = (done ++ [e]) ++ rest := by rw [hes, List.append_assoc]; rfl
      obtain ⟨b', hb', hstart, hend, hall⟩ := ih hnext hplaced
      refine ⟨b', ?_, hstart, hend, hall⟩
      rw [placeElts, ← hk, hbuckets k hlt, putElt_eq e hroom]
      simp only [bind, Except.bind]
      rw [htest, hb']

/-- Two buckets do not overlap. -/
theorem place_apart (hcacheline : 0 < cacheline) {i j : ℕ} (hij : i ≠ j)
    (hi : bucketOf size es i ≠ []) (hj : bucketOf size es j ≠ []) :
    place cacheline size es first i + (extent (bucketOf size es i) + 8) ≤
        place cacheline size es first j ∨
      place cacheline size es first j + (extent (bucketOf size es j) + 8) ≤
        place cacheline size es first i := by
  have hcapi := extent_le_capacity hcacheline hi
  have hcapj := extent_le_capacity hcacheline hj
  rw [place, place, if_neg hi, if_neg hj]
  rcases Nat.lt_or_gt_of_ne hij with hlt | hgt
  · have hapart : offset cacheline size es i + capacity cacheline size es i ≤
        offset cacheline size es j := offset_capacity_le hlt
    exact .inl (by omega)
  · have hapart : offset cacheline size es j + capacity cacheline size es j ≤
        offset cacheline size es i := offset_capacity_le hgt
    exact .inr (by omega)

/-- The end of a bucket is a `NULL`. -/
def Ended (cacheline size first : ℕ) (es : List Entry) (b : Block) (i : ℕ) : Prop :=
  b.Holds (place cacheline size es first i + extent (bucketOf size es i)) (leBytes 8 0)

theorem endBuckets_eq (hcacheline : 0 < cacheline) (hfirst : 0 < first) {buckets : ℕ → ℕ}
    (hbuckets : ∀ i < size, buckets i = place cacheline size es first i) {turns i : ℕ}
    (hi : i + turns = size) {b : Block} (h : Placed cacheline size first es es b) :
    ∃ b', endBuckets (fun i => extent (bucketOf size es i)) buckets turns i b = .ok b' ∧
      b'.start = b.start ∧ b'.size = b.size ∧ Placed cacheline size first es es b' ∧
      ∀ j < size, bucketOf size es j ≠ [] →
        i ≤ j ∨ Ended cacheline size first es b j → Ended cacheline size first es b' j := by
  induction turns generalizing i b with
  | zero =>
      refine ⟨b, rfl, rfl, rfl, h, fun j hj _ hended => hended.resolve_left (by omega)⟩
  | succ turns ih =>
      have hlt : i < size := by omega
      have hnext : i + 1 + turns = size := by omega
      rw [endBuckets, hbuckets i hlt]
      by_cases hnil : bucketOf size es i = []
      · have hzero : place cacheline size es first i = 0 := if_pos hnil
        rw [if_pos hzero]
        obtain ⟨b', hb', hstart, hend, hall, hended⟩ := ih hnext h
        refine ⟨b', hb', hstart, hend, hall, fun j hj hne hor => hended j hj hne ?_⟩
        refine hor.imp_left fun hle => Nat.lt_of_le_of_ne hle ?_
        rintro rfl
        exact hne hnil
      · have hpos : place cacheline size es first i ≠ 0 := by
          rw [place, if_neg hnil]
          omega
        have hcapacity := extent_le_capacity hcacheline hnil
        have hnull : extent (bucketOf size es i) + (leBytes 8 0).length ≤
            capacity cacheline size es i := by
          rw [length_leBytes]
          exact hcapacity
        have hroom : b.Inside (place cacheline size es first i + extent (bucketOf size es i))
            (leBytes 8 0).length := h.room hlt hnil hnull
        have hput := h.put hcacheline (fun _ => Nat.le_refl _) hlt hnil hnull
        obtain ⟨b', hb', hstart, hend, hall, hended⟩ := ih hnext hput
        rw [if_neg hpos, Block.write_of_inside _ hroom]
        refine ⟨b', hb', hstart, hend, hall, fun j hj hne hor => hended j hj hne ?_⟩
        by_cases hij : j = i
        · rw [hij]
          exact .inr (Block.holds_put _ _ _)
        · refine hor.imp (fun hle => by omega) fun hold => hold.put ?_
          have hapart : place cacheline size es first j + (extent (bucketOf size es j) + 8) ≤
                place cacheline size es first i ∨
              place cacheline size es first i + (extent (bucketOf size es i) + 8) ≤
                place cacheline size es first j := place_apart hcacheline hij hne hnil
          rw [length_leBytes]
          omega

/-! ## The lookup -/

theorem sameName_eq {b : Block} {p : ℕ} {kept name : List UInt8} (hheld : b.Holds p kept)
    (hinside : b.Inside p kept.length) (hlen : name.length = kept.length) :
    sameName b p name = .ok (decide (name = kept)) := by
  induction name generalizing p kept with
  | nil =>
      rw [List.length_nil] at hlen
      rw [List.eq_nil_of_length_eq_zero hlen.symm]
      rfl
  | cons c name ih =>
      cases kept with
      | nil => cases hlen
      | cons d kept =>
          rw [← List.singleton_append, Block.holds_append] at hheld
          have hone : b.Inside p [d].length := hinside.mono (Nat.le_refl p) (by
            simp only [List.length_cons, List.length_nil]
            omega)
          have hrest : b.Inside (p + 1) kept.length := hinside.mono (Nat.le_add_right p 1) (by
            rw [List.length_cons]
            omega)
          have hread : b.read Failure.outside p 1 = .ok [d] := hheld.1.read _ hone
          have hnext : sameName b (p + 1) name = .ok (decide (name = kept)) :=
            ih hheld.2 hrest (Nat.succ.inj hlen)
          rw [sameName, hread]
          simp only [bind, Except.bind]
          by_cases hc : d = c
          · rw [hc, if_pos rfl, hnext]
            simp only [List.cons.injEq, true_and]
          · have hne : ¬[d] = [c] := fun h => hc (List.head_eq_of_cons_eq h)
            have hdiff : ¬c :: name = d :: kept := fun h => hc (List.head_eq_of_cons_eq h).symm
            rw [if_neg hne, decide_eq_false hdiff]

/-- The elements of a bucket are looked through up to the first one with the name. -/
theorem findElt_eq {b : Block} {a : ℕ} {l : List Entry} {name : List UInt8}
    (hchain : ChainAt b a l) (hended : b.Holds (a + extent l) (leBytes 8 0))
    (hinside : b.Inside a (extent l + 8)) (hdvd : 8 ∣ a)
    (hl : ∀ e ∈ l, e.value ≠ 0 ∧ e.key.length < 65536) {turns : ℕ} (hturns : l.length < turns) :
    findElt b name turns a =
      .ok (((l.find? fun e => e.name == name).map Entry.value).getD 0) := by
  induction l generalizing a turns with
  | nil =>
      obtain ⟨turns, rfl⟩ := Nat.exists_eq_succ_of_ne_zero (Nat.ne_zero_of_lt hturns)
      have hread : b.read Failure.outside a 8 = .ok (leBytes 8 0) :=
        hended.read _ (by rw [length_leBytes]; exact hinside)
      rw [findElt, hread]
      rfl
  | cons e l ih =>
      obtain ⟨turns, rfl⟩ := Nat.exists_eq_succ_of_ne_zero (Nat.ne_zero_of_lt hturns)
      obtain ⟨⟨hvalue, hshort⟩, hl⟩ := List.forall_mem_cons.mp hl
      obtain ⟨himage, hchain⟩ := hchain
      have hlen := e.length_le_eltSize
      rw [extent_cons] at hended hinside
      rw [Entry.image, Block.holds_append, Block.holds_append, length_leBytes, length_leBytes]
        at himage
      obtain ⟨hheld, hheldLen, hheldName⟩ := himage
      have hread : b.read Failure.outside a 8 = .ok (leBytes 8 e.value.toNat) := by
        have hin : b.Inside a (leBytes 8 e.value.toNat).length :=
          hinside.mono (Nat.le_refl a) (by rw [length_leBytes]; omega)
        have h := hheld.read Failure.outside hin
        rwa [length_leBytes] at h
      have hreadLen : b.read Failure.outside (a + 8) 2 =
          .ok (leBytes 2 (ushort e.key.length)) := by
        have hin : b.Inside (a + 8) (leBytes 2 (ushort e.key.length)).length :=
          hinside.mono (Nat.le_add_right a 8) (by rw [length_leBytes]; omega)
        have h := hheldLen.read Failure.outside hin
        rwa [length_leBytes] at h
      have hvalueOf : leValue (leBytes 8 e.value.toNat) = e.value.toNat :=
        leValue_leBytes e.value.isLt
      have hlenOf : leValue (leBytes 2 (ushort e.key.length)) = e.key.length := by
        rw [ushort, Nat.mod_eq_of_lt hshort]
        exact leValue_leBytes hshort
      have hnonzero : e.value.toNat ≠ 0 := fun h => hvalue (BitVec.eq_of_toNat_eq h)
      have hkept : e.name.length = e.key.length := List.length_map _
      have hnext : ngxAlign (a + 10 + e.key.length) 8 = a + e.eltSize := by
        have halign := ngxAlign_add hdvd (10 + e.key.length)
        have hten := ngxAlign_add (Nat.dvd_refl 8) (e.key.length + 2)
        have hsum : 8 + (e.key.length + 2) = 10 + e.key.length := by omega
        rw [hsum] at hten
        rw [Nat.add_assoc, halign, hten, Entry.eltSize]
      have hrest := ih hchain (by rwa [Nat.add_assoc])
        (hinside.mono (Nat.le_add_right _ _) (by omega)) (Nat.dvd_add hdvd e.dvd_eltSize) hl
        (Nat.lt_of_succ_lt_succ hturns)
      rw [findElt, hread]
      simp only [bind, Except.bind, hvalueOf, if_neg hnonzero]
      rw [hreadLen]
      simp only [hlenOf]
      by_cases hlength : name.length = e.key.length
      · have hin : b.Inside (a + 10) e.name.length :=
          hinside.mono (Nat.le_add_right a 10) (by omega)
        have hsame := sameName_eq hheldName hin (hlength.trans hkept.symm)
        rw [if_neg (not_not.mpr hlength), hsame]
        by_cases hname : name = e.name
        · have hfound : (e.name == name) = true := beq_iff_eq.mpr hname.symm
          have hback : BitVec.ofNat 64 e.value.toNat = e.value :=
            (BitVec.ofNat_toNat 64 e.value).trans (BitVec.setWidth_eq e.value)
          have hfind : (e :: l).find? (fun e => e.name == name) = some e :=
            List.find?_cons_of_pos hfound
          rw [decide_eq_true hname, hfind]
          exact congrArg Except.ok hback
        · have hother : (e.name == name) = false := beq_false_of_ne (Ne.symm hname)
          simp only [decide_eq_false hname]
          rw [List.find?_cons_of_neg (by rw [hother]; decide), if_neg (by decide), hnext]
          exact hrest
      · have hother : (e.name == name) = false := beq_false_of_ne fun h => hlength (by
          rw [← h, hkept])
        rw [if_pos hlength, List.find?_cons_of_neg (by rw [hother]; decide), hnext]
        exact hrest

end Elements

/-! ## The hash that is built -/

theorem eltSize_le_extent {e : Entry} {l : List Entry} (h : e ∈ l) : e.eltSize ≤ extent l := by
  induction l with
  | nil => exact absurd h List.not_mem_nil
  | cons d l ih =>
      rw [extent_cons]
      rcases List.mem_cons.mp h with rfl | h
      · exact Nat.le_add_right _ _
      · exact (ih h).trans (Nat.le_add_left _ _)

theorem length_le_extent (l : List Entry) : l.length ≤ extent l := by
  induction l with
  | nil => exact Nat.le_refl 0
  | cons e l ih =>
      have hlen := e.length_le_eltSize
      rw [extent_cons, List.length_cons]
      omega

/-- The bucket `i` of the hash holds its entries, in their order, and ends with a `NULL`. -/
structure BucketAt (cacheline : ℕ) (es : List Entry) (hash : HashTable) (i : ℕ) : Prop where
  pos : 0 < hash.buckets i
  aligned : 8 ∣ hash.buckets i
  chain : ChainAt hash.elts (hash.buckets i) (bucketOf hash.size es i)
  ended : hash.elts.Holds (hash.buckets i + extent (bucketOf hash.size es i)) (leBytes 8 0)
  inside : hash.elts.Inside (hash.buckets i) (extent (bucketOf hash.size es i) + 8)
  no_wrap : extent (bucketOf hash.size es i) + 8 ≤ 65536 - cacheline

/-- The buckets of the hash lie apart in the memory that was allocated. -/
structure Laid (cacheline : ℕ) (es : List Entry) (hash : HashTable) : Prop where
  size_pos : 0 < hash.size
  empty : ∀ i < hash.size, bucketOf hash.size es i = [] → hash.buckets i = 0
  bucket : ∀ i < hash.size, bucketOf hash.size es i ≠ [] → BucketAt cacheline es hash i
  apart : ∀ i < hash.size, ∀ j < hash.size, i ≠ j → bucketOf hash.size es i ≠ [] →
    bucketOf hash.size es j ≠ [] →
      hash.buckets i + (extent (bucketOf hash.size es i) + 8) ≤ hash.buckets j ∨
        hash.buckets j + (extent (bucketOf hash.size es j) + 8) ≤ hash.buckets i

/-- A lookup finds the first entry of its bucket with the name. -/
theorem Laid.find {cacheline : ℕ} {es : List Entry} {hash : HashTable}
    (h : Laid cacheline es hash) (hvalues : ∀ e ∈ es, e.value ≠ 0) (key : BitVec 64)
    (name : List UInt8) :
    ngxHashFind hash key name =
      .ok ((((bucketOf hash.size es (key.toNat % hash.size)).find? fun e =>
        e.name == name).map Entry.value).getD 0) := by
  have hlt := Nat.mod_lt key.toNat h.size_pos
  rw [ngxHashFind, if_neg (Nat.ne_of_gt h.size_pos)]
  by_cases hnil : bucketOf hash.size es (key.toNat % hash.size) = []
  · rw [if_pos (h.empty _ hlt hnil), hnil]
    rfl
  · obtain ⟨hpos, haligned, hchain, hended, hinside, hwrap⟩ := h.bucket _ hlt hnil
    rw [if_neg (Nat.ne_of_gt hpos)]
    refine findElt_eq hchain hended hinside haligned (fun e he => ⟨?_, ?_⟩) ?_
    · exact hvalues e (List.mem_of_mem_filter he)
    · have hsize := eltSize_le_extent he
      have hlen := e.length_le_eltSize
      omega
    · have hlen := length_le_extent (bucketOf hash.size es (key.toNat % hash.size))
      obtain ⟨hstart, hend⟩ := hinside
      omega

/-- The elements and the ends of the buckets are written inside of the block. -/
theorem fill_laid {cacheline size first : ℕ} {es : List Entry} (hcacheline : 0 < cacheline)
    (hdvd : 8 ∣ cacheline) (hsize : 0 < size) (hfirst : 0 < first) (height : 8 ∣ first)
    (hshort : ∀ i, bucketOf size es i ≠ [] →
      8 + extent (bucketOf size es i) ≤ 65536 - cacheline) {buckets : ℕ → ℕ}
    (hbuckets : ∀ i < size, buckets i = place cacheline size es first i) {b : Block}
    (hinside : b.start ≤ first ∧ first + offset cacheline size es size ≤ b.start + b.size) :
    ∃ test b₁ b₂, placeElts size buckets es (fun _ => 0) b = .ok (test, b₁) ∧
      endBuckets test buckets size 0 b₁ = .ok b₂ ∧ b₂.start = b.start ∧ b₂.size = b.size ∧
      Laid cacheline es ⟨buckets, size, b₂⟩ := by
  have hall (i : ℕ) : extent (bucketOf size es i) < 65536 := by
    by_cases hnil : bucketOf size es i = []
    · rw [hnil]
      decide
    · have h := hshort i hnil
      omega
  have hempty : Placed cacheline size first es [] b := ⟨hinside, fun _ _ _ => trivial⟩
  obtain ⟨b₁, hplace, hstart₁, hsize₁, hplaced⟩ :=
    placeElts_eq hcacheline hsize hall (List.nil_append es).symm hbuckets hempty
  obtain ⟨b₂, hend, hstart₂, hsize₂, hplaced₂, hended⟩ :=
    endBuckets_eq hcacheline hfirst hbuckets (Nat.zero_add size) hplaced
  refine ⟨_, b₁, b₂, hplace, hend, hstart₂.trans hstart₁, hsize₂.trans hsize₁, hsize,
    fun i hi hnil => ?_, fun i hi hne => ?_, fun i hi j hj hij hne hne' => ?_⟩
  · exact (hbuckets i hi).trans (if_pos hnil)
  · have hoffset : 8 ∣ offset cacheline size es i := Nat.dvd_trans hdvd (dvd_offset i)
    have hplace' : buckets i = first + offset cacheline size es i :=
      (hbuckets i hi).trans (if_neg hne)
    have hcapacity := extent_le_capacity hcacheline hne
    have hpos : 0 < buckets i := by omega
    have haligned : 8 ∣ buckets i := by
      rw [hplace']
      exact Nat.dvd_add height hoffset
    have hwrap : extent (bucketOf size es i) + 8 ≤ 65536 - cacheline := by
      rw [Nat.add_comm]
      exact hshort i hne
    have hcap : 0 + (extent (bucketOf size es i) + 8) ≤ capacity cacheline size es i := by
      rwa [Nat.zero_add]
    have hchain := hplaced₂.chains i hi hne
    have hnull := hended i hi hne (.inl (Nat.zero_le i))
    have hroom := hplaced₂.room hi hne hcap
    rw [Ended] at hnull
    rw [← hbuckets i hi] at hchain hnull hroom
    exact ⟨hpos, haligned, hchain, hnull, hroom, hwrap⟩
  · have hapart : place cacheline size es first i + (extent (bucketOf size es i) + 8) ≤
          place cacheline size es first j ∨
        place cacheline size es first j + (extent (bucketOf size es j) + 8) ≤
          place cacheline size es first i := place_apart hcacheline hij hne hne'
    rwa [← hbuckets i hi, ← hbuckets j hj] at hapart

/-- From the label `found` on nothing is written outside of the block. -/
theorem buildHash_laid (sys : System) (es : List Entry) {size : ℕ} (hsize : 0 < size) :
    buildHash sys es size = .ok none ∨
      ∃ hash, buildHash sys es size = .ok (some hash) ∧ hash.size = size ∧
        sys.ngxPalloc hash.elts.size = some hash.elts.start ∧
        Laid sys.cachelineSize es hash := by
  have hcacheline : 0 < sys.cachelineSize := Nat.pos_of_dvd_of_pos sys.dvd_word (by decide)
  rw [buildHash]
  cases htest : packSizes size (65536 - sys.cachelineSize) es (fun _ => 8) with
  | none => exact .inl rfl
  | some test =>
      have hplan := alignSize_eq hcacheline sys.dvd_word htest
      have hsizes : Sizes sys.cachelineSize size es (alignSize sys.cachelineSize test) :=
        fun i => (hplan i).2
      simp only
      split_ifs with hpcalloc
      · exact .inl rfl
      · cases hpalloc : sys.ngxPalloc
            (sumSizes (alignSize sys.cachelineSize test) size 0 + sys.cachelineSize) with
        | none => exact .inl rfl
        | some p =>
            have hlen := sumSizes_eq hsizes size 0
            have hzero : offset sys.cachelineSize size es 0 = 0 := rfl
            rw [hzero, Nat.zero_add, Nat.zero_add] at hlen
            have hle : p ≤ ngxAlign p sys.cachelineSize := le_ngxAlign hcacheline
            have hup : ngxAlign p sys.cachelineSize ≤ p + (sys.cachelineSize - 1) := ngxAlign_le
            have hbuckets : ∀ i < size, placeBuckets (alignSize sys.cachelineSize test) size 0
                (ngxAlign p sys.cachelineSize) (fun _ => 0) i =
                  place sys.cachelineSize size es (ngxAlign p sys.cachelineSize) i := by
              intro i hi
              refine (placeBuckets_eq hsizes _ fun _ _ => rfl).trans (if_pos ?_)
              omega
            obtain ⟨b, hb⟩ : ∃ b : Block, b = ⟨p, sumSizes (alignSize sys.cachelineSize test)
              size 0 + sys.cachelineSize, sys.junk⟩ := ⟨_, rfl⟩
            have hinside : b.start ≤ ngxAlign p sys.cachelineSize ∧ ngxAlign p sys.cachelineSize +
                offset sys.cachelineSize size es size ≤ b.start + b.size := by
              rw [hb]
              exact ⟨hle, by simp only; omega⟩
            obtain ⟨test', b₁, b₂, hplace, hend, hstart, hlength, hlaid⟩ :=
              fill_laid hcacheline sys.eight_dvd hsize
                (Nat.lt_of_lt_of_le (sys.palloc_pos _ _ hpalloc) hle)
                (Nat.dvd_trans sys.eight_dvd (dvd_ngxAlign _ _)) (fun i => (hplan i).1) hbuckets
                hinside
            have hblock : sys.ngxPalloc b₂.size = some b₂.start := by
              rw [hlength, hstart, hb]
              exact hpalloc
            rw [hb] at hplace
            refine .inr ⟨_, ?_, rfl, hblock, hlaid⟩
            simp only [bind, Except.bind]
            rw [hplace]
            simp only
            rw [hend]

def HashInit.limit (hinit : HashInit) : ℕ := (hinit.bucketSize + (2 ^ 64 - 8)) % 2 ^ 64

/-- `ngx_hash_init` fails, stops at a division without any key, or lays out the elements. -/
theorem ngxHashInit_cases (sys : System) (hinit : HashInit) (names : List HashKey) :
    ngxHashInit sys hinit names = .ok none ∨
      (ngxHashInit sys hinit names = .error .divideByZero ∧ entries names = []) ∨
      ∃ hash, ngxHashInit sys hinit names = .ok (some hash) ∧
        sys.ngxPalloc hash.elts.size = some hash.elts.start ∧
        Laid sys.cachelineSize (entries names) hash ∧
        Chosen hinit.limit hinit.maxSize (entries names)
          (startSize hinit.maxSize hinit.limit names.length) hash.size := by
  have hcacheline : 0 < sys.cachelineSize := Nat.pos_of_dvd_of_pos sys.dvd_word (by decide)
  rw [ngxHashInit]
  simp only
  split_ifs with hmax hbig hsmall halloc hdivide
  · exact .inl rfl
  · exact .inl rfl
  · exact .inl rfl
  · exact .inl rfl
  · refine .inr (.inl ⟨rfl, ?_⟩)
    cases hes : entries names with
    | nil => rfl
    | cons e es =>
        rw [hes, List.any_cons, Bool.or_eq_true, decide_eq_true_eq] at hsmall
        have hlen : 16 ≤ e.eltSize := by
          have halign : e.key.length + 2 ≤ ngxAlign (e.key.length + 2) 8 :=
            le_ngxAlign (by decide)
          have hdvd := e.dvd_eltSize
          have hlen := e.length_le_eltSize
          omega
        omega
  · have hlimit : entries names ≠ [] → hinit.limit < 65536 := by
      intro hne
      cases hes : entries names with
      | nil => exact absurd hes hne
      | cons e es =>
          rw [hes, List.any_cons, Bool.or_eq_true, decide_eq_true_eq] at hsmall
          rw [HashInit.limit]
          omega
    have hchosen : Chosen hinit.limit hinit.maxSize (entries names)
        (startSize hinit.maxSize hinit.limit names.length)
        (searchSize hinit.limit hinit.maxSize (entries names)
          (hinit.maxSize + 1 - startSize hinit.maxSize hinit.limit names.length)
          (startSize hinit.maxSize hinit.limit names.length)) := searchSize_chosen hlimit rfl
    have hstart : 0 < startSize hinit.maxSize hinit.limit names.length := by
      rw [startSize]
      split_ifs with hmany hzero
      · omega
      · exact Nat.one_pos
      · exact Nat.pos_of_ne_zero hzero
    rw [HashInit.limit] at hchosen hstart ⊢
    generalize searchSize _ _ _ _ _ = size at hchosen ⊢
    have hsize : 0 < size := by
      rcases hchosen with ⟨hle, -⟩ | ⟨heq, -⟩ <;> omega
    rcases buildHash_laid sys (entries names) hsize with
      hnone | ⟨hash, hsome, heq, hblock, hlaid⟩
    · exact .inl hnone
    · rw [← heq] at hchosen
      exact .inr (.inr ⟨hash, hsome, hblock, hlaid, hchosen⟩)

theorem Laid.finds {cacheline : ℕ} {es : List Entry} {hash : HashTable}
    (h : Laid cacheline es hash) {key : List UInt8 → BitVec 64}
    (hkeys : ∀ e ∈ es, e.keyHash = key e.name ∧ e.value ≠ 0)
    (hdistinct : (es.map Entry.name).Nodup) :
    (∀ e ∈ es, ngxHashFind hash (key e.name) e.name = .ok e.value) ∧
      ∀ name, name ∉ es.map Entry.name → ∀ k, ngxHashFind hash k name = .ok 0 := by
  have hvalues : ∀ e ∈ es, e.value ≠ 0 := fun e he => (hkeys e he).2
  refine ⟨fun e he => ?_, fun name hname k => ?_⟩
  · have hbucket : e ∈ bucketOf hash.size es ((key e.name).toNat % hash.size) := by
      refine List.mem_filter.mpr ⟨he, decide_eq_true ?_⟩
      rw [Entry.bucket, (hkeys e he).1]
    rw [h.find hvalues]
    cases hfind : (bucketOf hash.size es ((key e.name).toNat % hash.size)).find? fun e' =>
        e'.name == e.name with
    | none =>
        have hnot := List.find?_eq_none.mp hfind e hbucket
        exact absurd (beq_self_eq_true e.name) hnot
    | some e' =>
        have hmem := List.mem_of_mem_filter (List.mem_of_find?_eq_some hfind)
        have hsame := List.find?_some hfind
        rw [List.inj_on_of_nodup_map hdistinct hmem he (beq_iff_eq.mp hsame)]
        rfl
  · have hnone : ((bucketOf hash.size es (k.toNat % hash.size)).find? fun e =>
        e.name == name) = none := by
      refine List.find?_eq_none.mpr fun e he hsame => hname ?_
      exact List.mem_map.mpr ⟨e, List.mem_of_mem_filter he, beq_iff_eq.mp hsame⟩
    rw [h.find hvalues, hnone]
    rfl

/-- The static hash finds exactly what was put in, and lies in the memory that was
allocated. -/
theorem ngxHashInit_finds (sys : System) (hinit : HashInit) (names : List HashKey)
    (key : List UInt8 → BitVec 64) :
    (∀ f, ngxHashInit sys hinit names = .error f → f = .divideByZero ∧ entries names = []) ∧
    ∀ hash, ngxHashInit sys hinit names = .ok (some hash) →
      sys.ngxPalloc hash.elts.size = some hash.elts.start ∧
      Laid sys.cachelineSize (entries names) hash ∧
      Chosen hinit.limit hinit.maxSize (entries names)
        (startSize hinit.maxSize hinit.limit names.length) hash.size ∧
      ((∀ e ∈ entries names, e.keyHash = key e.name ∧ e.value ≠ 0) →
        ((entries names).map Entry.name).Nodup →
          (∀ e ∈ entries names, ngxHashFind hash (key e.name) e.name = .ok e.value) ∧
          ∀ name, name ∉ (entries names).map Entry.name →
            ∀ k, ngxHashFind hash k name = .ok 0) := by
  rcases ngxHashInit_cases sys hinit names with hnone | ⟨hdivide, hempty⟩ |
    ⟨built, hbuilt, hblock, hlaid, hchosen⟩
  · rw [hnone]
    exact ⟨fun f hf => (by cases hf), fun hash hhash => (by cases hhash)⟩
  · rw [hdivide]
    refine ⟨fun f hf => ?_, fun hash hhash => (by cases hhash)⟩
    cases hf
    exact ⟨rfl, hempty⟩
  · rw [hbuilt]
    refine ⟨fun f hf => (by cases hf), fun hash hhash => ?_⟩
    cases hhash
    exact ⟨hblock, hlaid, hchosen, hlaid.finds⟩

/-- A machine with cache lines of 64 bytes. -/
def lineSystem : System where
  cachelineSize := 64
  ngxAlloc := fun _ => true
  ngxPcalloc := fun _ => true
  ngxPalloc := fun _ => some 4104
  junk := fun _ => 0xa5
  eight_dvd := by decide
  dvd_word := by decide
  palloc_pos := fun _ p hp => by
    cases hp
    decide

theorem ngxHashInit_finds_two : ∃ hash,
    ngxHashInit lineSystem ⟨512, 64⟩ [⟨some (bytes "Host"), 4, 7⟩, ⟨none, 0, 0⟩,
      ⟨some (bytes "Accept"), 6, 9⟩] = .ok (some hash) ∧
    ngxHashFind hash 6 (bytes "accept") = .ok 9 ∧ ngxHashFind hash 4 (bytes "from") = .ok 0 := by
  have hsome : (ngxHashInit lineSystem ⟨512, 64⟩ [⟨some (bytes "Host"), 4, 7⟩, ⟨none, 0, 0⟩,
      ⟨some (bytes "Accept"), 6, 9⟩]).toOption.join.isSome = true := by decide +kernel
  obtain ⟨hash, hhash⟩ := Option.isSome_iff_exists.mp hsome
  have hbuilt : ngxHashInit lineSystem ⟨512, 64⟩ [⟨some (bytes "Host"), 4, 7⟩, ⟨none, 0, 0⟩,
      ⟨some (bytes "Accept"), 6, 9⟩] = .ok (some hash) := by
    cases hinit : ngxHashInit lineSystem ⟨512, 64⟩ [⟨some (bytes "Host"), 4, 7⟩, ⟨none, 0, 0⟩,
        ⟨some (bytes "Accept"), 6, 9⟩] with
    | error f =>
        rw [hinit] at hhash
        cases hhash
    | ok found =>
        rw [hinit] at hhash
        exact congrArg Except.ok (Option.join_eq_some_iff.mp hhash |> Option.some.inj)
  have hfinds := ((ngxHashInit_finds lineSystem ⟨512, 64⟩ _
    fun name => BitVec.ofNat 64 name.length).2 hash hbuilt).2.2.2 (by decide +kernel)
      (by decide +kernel)
  refine ⟨hash, hbuilt, ?_, hfinds.2 _ (by decide +kernel) 4⟩
  exact hfinds.1 ⟨bytes "Accept", 6, 9⟩ (by simp [entries, HashKey.entry])

end MultiversionBalancer.Core.Hash
