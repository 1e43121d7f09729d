import Mathlib.Data.List.Infix
import Mathlib.Data.List.Nodup
import Mathlib.Data.UInt
import Mathlib.Logic.Function.Basic
import Mathlib.Logic.Function.Iterate

/-!
# The radix tree

`ngx_radix_tree.c`: a binary tree of nodes that are linked by pointers, with values on some
of them.  The functions for 32 and for 128 bits walk the tree in the same way and differ in
how they read the bits of the key, so one definition takes the bits that a function reads
and each function is this definition at its own bits.

Nodes are numbered in the order in which they are cut out of the pages of the pool, and the
pool never fails.  Nodes that are given back form a list through their `right` pointers.
-/

namespace MultiversionBalancer.Core

def noRadixValue : UInt64 := 0xffffffffffffffff

structure RadixNode where
  right : Option ℕ
  left : Option ℕ
  parent : Option ℕ
  value : UInt64
  deriving DecidableEq

/-- `ngx_radix_tree_t`; `start` counts the nodes that have been cut out of pages. -/
structure RadixTree where
  nodes : ℕ → RadixNode
  root : ℕ
  free : Option ℕ
  start : ℕ

/-- The results of an insertion and of a deletion. -/
inductive RadixResult where
  | ok
  | busy
  | error
  deriving DecidableEq

namespace RadixTree

def setNode (t : RadixTree) (n : ℕ) (node : RadixNode) : RadixTree :=
  { t with nodes := Function.update t.nodes n node }

/-- `node->right` or `node->left`. -/
def child (t : RadixTree) (n : ℕ) (b : Bool) : Option ℕ :=
  if b then (t.nodes n).right else (t.nodes n).left

def setChild (t : RadixTree) (n : ℕ) (b : Bool) (c : Option ℕ) : RadixTree :=
  if b then t.setNode n { t.nodes n with right := c }
  else t.setNode n { t.nodes n with left := c }

def setValue (t : RadixTree) (n : ℕ) (value : UInt64) : RadixTree :=
  t.setNode n { t.nodes n with value := value }

def ngxRadixAlloc (t : RadixTree) : RadixTree × ℕ :=
  match t.free with
  | some p => ({ t with free := (t.nodes p).right }, p)
  | none => ({ t with start := t.start + 1 }, t.start)

/-- The first loop of an insertion: the last node on the way and the bits that are left
when there is no further node. -/
def descend (t : RadixTree) (node : ℕ) : List Bool → ℕ × List Bool
  | [] => (node, [])
  | b :: bits =>
    match t.child node b with
    | none => (node, b :: bits)
    | some next => t.descend next bits

/-- A new child of `node`. -/
def grow (t : RadixTree) (node : ℕ) (b : Bool) : RadixTree × ℕ :=
  let (t, next) := t.ngxRadixAlloc
  let t := t.setNode next ⟨none, none, some node, noRadixValue⟩
  (t.setChild node b (some next), next)

/-- The second loop of an insertion. -/
def extend (t : RadixTree) (node : ℕ) : List Bool → RadixTree × ℕ
  | [] => (t, node)
  | b :: bits =>
    let (t, next) := t.grow node b
    t.extend next bits

/-- The insertion at the bits that the loops of the function read. -/
def insert (t : RadixTree) (bits : List Bool) (value : UInt64) : RadixTree × RadixResult :=
  match t.descend t.root bits with
  | (node, []) =>
    if (t.nodes node).value ≠ noRadixValue then (t, .busy)
    else (t.setValue node value, .ok)
  | (node, bits) =>
    let (t, node) := t.extend node bits
    (t.setValue node value, .ok)

/-- The node that the first loop of a deletion reaches. -/
def walk (t : RadixTree) (bits : List Bool) : Option ℕ :=
  bits.foldlM t.child t.root

/-- A node is taken off its parent and put into the list of free nodes. -/
def release (t : RadixTree) (parent node : ℕ) : RadixTree :=
  let t := if (t.nodes parent).right = some node then t.setChild parent true none
    else t.setChild parent false none
  let t := t.setNode node { t.nodes node with right := t.free }
  { t with free := some node }

/-- The second loop of a deletion: the node is released, and so is each parent that is left
with nothing.  There is no result when the loop reads the parent of a node that has none. -/
def prune (t : RadixTree) : ℕ → ℕ → Option RadixTree
  | 0, _ => none
  | fuel + 1, node => do
    let parent ← (t.nodes node).parent
    let t := t.release parent node
    if (t.nodes parent).right.isSome || (t.nodes parent).left.isSome then some t
    else if (t.nodes parent).value ≠ noRadixValue then some t
    else if (t.nodes parent).parent = none then some t
    else t.prune fuel parent

/-- The deletion at the bits that the loop of the function reads. -/
def delete (t : RadixTree) (bits : List Bool) : Option (RadixTree × RadixResult) :=
  match t.walk bits with
  | none => some (t, .error)
  | some node =>
    if (t.nodes node).right.isSome || (t.nodes node).left.isSome then
      if (t.nodes node).value ≠ noRadixValue then
        some (t.setValue node noRadixValue, .ok)
      else some (t, .error)
    else (t.prune (bits.length + 1) node).map (·, .ok)

/-- The loop of a search that reads the `i`-th bit in its `i`-th round.  There is no result
when the loop runs for more than `fuel` rounds. -/
def find (t : RadixTree) (bits : ℕ → Bool) : ℕ → ℕ → UInt64 → Option ℕ → Option UInt64
  | _, _, value, none => some value
  | 0, _, _, some _ => none
  | fuel + 1, i, value, some node =>
    let value := if (t.nodes node).value ≠ noRadixValue then (t.nodes node).value else value
    t.find bits fuel (i + 1) value (t.child node (bits i))

end RadixTree

/-- The places of the bits that a loop visits while the mask has them. -/
def visited {σ : Type*} (masked : σ → Bool) (advance : σ → σ) : ℕ → σ → List σ
  | 0, _ => []
  | fuel + 1, s => if masked s then s :: visited masked advance fuel (advance s) else []

/-- The next bit in the functions for 32 bits. -/
def advance32 (bit : UInt32) : UInt32 :=
  bit >>> 1

/-- The bits of `key` under `mask`: `bit` starts at the highest bit, is shifted to the right
in each round and is `0` after 32 rounds. -/
def maskedBits32 (key mask : UInt32) : List Bool :=
  (visited (fun bit => bit &&& mask != 0) advance32 33 0x80000000).map
    fun bit => key &&& bit != 0

/-- The next byte and bit in an insertion and a deletion, which stop at the 16th byte. -/
def advance128 : ℕ × UInt8 → ℕ × UInt8
  | (i, bit) =>
    let bit := bit >>> 1
    if bit = 0 then if i + 1 = 16 then (i + 1, bit) else (i + 1, 0x80) else (i, bit)

/-- The next byte and bit in a search. -/
def advanceFind128 : ℕ × UInt8 → ℕ × UInt8
  | (i, bit) =>
    let bit := bit >>> 1
    if bit = 0 then (i + 1, 0x80) else (i, bit)

/-- The bits of the 16 bytes of `key` under those of `mask`. -/
def maskedBits128 (key mask : ℕ → UInt8) : List Bool :=
  (visited (fun p : ℕ × UInt8 => p.2 &&& mask p.1 != 0) advance128 129 (0, 0x80)).map
    fun p => key p.1 &&& p.2 != 0

namespace RadixTree

def ngxRadix32treeInsert (t : RadixTree) (key mask : UInt32) (value : UInt64) :
    RadixTree × RadixResult :=
  t.insert (maskedBits32 key mask) value

def ngxRadix32treeDelete (t : RadixTree) (key mask : UInt32) :
    Option (RadixTree × RadixResult) :=
  t.delete (maskedBits32 key mask)

def ngxRadix32treeFind (t : RadixTree) (fuel : ℕ) (key : UInt32) : Option UInt64 :=
  t.find (fun i => key &&& advance32^[i] 0x80000000 != 0) fuel 0 noRadixValue (some t.root)

def ngxRadix128treeInsert (t : RadixTree) (key mask : ℕ → UInt8) (value : UInt64) :
    RadixTree × RadixResult :=
  t.insert (maskedBits128 key mask) value

def ngxRadix128treeDelete (t : RadixTree) (key mask : ℕ → UInt8) :
    Option (RadixTree × RadixResult) :=
  t.delete (maskedBits128 key mask)

/-- `ngx_radix128tree_find`, which reads what stands behind the 16 bytes of the key after
the last bit. -/
def ngxRadix128treeFind (t : RadixTree) (fuel : ℕ) (key : ℕ → UInt8) : Option UInt64 :=
  t.find (fun i => key (advanceFind128^[i] (0, 0x80)).1 &&& (advanceFind128^[i] (0, 0x80)).2 != 0)
    fuel 0 noRadixValue (some t.root)

/-- The inner loop of `ngx_radix_tree_create`.  There is no result when an insertion fails
or the loop runs for more than `fuel` rounds. -/
def fillLevel (mask inc : UInt32) : ℕ → RadixTree → UInt32 → Option RadixTree
  | 0, _, _ => none
  | fuel + 1, t, key =>
    match t.ngxRadix32treeInsert key mask noRadixValue with
    | (t, .ok) => if key + inc = 0 then some t else fillLevel mask inc fuel t (key + inc)
    | _ => none

/-- The outer loop of `ngx_radix_tree_create` with the rounds that are left. -/
def preallocateLevels : ℕ → UInt32 → UInt32 → RadixTree → Option RadixTree
  | 0, _, _, t => some t
  | rounds + 1, mask, inc, t => do
    let mask := mask >>> 1 ||| 0x80000000
    let t ← fillLevel mask inc (2 ^ 32) t 0
    preallocateLevels rounds mask (inc >>> 1) t

/-- The number of rounds of `while (preallocate--)` for a 64-bit `preallocate`; a node takes
32 bytes. -/
def preallocateRounds (pagesize : ℕ) (preallocate : ℤ) : ℕ :=
  if preallocate = -1 then
    match pagesize / 32 with
    | 128 => 6
    | 256 => 7
    | _ => 8
  else (preallocate % 2 ^ 64).toNat

def rootOnly : RadixTree where
  nodes := fun _ => ⟨none, none, none, noRadixValue⟩
  root := 0
  free := none
  start := 1

def ngxRadixTreeCreate (pagesize : ℕ) (preallocate : ℤ) : Option RadixTree :=
  preallocateLevels (preallocateRounds pagesize preallocate) 0 0x80000000 rootOnly

/-! ## Paths -/

/-- The value on the node that the bits lead to. -/
def valueAt (t : RadixTree) (p : List Bool) : UInt64 :=
  (t.walk p).elim noRadixValue fun n => (t.nodes n).value

/-- The nodes from `p` on through `right` are `fs`. -/
def FreeChain (t : RadixTree) : Option ℕ → List ℕ → Prop
  | p, [] => p = none
  | p, n :: fs => p = some n ∧ t.FreeChain (t.nodes n).right fs

/-- What holds of a tree of depth at most `d` between two calls: no two paths lead to one
node, a node knows its parent, and the free nodes are apart from those of the tree. -/
structure Sound (t : RadixTree) (d : ℕ) : Prop where
  inj : ∀ p q n, t.walk p = some n → t.walk q = some n → p = q
  root : (t.nodes t.root).parent = none
  parent : ∀ p b n, t.walk (p ++ [b]) = some n → (t.nodes n).parent = t.walk p
  started : ∀ p n, t.walk p = some n → n < t.start
  depth : ∀ p n, t.walk p = some n → p.length ≤ d
  free : ∃ fs, t.FreeChain t.free fs ∧ fs.Nodup ∧ ∀ n ∈ fs, n < t.start ∧ ∀ p, t.walk p ≠ some n

variable {t t' : RadixTree} {d n m : ℕ} {p q : List Bool} {b : Bool}

theorem walk_nil (t : RadixTree) : t.walk [] = some t.root := rfl

theorem walk_append (t : RadixTree) (p q : List Bool) :
    t.walk (p ++ q) = (t.walk p).bind fun n => q.foldlM t.child n := by
  rw [walk, List.foldlM_append]
  rfl

theorem walk_concat (t : RadixTree) (p : List Bool) (b : Bool) :
    t.walk (p ++ [b]) = (t.walk p).bind fun n => t.child n b := by
  rw [walk_append]
  simp

/-- A node on a path has a parent on it. -/
theorem walk_of_concat (h : t.walk (p ++ [b]) = some n) :
    ∃ m, t.walk p = some m ∧ t.child m b = some n := by
  rw [walk_concat] at h
  exact Option.bind_eq_some_iff.mp h

theorem FreeChain.congr {fs : List ℕ} {f : Option ℕ} (h : t.FreeChain f fs)
    (hnodes : ∀ n ∈ fs, (t'.nodes n).right = (t.nodes n).right) : t'.FreeChain f fs := by
  induction fs generalizing f with
  | nil => exact h
  | cons n fs ih =>
    obtain ⟨hf, hrest⟩ := h
    refine ⟨hf, ?_⟩
    rw [hnodes n (by simp)]
    exact ih hrest fun m hm => hnodes m (by simp [hm])

theorem Sound.mono (h : t.Sound d) {e : ℕ} (hde : d ≤ e) : t.Sound e where
  inj := h.inj
  root := h.root
  parent := h.parent
  started := h.started
  depth := fun p n hp => (h.depth p n hp).trans hde
  free := h.free

/-- A tree whose paths, parents and free nodes are those of a sound tree is sound. -/
theorem Sound.congr (h : t.Sound d) (hroot : t'.root = t.root) (hfree : t'.free = t.free)
    (hstart : t'.start = t.start) (hwalk : ∀ p, t'.walk p = t.walk p)
    (hparent : ∀ n, (t'.nodes n).parent = (t.nodes n).parent)
    (hright : ∀ n, (t'.nodes n).right = (t.nodes n).right) : t'.Sound d where
  inj := by simpa only [hwalk] using h.inj
  root := by simpa only [hroot, hparent] using h.root
  parent := by simpa only [hwalk, hparent] using h.parent
  started := by simpa only [hwalk, hstart] using h.started
  depth := by simpa only [hwalk] using h.depth
  free := by
    obtain ⟨fs, hchain, hnodup, hout⟩ := h.free
    refine ⟨fs, ?_, hnodup, ?_⟩
    · rw [hfree]
      exact hchain.congr fun n _ => hright n
    · simpa only [hwalk, hstart] using hout

/-! ## Values -/

theorem setValue_child (t : RadixTree) (n : ℕ) (v : UInt64) :
    (t.setValue n v).child = t.child := by
  funext m b
  by_cases hm : m = n
  · subst hm
    simp [child, setValue, setNode]
  · simp [child, setValue, setNode, hm]

theorem setValue_walk (t : RadixTree) (n : ℕ) (v : UInt64) (p : List Bool) :
    (t.setValue n v).walk p = t.walk p := by
  rw [walk, setValue_child]
  rfl

theorem Sound.setValue (h : t.Sound d) (n : ℕ) (v : UInt64) : (t.setValue n v).Sound d := by
  refine h.congr rfl rfl rfl (setValue_walk t n v) ?_ ?_
  · intro m
    by_cases hm : m = n
    · subst hm
      simp [RadixTree.setValue, setNode]
    · simp [RadixTree.setValue, setNode, hm]
  · intro m
    by_cases hm : m = n
    · subst hm
      simp [RadixTree.setValue, setNode]
    · simp [RadixTree.setValue, setNode, hm]

theorem Sound.valueAt_setValue (h : t.Sound d) (hp : t.walk p = some n) (v : UInt64)
    (q : List Bool) : (t.setValue n v).valueAt q = if q = p then v else t.valueAt q := by
  rw [valueAt, valueAt, setValue_walk]
  by_cases hq : q = p
  · subst hq
    simp [hp, RadixTree.setValue, setNode]
  · rw [if_neg hq]
    cases hm : t.walk q with
    | none => rfl
    | some m =>
      have hne : m ≠ n := by
        rintro rfl
        exact hq (h.inj q p m hm hp)
      simp [RadixTree.setValue, setNode, hne]

/-! ## New nodes -/

/-- A new node is not in the tree, and it is not free any more. -/
structure Allocated (t t' : RadixTree) (m : ℕ) : Prop where
  nodes : t'.nodes = t.nodes
  root : t'.root = t.root
  start : t.start ≤ t'.start
  lt : m < t'.start
  out : ∀ p, t.walk p ≠ some m
  free : ∃ fs, t.FreeChain t'.free fs ∧ (m :: fs).Nodup ∧
    ∀ n ∈ fs, n < t.start ∧ ∀ p, t.walk p ≠ some n

theorem Sound.alloc (h : t.Sound d) : Allocated t t.ngxRadixAlloc.1 t.ngxRadixAlloc.2 := by
  obtain ⟨fs, hchain, hnodup, hout⟩ := h.free
  cases hf : t.free with
  | none =>
    have hfs : fs = [] := by
      cases fs with
      | nil => rfl
      | cons n fs => simp [FreeChain, hf] at hchain
    have halloc : t.ngxRadixAlloc = ({ t with start := t.start + 1 }, t.start) := by
      simp [ngxRadixAlloc, hf]
    rw [halloc]
    refine ⟨rfl, rfl, Nat.le_succ _, Nat.lt_succ_self _, ?_, ⟨[], ?_, by simp, by simp⟩⟩
    · intro p hp
      exact absurd (h.started p _ hp) (lt_irrefl _)
    · simp [FreeChain, hf]
  | some m =>
    cases fs with
    | nil => simp [FreeChain, hf] at hchain
    | cons n fs =>
      obtain ⟨hn, hrest⟩ := hchain
      obtain rfl : m = n := by simpa [hf] using hn
      have halloc : t.ngxRadixAlloc = ({ t with free := (t.nodes m).right }, m) := by
        simp [ngxRadixAlloc, hf]
      have hm := hout m (by simp)
      rw [halloc]
      exact ⟨rfl, rfl, le_rfl, hm.1, hm.2,
        ⟨fs, hrest, hnodup, fun k hk => hout k (by simp [hk])⟩⟩

theorem walk_of_newChild (hinj : ∀ q k, t.walk q = some k → k = n → q = p)
    (hp : t.walk p = some n) (hb : t.child n b = none) (hout : ∀ p, t.walk p ≠ some m)
    (hroot : t'.root = t.root) (hm : ∀ c, t'.child m c = none)
    (hn : ∀ c, t'.child n c = if c = b then some m else t.child n c)
    (hother : ∀ k c, k ≠ n → k ≠ m → t'.child k c = t.child k c) (q : List Bool) :
    t'.walk q = if q = p ++ [b] then some m else t.walk q := by
  have hnone : t.walk (p ++ [b]) = none := by
    rw [walk_concat, hp]
    exact hb
  -- by induction from the end of the path, whose last bit is read at the last node
  induction q using List.reverseRecOn with
  | nil =>
    rw [walk_nil, walk_nil, hroot, if_neg (by simp)]
  | append_singleton q c ih =>
    rw [walk_concat, ih]
    by_cases hq : q = p ++ [b]
    · subst hq
      rw [if_pos rfl, if_neg (by simp), walk_concat t, hnone]
      exact hm c
    · rw [if_neg hq, walk_concat t]
      cases hk : t.walk q with
      | none =>
        have hne : q ≠ p := by
          rintro rfl
          simp [hk] at hp
        simp [hne]
      | some k =>
        have hkm : k ≠ m := by
          rintro rfl
          exact hout q hk
        by_cases hkn : k = n
        · have hqp := hinj q k hk hkn
          subst hkn hqp
          simp [hn]
        · have hne : q ≠ p := by
            rintro rfl
            exact hkn (by simpa [hk] using hp)
          simp [hother k c hkn hkm, hne]

theorem setNode_child (t : RadixTree) (n : ℕ) (node : RadixNode) (k : ℕ) (c : Bool) :
    (t.setNode n node).child k c =
      if k = n then (if c then node.right else node.left) else t.child k c := by
  by_cases hk : k = n
  · subst hk
    simp [child, setNode]
  · simp [child, setNode, hk]

theorem setChild_child (t : RadixTree) (n : ℕ) (b : Bool) (x : Option ℕ) (k : ℕ) (c : Bool) :
    (t.setChild n b x).child k c = if k = n ∧ c = b then x else t.child k c := by
  unfold setChild
  by_cases hk : k = n
  · subst hk
    cases b <;> cases c <;> simp [setNode, child]
  · cases b <;> simp [setNode_child, hk]

theorem setChild_nodes_of_ne (t : RadixTree) (b : Bool) (x : Option ℕ) (h : m ≠ n) :
    (t.setChild n b x).nodes m = t.nodes m := by
  cases b <;> simp [setChild, setNode, h]

@[simp] theorem setChild_parent (t : RadixTree) (b : Bool) (x : Option ℕ) (n m : ℕ) :
    ((t.setChild n b x).nodes m).parent = (t.nodes m).parent := by
  by_cases h : m = n
  · subst h
    cases b <;> simp [setChild, setNode]
  · rw [setChild_nodes_of_ne t b x h]

@[simp] theorem setChild_value (t : RadixTree) (b : Bool) (x : Option ℕ) (n m : ℕ) :
    ((t.setChild n b x).nodes m).value = (t.nodes m).value := by
  by_cases h : m = n
  · subst h
    cases b <;> simp [setChild, setNode]
  · rw [setChild_nodes_of_ne t b x h]

@[simp] theorem setChild_root (t : RadixTree) (b : Bool) (x : Option ℕ) (n : ℕ) :
    (t.setChild n b x).root = t.root := by
  cases b <;> rfl

@[simp] theorem setChild_free (t : RadixTree) (b : Bool) (x : Option ℕ) (n : ℕ) :
    (t.setChild n b x).free = t.free := by
  cases b <;> rfl

@[simp] theorem setChild_start (t : RadixTree) (b : Bool) (x : Option ℕ) (n : ℕ) :
    (t.setChild n b x).start = t.start := by
  cases b <;> rfl

theorem grow_nodes (t : RadixTree) (n : ℕ) (b : Bool) :
    t.grow n b =
      ((t.ngxRadixAlloc.1.setNode t.ngxRadixAlloc.2 ⟨none, none, some n, noRadixValue⟩).setChild
        n b (some t.ngxRadixAlloc.2), t.ngxRadixAlloc.2) := rfl

/-- The node `m` has become the child `b` of the node `n`; `t₁` is the tree with the memory
for it. -/
structure Grown (t t₁ t' : RadixTree) (n m : ℕ) (b : Bool) : Prop where
  child : ∀ k c, t'.child k c =
    if k = n ∧ c = b then some m else if k = m then none else t.child k c
  node : ∀ k, k ≠ n → k ≠ m → t'.nodes k = t.nodes k
  parent : ∀ k, (t'.nodes k).parent = if k = m then some n else (t.nodes k).parent
  value : ∀ k, (t'.nodes k).value = if k = m then noRadixValue else (t.nodes k).value
  root : t'.root = t.root
  free : t'.free = t₁.free
  start : t'.start = t₁.start

theorem Allocated.grown {t₁ : RadixTree} (ha : Allocated t t₁ m) (n : ℕ) (b : Bool) :
    Grown t t₁ ((t₁.setNode m ⟨none, none, some n, noRadixValue⟩).setChild n b (some m)) n m b where
  child k c := by
    rw [setChild_child, setNode_child]
    simp [RadixTree.child, ha.nodes]
  node k hkn hkm := by
    rw [setChild_nodes_of_ne _ _ _ hkn]
    simp [setNode, hkm, ha.nodes]
  parent k := by
    rw [setChild_parent]
    by_cases hk : k = m
    · simp [setNode, hk]
    · simp [setNode, hk, ha.nodes]
  value k := by
    rw [setChild_value]
    by_cases hk : k = m
    · simp [setNode, hk]
    · simp [setNode, hk, ha.nodes]
  root := by
    rw [setChild_root]
    exact ha.root
  free := by
    rw [setChild_free]
    rfl
  start := by
    rw [setChild_start]
    rfl

section Grown

variable {t₁ : RadixTree}

theorem Grown.walk (hg : Grown t t₁ t' n m b) (h : t.Sound d) (ha : Allocated t t₁ m)
    (hp : t.walk p = some n) (hb : t.child n b = none) (q : List Bool) :
    t'.walk q = if q = p ++ [b] then some m else t.walk q := by
  have hnm : n ≠ m := by
    rintro rfl
    exact ha.out p hp
  refine walk_of_newChild ?_ hp hb ha.out hg.root ?_ ?_ ?_ q
  · rintro q k hk rfl
    exact h.inj q p k hk hp
  · intro c
    simp [hg.child, hnm.symm]
  · intro c
    simp [hg.child, hnm]
  · intro k c hkn hkm
    simp [hg.child, hkn, hkm]

/-- A path of the new tree is the one to the new node, or one of the old tree. -/
theorem Grown.cases_walk (hg : Grown t t₁ t' n m b) (h : t.Sound d) (ha : Allocated t t₁ m)
    (hp : t.walk p = some n) (hb : t.child n b = none) {q : List Bool} {k : ℕ}
    (hq : t'.walk q = some k) :
    (q = p ++ [b] ∧ k = m) ∨ (q ≠ p ++ [b] ∧ k ≠ m ∧ t.walk q = some k) := by
  rw [hg.walk h ha hp hb] at hq
  split at hq
  · next hself => exact .inl ⟨hself, (Option.some.inj hq).symm⟩
  · next hother =>
      refine .inr ⟨hother, ?_, hq⟩
      rintro rfl
      exact ha.out q hq

theorem Grown.sound (hg : Grown t t₁ t' n m b) (h : t.Sound d) (ha : Allocated t t₁ m)
    (hp : t.walk p = some n) (hb : t.child n b = none) (hd : p.length < d) : t'.Sound d := by
  have hwalk (q : List Bool) := hg.walk h ha hp hb q
  have hold {q : List Bool} {k : ℕ} (hq : t'.walk q = some k) := hg.cases_walk h ha hp hb hq
  refine ⟨?_, ?_, ?_, ?_, ?_, ?_⟩
  · intro q r k hq hr
    obtain ⟨hq1, hq2⟩ | ⟨hq1, hq2, hq3⟩ := hold hq
    · obtain ⟨hr1, -⟩ | ⟨-, hr2, -⟩ := hold hr
      · rw [hq1, hr1]
      · exact absurd hq2 hr2
    · obtain ⟨-, hr2⟩ | ⟨-, -, hr3⟩ := hold hr
      · exact absurd hr2 hq2
      · exact h.inj q r k hq3 hr3
  · rw [hg.root, hg.parent, if_neg, h.root]
    rintro hm
    exact ha.out [] (by rw [walk_nil, hm])
  · intro q c k hk
    obtain ⟨hq, hkm⟩ | ⟨hq, hkm, hk⟩ := hold hk
    · obtain ⟨rfl, rfl⟩ : q = p ∧ c = b := by simpa using hq
      rw [hg.parent, if_pos hkm, hwalk, if_neg (by simp), hp]
    · rw [hg.parent, if_neg hkm, hwalk, if_neg, h.parent q c k hk]
      rintro rfl
      rw [walk_concat, walk_concat, hp, Option.bind_some, hb] at hk
      cases hk
  · intro q k hq
    rw [hg.start]
    obtain ⟨-, hk⟩ | ⟨-, -, hk⟩ := hold hq
    · rw [hk]
      exact ha.lt
    · exact (h.started q k hk).trans_le ha.start
  · intro q k hq
    obtain ⟨hq, -⟩ | ⟨-, -, hk⟩ := hold hq
    · simp [hq]
      omega
    · exact h.depth q k hk
  · obtain ⟨fs, hchain, hnodup, hout⟩ := ha.free
    obtain ⟨hmfs, hfs⟩ := List.nodup_cons.mp hnodup
    refine ⟨fs, ?_, hfs, ?_⟩
    · rw [hg.free]
      refine hchain.congr fun k hk => ?_
      rw [hg.node]
      · rintro rfl
        exact (hout k hk).2 p hp
      · rintro rfl
        exact hmfs hk
    · intro k hk
      refine ⟨?_, ?_⟩
      · rw [hg.start]
        exact (hout k hk).1.trans_le ha.start
      · intro q hq
        obtain ⟨-, rfl⟩ | ⟨-, -, hq⟩ := hold hq
        · exact hmfs hk
        · exact (hout k hk).2 q hq

theorem Grown.valueAt (hg : Grown t t₁ t' n m b) (h : t.Sound d) (ha : Allocated t t₁ m)
    (hp : t.walk p = some n) (hb : t.child n b = none) (q : List Bool) :
    t'.valueAt q = t.valueAt q := by
  rw [RadixTree.valueAt, RadixTree.valueAt, hg.walk h ha hp hb]
  by_cases hq : q = p ++ [b]
  · rw [if_pos hq, hq, walk_concat, hp, Option.bind_some, hb]
    simp [hg.value]
  · rw [if_neg hq]
    cases hk : t.walk q with
    | none => rfl
    | some k =>
      have hkm : k ≠ m := by
        rintro rfl
        exact ha.out q hk
      simp [hg.value, hkm]

end Grown

/-- A new child has no value, and all else stays. -/
theorem Sound.grow (h : t.Sound d) (hp : t.walk p = some n) (hb : t.child n b = none)
    (hd : p.length < d) :
    (t.grow n b).1.Sound d ∧ (t.grow n b).1.walk (p ++ [b]) = some (t.grow n b).2 ∧
      (∀ q, q ≠ p ++ [b] → (t.grow n b).1.walk q = t.walk q) ∧
      ∀ q, (t.grow n b).1.valueAt q = t.valueAt q := by
  have ha := h.alloc
  have hg := ha.grown n b
  rw [grow_nodes]
  refine ⟨hg.sound h ha hp hb hd, ?_, fun q hq => ?_, hg.valueAt h ha hp hb⟩
  · rw [hg.walk h ha hp hb, if_pos rfl]
  · rw [hg.walk h ha hp hb, if_neg hq]

/-- The second loop of an insertion adds nodes without values. -/
theorem Sound.extend (h : t.Sound d) (hp : t.walk p = some n) {bits : List Bool}
    (hb : ∀ b, bits.head? = some b → t.child n b = none) (hd : p.length + bits.length ≤ d) :
    (t.extend n bits).1.Sound d ∧
      (t.extend n bits).1.walk (p ++ bits) = some (t.extend n bits).2 ∧
      ∀ q, (t.extend n bits).1.valueAt q = t.valueAt q := by
  induction bits generalizing t n p with
  | nil =>
    refine ⟨h, ?_, fun q => rfl⟩
    rw [List.append_nil]
    exact hp
  | cons b bits ih =>
    rw [List.length_cons] at hd
    obtain ⟨hsound, hnext, hwalk, hvalue⟩ := h.grow hp (hb b rfl) (by omega)
    have hnone : ∀ c, (t.grow n b).1.child (t.grow n b).2 c = none := by
      intro c
      have hold : t.walk (p ++ [b]) = none := by
        rw [walk_concat, hp]
        exact hb b rfl
      have hc := hwalk (p ++ [b] ++ [c]) (by simp)
      rw [walk_concat, hnext, walk_concat, hold] at hc
      exact hc
    obtain ⟨hsound', hend, hvalue'⟩ := ih hsound hnext (fun c _ => hnone c)
      (by rw [List.length_append, List.length_singleton]; omega)
    refine ⟨hsound', ?_, fun q => (hvalue' q).trans (hvalue q)⟩
    rw [List.append_assoc] at hend
    exact hend

/-- The first loop of an insertion stops at the last node on the way. -/
theorem descend_spec (t : RadixTree) (bits : List Bool) (hp : t.walk p = some n) :
    ∃ q rest m, t.descend n bits = (m, rest) ∧ bits = q ++ rest ∧ t.walk (p ++ q) = some m ∧
      ∀ b, rest.head? = some b → t.child m b = none := by
  induction bits generalizing n p with
  | nil => exact ⟨[], [], n, rfl, rfl, by simpa using hp, by simp⟩
  | cons b bits ih =>
    cases hc : t.child n b with
    | none =>
      refine ⟨[], b :: bits, n, by simp [descend, hc], rfl, by simpa using hp, ?_⟩
      intro c hc'
      obtain rfl : b = c := by simpa using hc'
      exact hc
    | some m =>
      have hm : t.walk (p ++ [b]) = some m := by
        rw [walk_concat, hp]
        exact hc
      obtain ⟨q, rest, k, hdescend, hbits, hk, hrest⟩ := ih hm
      refine ⟨b :: q, rest, k, by simp [descend, hc, hdescend], by simp [hbits], ?_, hrest⟩
      rw [List.append_assoc] at hk
      exact hk

theorem valueAt_of_walk (hp : t.walk p = some n) : t.valueAt p = (t.nodes n).value := by
  rw [valueAt, hp]
  rfl

/-- An insertion is refused exactly when the path has a value; else it changes the value of
this path and of no other. -/
theorem Sound.insert (h : t.Sound d) {bits : List Bool} (hd : bits.length ≤ d) (v : UInt64) :
    (t.valueAt bits ≠ noRadixValue → t.insert bits v = (t, .busy)) ∧
      (t.valueAt bits = noRadixValue → (t.insert bits v).2 = .ok ∧
        (t.insert bits v).1.Sound d ∧
        ∀ q, (t.insert bits v).1.valueAt q = if q = bits then v else t.valueAt q) := by
  obtain ⟨q, rest, m, hdescend, rfl, hm, hrest⟩ :=
    t.descend_spec bits (walk_nil t)
  rw [List.nil_append] at hm
  cases rest with
  | nil =>
    rw [List.append_nil] at hdescend ⊢
    rw [valueAt_of_walk hm]
    constructor
    · intro hv
      simp [RadixTree.insert, hdescend, hv]
    · intro hv
      have heq : t.insert q v = (t.setValue m v, .ok) := by
        simp [RadixTree.insert, hdescend, hv]
      rw [heq]
      exact ⟨rfl, h.setValue m v, h.valueAt_setValue hm v⟩
  | cons b rest =>
    have hnone : t.valueAt (q ++ b :: rest) = noRadixValue := by
      have hc := hrest b rfl
      rw [valueAt, walk_append, hm]
      simp [hc]
    refine ⟨fun hv => absurd hnone hv, fun _ => ?_⟩
    have heq : t.insert (q ++ b :: rest) v =
        ((t.extend m (b :: rest)).1.setValue (t.extend m (b :: rest)).2 v, .ok) := by
      simp [RadixTree.insert, hdescend]
    rw [List.length_append] at hd
    obtain ⟨hsound, hend, hvalue⟩ := h.extend hm hrest hd
    rw [heq]
    refine ⟨rfl, hsound.setValue _ v, fun r => ?_⟩
    rw [hsound.valueAt_setValue hend, hvalue]

/-! ## Released nodes -/

theorem walk_of_lostChild (hinj : ∀ q k, t.walk q = some k → k = n → q = p)
    (hp : t.walk p = some n) (hm : t.walk (p ++ [b]) = some m)
    (hleaf : ∀ c, t.child m c = none) (hroot : t'.root = t.root)
    (hn : ∀ c, t'.child n c = if c = b then none else t.child n c)
    (hother : ∀ k c, k ≠ n → k ≠ m → t'.child k c = t.child k c)
    (hout : ∀ q, t.walk q = some m → q = p ++ [b]) (q : List Bool) :
    t'.walk q = if q = p ++ [b] then none else t.walk q := by
  induction q using List.reverseRecOn with
  | nil =>
    rw [walk_nil, walk_nil, hroot, if_neg (by simp)]
  | append_singleton q c ih =>
    rw [walk_concat, ih]
    by_cases hq : q = p ++ [b]
    · subst hq
      rw [if_pos rfl, if_neg (by simp), walk_concat t, hm]
      exact (hleaf c).symm
    · rw [if_neg hq, walk_concat t]
      cases hk : t.walk q with
      | none => simp
      | some k =>
        have hkm : k ≠ m := by
          rintro rfl
          exact hq (hout q hk)
        by_cases hkn : k = n
        · have hqp := hinj q k hk hkn
          subst hkn hqp
          simp [hn]
        · have hne : q ≠ p := by
            rintro rfl
            exact hkn (by simpa [hk] using hp)
          simp [hother k c hkn hkm, hne]

theorem release_eq (t : RadixTree) (h : t.child n b = some m)
    (hother : b = false → t.child n true ≠ some m) :
    t.release n m =
      { (t.setChild n b none).setNode m { (t.setChild n b none).nodes m with right := t.free }
        with free := some m } := by
  cases b with
  | false =>
    have hright : (t.nodes n).right ≠ some m := hother rfl
    simp [release, hright]
  | true =>
    have hright : (t.nodes n).right = some m := h
    simp [release, hright]

/-- A released leaf is free, and all else stays. -/
theorem Sound.release (h : t.Sound d) (hp : t.walk p = some n)
    (hm : t.walk (p ++ [b]) = some m) (hleaf : ∀ c, t.child m c = none) :
    (t.release n m).Sound d ∧
      (∀ q, (t.release n m).walk q = if q = p ++ [b] then none else t.walk q) ∧
      (∀ k, ((t.release n m).nodes k).parent = (t.nodes k).parent) ∧
      ∀ k, ((t.release n m).nodes k).value = (t.nodes k).value := by
  have hb : t.child n b = some m := by
    rw [walk_concat, hp] at hm
    exact hm
  have hother : b = false → t.child n true ≠ some m := by
    intro hfalse hright
    have hm' : t.walk (p ++ [true]) = some m := by
      rw [walk_concat, hp]
      exact hright
    have heq := h.inj _ _ m hm hm'
    simp [hfalse] at heq
  have hnm : n ≠ m := by
    rintro rfl
    have heq := h.inj _ _ n hp hm
    simp at heq
  rw [release_eq t hb hother]
  set t' : RadixTree := { (t.setChild n b none).setNode m
    { (t.setChild n b none).nodes m with right := t.free } with free := some m } with ht'
  have hchild (k : ℕ) (c : Bool) (hk : k ≠ m) :
      t'.child k c = if k = n ∧ c = b then none else t.child k c := by
    have hset : t'.child k c = (t.setChild n b none).child k c := by
      simp [child, ht', setNode, hk]
    rw [hset, setChild_child]
  have hparent (k : ℕ) : (t'.nodes k).parent = (t.nodes k).parent := by
    by_cases hk : k = m
    · simp [ht', setNode, hk]
    · simp [ht', setNode, hk]
  have hvalue (k : ℕ) : (t'.nodes k).value = (t.nodes k).value := by
    by_cases hk : k = m
    · simp [ht', setNode, hk]
    · simp [ht', setNode, hk]
  have hroot : t'.root = t.root := by simp [ht', setNode]
  have hstart : t'.start = t.start := by simp [ht', setNode]
  have hwalk (q : List Bool) : t'.walk q = if q = p ++ [b] then none else t.walk q := by
    refine walk_of_lostChild ?_ hp hm hleaf hroot ?_ ?_ ?_ q
    · intro q k hk hkn
      rw [hkn] at hk
      exact h.inj q p n hk hp
    · intro c
      simp [hchild n c hnm]
    · intro k c hkn hkm
      simp [hchild k c hkm, hkn]
    · intro q hq
      exact h.inj q _ m hq hm
  have hold (q : List Bool) (k : ℕ) (hq : t'.walk q = some k) : t.walk q = some k ∧ k ≠ m := by
    rw [hwalk] at hq
    split at hq
    · simp at hq
    · refine ⟨hq, ?_⟩
      rintro rfl
      exact absurd (h.inj q _ k hq hm) (by assumption)
  refine ⟨⟨?_, ?_, ?_, ?_, ?_, ?_⟩, hwalk, hparent, hvalue⟩
  · intro q r k hq hr
    exact h.inj q r k (hold q k hq).1 (hold r k hr).1
  · rw [hroot, hparent]
    exact h.root
  · intro q c k hk
    have hk' := (hold _ k hk).1
    rw [hparent, hwalk, h.parent q c k hk', if_neg]
    rintro rfl
    rw [walk_concat, hm] at hk'
    exact absurd hk' (by simp [hleaf])
  · intro q k hq
    rw [hstart]
    exact h.started q k (hold q k hq).1
  · intro q k hq
    exact h.depth q k (hold q k hq).1
  · obtain ⟨fs, hchain, hnodup, hout⟩ := h.free
    have hmfs : m ∉ fs := fun hin => (hout m hin).2 _ hm
    refine ⟨m :: fs, ⟨rfl, ?_⟩, List.nodup_cons.mpr ⟨hmfs, hnodup⟩, ?_⟩
    · have hright : (t'.nodes m).right = t.free := by simp [ht', setNode]
      rw [hright]
      refine hchain.congr fun k hk => ?_
      have hkm : k ≠ m := ne_of_mem_of_not_mem hk hmfs
      have hkn : k ≠ n := by
        rintro rfl
        exact (hout k hk).2 p hp
      have hc := hchild k true hkm
      rw [if_neg (fun hand => hkn hand.1)] at hc
      exact hc
    · intro k hk
      rw [hstart]
      obtain rfl | hk := List.mem_cons.mp hk
      · exact ⟨h.started _ k hm, fun q hq => (hold q k hq).2 rfl⟩
      · exact ⟨(hout k hk).1, fun q hq => (hout k hk).2 q (hold q k hq).1⟩

theorem walk_eq_none_of_prefix (h : t.walk p = none) (q : List Bool) :
    t.walk (p ++ q) = none := by
  rw [walk_append, h]
  rfl

/-- The parents that a deletion releases have no values. -/
theorem Sound.prune (h : t.Sound d) {fuel : ℕ} (hp : t.walk p = some n) (hne : p ≠ [])
    (hfuel : p.length ≤ fuel) (hleaf : ∀ c, t.child n c = none) :
    ∃ t', t.prune fuel n = some t' ∧ t'.Sound d ∧
      ∀ q, t'.valueAt q = if q = p then noRadixValue else t.valueAt q := by
  induction fuel generalizing t n p with
  | zero => simp_all
  | succ fuel ih =>
    obtain ⟨p, b, rfl⟩ := (List.eq_nil_or_concat' p).resolve_left hne
    obtain ⟨m, hm, -⟩ := walk_of_concat hp
    have hparent : (t.nodes n).parent = some m := (h.parent p b n hp).trans hm
    obtain ⟨hsound, hwalk, hpar, hval⟩ := h.release hm hp hleaf
    have hvalue (q : List Bool) : (t.release m n).valueAt q =
        if q = p ++ [b] then noRadixValue else t.valueAt q := by
      rw [valueAt, valueAt, hwalk]
      by_cases hq : q = p ++ [b]
      · simp [hq]
      · simp [hq, hval]
    have hm' : (t.release m n).walk p = some m := by
      rw [hwalk, if_neg (by simp), hm]
    rw [RadixTree.prune, hparent]
    simp only [bind, Option.bind]
    split_ifs with hchild hv hroot
    · exact ⟨_, rfl, hsound, hvalue⟩
    · exact ⟨_, rfl, hsound, hvalue⟩
    · exact ⟨_, rfl, hsound, hvalue⟩
    · have hleaf' : ∀ c, (t.release m n).child m c = none := by
        simp only [Bool.or_eq_true, not_or, Bool.not_eq_true, Option.isSome_eq_false_iff,
          Option.isNone_iff_eq_none] at hchild
        intro c
        cases c with
        | false => exact hchild.2
        | true => exact hchild.1
      have hpne : p ≠ [] := by
        rintro rfl
        obtain rfl : t.root = m := by simpa [walk_nil] using hm
        exact hroot ((hpar t.root).trans h.root)
      rw [List.length_append, List.length_singleton] at hfuel
      obtain ⟨t', heq, hsound', hvalue'⟩ := ih hsound hm' hpne (by omega) hleaf'
      refine ⟨t', heq, hsound', fun q => ?_⟩
      rw [hvalue', hvalue]
      by_cases hq : q = p
      · -- the parent had no value before either
        have hno : (t.release m n).valueAt p = noRadixValue := by
          rw [valueAt_of_walk hm']
          exact not_not.mp hv
        rw [hvalue, if_neg (by simp)] at hno
        rw [if_pos hq, if_neg (by simp [hq]), hq, hno]
      · rw [if_neg hq]

/-- The deletion of a path with a value takes this value away and no other. -/
theorem Sound.delete (h : t.Sound d) (hne : p ≠ []) (hv : t.valueAt p ≠ noRadixValue) :
    ∃ t', t.delete p = some (t', .ok) ∧ t'.Sound d ∧
      ∀ q, t'.valueAt q = if q = p then noRadixValue else t.valueAt q := by
  cases hn : t.walk p with
  | none => simp [valueAt, hn] at hv
  | some n =>
    rw [valueAt_of_walk hn] at hv
    by_cases hchild : ((t.nodes n).right.isSome || (t.nodes n).left.isSome) = true
    · refine ⟨_, ?_, h.setValue n noRadixValue, h.valueAt_setValue hn noRadixValue⟩
      rw [RadixTree.delete, hn]
      simp only [hchild, if_true, hv, ne_eq, not_false_eq_true]
    · have hleaf : ∀ c, t.child n c = none := by
        simp only [Bool.or_eq_true, not_or, Bool.not_eq_true, Option.isSome_eq_false_iff,
          Option.isNone_iff_eq_none] at hchild
        intro c
        cases c with
        | false => exact hchild.2
        | true => exact hchild.1
      obtain ⟨t', heq, hsound, hvalue⟩ := h.prune hn hne (Nat.le_succ _) hleaf
      refine ⟨t', ?_, hsound, hvalue⟩
      rw [RadixTree.delete, hn]
      simp only [hchild, heq, Option.map_some, Bool.false_eq_true, if_false]

/-! ## Searching -/

/-- The value of the longest path of at most `k` of the bits that has one. -/
def longest (t : RadixTree) (bits : ℕ → Bool) : ℕ → UInt64
  | 0 => t.valueAt []
  | k + 1 =>
    if t.valueAt ((List.range (k + 1)).map bits) ≠ noRadixValue then
      t.valueAt ((List.range (k + 1)).map bits)
    else t.longest bits k

theorem range_succ_map (bits : ℕ → Bool) (i : ℕ) :
    (List.range (i + 1)).map bits = (List.range i).map bits ++ [bits i] := by
  rw [List.range_succ, List.map_append]
  rfl

/-- Beyond the last node there is no longer path. -/
theorem longest_of_walk_none {bits : ℕ → Bool} {i k : ℕ}
    (h : t.walk ((List.range (i + 1)).map bits) = none) (hik : i ≤ k) :
    t.longest bits k = t.longest bits i := by
  induction k, hik using Nat.le_induction with
  | base => rfl
  | succ k hik ih =>
    have hsplit : (List.range (k + 1)).map bits =
        (List.range (i + 1)).map bits ++ ((List.range (k - i)).map fun j => bits (i + 1 + j)) := by
      rw [show k + 1 = (i + 1) + (k - i) by omega, List.range_add, List.map_append,
        List.map_map]
      rfl
    rw [longest, if_neg, ih]
    rw [hsplit, valueAt, walk_eq_none_of_prefix h]
    simp

theorem Sound.find_from (h : t.Sound d) (bits : ℕ → Bool) {fuel i : ℕ} {value : UInt64}
    (hfuel : d < fuel + i) (hi : t.walk ((List.range i).map bits) = some n)
    (hvalue : ∀ v, v = (if (t.nodes n).value ≠ noRadixValue then (t.nodes n).value else value) →
      t.longest bits i = v) :
    t.find bits fuel i value (some n) = some (t.longest bits d) := by
  induction fuel generalizing i value n with
  | zero =>
    have hle := h.depth _ n hi
    simp at hle
    omega
  | succ fuel ih =>
    have hle : i ≤ d := by simpa using h.depth _ n hi
    have hnow := hvalue _ rfl
    have hnext : t.walk ((List.range (i + 1)).map bits) = t.child n (bits i) := by
      rw [range_succ_map, walk_concat, hi]
      rfl
    rw [RadixTree.find]
    cases hc : t.child n (bits i) with
    | none =>
      rw [hc] at hnext
      rw [longest_of_walk_none hnext hle, hnow]
      cases fuel <;> rfl
    | some m =>
      rw [hc] at hnext
      refine ih (by omega) hnext ?_
      rintro v rfl
      rw [longest, valueAt_of_walk hnext, hnow]

/-- A search ends, with the value of the longest path of the key that has one. -/
theorem Sound.find (h : t.Sound d) (bits : ℕ → Bool) {fuel : ℕ} (hfuel : d < fuel) :
    t.find bits fuel 0 noRadixValue (some t.root) = some (t.longest bits d) := by
  refine h.find_from bits (by omega) (walk_nil t) ?_
  rintro v rfl
  rw [longest, valueAt_of_walk (walk_nil t)]
  by_cases hv : (t.nodes t.root).value = noRadixValue
  · simp [hv]
  · simp [hv]

end RadixTree

end MultiversionBalancer.Core
