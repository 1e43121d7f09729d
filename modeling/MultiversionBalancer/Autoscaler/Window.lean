import MultiversionBalancer.Lib.DList
import Mathlib.Algebra.BigOperators.Group.List.Basic
import Mathlib.Algebra.Ring.Int.Defs

/-!
# Sliding windows

`IntLinkedList` of `microservices.py` keeps the most recent values of a signal
in a doubly linked list of bounded length, together with their sum.  The model
follows its pointers; `Represents l w` says that the list `l` holds the window
`w`, most recent value first, and `add` on the pointers is `take` on windows.
-/

namespace MultiversionBalancer.Autoscaler

open Lib

/-- What ends the scaling program: an exception of the interpreter. -/
inductive Fault where
  /-- An attribute of a list node that is `None`. -/
  | noneNode
  /-- `1000 / pt` with `pt` zero. -/
  | zeroDivision
  /-- A monitor entry without the key `servers`. -/
  | missingServers
  /-- `self.heavy[0]` of an empty list. -/
  | emptyHeavy
  /-- `server.isHeavy` of a server that is `None`. -/
  | noneServer
  /-- `remove` of a server that is not in the list. -/
  | notListed
  /-- `servers[0]` of an empty configuration. -/
  | noServers
  deriving DecidableEq

/-- `IntLinkedList`; the cells are its `ListNode` objects. -/
structure IntLinkedList where
  nodes : Heap (Linked ℤ)
  size : ℕ
  count : ℤ
  maxLen : ℕ
  head : Option ℕ
  tail : Option ℕ

namespace IntLinkedList

/-- `IntLinkedList(max_len)`. -/
def new (maxLen : ℕ) : IntLinkedList where
  nodes := .empty
  size := 0
  count := 0
  maxLen := maxLen
  head := none
  tail := none

/-- `node.next = self.head; self.head.prev = node; self.head = node`, for a
new node. -/
def linkFront (on : ℤ) (l : IntLinkedList) : Except Fault IntLinkedList :=
  match l.head with
  | none => .error .noneNode
  | some b =>
      match l.nodes.cell b with
      | none => .error .noneNode
      | some first =>
          let node : Cell (Linked ℤ) := ⟨⟨on, none⟩, some b⟩
          .ok
            { l with
              nodes := (l.nodes.alloc node).store b
                { first with
                  val := { first.val with prev := some l.nodes.fresh } }
              head := some l.nodes.fresh }

/-- `self.count += (on - self.tail.val); self.tail.prev.next = None;
self.tail = self.tail.prev`. -/
def dropTail (on : ℤ) (l : IntLinkedList) : Except Fault IntLinkedList :=
  match l.tail with
  | none => .error .noneNode
  | some t =>
      match l.nodes.cell t with
      | none => .error .noneNode
      | some last =>
          match last.val.prev with
          | none => .error .noneNode
          | some c =>
              match l.nodes.cell c with
              | none => .error .noneNode
              | some before =>
                  .ok
                    { l with
                      nodes := l.nodes.store c { before with next := none }
                      count := l.count + (on - last.val.val)
                      tail := some c }

def add (on : ℤ) (l : IntLinkedList) : Except Fault IntLinkedList :=
  if l.size = 0 then
    .ok
      { l with
        nodes := l.nodes.alloc ⟨⟨on, none⟩, none⟩
        size := l.size + 1
        count := l.count + on
        head := some l.nodes.fresh
        tail := some l.nodes.fresh }
  else if l.size < l.maxLen then do
    let l ← l.linkFront on
    pure { l with size := l.size + 1, count := l.count + on }
  else do
    let l ← l.linkFront on
    l.dropTail on

/-- The nodes reached from the head, and back from the tail, hold the window
`w`; `size` and `count` are its length and sum. -/
structure Represents (l : IntLinkedList) (w : List ℤ) : Prop where
  nodes : ∃ ns : List (ℕ × ℤ), ns.map Prod.snd = w ∧
    DChain l.nodes l.head ns ∧ (ns.map Prod.fst).Nodup ∧
    l.tail = ns.getLast?.map Prod.fst
  bounded : l.nodes.Bounded
  size : l.size = w.length
  count : l.count = w.sum
  length_le : w.length ≤ l.maxLen

theorem represents_new (maxLen : ℕ) : (new maxLen).Represents [] where
  nodes := ⟨[], rfl, rfl, List.nodup_nil, rfl⟩
  bounded := Heap.bounded_empty
  size := rfl
  count := rfl
  length_le := Nat.zero_le _

/-- Linking a node in front of a list that is not empty. -/
theorem linkFront_spec {l : IntLinkedList} {b : ℕ} {v : ℤ}
    {ns : List (ℕ × ℤ)} (hb : l.nodes.Bounded)
    (hc : DChain l.nodes l.head ((b, v) :: ns))
    (hnodup : (((b, v) :: ns).map Prod.fst).Nodup) (on : ℤ) :
    ∃ h : Heap (Linked ℤ),
      l.linkFront on =
        .ok { l with nodes := h, head := some l.nodes.fresh } ∧
      h.Bounded ∧
      DChain h (some l.nodes.fresh) ((l.nodes.fresh, on) :: (b, v) :: ns) ∧
      (((l.nodes.fresh, on) :: (b, v) :: ns).map Prod.fst).Nodup := by
  obtain ⟨hhead, next, hcell⟩ := hc.cell_head
  have hne : b ≠ l.nodes.fresh := Nat.ne_of_lt (hb.lt_fresh hcell)
  have hcell' : (l.nodes.alloc ⟨⟨on, none⟩, some b⟩).cell b =
      some ⟨⟨v, none⟩, next⟩ := by
    rw [Heap.alloc_cell_of_ne _ hne, hcell]
  refine ⟨_, ?_, ?_, hc.pushFront hb hcell hnodup, ?_⟩
  · simp only [linkFront, hhead, hcell]
  · exact (hb.alloc _).store hcell' _
  · rw [List.map_cons, List.nodup_cons]
    refine ⟨?_, hnodup⟩
    intro hmem
    rw [← map_fst_linkUp none] at hmem
    obtain ⟨n, hn, hfresh⟩ := List.mem_map.mp hmem
    obtain ⟨next', hcell'⟩ := Chain.cell_of_mem hc hn
    exact absurd (hb.lt_fresh hcell') (by omega)

/-- Cutting off the last node of a list with at least two. -/
theorem dropTail_spec (l : IntLinkedList) {c t : ℕ} {y z : ℤ}
    {ns : List (ℕ × ℤ)} (hb : l.nodes.Bounded)
    (hc : DChain l.nodes l.head (ns ++ [(c, y), (t, z)]))
    (hnodup : ((ns ++ [(c, y), (t, z)]).map Prod.fst).Nodup)
    (htail : l.tail = some t) (on : ℤ) :
    ∃ h : Heap (Linked ℤ),
      l.dropTail on =
        .ok { l with nodes := h, count := l.count + (on - z), tail := some c } ∧
      h.Bounded ∧ DChain h l.head (ns ++ [(c, y)]) := by
  obtain ⟨hlast, prev, hbefore, hchain⟩ := hc.dropLast hnodup
  refine ⟨_, ?_, hb.store hbefore _, hchain⟩
  simp only [dropTail, htail, hlast, hbefore]

theorem add_first {l : IntLinkedList} (hl : l.Represents [])
    (hmax : 1 ≤ l.maxLen) (on : ℤ) :
    ∃ l', l.add on = .ok l' ∧ l'.maxLen = l.maxLen ∧ l'.Represents [on] := by
  have hsize : l.size = 0 := hl.size
  refine ⟨{ l with
      nodes := l.nodes.alloc ⟨⟨on, none⟩, none⟩
      size := l.size + 1
      count := l.count + on
      head := some l.nodes.fresh
      tail := some l.nodes.fresh }, by rw [add, if_pos hsize], rfl, ?_⟩
  exact
    { nodes := ⟨[(l.nodes.fresh, on)], rfl, DChain.alloc_single _ _,
        by simp, rfl⟩
      bounded := hl.bounded.alloc _
      size := by simp [hsize]
      count := by simp [hl.count]
      length_le := hmax }

theorem add_grow {l : IntLinkedList} {v : ℤ} {w : List ℤ}
    (hl : l.Represents (v :: w)) (hroom : (v :: w).length < l.maxLen)
    (on : ℤ) :
    ∃ l', l.add on = .ok l' ∧ l'.maxLen = l.maxLen ∧
      l'.Represents (on :: v :: w) := by
  obtain ⟨⟨ns, hns, hc, hnodup, htail⟩, hb, hsize, hcount, -⟩ := hl
  obtain ⟨⟨b, v⟩, ns, rfl, rfl, rfl⟩ := List.map_eq_cons_iff.mp hns
  obtain ⟨h, hfront, hb', hc', hnodup'⟩ := linkFront_spec hb hc hnodup on
  have hzero : l.size ≠ 0 := by
    rw [hsize]
    simp
  refine ⟨{ l with
      nodes := h
      head := some l.nodes.fresh
      size := l.size + 1
      count := l.count + on }, ?_, rfl, ?_⟩
  · rw [add, if_neg hzero, if_pos (by rwa [hsize]), hfront]
    rfl
  · exact
      { nodes := ⟨(l.nodes.fresh, on) :: (b, v) :: ns, rfl, hc', hnodup',
          by rw [htail, List.getLast?_cons_cons]⟩
        bounded := hb'
        size := by simp [hsize]
        count := by
          simp only [hcount, List.sum_cons]
          omega
        length_le := hroom }

/-- The window is full: its oldest value leaves. -/
theorem add_slide {l : IntLinkedList} {w : List ℤ} {z : ℤ}
    (hl : l.Represents (w ++ [z])) (hfull : (w ++ [z]).length = l.maxLen)
    (on : ℤ) :
    ∃ l', l.add on = .ok l' ∧ l'.maxLen = l.maxLen ∧
      l'.Represents (on :: w) := by
  obtain ⟨⟨ns, hns, hc, hnodup, htail⟩, hb, hsize, hcount, -⟩ := hl
  obtain ⟨ns, last, rfl, rfl, hlast⟩ := List.map_eq_append_iff.mp hns
  obtain ⟨⟨t, z'⟩, last, rfl, rfl, hnil⟩ := List.map_eq_cons_iff.mp hlast
  obtain rfl := List.map_eq_nil_iff.mp hnil
  obtain ⟨⟨b, v⟩, rest, hcons⟩ : ∃ n rest, ns ++ [(t, z')] = n :: rest := by
    cases ns with
    | nil => exact ⟨_, _, rfl⟩
    | cons n ns => exact ⟨_, _, rfl⟩
  rw [hcons] at hc hnodup
  obtain ⟨h, hfront, hb', hc', hnodup'⟩ := linkFront_spec hb hc hnodup on
  rw [← hcons] at hc' hnodup'
  -- the node before the last one, which may be the new one
  obtain ⟨ms, ⟨c, y⟩, hms⟩ : ∃ ms n,
      (l.nodes.fresh, on) :: ns = ms ++ [n] :=
    (List.eq_nil_or_concat' _).resolve_left (List.cons_ne_nil _ _)
  have hsplit : (l.nodes.fresh, on) :: (ns ++ [(t, z')]) =
      ms ++ [(c, y), (t, z')] := by
    rw [← List.cons_append, hms]
    simp
  rw [hsplit] at hc' hnodup'
  obtain ⟨h', hdrop, hb'', hc''⟩ := dropTail_spec
    { l with nodes := h, head := some l.nodes.fresh } hb' hc' hnodup'
    (by simp [htail]) on
  have hzero : l.size ≠ 0 := by
    rw [hsize]
    simp
  have hnot : ¬l.size < l.maxLen := by
    rw [hsize, hfull]
    exact Nat.lt_irrefl _
  refine ⟨{ l with
      nodes := h'
      head := some l.nodes.fresh
      count := l.count + (on - z')
      tail := some c }, ?_, rfl, ?_⟩
  · rw [add, if_neg hzero, if_neg hnot, hfront]
    exact hdrop
  · exact
      { nodes := ⟨(l.nodes.fresh, on) :: ns, by simp, by rw [hms]; exact hc'',
          by
            rw [hms]
            rw [show ms ++ [(c, y), (t, z')] = (ms ++ [(c, y)]) ++ [(t, z')]
              by simp, List.map_append] at hnodup'
            exact (List.nodup_append.mp hnodup').1,
          by simp [hms]⟩
        bounded := hb''
        size := by simp [hsize]
        count := by
          simp only [hcount, List.sum_append, List.sum_cons, List.sum_nil]
          omega
        length_le := by simpa using Nat.le_of_eq hfull }

/-- `add` puts a value in front of the window and drops what exceeds its
length. -/
theorem add_spec {l : IntLinkedList} {w : List ℤ} (hl : l.Represents w)
    (hmax : 1 ≤ l.maxLen) (on : ℤ) :
    ∃ l', l.add on = .ok l' ∧ l'.maxLen = l.maxLen ∧
      l'.Represents ((on :: w).take l.maxLen) := by
  have hlen := hl.length_le
  rcases List.eq_nil_or_concat' w with rfl | ⟨w, z, rfl⟩
  · rw [List.take_of_length_le (by simpa)]
    exact add_first hl hmax on
  · by_cases hroom : (w ++ [z]).length < l.maxLen
    · obtain ⟨v, w', hw⟩ : ∃ v w', w ++ [z] = v :: w' := by
        cases w with
        | nil => exact ⟨_, _, rfl⟩
        | cons v w => exact ⟨_, _, rfl⟩
      rw [hw] at hl hroom ⊢
      rw [List.take_of_length_le (Nat.succ_le_of_lt hroom)]
      exact add_grow hl hroom on
    · have hfull : (w ++ [z]).length = l.maxLen := by omega
      have htake : (on :: (w ++ [z])).take l.maxLen = on :: w := by
        rw [← hfull, List.length_append, List.length_singleton,
          ← List.cons_append]
        exact List.take_left' (by simp)
      rw [htake]
      exact add_slide hl hfull on

/-- The list is a window of length `n` on a signal of zeros and ones. -/
structure HoldsBits (l : IntLinkedList) (n : ℕ) (w : List ℤ) : Prop where
  represents : l.Represents w
  maxLen : l.maxLen = n
  bits : ∀ x ∈ w, x = 0 ∨ x = 1

theorem holdsBits_new (n : ℕ) : (new n).HoldsBits n [] where
  represents := represents_new n
  maxLen := rfl
  bits := by simp

theorem HoldsBits.add {l : IntLinkedList} {n : ℕ} {w : List ℤ}
    (hl : l.HoldsBits (n + 1) w) {on : ℤ} (hon : on = 0 ∨ on = 1) :
    ∃ l', l.add on = .ok l' ∧ l'.HoldsBits (n + 1) (on :: w.take n) := by
  obtain ⟨hrep, hmax, hbits⟩ := hl
  obtain ⟨l', hadd, hmax', hrep'⟩ := add_spec hrep (by omega) on
  rw [hmax, List.take_succ_cons] at hrep'
  refine ⟨l', hadd, hrep', hmax'.trans hmax, ?_⟩
  intro x hx
  rcases List.mem_cons.mp hx with rfl | hx
  · exact hon
  · exact hbits x (List.mem_of_mem_take hx)

/-! ## Sequences of values -/

/-- The calls of `add` for some values, one after the other. -/
def addAll (l : IntLinkedList) (values : List ℤ) : Except Fault IntLinkedList :=
  values.foldlM (fun l on => l.add on) l

theorem addAll_spec {l : IntLinkedList} {w : List ℤ} (hl : l.Represents w)
    (hmax : 1 ≤ l.maxLen) (values : List ℤ) :
    ∃ l', l.addAll values = .ok l' ∧ l'.maxLen = l.maxLen ∧
      l'.Represents ((values.reverse ++ w).take l.maxLen) := by
  induction values generalizing l w with
  | nil =>
      refine ⟨l, rfl, rfl, ?_⟩
      rw [List.reverse_nil, List.nil_append, List.take_of_length_le hl.length_le]
      exact hl
  | cons on values ih =>
      obtain ⟨l₁, hadd, hmax₁, hrep₁⟩ := add_spec hl hmax on
      obtain ⟨l₂, hall, hmax₂, hrep₂⟩ := ih hrep₁ (by rwa [hmax₁])
      have hrun : l.addAll (on :: values) = l₁.addAll values := by
        rw [addAll, List.foldlM_cons, hadd]
        rfl
      refine ⟨l₂, hrun.trans hall, hmax₂.trans hmax₁, ?_⟩
      have hwindow : (values.reverse ++ (on :: w).take l.maxLen).take l.maxLen =
          ((on :: values).reverse ++ w).take l.maxLen := by
        rw [List.reverse_cons, List.append_assoc, List.singleton_append, List.take_append,
          List.take_append, List.take_take, Nat.min_eq_left (Nat.sub_le _ _)]
      rw [hmax₁, hwindow] at hrep₂
      exact hrep₂

/-- After any values the list is the window of the last ones, most recent first, in
both directions, with its length and its sum. -/
theorem addAll_window (maxLen : ℕ) (hmax : 1 ≤ maxLen) (values : List ℤ) :
    ∃ l ns, (new maxLen).addAll values = .ok l ∧
      ns.map Prod.snd = values.reverse.take maxLen ∧ (ns.map Prod.fst).Nodup ∧
      Follows l.nodes Cell.next l.head ns ∧
      Follows l.nodes (fun c => c.val.prev) l.tail ns.reverse ∧
      (∀ a c, l.head = some a → l.nodes.cell a = some c → c.val.prev = none) ∧
      (∀ a c, l.tail = some a → l.nodes.cell a = some c → c.next = none) ∧
      l.size = ns.length ∧ l.count = (ns.map Prod.snd).sum := by
  obtain ⟨l, hall, -, hrep⟩ := addAll_spec (represents_new maxLen) hmax values
  rw [List.append_nil] at hrep
  obtain ⟨⟨ns, hns, hc, hnodup, htail⟩, -, hsize, hcount, -⟩ := hrep
  have hprev := hc.follows_prev
  rw [← htail] at hprev
  refine ⟨l, ns, hall, hns, hnodup, hc.follows_next, hprev, ?_, ?_, ?_, ?_⟩
  · intro a c ha hcell
    rw [ha] at hc
    exact hc.prev_head hcell
  · intro a c ha hcell
    exact hc.next_last (htail.symm.trans ha) hcell
  · rw [hsize, ← hns, List.length_map]
  · rw [hcount, ← hns]

/-- A window of one value. -/
theorem addAll_window_single :
    ∃ l ns, (new 1).addAll [5, 7] = .ok l ∧
      ns.map Prod.snd = [5, 7].reverse.take 1 ∧ (ns.map Prod.fst).Nodup ∧
      Follows l.nodes Cell.next l.head ns ∧
      Follows l.nodes (fun c => c.val.prev) l.tail ns.reverse ∧
      (∀ a c, l.head = some a → l.nodes.cell a = some c → c.val.prev = none) ∧
      (∀ a c, l.tail = some a → l.nodes.cell a = some c → c.next = none) ∧
      l.size = ns.length ∧ l.count = (ns.map Prod.snd).sum :=
  addAll_window 1 (Nat.le_refl 1) [5, 7]

end IntLinkedList

end MultiversionBalancer.Autoscaler
