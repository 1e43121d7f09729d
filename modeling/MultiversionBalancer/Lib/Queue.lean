import Mathlib.Data.List.Chain
import Mathlib.Data.List.Nodup
import Mathlib.Data.Set.Insert
import Mathlib.Logic.Function.Basic

/-!
# Intrusive queues

Doubly linked rings through links that are part of other objects, as in `ngx_queue.h`.
A queue is a ring through its head and its elements; `Queues` are rings that have no
link in common.  Each operation changes one or two of them.
-/

namespace MultiversionBalancer.Lib

/-- The fields `prev` and `next` of all links. -/
structure Links (α : Type*) where
  prev : α → α
  next : α → α

namespace Links

variable {α : Type*} [DecidableEq α]

def setNext (l : Links α) (a b : α) : Links α :=
  { l with next := Function.update l.next a b }

def setPrev (l : Links α) (a b : α) : Links α :=
  { l with prev := Function.update l.prev a b }

def init (l : Links α) (q : α) : Links α :=
  (l.setPrev q q).setNext q q

/-- `ngx_queue_insert_head`, which is also `ngx_queue_insert_after`. -/
def insertHead (l : Links α) (h x : α) : Links α :=
  let l := l.setNext x (l.next h)
  let l := l.setPrev (l.next x) x
  let l := l.setPrev x h
  l.setNext h x

def insertTail (l : Links α) (h x : α) : Links α :=
  let l := l.setPrev x (l.prev h)
  let l := l.setNext (l.prev x) x
  let l := l.setNext x h
  l.setPrev h x

def remove (l : Links α) (x : α) : Links α :=
  let l := l.setPrev (l.next x) (l.prev x)
  l.setNext (l.prev x) (l.next x)

def add (l : Links α) (h n : α) : Links α :=
  let l := l.setNext (l.prev h) (l.next n)
  let l := l.setPrev (l.next n) (l.prev h)
  let l := l.setPrev h (l.prev n)
  l.setNext (l.prev h) h

/-- The elements from `q` to the sentinel `h` of a loop over a queue, if it ends after
at most `n` of them. -/
def elements (l : Links α) (h : α) : ℕ → α → Option (List α)
  | 0, q => if q = h then some [] else none
  | n + 1, q => if q = h then some [] else (q :: ·) <$> l.elements h n (l.next q)

/-! ## Edges -/

/-- `a` and `b` are neighbours. -/
def Edge (l : Links α) (a b : α) : Prop :=
  l.next a = b ∧ l.prev b = a

/-- Makes `a` and `b` neighbours. -/
def link (l : Links α) (a b : α) : Links α where
  prev := Function.update l.prev b a
  next := Function.update l.next a b

theorem edge_link (l : Links α) (a b : α) : (l.link a b).Edge a b :=
  ⟨Function.update_self .., Function.update_self ..⟩

theorem Edge.link {l : Links α} {a b c d : α} (h : l.Edge c d) (hc : c ≠ a) (hd : d ≠ b) :
    (l.link a b).Edge c d := by
  constructor
  · exact (Function.update_of_ne hc b l.next).trans h.1
  · exact (Function.update_of_ne hd a l.prev).trans h.2

/-- A path keeps its edges when none of them begins in `a` or ends in `b`. -/
theorem path_link {l : Links α} {xs : List α} (h : xs.IsChain l.Edge) {a b : α}
    (ha : a ∉ xs.dropLast) (hb : b ∉ xs.tail) : xs.IsChain (l.link a b).Edge := by
  induction xs with
  | nil => exact List.isChain_nil
  | cons x xs ih =>
      cases xs with
      | nil => exact List.isChain_singleton x
      | cons y xs =>
          rw [List.isChain_cons_cons] at h ⊢
          rw [List.dropLast_cons_cons, List.mem_cons, not_or] at ha
          rw [List.tail_cons, List.mem_cons, not_or] at hb
          exact ⟨h.1.link (Ne.symm ha.1) (Ne.symm hb.1), ih h.2 ha.2 hb.2⟩

theorem init_eq_link (l : Links α) (q : α) : l.init q = l.link q q :=
  rfl

theorem insertHead_eq_link (l : Links α) (h x : α) :
    l.insertHead h x = (l.link x (l.next h)).link h x := by
  simp only [insertHead, setNext, setPrev, link, Function.update_self]

theorem insertTail_eq_link (l : Links α) (h x : α) :
    l.insertTail h x = (l.link (l.prev h) x).link x h := by
  simp only [insertTail, setNext, setPrev, link, Function.update_self]

theorem remove_eq_link (l : Links α) (x : α) : l.remove x = l.link (l.prev x) (l.next x) := by
  have hprev : Function.update l.prev (l.next x) (l.prev x) x = l.prev x := by
    by_cases hx : x = l.next x
    · rw [← hx, Function.update_self]
    · rw [Function.update_of_ne hx]
  simp only [remove, setNext, setPrev, link, hprev]

theorem add_eq_link (l : Links α) (h n : α) :
    l.add h n =
      (l.link (l.prev h) (l.next n)).link ((l.link (l.prev h) (l.next n)).prev n) h := by
  have hnext : Function.update l.next (l.prev h) (l.next n) n = l.next n := by
    by_cases hn : n = l.prev h
    · rw [← hn, Function.update_self]
    · rw [Function.update_of_ne hn]
  simp only [add, setNext, setPrev, link, hnext, Function.update_self]

end Links

theorem Links.link_comm {α : Type*} [DecidableEq α] (l : Links α) {a b c d : α} (hac : a ≠ c)
    (hbd : b ≠ d) : (l.link a b).link c d = (l.link c d).link a b := by
  simp only [Links.link, Function.update_comm hac, Function.update_comm hbd]

/-! ## Queues -/

section Lists

variable {α : Type*} {xs : List α} {a : α}

theorem last_notMem_dropLast (h : xs.Nodup) (ha : xs.getLast? = some a) : a ∉ xs.dropLast := by
  intro hmem
  rw [← List.dropLast_append_getLast? a ha, List.nodup_append] at h
  exact h.2.2 a hmem a (List.mem_singleton_self a) rfl

theorem head_notMem_tail (h : xs.Nodup) (ha : xs.head? = some a) : a ∉ xs.tail := by
  cases xs with
  | nil => exact List.not_mem_nil
  | cons x xs =>
      obtain rfl : x = a := Option.some.inj ha
      exact (List.nodup_cons.mp h).1

end Lists

/-- The ring through the head `h` and the elements `xs`. -/
structure IsQueue {α : Type*} (l : Links α) (h : α) (xs : List α) : Prop where
  path : (h :: xs ++ [h]).IsChain l.Edge
  nodup : (h :: xs).Nodup

section Queue

variable {α : Type*} {l : Links α} {h : α} {xs ys : List α}

theorem IsQueue.cut (hq : IsQueue l h (xs ++ ys)) :
    ∃ a b, (h :: xs).getLast? = some a ∧ (ys ++ [h]).head? = some b ∧ l.Edge a b ∧
      (h :: xs).IsChain l.Edge ∧ (ys ++ [h]).IsChain l.Edge := by
  have hpath := hq.path
  rw [List.cons_append, List.append_assoc, ← List.cons_append, List.isChain_append] at hpath
  obtain ⟨hfirst, hsecond, hedge⟩ := hpath
  obtain ⟨a, ha⟩ : ∃ a, (h :: xs).getLast? = some a := ⟨_, List.getLast?_cons⟩
  obtain ⟨b, hb⟩ : ∃ b, (ys ++ [h]).head? = some b := by
    cases ys with
    | nil => exact ⟨h, rfl⟩
    | cons y ys => exact ⟨y, rfl⟩
  exact ⟨a, b, ha, hb, hedge a ha b hb, hfirst, hsecond⟩

/-- A ring depends on its own links only. -/
theorem IsQueue.congr {l' : Links α} (hq : IsQueue l h xs)
    (hnext : ∀ a ∈ h :: xs, l'.next a = l.next a) (hprev : ∀ a ∈ h :: xs, l'.prev a = l.prev a) :
    IsQueue l' h xs := by
  refine ⟨hq.path.imp_of_mem_imp ?_, hq.nodup⟩
  have hmem (a : α) (ha : a ∈ h :: xs ++ [h]) : a ∈ h :: xs := by
    rcases List.mem_append.mp ha with ha | ha
    · exact ha
    · rw [List.mem_singleton.mp ha]
      exact List.mem_cons_self
  intro a b ha hb hedge
  exact ⟨(hnext a (hmem a ha)).trans hedge.1, (hprev b (hmem b hb)).trans hedge.2⟩

variable [DecidableEq α]

/-- Another path goes into the ring. -/
theorem IsQueue.splice {zs : List α} {a b c d : α} (hq : IsQueue l h (xs ++ ys))
    (ha : (h :: xs).getLast? = some a) (hb : (ys ++ [h]).head? = some b)
    (hc : zs.head? = some c) (hd : zs.getLast? = some d) (hzs : zs.IsChain l.Edge)
    (hnodup : zs.Nodup) (hnew : ∀ z ∈ zs, z ∉ h :: (xs ++ ys)) :
    IsQueue ((l.link a c).link d b) h (xs ++ (zs ++ ys)) := by
  have hring := hq.nodup
  rw [← List.cons_append] at hring
  have hfirst_nodup : (h :: xs).Nodup := (List.nodup_append.mp hring).1
  have hperm : (h :: (xs ++ ys)).Perm (ys ++ (h :: xs)) := by
    rw [← List.cons_append]
    exact List.perm_append_comm
  have hsecond_nodup : (ys ++ [h]).Nodup := by
    have hsub : (ys ++ [h]).Sublist (ys ++ (h :: xs)) :=
      (List.Sublist.refl ys).append (List.singleton_sublist.mpr List.mem_cons_self)
    exact (hperm.nodup hq.nodup).sublist hsub
  obtain ⟨a', b', ha', hb', hedge, hfirst, hsecond⟩ := hq.cut
  obtain rfl : a = a' := Option.some.inj (ha.symm.trans ha')
  obtain rfl : b = b' := Option.some.inj (hb.symm.trans hb')
  have ha_mem : a ∈ h :: xs := List.mem_of_getLast? ha
  have hb_mem : b ∈ ys ++ [h] := List.mem_of_head? hb
  have hc_mem : c ∈ zs := List.mem_of_head? hc
  have hd_mem : d ∈ zs := List.mem_of_getLast? hd
  have hnew_first (z : α) (hz : z ∈ zs) : z ∉ h :: xs := fun hmem =>
    hnew z hz (by rw [← List.cons_append]; exact List.mem_append_left ys hmem)
  have hnew_second (z : α) (hz : z ∈ zs) : z ∉ ys ++ [h] := fun hmem => by
    rcases List.mem_append.mp hmem with hys | hh
    · exact hnew z hz (List.mem_cons_of_mem h (List.mem_append_right xs hys))
    · refine hnew z hz ?_
      rw [List.mem_singleton.mp hh]
      exact List.mem_cons_self
  have hb_tail : b ∉ xs := by
    intro hmem
    rcases List.mem_append.mp hb_mem with hys | hh
    · exact (List.nodup_append.mp hring).2.2 b (List.mem_cons_of_mem h hmem) b hys rfl
    · rw [List.mem_singleton.mp hh] at hmem
      exact (List.nodup_cons.mp hfirst_nodup).1 hmem
  have ha_second : a ∉ ys := by
    intro hmem
    exact (List.nodup_append.mp hring).2.2 a ha_mem a hmem rfl
  refine ⟨?_, ?_⟩
  · have hsplit : h :: (xs ++ (zs ++ ys)) ++ [h] = (h :: xs) ++ (zs ++ (ys ++ [h])) := by simp
    rw [hsplit, List.isChain_append, List.isChain_append]
    refine ⟨?_, ⟨?_, ?_, ?_⟩, ?_⟩
    · apply Links.path_link (Links.path_link hfirst _ _) _ _
      · exact last_notMem_dropLast hfirst_nodup ha
      · exact fun hmem => hnew_first c hc_mem (List.mem_cons_of_mem h hmem)
      · exact fun hmem => hnew_first d hd_mem (List.dropLast_subset _ hmem)
      · exact hb_tail
    · apply Links.path_link (Links.path_link hzs _ _) _ _
      · exact fun hmem => hnew_first a (List.dropLast_subset _ hmem) ha_mem
      · exact head_notMem_tail hnodup hc
      · exact last_notMem_dropLast hnodup hd
      · exact fun hmem => hnew_second b (List.mem_of_mem_tail hmem) hb_mem
    · apply Links.path_link (Links.path_link hsecond _ _) _ _
      · rw [List.dropLast_concat]
        exact ha_second
      · exact fun hmem => hnew_second c hc_mem (List.mem_of_mem_tail hmem)
      · exact fun hmem => hnew_second d hd_mem (List.dropLast_subset _ hmem)
      · exact head_notMem_tail hsecond_nodup hb
    · intro x hx y hy
      obtain rfl : d = x := Option.some.inj (hd.symm.trans hx)
      obtain rfl : b = y := Option.some.inj (hb.symm.trans hy)
      exact Links.edge_link _ _ _
    · intro x hx y hy
      obtain rfl : a = x := Option.some.inj (ha.symm.trans hx)
      have hy' : zs.head? = some y := by
        cases zs with
        | nil => exact absurd hc nofun
        | cons z zs => exact hy
      obtain rfl : c = y := Option.some.inj (hc.symm.trans hy')
      refine (Links.edge_link l a c).link ?_ ?_
      · exact ne_of_mem_of_not_mem ha_mem (hnew_first d hd_mem)
      · exact (ne_of_mem_of_not_mem hb_mem (hnew_second c hc_mem)).symm
  · rw [← List.cons_append]
    have hperm' : (h :: xs ++ (zs ++ ys)).Perm (zs ++ (h :: xs ++ ys)) := by
      rw [← List.append_assoc, ← List.append_assoc]
      exact List.perm_append_comm.append_right ys
    refine hperm'.symm.nodup (List.nodup_append.mpr ⟨hnodup, hring, ?_⟩)
    rintro z hz _ hmem rfl
    exact hnew z hz hmem

/-- A path is taken out of the ring. -/
theorem IsQueue.cutOut {zs : List α} {a b : α} (hq : IsQueue l h (xs ++ (zs ++ ys)))
    (ha : (h :: xs).getLast? = some a) (hb : (ys ++ [h]).head? = some b) :
    IsQueue (l.link a b) h (xs ++ ys) := by
  have hnodup := hq.nodup
  have hsub : (h :: (xs ++ ys)).Sublist (h :: (xs ++ (zs ++ ys))) :=
    (((List.Sublist.refl xs).append (List.sublist_append_right zs ys))).cons_cons h
  have hring : (h :: xs ++ ys).Nodup := hnodup.sublist hsub
  have hpath := hq.path
  have hsplit : h :: (xs ++ (zs ++ ys)) ++ [h] = (h :: xs) ++ (zs ++ (ys ++ [h])) := by simp
  rw [hsplit, List.isChain_append, List.isChain_append] at hpath
  obtain ⟨hfirst, ⟨-, hsecond, -⟩, -⟩ := hpath
  have hfirst_nodup : (h :: xs).Nodup := (List.nodup_append.mp hring).1
  have hsecond_nodup : (ys ++ [h]).Nodup := by
    have hperm : (h :: xs ++ ys).Perm (ys ++ (h :: xs)) := List.perm_append_comm
    have hsub : (ys ++ [h]).Sublist (ys ++ (h :: xs)) :=
      (List.Sublist.refl ys).append (List.singleton_sublist.mpr List.mem_cons_self)
    exact (hperm.nodup hring).sublist hsub
  have hb_tail : b ∉ xs := by
    intro hmem
    rcases List.mem_append.mp (List.mem_of_head? hb) with hys | hh
    · exact (List.nodup_append.mp hring).2.2 b (List.mem_cons_of_mem h hmem) b hys rfl
    · rw [List.mem_singleton.mp hh] at hmem
      exact (List.nodup_cons.mp hfirst_nodup).1 hmem
  have ha_second : a ∉ ys := fun hmem =>
    (List.nodup_append.mp hring).2.2 a (List.mem_of_getLast? ha) a hmem rfl
  refine ⟨?_, hring⟩
  rw [← List.cons_append, List.append_assoc, List.isChain_append]
  refine ⟨?_, ?_, ?_⟩
  · exact Links.path_link hfirst (last_notMem_dropLast hfirst_nodup ha) hb_tail
  · apply Links.path_link hsecond _ (head_notMem_tail hsecond_nodup hb)
    rw [List.dropLast_concat]
    exact ha_second
  · intro x hx y hy
    obtain rfl : a = x := Option.some.inj (ha.symm.trans hx)
    obtain rfl : b = y := Option.some.inj (hb.symm.trans hy)
    exact Links.edge_link _ _ _

/-- A ring without the two links that change. -/
theorem IsQueue.frame (hq : IsQueue l h xs) {a b : α} (ha : a ∉ h :: xs) (hb : b ∉ h :: xs) :
    IsQueue (l.link a b) h xs := by
  refine ⟨Links.path_link hq.path ?_ ?_, hq.nodup⟩
  · rw [List.dropLast_concat]
    exact ha
  · intro hmem
    rw [List.cons_append, List.tail_cons] at hmem
    rcases List.mem_append.mp hmem with hmem | hmem
    · exact hb (List.mem_cons_of_mem h hmem)
    · refine hb ?_
      rw [← List.mem_singleton.mp hmem]
      exact List.mem_cons_self

theorem isQueue_init (l : Links α) (h : α) : IsQueue (l.init h) h [] := by
  refine ⟨?_, List.nodup_singleton h⟩
  rw [Links.init_eq_link]
  exact List.isChain_pair.mpr (l.edge_link h h)

theorem IsQueue.insertTail (hq : IsQueue l h xs) {x : α} (hx : x ∉ h :: xs) :
    IsQueue (l.insertTail h x) h (xs ++ [x]) := by
  rw [← List.append_nil xs] at hq
  obtain ⟨a, b, ha, hb, hedge, -, -⟩ := hq.cut
  obtain rfl : h = b := Option.some.inj hb
  rw [Links.insertTail_eq_link, hedge.2]
  have hnew : ∀ z ∈ [x], z ∉ h :: (xs ++ []) := by
    intro z hz
    rwa [List.mem_singleton.mp hz, List.append_nil]
  have hspliced := hq.splice ha hb rfl rfl (List.isChain_singleton x) (List.nodup_singleton x) hnew
  rwa [List.append_nil] at hspliced

theorem IsQueue.insertHead (hq : IsQueue l h xs) {x : α} (hx : x ∉ h :: xs) :
    IsQueue (l.insertHead h x) h (x :: xs) := by
  have hq' : IsQueue l h ([] ++ xs) := hq
  obtain ⟨a, b, ha, hb, hedge, -, -⟩ := hq'.cut
  obtain rfl : h = a := Option.some.inj ha
  have hb_mem : b ∈ h :: xs := by
    rcases List.mem_append.mp (List.mem_of_head? hb) with hmem | hmem
    · exact List.mem_cons_of_mem h hmem
    · rw [List.mem_singleton.mp hmem]
      exact List.mem_cons_self
  have hnew : ∀ z ∈ [x], z ∉ h :: ([] ++ xs) := by
    intro z hz
    rwa [List.mem_singleton.mp hz]
  have hspliced := hq'.splice (c := x) (d := x) ha hb rfl rfl (List.isChain_singleton x)
    (List.nodup_singleton x) hnew
  have hxh : x ≠ h := (ne_of_mem_of_not_mem List.mem_cons_self hx).symm
  have hbx : b ≠ x := ne_of_mem_of_not_mem hb_mem hx
  rw [Links.insertHead_eq_link, hedge.1, Links.link_comm _ hxh hbx]
  exact hspliced

theorem IsQueue.insertAfter {y : α} (hq : IsQueue l h (xs ++ y :: ys)) {x : α}
    (hx : x ∉ h :: (xs ++ y :: ys)) :
    IsQueue (l.insertHead y x) h (xs ++ y :: x :: ys) := by
  rw [List.append_cons] at hq hx
  obtain ⟨a, b, ha, hb, hedge, -, -⟩ := hq.cut
  obtain rfl : y = a := by
    rw [← List.cons_append, List.getLast?_append] at ha
    exact Option.some.inj ha
  have hy_mem : y ∈ h :: (xs ++ [y] ++ ys) := by simp
  have hb_mem : b ∈ h :: (xs ++ [y] ++ ys) := by
    have hmem := List.mem_of_head? hb
    rcases List.mem_append.mp hmem with hmem | hmem
    · exact List.mem_cons_of_mem h (List.mem_append_right _ hmem)
    · rw [List.mem_singleton.mp hmem]
      exact List.mem_cons_self
  have hnew : ∀ z ∈ [x], z ∉ h :: (xs ++ [y] ++ ys) := by
    intro z hz
    rwa [List.mem_singleton.mp hz]
  have hspliced := hq.splice (c := x) (d := x) ha hb rfl rfl (List.isChain_singleton x)
    (List.nodup_singleton x) hnew
  have hxy : x ≠ y := (ne_of_mem_of_not_mem hy_mem hx).symm
  have hbx : b ≠ x := ne_of_mem_of_not_mem hb_mem hx
  rw [Links.insertHead_eq_link, hedge.1, Links.link_comm _ hxy hbx]
  rwa [List.append_assoc] at hspliced

theorem IsQueue.remove {x : α} (hq : IsQueue l h (xs ++ x :: ys)) :
    IsQueue (l.remove x) h (xs ++ ys) := by
  obtain ⟨a, b, ha, hb, hedge, -, -⟩ := hq.cut
  obtain rfl : x = b := Option.some.inj hb
  have hq' := hq
  rw [List.append_cons] at hq'
  obtain ⟨a', b', ha', hb', hedge', -, -⟩ := hq'.cut
  obtain rfl : x = a' := by
    rw [← List.cons_append, List.getLast?_append] at ha'
    exact Option.some.inj ha'
  rw [Links.remove_eq_link, hedge.2, hedge'.1]
  have hq'' : IsQueue l h (xs ++ ([x] ++ ys)) := hq
  exact hq''.cutOut ha hb'

theorem IsQueue.add {n : α} (hq : IsQueue l h xs) (hn : IsQueue l n ys)
    (hdisjoint : ∀ a ∈ n :: ys, a ∉ h :: xs) : IsQueue (l.add h n) h (xs ++ ys) := by
  rw [← List.append_nil xs] at hq
  obtain ⟨a, b, ha, hb, hedge, -, -⟩ := hq.cut
  obtain rfl : h = b := Option.some.inj hb
  rw [Links.add_eq_link, hedge.2]
  have hn_path := hn.path
  cases ys with
  | nil =>
      -- An empty queue only gets another `prev` of its head.
      have hself : l.Edge n n := List.isChain_pair.mp hn_path
      have hprev : (l.link a n).prev n = a := Function.update_self ..
      have hnh : n ≠ h :=
        (ne_of_mem_of_not_mem List.mem_cons_self (hdisjoint n List.mem_cons_self)).symm
      rw [hself.1, hprev, List.append_nil]
      rw [List.append_nil] at hq
      refine hq.congr ?_ ?_
      · intro x _
        simp only [Links.link, Function.update_idem]
        by_cases hxa : x = a
        · rw [hxa, Function.update_self, hedge.1]
        · rw [Function.update_of_ne hxa]
      · intro x hx
        have hxn : x ≠ n := ne_of_mem_of_not_mem hx (hdisjoint n List.mem_cons_self)
        simp only [Links.link]
        by_cases hxh : x = h
        · rw [hxh, Function.update_self, hedge.2]
        · rw [Function.update_of_ne hxh, Function.update_of_ne hxn]
  | cons y ys =>
      rw [List.cons_append, List.cons_append, List.isChain_cons_cons, ← List.cons_append,
        List.isChain_append] at hn_path
      obtain ⟨hfirst, hpath, -, hlast⟩ := hn_path
      have hd : (y :: ys).getLast? = some ((y :: ys).getLast (List.cons_ne_nil y ys)) :=
        List.getLast?_eq_some_getLast _
      have hprev := (hlast _ hd n rfl).2
      have hny : n ≠ y :=
        (ne_of_mem_of_not_mem List.mem_cons_self (List.nodup_cons.mp hn.nodup).1).symm
      have hprev' : (l.link a y).prev n = (y :: ys).getLast (List.cons_ne_nil y ys) := by
        simp only [Links.link]
        rw [Function.update_of_ne hny, hprev]
      have hnew : ∀ z ∈ y :: ys, z ∉ h :: (xs ++ []) := by
        intro z hz
        rw [List.append_nil]
        exact hdisjoint z (List.mem_cons_of_mem n hz)
      have hspliced := hq.splice ha hb rfl hd hpath (List.nodup_cons.mp hn.nodup).2 hnew
      rw [hfirst.1, hprev']
      rwa [List.append_nil] at hspliced

omit [DecidableEq α] in
theorem IsQueue.next_mem (hq : IsQueue l h xs) {a : α} (ha : a ∈ h :: xs) :
    l.next a ∈ h :: xs ∧ ∃ b ∈ h :: xs, l.next b = a ∧ l.prev a = b := by
  have hlast (b : α) (ys : List α) (hb : (ys ++ [h]).head? = some b) (hys : ys ⊆ xs) :
      b ∈ h :: xs := by
    rcases List.mem_append.mp (List.mem_of_head? hb) with hmem | hmem
    · exact List.mem_cons_of_mem h (hys hmem)
    · rw [List.mem_singleton.mp hmem]
      exact List.mem_cons_self
  rcases List.mem_cons.mp ha with rfl | hmem
  · have hfirst : IsQueue l a ([] ++ xs) := hq
    obtain ⟨c, b, hc, hb, hedge, -, -⟩ := hfirst.cut
    obtain rfl : a = c := Option.some.inj hc
    have hq' := hq
    rw [← List.append_nil xs] at hq'
    obtain ⟨d, e, hd, he, hedge', -, -⟩ := hq'.cut
    obtain rfl : a = e := Option.some.inj he
    rw [hedge.1]
    exact ⟨hlast b xs hb (List.Subset.refl xs), d, List.mem_of_getLast? hd, hedge'⟩
  · obtain ⟨ys, zs, rfl⟩ := List.append_of_mem hmem
    obtain ⟨d, e, hd, he, hedge, -, -⟩ := hq.cut
    obtain rfl : a = e := Option.some.inj he
    have hq' := hq
    rw [List.append_cons] at hq'
    obtain ⟨c, b, hc, hb, hedge', -, -⟩ := hq'.cut
    obtain rfl : a = c := by
      rw [← List.cons_append, List.getLast?_append] at hc
      exact Option.some.inj hc
    rw [hedge'.1]
    refine ⟨hlast b zs hb ?_, d, ?_, hedge⟩
    · exact fun x hx => List.mem_append_right ys (List.mem_cons_of_mem a hx)
    · rw [← List.cons_append]
      exact List.mem_append_left _ (List.mem_of_getLast? hd)

omit [DecidableEq α] in
theorem IsQueue.next_head {x : α} (hq : IsQueue l h (x :: xs)) : l.next h = x := by
  have hpath := hq.path
  rw [List.cons_append, List.cons_append, List.isChain_cons_cons] at hpath
  exact hpath.1.1

omit [DecidableEq α] in
theorem IsQueue.next_self (hq : IsQueue l h []) : l.next h = h := by
  have hpath : l.Edge h h := List.isChain_pair.mp hq.path
  exact hpath.1

omit [DecidableEq α] in
theorem IsQueue.prev_head {x : α} (hq : IsQueue l h (xs ++ [x])) : l.prev h = x := by
  obtain ⟨a, b, ha, hb, hedge, -, -⟩ := (show IsQueue l h ((xs ++ [x]) ++ []) by
    rwa [List.append_nil]).cut
  obtain rfl : h = b := Option.some.inj hb
  rw [← List.cons_append, List.getLast?_append] at ha
  rw [hedge.2]
  exact (Option.some.inj ha).symm

omit [DecidableEq α] in
theorem IsQueue.prev_mem (hq : IsQueue l h xs) {a : α} (ha : a ∈ h :: xs) :
    l.prev a ∈ h :: xs := by
  obtain ⟨-, b, hb, -, hprev⟩ := hq.next_mem ha
  rwa [hprev]

theorem IsQueue.elements (hq : IsQueue l h xs) {n : ℕ} (hn : xs.length ≤ n) :
    l.elements h n (l.next h) = some xs := by
  have hloop (ys : List α) (hys : ys ⊆ xs) (n : ℕ) (hn : ys.length ≤ n) (q : α)
      (hq' : (ys ++ [h]).head? = some q) (hpath : (ys ++ [h]).IsChain l.Edge) :
      l.elements h n q = some ys := by
    induction ys generalizing n q with
    | nil =>
        obtain rfl : h = q := Option.some.inj hq'
        cases n with
        | zero => rw [Links.elements, if_pos rfl]
        | succ n => rw [Links.elements, if_pos rfl]
    | cons y ys ih =>
        obtain rfl : y = q := Option.some.inj hq'
        have hy : y ≠ h :=
          ne_of_mem_of_not_mem (hys List.mem_cons_self) (List.nodup_cons.mp hq.nodup).1
        cases n with
        | zero => exact absurd hn (Nat.not_succ_le_zero _)
        | succ n =>
            obtain ⟨b, hb⟩ : ∃ b, (ys ++ [h]).head? = some b := by
              cases ys with
              | nil => exact ⟨h, rfl⟩
              | cons z ys => exact ⟨z, rfl⟩
            rw [List.cons_append, List.isChain_cons] at hpath
            have hnext : l.next y = b := (hpath.1 b hb).1
            rw [Links.elements, if_neg hy, hnext,
              ih (fun z hz => hys (List.mem_cons_of_mem y hz)) n (Nat.le_of_succ_le_succ hn) b hb
                hpath.2]
            rfl
  have hfirst : IsQueue l h ([] ++ xs) := hq
  obtain ⟨a, b, ha, hb, hedge, -, hpath⟩ := hfirst.cut
  obtain rfl : h = a := Option.some.inj ha
  rw [hedge.1]
  exact hloop xs (List.Subset.refl xs) n hn b hb hpath

end Queue

/-! ## Several queues -/

/-- The queues with the heads `H` and the elements `F`. -/
structure Queues {α : Type*} (l : Links α) (H : Set α) (F : α → List α) : Prop where
  queue : ∀ h ∈ H, IsQueue l h (F h)
  apart : ∀ h ∈ H, ∀ h' ∈ H, ∀ a, a ∈ h :: F h → a ∈ h' :: F h' → h = h'

def FreeLink {α : Type*} (H : Set α) (F : α → List α) (a : α) : Prop :=
  ∀ h ∈ H, a ∉ h :: F h

section Queues

variable {α : Type*} [DecidableEq α] {l l' : Links α} {H : Set α} {F : α → List α}

/-- One queue changes, the links of the other ones stay. -/
theorem Queues.change (hqs : Queues l H F) {h : α} (hh : h ∈ H) {ys : List α}
    (hq : IsQueue l' h ys) (hys : ∀ a ∈ ys, a ∈ h :: F h ∨ FreeLink H F a)
    (hframe : ∀ a, a ∉ h :: F h → ¬FreeLink H F a → l'.next a = l.next a ∧ l'.prev a = l.prev a) :
    Queues l' H (Function.update F h ys) := by
  have hother (k : α) (hk : k ∈ H) (hne : k ≠ h) (a : α) (ha : a ∈ k :: F k) :
      a ∉ h :: F h ∧ ¬FreeLink H F a :=
    ⟨fun hmem => hne (hqs.apart k hk h hh a ha hmem), fun hfree => hfree k hk ha⟩
  have hnew (k : α) (hk : k ∈ H) (hne : k ≠ h) (a : α) (ha : a ∈ k :: F k) : a ∉ h :: ys := by
    intro hmem
    obtain ⟨hnotin, hnotfree⟩ := hother k hk hne a ha
    rcases List.mem_cons.mp hmem with rfl | hmem
    · exact hnotin List.mem_cons_self
    · exact (hys a hmem).elim hnotin hnotfree
  refine ⟨?_, ?_⟩
  · intro k hk
    by_cases hne : k = h
    · rw [hne, Function.update_self]
      exact hq
    · rw [Function.update_of_ne hne]
      refine (hqs.queue k hk).congr ?_ ?_
      · exact fun a ha => (hframe a (hother k hk hne a ha).1 (hother k hk hne a ha).2).1
      · exact fun a ha => (hframe a (hother k hk hne a ha).1 (hother k hk hne a ha).2).2
  · intro k hk k' hk' a ha ha'
    by_cases hne : k = h
    · by_cases hne' : k' = h
      · rw [hne, hne']
      · rw [Function.update_of_ne hne'] at ha'
        rw [hne, Function.update_self] at ha
        exact absurd ha (hnew k' hk' hne' a ha')
    · rw [Function.update_of_ne hne] at ha
      by_cases hne' : k' = h
      · rw [hne', Function.update_self] at ha'
        exact absurd ha' (hnew k hk hne a ha)
      · rw [Function.update_of_ne hne'] at ha'
        exact hqs.apart k hk k' hk' a ha ha'

theorem Links.link_of_ne {a b c : α} (ha : c ≠ a) (hb : c ≠ b) :
    (l.link a b).next c = l.next c ∧ (l.link a b).prev c = l.prev c := by
  simp only [Links.link]
  rw [Function.update_of_ne ha, Function.update_of_ne hb]
  exact ⟨rfl, rfl⟩

theorem Queues.insertTail (hqs : Queues l H F) {h x : α} (hh : h ∈ H) (hx : FreeLink H F x) :
    Queues (l.insertTail h x) H (Function.update F h (F h ++ [x])) := by
  have hq := hqs.queue h hh
  refine hqs.change hh (hq.insertTail (hx h hh)) ?_ ?_
  · intro a ha
    rcases List.mem_append.mp ha with ha | ha
    · exact .inl (List.mem_cons_of_mem h ha)
    · rw [List.mem_singleton.mp ha]
      exact .inr hx
  · intro a ha hfree
    have hax : a ≠ x := by
      rintro rfl
      exact hfree hx
    have hah : a ≠ h := (ne_of_mem_of_not_mem List.mem_cons_self ha).symm
    have hap : a ≠ l.prev h := (ne_of_mem_of_not_mem (hq.prev_mem List.mem_cons_self) ha).symm
    obtain ⟨hnext, hprev⟩ := Links.link_of_ne (l := l) hap hax
    obtain ⟨hnext', hprev'⟩ := Links.link_of_ne (l := l.link (l.prev h) x) hax hah
    rw [Links.insertTail_eq_link, hnext', hprev']
    exact ⟨hnext, hprev⟩

theorem Queues.insertHead (hqs : Queues l H F) {h x : α} (hh : h ∈ H) (hx : FreeLink H F x) :
    Queues (l.insertHead h x) H (Function.update F h (x :: F h)) := by
  have hq := hqs.queue h hh
  refine hqs.change hh (hq.insertHead (hx h hh)) ?_ ?_
  · intro a ha
    rcases List.mem_cons.mp ha with rfl | ha
    · exact .inr hx
    · exact .inl (List.mem_cons_of_mem h ha)
  · intro a ha hfree
    have hax : a ≠ x := by
      rintro rfl
      exact hfree hx
    have hah : a ≠ h := (ne_of_mem_of_not_mem List.mem_cons_self ha).symm
    have han : a ≠ l.next h := (ne_of_mem_of_not_mem (hq.next_mem List.mem_cons_self).1 ha).symm
    obtain ⟨hnext, hprev⟩ := Links.link_of_ne (l := l) hax han
    obtain ⟨hnext', hprev'⟩ := Links.link_of_ne (l := l.link x (l.next h)) hah hax
    rw [Links.insertHead_eq_link, hnext', hprev']
    exact ⟨hnext, hprev⟩

theorem Queues.insertAfter (hqs : Queues l H F) {h x y : α} {xs ys : List α} (hh : h ∈ H)
    (hF : F h = xs ++ y :: ys) (hx : FreeLink H F x) :
    Queues (l.insertHead y x) H (Function.update F h (xs ++ y :: x :: ys)) := by
  have hq := hqs.queue h hh
  have hx' := hx h hh
  have hy : y ∈ h :: F h := by
    rw [hF]
    exact List.mem_cons_of_mem h (List.mem_append_right xs List.mem_cons_self)
  have hnext_mem := (hq.next_mem hy).1
  rw [hF] at hq hx'
  refine hqs.change hh (hq.insertAfter hx') ?_ ?_
  · intro a ha
    rw [hF]
    by_cases hax : a = x
    · rw [hax]
      exact .inr hx
    · refine .inl (List.mem_cons_of_mem h ?_)
      simpa [hax] using ha
  · intro a ha hfree
    have hax : a ≠ x := by
      rintro rfl
      exact hfree hx
    have hay : a ≠ y := (ne_of_mem_of_not_mem hy ha).symm
    have han : a ≠ l.next y := (ne_of_mem_of_not_mem hnext_mem ha).symm
    obtain ⟨hnext, hprev⟩ := Links.link_of_ne (l := l) hax han
    obtain ⟨hnext', hprev'⟩ := Links.link_of_ne (l := l.link x (l.next y)) hay hax
    rw [Links.insertHead_eq_link, hnext', hprev']
    exact ⟨hnext, hprev⟩

theorem Queues.remove (hqs : Queues l H F) {h x : α} (hh : h ∈ H) (hx : x ∈ F h) :
    Queues (l.remove x) H (Function.update F h ((F h).erase x)) ∧
      FreeLink H (Function.update F h ((F h).erase x)) x := by
  have hq := hqs.queue h hh
  have hx_mem : x ∈ h :: F h := List.mem_cons_of_mem h hx
  have hnext_mem := (hq.next_mem hx_mem).1
  have hprev_mem := hq.prev_mem hx_mem
  have hnodup := hq.nodup
  obtain ⟨xs, ys, hF⟩ := List.append_of_mem hx
  have hxs : x ∉ xs := by
    rw [hF, List.nodup_cons, List.nodup_append] at hnodup
    exact fun hmem => hnodup.2.2.2 x hmem x List.mem_cons_self rfl
  have herase : (F h).erase x = xs ++ ys := by
    rw [hF, List.erase_append_right _ hxs, List.erase_cons_head]
  have hqueue : IsQueue (l.remove x) h (xs ++ ys) := by
    rw [hF] at hq
    exact hq.remove
  constructor
  · rw [herase]
    refine hqs.change hh hqueue ?_ ?_
    · intro a ha
      rw [hF]
      refine .inl (List.mem_cons_of_mem h ?_)
      rcases List.mem_append.mp ha with ha | ha
      · exact List.mem_append_left _ ha
      · exact List.mem_append_right _ (List.mem_cons_of_mem x ha)
    · intro a ha _
      rw [Links.remove_eq_link]
      exact Links.link_of_ne (ne_of_mem_of_not_mem hprev_mem ha).symm
        (ne_of_mem_of_not_mem hnext_mem ha).symm
  · intro k hk hmem
    by_cases hne : k = h
    · rw [hne, Function.update_self] at hmem
      rcases List.mem_cons.mp hmem with rfl | hmem
      · exact (List.nodup_cons.mp hnodup).1 hx
      · exact (List.nodup_cons.mp hnodup).2.not_mem_erase hmem
    · rw [Function.update_of_ne hne] at hmem
      exact hne (hqs.apart k hk h hh x hmem hx_mem)

theorem Queues.init (hqs : Queues l H F) {h : α} (hh : FreeLink H F h) :
    Queues (l.init h) (insert h H) (Function.update F h []) := by
  have hne (k : α) (hk : k ∈ H) : k ≠ h := ne_of_mem_of_not_mem List.mem_cons_self (hh k hk)
  refine ⟨?_, ?_⟩
  · intro k hk
    rcases hk with rfl | hk
    · rw [Function.update_self]
      exact isQueue_init l k
    · rw [Function.update_of_ne (hne k hk), Links.init_eq_link]
      exact (hqs.queue k hk).frame (hh k hk) (hh k hk)
  · intro k hk k' hk' a ha ha'
    rcases hk with rfl | hk <;> rcases hk' with rfl | hk'
    · rfl
    · rw [Function.update_self, List.mem_singleton] at ha
      rw [Function.update_of_ne (hne k' hk'), ha] at ha'
      exact absurd ha' (hh k' hk')
    · rw [Function.update_self, List.mem_singleton] at ha'
      rw [Function.update_of_ne (hne k hk), ha'] at ha
      exact absurd ha (hh k hk)
    · rw [Function.update_of_ne (hne k hk)] at ha
      rw [Function.update_of_ne (hne k' hk')] at ha'
      exact hqs.apart k hk k' hk' a ha ha'

/-- All elements of one queue go to another one, and the first one is given up. -/
theorem Queues.add (hqs : Queues l H F) {h n : α} (hh : h ∈ H) (hn : n ∈ H) (hne : n ≠ h) :
    Queues (l.add h n) (H \ {n}) (Function.update F h (F h ++ F n)) := by
  have hq := hqs.queue h hh
  have hqn := hqs.queue n hn
  have hdisjoint : ∀ a ∈ n :: F n, a ∉ h :: F h := fun a ha hmem =>
    hne (hqs.apart n hn h hh a ha hmem)
  have hframe (k : α) (hk : k ∈ H) (hkh : k ≠ h) (hkn : k ≠ n) (a : α) (ha : a ∈ k :: F k) :
      (l.add h n).next a = l.next a ∧ (l.add h n).prev a = l.prev a := by
    have hnotin : a ∉ h :: F h := fun hmem => hkh (hqs.apart k hk h hh a ha hmem)
    have hnotin' : a ∉ n :: F n := fun hmem => hkn (hqs.apart k hk n hn a ha hmem)
    have hap : a ≠ l.prev h := (ne_of_mem_of_not_mem (hq.prev_mem List.mem_cons_self) hnotin).symm
    have han : a ≠ l.next n :=
      (ne_of_mem_of_not_mem (hqn.next_mem List.mem_cons_self).1 hnotin').symm
    have hah : a ≠ h := (ne_of_mem_of_not_mem List.mem_cons_self hnotin).symm
    have hlast : a ≠ (l.link (l.prev h) (l.next n)).prev n := by
      simp only [Links.link]
      by_cases hself : n = l.next n
      · rw [← hself, Function.update_self]
        exact hap
      · rw [Function.update_of_ne hself]
        exact (ne_of_mem_of_not_mem (hqn.prev_mem List.mem_cons_self) hnotin').symm
    obtain ⟨hnext, hprev⟩ := Links.link_of_ne (l := l) hap han
    obtain ⟨hnext', hprev'⟩ := Links.link_of_ne (l := l.link (l.prev h) (l.next n)) hlast hah
    rw [Links.add_eq_link, hnext', hprev']
    exact ⟨hnext, hprev⟩
  refine ⟨?_, ?_⟩
  · rintro k ⟨hk, hkn⟩
    by_cases hkh : k = h
    · rw [hkh, Function.update_self]
      exact hq.add hqn hdisjoint
    · rw [Function.update_of_ne hkh]
      exact (hqs.queue k hk).congr (fun a ha => (hframe k hk hkh hkn a ha).1)
        (fun a ha => (hframe k hk hkh hkn a ha).2)
  · have hmem (k : α) (hk : k ∈ H) (hkn : k ≠ n) (hkh : k ≠ h) (a : α) (ha : a ∈ k :: F k) :
        a ∉ h :: (F h ++ F n) := by
      intro hin
      rw [← List.cons_append] at hin
      rcases List.mem_append.mp hin with hin | hin
      · exact hkh (hqs.apart k hk h hh a ha hin)
      · exact hkn (hqs.apart k hk n hn a ha (List.mem_cons_of_mem n hin))
    rintro k ⟨hk, hkn⟩ k' ⟨hk', hkn'⟩ a ha ha'
    by_cases hkh : k = h
    · by_cases hkh' : k' = h
      · rw [hkh, hkh']
      · rw [hkh, Function.update_self] at ha
        rw [Function.update_of_ne hkh'] at ha'
        exact absurd ha (hmem k' hk' hkn' hkh' a ha')
    · rw [Function.update_of_ne hkh] at ha
      by_cases hkh' : k' = h
      · rw [hkh', Function.update_self] at ha'
        exact absurd ha' (hmem k hk hkn hkh a ha)
      · rw [Function.update_of_ne hkh'] at ha'
        exact hqs.apart k hk k' hk' a ha ha'

omit [DecidableEq α] in
theorem Queues.congr_free (hqs : Queues l H F)
    (hframe : ∀ a, ¬FreeLink H F a → l'.next a = l.next a ∧ l'.prev a = l.prev a) :
    Queues l' H F := by
  refine ⟨fun h hh => (hqs.queue h hh).congr ?_ ?_, hqs.apart⟩
  · exact fun a ha => (hframe a fun hfree => hfree h hh ha).1
  · exact fun a ha => (hframe a fun hfree => hfree h hh ha).2

end Queues

end MultiversionBalancer.Lib
