import MultiversionBalancer.Http.LimitReq
import Mathlib.Algebra.BigOperators.Group.Finset.Basic
import Mathlib.Algebra.BigOperators.Group.Finset.Piecewise
import Mathlib.Algebra.BigOperators.Ring.Finset
import Mathlib.Algebra.Order.BigOperators.Group.Finset
import Mathlib.Tactic.Ring

/-!
# Workers that share the zones of limits

The workers take turns, one critical section at a time.  The count of a node is the number
of handlers that hold it, so a node that a handler holds is never freed; a request that is
rejected in the end charges nothing on its way.
-/

namespace MultiversionBalancer.Http

structure LimitSystem where
  zones : ℕ → LimitZone
  workers : ℕ → LimitWorker

/-- A worker starts to handle a request at its time `now`, or goes on by one step. -/
inductive LimitEvent where
  | start (w : ℕ) (request : LimitRequest) (now : ℤ)
  | step (w : ℕ)

namespace LimitSystem

/-- The system of `W` workers after an event; there is none when the event cannot happen. -/
def next (rate : ℕ → ℕ) (W : ℕ) (s : LimitSystem) : LimitEvent → Option LimitSystem
  | .start w request now =>
    match (s.workers w).phase with
    | .idle _ =>
      if w < W then
        some { s with workers := Function.update s.workers w ((s.workers w).start request now) }
      else none
    | _ => none
  | .step w =>
    if w < W then
      ((s.workers w).step rate s.zones).map fun (worker, zones) =>
        ⟨zones, Function.update s.workers w worker⟩
    else none

/-- The system after a sequence of events. -/
def run (rate : ℕ → ℕ) (W : ℕ) (s : LimitSystem) (events : List LimitEvent) :
    Option LimitSystem :=
  events.foldlM (LimitSystem.next rate W) s

/-- No request has come yet. -/
structure Initial (s : LimitSystem) : Prop where
  zones : ∀ z, s.zones z = ⟨[], 0⟩
  idle : ∀ w, ∃ outcome, (s.workers w).phase = .idle outcome
  node : ∀ w z, (s.workers w).node z = none
  pending : ∀ w, (s.workers w).pending = []

/-- The system before the first request. -/
def unused : LimitSystem where
  zones := fun _ => ⟨[], 0⟩
  workers := fun _ =>
    ⟨.idle .declined, fun _ => none, 0, ⟨⟨[], List.nodup_nil, false⟩, false, fun _ => none,
      fun _ => (true, true)⟩, []⟩

theorem unused_initial : unused.Initial :=
  ⟨fun _ => rfl, fun _ => ⟨_, rfl⟩, fun _ _ => rfl, fun _ => rfl⟩

end LimitSystem

/-! ## Steps of a zone -/

namespace LimitZone

variable {z z' : LimitZone} {d : ℕ → ℤ}

/-- A zone in which the count of the node `id` has gone up by `d id`, where a new node counts
from `0`, and in which only nodes that nobody held have been freed. -/
structure Shift (z z' : LimitZone) (d : ℕ → ℤ) : Prop where
  numbered : z'.Numbered
  fresh : z.fresh ≤ z'.fresh
  count : ∀ lr' ∈ z'.nodes,
    (∃ lr ∈ z.nodes, lr.id = lr'.id ∧ lr'.count = lr.count + d lr'.id) ∨
      (z.fresh ≤ lr'.id ∧ lr'.count = d lr'.id)
  keep : ∀ lr ∈ z.nodes, lr.count ≠ 0 → ∃ lr' ∈ z'.nodes, lr'.id = lr.id
  held : ∀ id, 0 < d id → ∃ lr' ∈ z'.nodes, lr'.id = id

theorem Numbered.perm (h : z.Numbered) (hfresh : z'.fresh = z.fresh)
    (hperm : z'.nodes.Perm z.nodes) : z'.Numbered where
  ids := ((hperm.map LimitNode.id).nodup_iff).mpr h.ids
  lt lr hlr := by
    rw [hfresh]
    exact h.lt lr (hperm.mem_iff.mp hlr)

theorem Numbered.kept (h : z.Numbered) (hkept : Kept z z') : z'.Numbered where
  ids := (hkept.sub.map LimitNode.id).nodup h.ids
  lt lr hlr := by
    rw [hkept.fresh]
    exact h.lt lr (hkept.sub.subset hlr)

theorem Numbered.modify (h : z.Numbered) (id : ℕ) {f : LimitNode → LimitNode}
    (hf : ∀ lr, (f lr).id = lr.id) : (z.modify id f).Numbered where
  ids := by
    have hids : (z.modify id f).nodes.map LimitNode.id = z.nodes.map LimitNode.id := by
      rw [LimitZone.modify, List.map_map]
      refine List.map_congr_left fun lr _ => ?_
      by_cases hid : lr.id = id
      · simp [hid, hf]
      · simp [hid]
    rw [hids]
    exact h.ids
  lt lr hlr := by
    obtain ⟨lr₀, hlr₀, rfl⟩ := List.mem_map.mp hlr
    rw [LimitZone.modify]
    by_cases hid : lr₀.id = id
    · simpa [hid, hf] using h.lt lr₀ hlr₀
    · simpa [hid] using h.lt lr₀ hlr₀

theorem Numbered.create (h : z.Numbered) (key : List UInt8) (now : ℤ) (account : Bool) :
    (z.create key now account).Numbered where
  ids := by
    rw [LimitZone.create, List.map_cons, List.nodup_cons]
    refine ⟨?_, h.ids⟩
    intro hmem
    obtain ⟨lr, hlr, hid⟩ := List.mem_map.mp hmem
    exact absurd (h.lt lr hlr) (by simp [hid])
  lt lr hlr := by
    obtain rfl | hlr := List.mem_cons.mp hlr
    · exact Nat.lt_succ_self _
    · exact Nat.lt_succ_of_lt (h.lt lr hlr)

theorem mem_modify {id : ℕ} {f : LimitNode → LimitNode} {lr' : LimitNode} :
    lr' ∈ (z.modify id f).nodes ↔
      ∃ lr ∈ z.nodes, lr' = if lr.id = id then f lr else lr := by
  rw [modify, List.mem_map]
  exact ⟨fun ⟨lr, hlr, heq⟩ => ⟨lr, hlr, heq.symm⟩, fun ⟨lr, hlr, heq⟩ => ⟨lr, hlr, heq.symm⟩⟩

/-- A node whose count changes by `n`, in a zone whose nodes may be in another order. -/
theorem Numbered.shift_modify (h : z.Numbered) {lr₀ : LimitNode} (hlr₀ : lr₀ ∈ z.nodes)
    {f : LimitNode → LimitNode} (n : ℤ) (hfresh : z'.fresh = z.fresh)
    (hperm : z'.nodes.Perm (z.modify lr₀.id f).nodes) (hid : ∀ lr, (f lr).id = lr.id)
    (hcount : ∀ lr, (f lr).count = lr.count + n) :
    Shift z z' fun id => if lr₀.id = id then n else 0 where
  numbered := (h.modify lr₀.id hid).perm hfresh hperm
  fresh := hfresh.ge
  count lr' hlr' := by
    obtain ⟨lr, hlr, rfl⟩ := mem_modify.mp (hperm.mem_iff.mp hlr')
    refine .inl ⟨lr, hlr, ?_⟩
    by_cases heq : lr.id = lr₀.id
    · simp [heq, hid, hcount]
    · simp [heq, Ne.symm heq]
  keep lr hlr _ := by
    refine ⟨_, hperm.mem_iff.mpr (mem_modify.mpr ⟨lr, hlr, rfl⟩), ?_⟩
    by_cases heq : lr.id = lr₀.id
    · simp [heq, hid]
    · simp [heq]
  held id hpos := by
    have heq : lr₀.id = id := by
      by_contra hne
      simp [hne] at hpos
    refine ⟨_, hperm.mem_iff.mpr (mem_modify.mpr ⟨lr₀, hlr₀, rfl⟩), ?_⟩
    simp [hid, heq]

theorem Numbered.shift_perm (h : z.Numbered) (hfresh : z'.fresh = z.fresh)
    (hperm : z'.nodes.Perm z.nodes) : Shift z z' fun _ => 0 where
  numbered := h.perm hfresh hperm
  fresh := hfresh.ge
  count lr' hlr' := .inl ⟨lr', hperm.mem_iff.mp hlr', rfl, by simp⟩
  keep lr hlr _ := ⟨lr, hperm.mem_iff.mpr hlr, rfl⟩
  held id hpos := absurd hpos (lt_irrefl 0)

theorem Numbered.shift_kept (h : z.Numbered) (hkept : Kept z z') : Shift z z' fun _ => 0 where
  numbered := h.kept hkept
  fresh := hkept.fresh.ge
  count lr' hlr' := .inl ⟨lr', hkept.sub.subset hlr', rfl, by simp⟩
  keep lr hlr hc := ⟨lr, hkept.counted lr hlr hc, rfl⟩
  held id hpos := absurd hpos (lt_irrefl 0)

theorem Numbered.shift_create (h : z.Numbered) (hkept : Kept z z') (key : List UInt8) (now : ℤ)
    (account : Bool) : Shift z (z'.create key now account) fun id =>
      if (if account then none else some z.fresh) = some id then 1 else 0 where
  numbered := (h.kept hkept).create key now account
  fresh := by
    rw [LimitZone.create, hkept.fresh]
    exact Nat.le_succ _
  count lr' hlr' := by
    obtain rfl | hlr' := List.mem_cons.mp hlr'
    · refine .inr ⟨hkept.fresh.ge, ?_⟩
      cases account <;> simp [hkept.fresh]
    · have hlt := h.lt lr' (hkept.sub.subset hlr')
      refine .inl ⟨lr', hkept.sub.subset hlr', rfl, ?_⟩
      cases account
      · simp [hlt.ne']
      · simp
  keep lr hlr hc := ⟨lr, List.mem_cons_of_mem _ (hkept.counted lr hlr hc), rfl⟩
  held id hpos := by
    refine ⟨_, List.mem_cons_self, ?_⟩
    cases account
    · by_contra hne
      rw [hkept.fresh] at hne
      simp [hne] at hpos
    · simp at hpos

theorem exists_get {id : ℕ} (h : ∃ lr ∈ z.nodes, lr.id = id) : ∃ lr, z.get id = some lr := by
  obtain ⟨lr, hlr, rfl⟩ := h
  cases hget : z.get lr.id with
  | some lr' => exact ⟨lr', rfl⟩
  | none =>
    rw [get, List.find?_eq_none] at hget
    exact absurd (decide_eq_true rfl) (hget lr hlr)

/-- A lookup holds the node that it sets `ctx->node` to, and no other. -/
theorem Looked.shift {rate burst : ℕ} {now : ℤ} {key : List UInt8} {account : Bool}
    {result : LimitRc × ℤ × Option ℕ} (h : Looked rate burst now key account z z' result)
    (hz : z.Numbered) : Shift z z' fun id => if result.2.2 = some id then 1 else 0 := by
  cases h with
  | busy _ lr hlr hkey hlevel hfresh hperm =>
    simpa using hz.shift_perm hfresh hperm
  | charged _ lr hlr hkey hlevel haccount hfresh hperm =>
    simpa using hz.shift_modify hlr 0 hfresh hperm (fun _ => rfl) fun _ => (add_zero _).symm
  | held _ lr hlr hkey hlevel haccount hfresh hperm =>
    simpa using hz.shift_modify hlr 1 hfresh hperm (fun _ => rfl) fun _ => rfl
  | created z₁ hkey hkept => exact hz.shift_create hkept key now account
  | error _ hkey hkept => simpa using hz.shift_kept hkept

/-- `ctx->node` is set when the result is `NGX_AGAIN`. -/
theorem Looked.node_iff {rate burst : ℕ} {now : ℤ} {key : List UInt8} {account : Bool}
    {result : LimitRc × ℤ × Option ℕ} (h : Looked rate burst now key account z z' result) :
    result.1 = .again ↔ result.2.2 ≠ none := by
  cases h with
  | busy => simp
  | charged => simp
  | held => simp
  | created => cases account <;> simp
  | error => simp

end LimitZone

/-! ## Steps of a worker -/

namespace LimitWorker

/-- The zones in which the handler may hold a node. -/
def holding (w : LimitWorker) : List ℕ :=
  match w.phase with
  | .idle _ => []
  | .looking _ seen rc _ => if rc = .declined then [] else seen.map Limit.zone
  | .accounting seen _ _ _ => seen.map Limit.zone
  | .unlocking seen _ => seen.map Limit.zone

/-- A handler notes what it holds, holds nothing outside the limits it has seen, and meets
each zone once. -/
structure Orderly (w : LimitWorker) : Prop where
  pending : ∀ z id, w.pending.count (z, id) = if w.node z = some id then 1 else 0
  holding : ∀ z, w.node z ≠ none → z ∈ w.holding
  distinct : ∀ rest seen rc limit, w.phase = .looking rest seen rc limit →
    ((rest ++ seen).map Limit.zone).Nodup

/-- The effect of a step of a worker on the zones: at most one zone changes, and the counts
in it change as what the worker holds. -/
structure Effect (w w' : LimitWorker) (zones zones' : ℕ → LimitZone) : Prop where
  orderly : w'.Orderly
  zone : ∀ z, (zones z).Numbered → LimitZone.Shift (zones z) (zones' z) fun id =>
    (w'.pending.count (z, id) : ℤ) - w.pending.count (z, id)

variable {w w' : LimitWorker} {zones : ℕ → LimitZone} {rate : ℕ → ℕ}

/-- A step that touches no zone. -/
theorem Orderly.effect_phase (h : w.Orderly) (phase : LimitPhase)
    (hholding : ∀ z, w.node z ≠ none → z ∈ ({ w with phase := phase } : LimitWorker).holding)
    (hdistinct : ∀ rest seen rc limit, phase = .looking rest seen rc limit →
      ((rest ++ seen).map Limit.zone).Nodup) :
    Effect w { w with phase := phase } zones zones where
  orderly := ⟨h.pending, hholding, hdistinct⟩
  zone z hz := by simpa using hz.shift_perm rfl (List.Perm.refl _)

theorem Orderly.notMem_of_looking (h : w.Orderly) {limit : Limit} {rest seen : List Limit}
    {rc : LimitRc} {cur : Option Limit} (hphase : w.phase = .looking (limit :: rest) seen rc cur) :
    w.node limit.zone = none := by
  by_contra hne
  have hmem := h.holding _ hne
  have hnodup := h.distinct _ _ _ _ hphase
  rw [LimitWorker.holding, hphase] at hmem
  dsimp only at hmem
  split_ifs at hmem
  · simp at hmem
  · simp only [List.cons_append, List.map_cons, List.nodup_cons, List.map_append,
      List.mem_append, not_or] at hnodup
    exact hnodup.1.2 hmem

theorem Effect.of_zone {z : ℕ} {zone : LimitZone} {d : ℕ → ℤ} (horderly : w'.Orderly)
    (hshift : (zones z).Numbered → LimitZone.Shift (zones z) zone d)
    (hz : ∀ id, (w'.pending.count (z, id) : ℤ) - w.pending.count (z, id) = d id)
    (hother : ∀ y ≠ z, ∀ id, w'.pending.count (y, id) = w.pending.count (y, id)) :
    Effect w w' zones (Function.update zones z zone) where
  orderly := horderly
  zone y hy := by
    by_cases heq : y = z
    · subst heq
      simp only [Function.update_self, hz]
      exact hshift hy
    · rw [Function.update_of_ne heq]
      simpa [hother y heq] using hy.shift_perm rfl (List.Perm.refl _)

/-- The node of a zone is cleared together with its note. -/
theorem Orderly.clear_count (h : w.Orderly) {z id : ℕ} (hid : w.node z = some id) (y i : ℕ) :
    (w.clear z id).pending.count (y, i) =
      if (w.clear z id).node y = some i then 1 else 0 := by
  have hcount := h.pending y i
  rw [clear]
  dsimp only
  rw [List.count_erase, hcount]
  by_cases hy : y = z
  · subst hy
    by_cases hi : i = id
    · simp [hid, hi]
    · simp [hid, Ne.symm hi]
  · simp [hy, Ne.symm hy]

theorem Orderly.clear_sub (h : w.Orderly) {z id : ℕ} (hid : w.node z = some id) (i : ℕ) :
    ((w.clear z id).pending.count (z, i) : ℤ) - w.pending.count (z, i) =
      if id = i then -1 else 0 := by
  rw [h.clear_count hid, h.pending, clear]
  by_cases hi : id = i
  · simp [hid, hi]
  · simp [hid, hi]

theorem clear_count_of_ne {z id y : ℕ} (hy : y ≠ z) (i : ℕ) :
    (w.clear z id).pending.count (y, i) = w.pending.count (y, i) := by
  rw [clear]
  dsimp only
  rw [List.count_erase]
  simp [Ne.symm hy]

theorem holding_of_clear (h : ∀ y, w.node y ≠ none → y ∈ w.holding) {limit : Limit}
    {seen : List Limit} (hw : w.holding = (limit :: seen).map Limit.zone) (id : ℕ) {y : ℕ}
    (hy : (w.clear limit.zone id).node y ≠ none) : y ∈ seen.map Limit.zone := by
  rw [clear] at hy
  dsimp only at hy
  by_cases heq : y = limit.zone
  · simp [heq] at hy
  · rw [Function.update_of_ne heq] at hy
    have hmem := h y hy
    rw [hw, List.map_cons, List.mem_cons] at hmem
    exact hmem.resolve_left heq

/-- A node that the handler holds has its number in the zone. -/
theorem exists_of_get {z : LimitZone} {id : ℕ} {lr : LimitNode} (h : z.get id = some lr) :
    lr ∈ z.nodes ∧ lr.id = id :=
  ⟨List.mem_of_find?_eq_some h, by simpa using List.find?_some h⟩

theorem Orderly.effect_account (h : w.Orderly) {limit : Limit} {seen : List Limit}
    {maxDelay excess : ℤ} {longest : Option Limit}
    (hphase : w.phase = .accounting (limit :: seen) maxDelay excess longest)
    {zones' : ℕ → LimitZone}
    (hstep : w.accountStep rate zones limit seen maxDelay excess longest = some (w', zones')) :
    Effect w w' zones zones' := by
  have hw : w.holding = (limit :: seen).map Limit.zone := by
    rw [LimitWorker.holding, hphase]
  rw [accountStep] at hstep
  cases hnode : w.node limit.zone with
  | none =>
    rw [hnode] at hstep
    obtain ⟨rfl, rfl⟩ := Prod.mk.inj (Option.some.inj hstep)
    refine h.effect_phase _ ?_ (by simp)
    intro z hz
    have hmem := h.holding z hz
    rw [hw, List.map_cons, List.mem_cons] at hmem
    refine hmem.resolve_left ?_
    rintro rfl
    exact hz hnode
  | some id =>
    simp only [hnode, Option.bind_eq_bind, Option.bind_eq_some_iff, Option.some.injEq,
      Prod.mk.injEq] at hstep
    obtain ⟨lr, hget, rfl, rfl⟩ := hstep
    obtain ⟨hlr, rfl⟩ := exists_of_get hget
    refine Effect.of_zone ?_ ?_ (h.clear_sub hnode) fun y hy i => clear_count_of_ne hy i
    · refine ⟨h.clear_count hnode, ?_, ?_⟩
      · intro z hz
        have hmem := holding_of_clear h.holding hw lr.id hz
        rw [LimitWorker.holding]
        split_ifs <;> exact hmem
      · intro rest seen' rc cur heq
        split_ifs at heq
    · intro hnum
      exact hnum.shift_modify hlr (-1) rfl (List.Perm.refl _) (fun _ => rfl) fun _ => rfl

theorem Orderly.effect_unlock (h : w.Orderly) {limit : Limit} {seen : List Limit}
    {outcome : LimitOutcome} (hphase : w.phase = .unlocking (limit :: seen) outcome)
    {zones' : ℕ → LimitZone}
    (hstep : w.unlockStep zones limit seen outcome = some (w', zones')) :
    Effect w w' zones zones' := by
  have hw : w.holding = (limit :: seen).map Limit.zone := by
    rw [LimitWorker.holding, hphase]
  rw [unlockStep] at hstep
  cases hnode : w.node limit.zone with
  | none =>
    rw [hnode] at hstep
    obtain ⟨rfl, rfl⟩ := Prod.mk.inj (Option.some.inj hstep)
    refine h.effect_phase _ ?_ (by simp)
    intro z hz
    have hmem := h.holding z hz
    rw [hw, List.map_cons, List.mem_cons] at hmem
    refine hmem.resolve_left ?_
    rintro rfl
    exact hz hnode
  | some id =>
    simp only [hnode, Option.bind_eq_bind, Option.bind_eq_some_iff, Option.some.injEq,
      Prod.mk.injEq] at hstep
    obtain ⟨lr, hget, rfl, rfl⟩ := hstep
    obtain ⟨hlr, rfl⟩ := exists_of_get hget
    refine Effect.of_zone ?_ ?_ (h.clear_sub hnode) fun y hy i => clear_count_of_ne hy i
    · exact ⟨h.clear_count hnode, fun z hz => holding_of_clear h.holding hw lr.id hz, by simp⟩
    · intro hnum
      exact hnum.shift_modify hlr (-1) rfl (List.Perm.refl _) (fun _ => rfl) fun _ => rfl

/-- What follows a lookup holds the node that the lookup has set. -/
theorem Orderly.effect_afterLookup (h : w.Orderly) {limit : Limit} {rest seen : List Limit}
    {zone : LimitZone} {result : LimitRc × ℤ × Option ℕ} (hnone : w.node limit.zone = none)
    (hseen : ∀ z, w.node z ≠ none → z ∈ seen.map Limit.zone)
    (hdistinct : ((rest ++ limit :: seen).map Limit.zone).Nodup)
    (hshift : (zones limit.zone).Numbered → LimitZone.Shift (zones limit.zone) zone fun id =>
      if result.2.2 = some id then 1 else 0)
    (hnode : result.1 = .again ↔ result.2.2 ≠ none) :
    Effect w (w.afterLookup rate limit rest seen result) zones
      (Function.update zones limit.zone zone) := by
  obtain ⟨rc, excess, node⟩ := result
  by_cases hrc : rc = .again
  · obtain ⟨id, rfl⟩ := Option.ne_none_iff_exists'.mp (hnode.mp hrc)
    subst hrc
    have hcount (y i : ℕ) : ((limit.zone, id) :: w.pending).count (y, i) =
        w.pending.count (y, i) + if y = limit.zone ∧ id = i then 1 else 0 := by
      rw [List.count_cons]
      by_cases hy : y = limit.zone
      · simp [hy]
      · simp [hy, Ne.symm hy]
    refine Effect.of_zone ⟨?_, ?_, ?_⟩ hshift ?_ ?_
    · intro y i
      refine (hcount y i).trans ?_
      rw [h.pending, afterLookup]
      by_cases hy : y = limit.zone
      · simp [hy, hnone]
      · simp [hy]
    · intro z hz
      rw [LimitWorker.holding, afterLookup]
      rw [afterLookup] at hz
      dsimp only at hz
      by_cases heq : z = limit.zone
      · simp [heq]
      · rw [Function.update_of_ne heq] at hz
        simpa [heq] using hseen z hz
    · intro rest' seen' rc' cur' heq
      obtain ⟨rfl, rfl, -, -⟩ := LimitPhase.looking.inj heq
      exact hdistinct
    · intro i
      have hc := hcount limit.zone i
      simp only [true_and] at hc
      simp only [afterLookup, Option.toList_some, List.map_cons, List.map_nil, List.cons_append,
        List.nil_append, hc, Option.some.injEq]
      push_cast
      ring
    · intro y hy i
      refine (hcount y i).trans ?_
      simp [hy]
  · have hnn : node = none := by
      by_contra hne
      exact hrc (hnode.mpr hne)
    subst hnn
    obtain ⟨phase, hafter, hholding, hlooking⟩ : ∃ phase,
        w.afterLookup rate limit rest seen (rc, excess, none) = { w with phase := phase } ∧
        (∀ z, w.node z ≠ none → z ∈ ({ w with phase := phase } : LimitWorker).holding) ∧
        ∀ rest seen rc limit, phase ≠ .looking rest seen rc limit := by
      cases rc with
      | again => exact absurd rfl hrc
      | ok => exact ⟨_, rfl, hseen, by simp [startAccount]⟩
      | declined => exact ⟨_, rfl, hseen, by simp⟩
      | busy => exact ⟨_, rfl, hseen, by simp⟩
      | error => exact ⟨_, rfl, hseen, by simp⟩
    rw [hafter]
    refine Effect.of_zone ⟨h.pending, hholding, ?_⟩ hshift (by simp) (by simp)
    intro rest' seen' rc' cur' heq
    exact absurd heq (hlooking _ _ _ _)

theorem Orderly.effect_look (h : w.Orderly) {limit : Limit} {rest seen : List Limit}
    {rc : LimitRc} {cur : Option Limit} (hphase : w.phase = .looking (limit :: rest) seen rc cur)
    (hnum : (zones limit.zone).Numbered) :
    Effect w (w.lookStep rate zones limit rest seen rc).1 zones
      (w.lookStep rate zones limit rest seen rc).2 := by
  have hnone := h.notMem_of_looking hphase
  have hseen : ∀ z, w.node z ≠ none → rc ≠ .declined ∧ z ∈ seen.map Limit.zone := by
    intro z hz
    have hmem := h.holding z hz
    rw [LimitWorker.holding, hphase] at hmem
    dsimp only at hmem
    split_ifs at hmem with hrc
    · simp at hmem
    · exact ⟨hrc, hmem⟩
  have hdistinct : ((rest ++ limit :: seen).map Limit.zone).Nodup := by
    refine ((List.perm_middle.map Limit.zone).nodup_iff).mpr ?_
    exact h.distinct _ _ _ _ hphase
  rw [lookStep]
  cases hkey : w.request.key limit.zone with
  | none => exact h.effect_phase _ (fun z hz => (hseen z hz).2) (by simp)
  | some key =>
    dsimp only
    split_ifs with hskip
    · refine h.effect_phase _ ?_ ?_
      · intro z hz
        rw [LimitWorker.holding]
        dsimp only
        rw [if_neg (hseen z hz).1]
        exact List.mem_cons_of_mem _ (hseen z hz).2
      · intro rest' seen' rc' cur' heq
        obtain ⟨rfl, rfl, -, -⟩ := LimitPhase.looking.inj heq
        exact hdistinct
    · generalize hlook : (zones limit.zone).ngxHttpLimitReqLookup (rate limit.zone) limit.burst
        w.now (w.request.alloc limit.zone) key rest.isEmpty = found
      obtain ⟨zone, result⟩ := found
      have hlooked := hnum.looked (rate limit.zone) limit.burst w.now
        (w.request.alloc limit.zone) key rest.isEmpty
      rw [hlook] at hlooked
      exact h.effect_afterLookup hnone (fun z hz => (hseen z hz).2) hdistinct hlooked.shift
        hlooked.node_iff

/-- Every step of a handler counts what it holds. -/
theorem Orderly.effect (h : w.Orderly) (hnum : ∀ z, (zones z).Numbered)
    {zones' : ℕ → LimitZone} (hstep : w.step rate zones = some (w', zones')) :
    Effect w w' zones zones' := by
  rw [step] at hstep
  cases hphase : w.phase with
  | idle outcome => simp [hphase] at hstep
  | looking rest seen rc cur =>
    cases rest with
    | nil =>
      have hholding := h.holding
      rw [LimitWorker.holding, hphase] at hholding
      rw [hphase] at hstep
      dsimp only at hstep hholding
      split_ifs at hstep hholding with hrc
      · obtain ⟨rfl, rfl⟩ := Prod.mk.inj (Option.some.inj hstep)
        exact h.effect_phase _ hholding (by simp)
      · obtain ⟨rfl, rfl⟩ := Prod.mk.inj (Option.some.inj hstep)
        exact h.effect_phase _ hholding (by simp [startAccount])
    | cons limit rest =>
      rw [hphase] at hstep
      have heffect : Effect w (w.lookStep rate zones limit rest seen rc).1 zones
          (w.lookStep rate zones limit rest seen rc).2 :=
        h.effect_look hphase (hnum limit.zone)
      rw [Option.some.inj hstep] at heffect
      exact heffect
  | accounting seen maxDelay excess longest =>
    cases seen with
    | nil =>
      have hholding := h.holding
      rw [LimitWorker.holding, hphase] at hholding
      rw [hphase] at hstep
      obtain ⟨rfl, rfl⟩ := Prod.mk.inj (Option.some.inj hstep)
      exact h.effect_phase _ hholding (by simp)
    | cons limit seen =>
      rw [hphase] at hstep
      exact h.effect_account hphase hstep
  | unlocking seen outcome =>
    cases seen with
    | nil =>
      have hholding := h.holding
      rw [LimitWorker.holding, hphase] at hholding
      rw [hphase] at hstep
      obtain ⟨rfl, rfl⟩ := Prod.mk.inj (Option.some.inj hstep)
      exact h.effect_phase _ hholding (by simp)
    | cons limit seen =>
      rw [hphase] at hstep
      exact h.effect_unlock hphase hstep

theorem Orderly.start (h : w.Orderly) {outcome : LimitOutcome} (hidle : w.phase = .idle outcome)
    (request : LimitRequest) (now : ℤ) : (w.start request now).Orderly where
  pending := h.pending
  holding z hz := by
    have hmem := h.holding z hz
    simp [LimitWorker.holding, hidle] at hmem
  distinct rest seen rc limit heq := by
    rw [LimitWorker.start] at heq
    dsimp only at heq
    split_ifs at heq
    obtain ⟨rfl, rfl, -, -⟩ := LimitPhase.looking.inj heq
    rw [List.append_nil]
    exact request.location.distinct

end LimitWorker

namespace LimitSystem

variable {rate : ℕ → ℕ} {W : ℕ} {s s' : LimitSystem}

/-- The number of handlers that have looked up a node and neither charged nor released it. -/
def holders (s : LimitSystem) (W z id : ℕ) : ℕ :=
  ((Finset.range W).filter fun w => (z, id) ∈ (s.workers w).pending).card

/-- The number of notes of a node. -/
def notes (s : LimitSystem) (W z id : ℕ) : ℤ :=
  ∑ w ∈ Finset.range W, ((s.workers w).pending.count (z, id) : ℤ)

/-- The count of a node is the number of handlers that hold it, and what a handler holds is
there. -/
structure Counted (W : ℕ) (s : LimitSystem) : Prop where
  numbered : ∀ z, (s.zones z).Numbered
  orderly : ∀ w, (s.workers w).Orderly
  count : ∀ z, ∀ lr ∈ (s.zones z).nodes, lr.count = s.notes W z lr.id
  held : ∀ w < W, ∀ z id, (z, id) ∈ (s.workers w).pending →
    ∃ lr ∈ (s.zones z).nodes, lr.id = id

theorem notes_update {w : ℕ} (hw : w < W) (s : LimitSystem) (w' : LimitWorker)
    (zones : ℕ → LimitZone) (z id : ℕ) :
    (LimitSystem.mk zones (Function.update s.workers w w')).notes W z id =
      s.notes W z id + ((w'.pending.count (z, id) : ℤ) - (s.workers w).pending.count (z, id)) := by
  have hmem : w ∈ Finset.range W := Finset.mem_range.mpr hw
  rw [notes, notes, ← Finset.add_sum_erase _ _ hmem, ← Finset.add_sum_erase _ _ hmem]
  have hrest : ∑ v ∈ (Finset.range W).erase w,
        ((Function.update s.workers w w' v).pending.count (z, id) : ℤ) =
      ∑ v ∈ (Finset.range W).erase w, ((s.workers v).pending.count (z, id) : ℤ) := by
    refine Finset.sum_congr rfl fun v hv => ?_
    rw [Function.update_of_ne (Finset.ne_of_mem_erase hv)]
  rw [hrest]
  simp only [Function.update_self]
  ring

theorem notes_pos {w : ℕ} (hw : w < W) {z id : ℕ} (h : (z, id) ∈ (s.workers w).pending) :
    0 < s.notes W z id := by
  refine Finset.sum_pos' (fun v _ => Int.natCast_nonneg _) ⟨w, Finset.mem_range.mpr hw, ?_⟩
  exact Int.natCast_pos.mpr (List.count_pos_iff.mpr h)

theorem Counted.effect (h : Counted W s) {w : ℕ} (hw : w < W) {w' : LimitWorker}
    {zones : ℕ → LimitZone} (heffect : (s.workers w).Effect w' s.zones zones) :
    Counted W ⟨zones, Function.update s.workers w w'⟩ := by
  have hshift (z : ℕ) := heffect.zone z (h.numbered z)
  refine ⟨fun z => (hshift z).numbered, ?_, ?_, ?_⟩
  · intro v
    by_cases hv : v = w
    · simpa [hv] using heffect.orderly
    · simpa [hv] using h.orderly v
  · intro z lr' hlr'
    rw [notes_update hw]
    obtain ⟨lr, hlr, hid, hcount⟩ | ⟨hfresh, hcount⟩ := (hshift z).count lr' hlr'
    · rw [hcount, h.count z lr hlr, hid]
    · -- nobody holds a node that is not yet there
      have hnone : s.notes W z lr'.id = 0 := by
        refine Finset.sum_eq_zero fun v hv => ?_
        rw [Int.natCast_eq_zero, List.count_eq_zero]
        intro hmem
        obtain ⟨lr, hlr, hid⟩ := h.held v (Finset.mem_range.mp hv) z lr'.id hmem
        have hlt := (h.numbered z).lt lr hlr
        omega
      rw [hcount, hnone, zero_add]
  · intro v hv z id hmem
    by_cases hold : (z, id) ∈ (s.workers v).pending
    · obtain ⟨lr, hlr, rfl⟩ := h.held v hv z id hold
      refine (hshift z).keep lr hlr ?_
      rw [h.count z lr hlr]
      exact (notes_pos hv hold).ne'
    · obtain rfl : v = w := by
        by_contra hne
        simp only [Function.update_of_ne hne] at hmem
        exact hold hmem
      simp only [Function.update_self] at hmem
      refine (hshift z).held id ?_
      rw [List.count_eq_zero.mpr hold]
      simpa using List.count_pos_iff.mpr hmem

theorem Initial.counted (h : s.Initial) : Counted W s where
  numbered z := by
    rw [h.zones z]
    exact ⟨List.nodup_nil, by simp⟩
  orderly w := by
    obtain ⟨outcome, hidle⟩ := h.idle w
    refine ⟨?_, ?_, ?_⟩
    · intro z id
      simp [h.pending w, h.node w z]
    · intro z hz
      exact absurd (h.node w z) hz
    · intro rest seen rc limit hphase
      simp [hidle] at hphase
  count z lr hlr := by simp [h.zones z] at hlr
  held w _ z id hmem := by simp [h.pending w] at hmem

/-- What an event does: a handler starts, or it makes a step. -/
theorem next_cases {e : LimitEvent} (h : s.next rate W e = some s') :
    (∃ w request now outcome, w < W ∧ e = .start w request now ∧
      (s.workers w).phase = .idle outcome ∧
      s' = { s with workers := Function.update s.workers w ((s.workers w).start request now) }) ∨
    ∃ w w' zones, w < W ∧ e = .step w ∧ (s.workers w).step rate s.zones = some (w', zones) ∧
      s' = ⟨zones, Function.update s.workers w w'⟩ := by
  cases e with
  | start w request now =>
    rw [next] at h
    split at h
    · rename_i outcome hidle
      split_ifs at h with hw
      exact .inl ⟨w, request, now, outcome, hw, rfl, hidle, (Option.some.inj h).symm⟩
    · simp at h
  | step w =>
    rw [next] at h
    split_ifs at h with hw
    obtain ⟨⟨w', zones⟩, hstep, rfl⟩ := Option.map_eq_some_iff.mp h
    exact .inr ⟨w, w', zones, hw, rfl, hstep, rfl⟩

theorem Counted.next (h : Counted W s) {e : LimitEvent} (hnext : s.next rate W e = some s') :
    Counted W s' := by
  obtain ⟨w, request, now, outcome, hw, rfl, hidle, rfl⟩ | ⟨w, w', zones, hw, rfl, hstep, rfl⟩ :=
    next_cases hnext
  · refine h.effect hw ⟨(h.orderly w).start hidle request now, ?_⟩
    intro z hz
    simpa [LimitWorker.start] using hz.shift_perm rfl (List.Perm.refl _)
  · exact h.effect hw ((h.orderly w).effect h.numbered hstep)

theorem run_cons (rate : ℕ → ℕ) (W : ℕ) (s : LimitSystem) (e : LimitEvent)
    (events : List LimitEvent) :
    s.run rate W (e :: events) = (s.next rate W e).bind fun s => s.run rate W events := rfl

theorem Counted.run (h : Counted W s) {events : List LimitEvent}
    (hrun : s.run rate W events = some s') : Counted W s' := by
  induction events generalizing s with
  | nil =>
    obtain rfl : s = s' := Option.some.inj hrun
    exact h
  | cons e events ih =>
    rw [run_cons] at hrun
    obtain ⟨s₁, hnext, hrest⟩ := Option.bind_eq_some_iff.mp hrun
    exact ih (h.next hnext) hrest

/-- A node that a handler holds can be touched. -/
theorem Counted.exists_get (h : Counted W s) {w z id : ℕ} (hw : w < W)
    (hnode : (s.workers w).node z = some id) : ∃ lr, (s.zones z).get id = some lr := by
  have hmem : (z, id) ∈ (s.workers w).pending := by
    rw [← List.count_pos_iff, (h.orderly w).pending, if_pos hnode]
    exact Nat.one_pos
  exact LimitZone.exists_get (h.held w hw z id hmem)

theorem Counted.notes_eq (h : Counted W s) (z id : ℕ) : s.notes W z id = s.holders W z id := by
  rw [notes, holders, Finset.card_filter, Nat.cast_sum]
  refine Finset.sum_congr rfl fun w _ => ?_
  have hcount := (h.orderly w).pending z id
  by_cases hmem : (z, id) ∈ (s.workers w).pending
  · have hpos := List.count_pos_iff.mpr hmem
    rw [if_pos hmem]
    split_ifs at hcount
    · simp [hcount]
    · omega
  · rw [if_neg hmem, List.count_eq_zero.mpr hmem]

/-- A handler that has ended holds nothing. -/
theorem Counted.pending_idle (h : Counted W s) {w : ℕ} {outcome : LimitOutcome}
    (hidle : (s.workers w).phase = .idle outcome) : (s.workers w).pending = [] := by
  refine List.eq_nil_iff_forall_not_mem.mpr ?_
  rintro ⟨z, id⟩ hmem
  have hcount := (h.orderly w).pending z id
  have hpos := List.count_pos_iff.mpr hmem
  split_ifs at hcount with hnode
  · have hholding := (h.orderly w).holding z (by simp [hnode])
    simp [LimitWorker.holding, hidle] at hholding
  · omega

/-- A handler that has not ended can go on: it never touches a node that has been freed. -/
theorem Counted.progress (h : Counted W s) {w : ℕ} (hw : w < W)
    (hbusy : ∀ outcome, (s.workers w).phase ≠ .idle outcome) :
    ∃ s', s.next rate W (.step w) = some s' := by
  suffices hstep : ∃ r, (s.workers w).step rate s.zones = some r by
    obtain ⟨r, hr⟩ := hstep
    exact ⟨⟨r.2, Function.update s.workers w r.1⟩, by simp [LimitSystem.next, hw, hr]⟩
  rw [LimitWorker.step]
  cases hphase : (s.workers w).phase with
  | idle outcome => exact absurd hphase (hbusy outcome)
  | looking rest seen rc cur =>
    cases rest with
    | nil =>
      dsimp only
      split_ifs
      · exact ⟨_, rfl⟩
      · exact ⟨_, rfl⟩
    | cons limit rest => exact ⟨_, rfl⟩
  | accounting seen maxDelay excess longest =>
    cases seen with
    | nil => exact ⟨_, rfl⟩
    | cons limit seen =>
      dsimp only
      rw [LimitWorker.accountStep]
      cases hnode : (s.workers w).node limit.zone with
      | none => exact ⟨_, rfl⟩
      | some id =>
        obtain ⟨lr, hlr⟩ := h.exists_get hw hnode
        simp [hlr]
  | unlocking seen outcome =>
    cases seen with
    | nil => exact ⟨_, rfl⟩
    | cons limit seen =>
      dsimp only
      rw [LimitWorker.unlockStep]
      cases hnode : (s.workers w).node limit.zone with
      | none => exact ⟨_, rfl⟩
      | some id =>
        obtain ⟨lr, hlr⟩ := h.exists_get hw hnode
        simp [hlr]

/-- No node that a handler holds is freed. -/
theorem Counted.keep (h : Counted W s) {e : LimitEvent} (hnext : s.next rate W e = some s') {z : ℕ}
    {lr : LimitNode} (hlr : lr ∈ (s.zones z).nodes) (hcount : lr.count ≠ 0) :
    ∃ lr' ∈ (s'.zones z).nodes, lr'.id = lr.id := by
  obtain ⟨w, request, now, outcome, hw, rfl, hidle, rfl⟩ | ⟨w, w', zones, hw, rfl, hstep, rfl⟩ :=
    next_cases hnext
  · exact ⟨lr, hlr, rfl⟩
  · have heffect := (h.orderly w).effect h.numbered hstep
    exact (heffect.zone z (h.numbered z)).keep lr hlr hcount

end LimitSystem

/-! ## Requests that are rejected -/

/-- The request is not let through. -/
def LimitOutcome.rejects : LimitOutcome → Bool
  | .rejected => true
  | .rejectedDryRun => true
  | .failed => true
  | _ => false

/-- No node that is still there has another level or time. -/
def LimitZone.SameLevels (z z' : LimitZone) : Prop :=
  ∀ lr ∈ z.nodes, ∀ lr' ∈ z'.nodes, lr'.id = lr.id →
    lr'.excess = lr.excess ∧ lr'.last = lr.last

theorem LimitZone.Numbered.sameLevels_self {z : LimitZone} (h : z.Numbered) : z.SameLevels z := by
  intro lr hlr lr' hlr' hid
  rw [h.eq_of_id hlr' hlr hid]
  exact ⟨rfl, rfl⟩

/-- Changing the counts of nodes changes no level. -/
theorem LimitZone.Numbered.sameLevels_modify {z z' : LimitZone} (h : z.Numbered) {id : ℕ}
    {f : LimitNode → LimitNode} (hperm : z'.nodes.Perm (z.modify id f).nodes)
    (hf : ∀ lr, (f lr).id = lr.id ∧ (f lr).excess = lr.excess ∧ (f lr).last = lr.last) :
    z.SameLevels z' := by
  intro lr hlr lr' hlr' hid
  obtain ⟨lr₀, hlr₀, rfl⟩ := LimitZone.mem_modify.mp (hperm.mem_iff.mp hlr')
  split_ifs at hid ⊢ with heq
  · rw [(hf lr₀).1] at hid
    rw [h.eq_of_id hlr₀ hlr hid] at *
    exact (hf lr).2
  · rw [h.eq_of_id hlr₀ hlr hid]
    exact ⟨rfl, rfl⟩

/-- A lookup changes no level unless it charges the node. -/
theorem LimitZone.Looked.sameLevels {z z' : LimitZone} {rate burst : ℕ} {now : ℤ}
    {key : List UInt8} {account : Bool} {result : LimitRc × ℤ × Option ℕ}
    (h : Looked rate burst now key account z z' result) (hz : z.Numbered) (hok : result.1 ≠ .ok) :
    z.SameLevels z' := by
  cases h with
  | busy _ lr hlr hkey hlevel hfresh hperm =>
    intro lr₁ hlr₁ lr₂ hlr₂ hid
    exact hz.sameLevels_self lr₁ hlr₁ lr₂ (hperm.mem_iff.mp hlr₂) hid
  | charged => exact absurd rfl hok
  | held _ lr hlr hkey hlevel haccount hfresh hperm =>
    exact hz.sameLevels_modify hperm fun _ => ⟨rfl, rfl, rfl⟩
  | created z₁ hkey hkept =>
    intro lr₁ hlr₁ lr₂ hlr₂ hid
    obtain rfl | hlr₂ := List.mem_cons.mp hlr₂
    · have hlt := hz.lt lr₁ hlr₁
      simp only at hid
      rw [← hid, hkept.fresh] at hlt
      exact absurd hlt (lt_irrefl _)
    · exact hz.sameLevels_self lr₁ hlr₁ lr₂ (hkept.sub.subset hlr₂) hid
  | error _ hkey hkept =>
    intro lr₁ hlr₁ lr₂ hlr₂ hid
    exact hz.sameLevels_self lr₁ hlr₁ lr₂ (hkept.sub.subset hlr₂) hid

namespace LimitWorker

variable {w w' : LimitWorker} {zones zones' : ℕ → LimitZone} {rate : ℕ → ℕ}

/-- The handler has decided to let the request through. -/
def Charging (w : LimitWorker) : Prop :=
  (∃ seen maxDelay excess limit, w.phase = .accounting seen maxDelay excess limit) ∨
    ∃ outcome, w.phase = .idle outcome ∧ outcome.rejects = false

theorem Charging.step (h : w.Charging) (hstep : w.step rate zones = some (w', zones')) :
    w'.Charging := by
  rw [LimitWorker.step] at hstep
  obtain ⟨seen, maxDelay, excess, limit, hphase⟩ | ⟨outcome, hphase, -⟩ := h
  · cases seen with
    | nil =>
      rw [hphase] at hstep
      obtain ⟨rfl, rfl⟩ := Prod.mk.inj (Option.some.inj hstep)
      refine .inr ⟨_, rfl, ?_⟩
      rw [letThrough]
      split_ifs <;> rfl
    | cons first seen =>
      rw [hphase] at hstep
      dsimp only at hstep
      rw [accountStep] at hstep
      cases hnode : w.node first.zone with
      | none =>
        rw [hnode] at hstep
        obtain ⟨rfl, rfl⟩ := Prod.mk.inj (Option.some.inj hstep)
        exact .inl ⟨_, _, _, _, rfl⟩
      | some id =>
        simp only [hnode, Option.bind_eq_bind, Option.bind_eq_some_iff, Option.some.injEq,
          Prod.mk.injEq] at hstep
        obtain ⟨lr, -, rfl, -⟩ := hstep
        refine .inl ?_
        dsimp only
        split_ifs
        · exact ⟨_, _, _, _, rfl⟩
        · exact ⟨_, _, _, _, rfl⟩
  · simp [hphase] at hstep

/-- A step that changes a level is one of a handler that lets the request through. -/
theorem Orderly.charging_or (hnum : ∀ z, (zones z).Numbered)
    (hstep : w.step rate zones = some (w', zones')) :
    w'.Charging ∨ ∀ z, (zones z).SameLevels (zones' z) := by
  have hsame (z : ℕ) : (zones z).SameLevels (zones z) := (hnum z).sameLevels_self
  by_cases hcharging : w.Charging
  · exact .inl (hcharging.step hstep)
  rw [LimitWorker.step] at hstep
  cases hphase : w.phase with
  | idle outcome => simp [hphase] at hstep
  | looking rest seen rc cur =>
    cases rest with
    | nil =>
      rw [hphase] at hstep
      dsimp only at hstep
      split_ifs at hstep
      · obtain ⟨-, rfl⟩ := Prod.mk.inj (Option.some.inj hstep)
        exact .inr hsame
      · obtain ⟨-, rfl⟩ := Prod.mk.inj (Option.some.inj hstep)
        exact .inr hsame
    | cons limit rest =>
      rw [hphase] at hstep
      have hlook := Option.some.inj hstep
      rw [lookStep] at hlook
      cases hkey : w.request.key limit.zone with
      | none =>
        rw [hkey] at hlook
        obtain ⟨-, rfl⟩ := Prod.mk.inj hlook
        exact .inr hsame
      | some key =>
        rw [hkey] at hlook
        dsimp only at hlook
        split_ifs at hlook
        · obtain ⟨-, rfl⟩ := Prod.mk.inj hlook
          exact .inr hsame
        · obtain ⟨rfl, rfl⟩ := Prod.mk.inj hlook
          have hlooked := (hnum limit.zone).looked (rate limit.zone) limit.burst w.now
            (w.request.alloc limit.zone) key rest.isEmpty
          by_cases hok : ((zones limit.zone).ngxHttpLimitReqLookup (rate limit.zone) limit.burst
              w.now (w.request.alloc limit.zone) key rest.isEmpty).2.1 = .ok
          · refine .inl (.inl ?_)
            generalize ((zones limit.zone).ngxHttpLimitReqLookup (rate limit.zone) limit.burst
              w.now (w.request.alloc limit.zone) key rest.isEmpty).2 = result at hok
            obtain ⟨rc', excess, node⟩ := result
            subst hok
            exact ⟨_, _, _, _, rfl⟩
          · refine .inr fun z => ?_
            by_cases hz : z = limit.zone
            · subst hz
              rw [Function.update_self]
              exact hlooked.sameLevels (hnum _) hok
            · rw [Function.update_of_ne hz]
              exact hsame z
  | accounting seen maxDelay excess limit =>
    exact absurd (.inl ⟨_, _, _, _, hphase⟩) hcharging
  | unlocking seen outcome =>
    cases seen with
    | nil =>
      rw [hphase] at hstep
      obtain ⟨-, rfl⟩ := Prod.mk.inj (Option.some.inj hstep)
      exact .inr hsame
    | cons limit seen =>
      rw [hphase] at hstep
      dsimp only at hstep
      rw [unlockStep] at hstep
      cases hnode : w.node limit.zone with
      | none =>
        rw [hnode] at hstep
        obtain ⟨-, rfl⟩ := Prod.mk.inj (Option.some.inj hstep)
        exact .inr hsame
      | some id =>
        simp only [hnode, Option.bind_eq_bind, Option.bind_eq_some_iff, Option.some.injEq,
          Prod.mk.injEq] at hstep
        obtain ⟨lr, -, -, rfl⟩ := hstep
        refine .inr fun z => ?_
        by_cases hz : z = limit.zone
        · subst hz
          rw [Function.update_self]
          exact (hnum _).sameLevels_modify (List.Perm.refl _) fun _ => ⟨rfl, rfl, rfl⟩
        · rw [Function.update_of_ne hz]
          exact hsame z

end LimitWorker

namespace LimitSystem

variable {rate : ℕ → ℕ} {W : ℕ} {s s' : LimitSystem}

/-- Until the next request, a handler that lets its request through goes on doing so. -/
theorem charging_run {w : ℕ} (h : (s.workers w).Charging) {events : List LimitEvent}
    (hstart : ∀ request now, .start w request now ∉ events)
    (hrun : s.run rate W events = some s') : (s'.workers w).Charging := by
  induction events generalizing s with
  | nil =>
    obtain rfl : s = s' := Option.some.inj hrun
    exact h
  | cons e events ih =>
    rw [run_cons] at hrun
    obtain ⟨s₁, hnext, hrest⟩ := Option.bind_eq_some_iff.mp hrun
    refine ih ?_ (fun request now hmem => hstart request now (List.mem_cons_of_mem _ hmem)) hrest
    obtain ⟨v, request, now, outcome, hv, rfl, hidle, rfl⟩ | ⟨v, v', zones, hv, rfl, hstep, rfl⟩ :=
      next_cases hnext
    · have hne : w ≠ v := by
        rintro rfl
        exact hstart request now List.mem_cons_self
      simpa [hne] using h
    · by_cases hwv : w = v
      · subst hwv
        simpa using h.step hstep
      · simpa [hwv] using h

/-- The workers share their zones safely: in every state that `W` workers reach, the count of
a node is the number of handlers that hold it, a handler can always go on, so it touches no
freed node, a step frees no node that is held, and the steps of a request that ends rejected
change no level and no time of a node. -/
theorem workers_share_zones (rate : ℕ → ℕ) (W : ℕ) (s₀ s : LimitSystem)
    (events : List LimitEvent) (hinit : s₀.Initial) (hrun : s₀.run rate W events = some s) :
    (∀ z, ∀ lr ∈ (s.zones z).nodes, lr.count = s.holders W z lr.id) ∧
    (∀ w outcome, (s.workers w).phase = .idle outcome → (s.workers w).pending = []) ∧
    (∀ w < W, ∀ z id, (z, id) ∈ (s.workers w).pending → ∃ lr ∈ (s.zones z).nodes, lr.id = id) ∧
    (∀ w < W, (∀ outcome, (s.workers w).phase ≠ .idle outcome) →
      ∃ s', s.next rate W (.step w) = some s') ∧
    (∀ e s', s.next rate W e = some s' → ∀ z, ∀ lr ∈ (s.zones z).nodes, 0 < lr.count →
      ∃ lr' ∈ (s'.zones z).nodes, lr'.id = lr.id) ∧
    ∀ w s₁ later s₂ outcome, s.next rate W (.step w) = some s₁ →
      s₁.run rate W later = some s₂ → (∀ request now, .start w request now ∉ later) →
      (s₂.workers w).phase = .idle outcome → outcome.rejects = true →
      ∀ z, ∀ lr ∈ (s.zones z).nodes, ∀ lr' ∈ (s₁.zones z).nodes, lr'.id = lr.id →
        lr'.excess = lr.excess ∧ lr'.last = lr.last := by
  have h : Counted W s := hinit.counted.run hrun
  refine ⟨?_, fun w outcome hidle => h.pending_idle hidle, h.held,
    fun w hw hbusy => h.progress hw hbusy, ?_, ?_⟩
  · intro z lr hlr
    rw [h.count z lr hlr, h.notes_eq]
  · intro e s' hnext z lr hlr hpos
    exact h.keep hnext hlr hpos.ne'
  · intro w s₁ later s₂ outcome hnext hlater hstart hidle hrejects
    obtain ⟨v, request, now, o, hv, heq, -, -⟩ | ⟨v, w', zones, hv, heq, hstep, rfl⟩ :=
      next_cases hnext
    · simp at heq
    obtain rfl : w = v := LimitEvent.step.inj heq
    obtain hcharging | hsame := LimitWorker.Orderly.charging_or h.numbered hstep
    · have hafter :
          ((LimitSystem.mk zones (Function.update s.workers w w')).workers w).Charging := by
        simpa using hcharging
      obtain ⟨seen, maxDelay, excess, limit, hphase⟩ | ⟨o, hphase, ho⟩ :=
        charging_run hafter hstart hlater
      · simp [hphase] at hidle
      · rw [hphase] at hidle
        obtain rfl := LimitPhase.idle.inj hidle
        simp [hrejects] at ho
    · exact hsame

/-- Two limits in different zones, the same key for both. -/
def twoLimits (burst : ℕ) : LimitRequest where
  location := ⟨[⟨0, burst, 0⟩, ⟨1, 1000000, 0⟩], by simp, false⟩
  limited := false
  key := fun _ => some [107]
  alloc := fun _ => (true, true)

/-- Two handlers that both hold the node of the first zone. -/
theorem workers_share_zones_two :
    ∃ s, unused.run (fun _ => 1000) 2
        [.start 0 (twoLimits 0) 2000, .start 1 (twoLimits 0) 2000, .step 0, .step 1] = some s ∧
      ∀ lr ∈ (s.zones 0).nodes, lr.count = s.holders 2 0 lr.id := by
  have hsome : (unused.run (fun _ => 1000) 2 [.start 0 (twoLimits 0) 2000,
      .start 1 (twoLimits 0) 2000, .step 0, .step 1]).isSome = true := by decide
  obtain ⟨s, hs⟩ := Option.isSome_iff_exists.mp hsome
  exact ⟨s, hs, (workers_share_zones _ 2 unused s _ unused_initial hs).1 0⟩

end LimitSystem

end MultiversionBalancer.Http
