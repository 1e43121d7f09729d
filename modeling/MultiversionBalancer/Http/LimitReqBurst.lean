import MultiversionBalancer.Http.LimitReqWorkers

/-!
# Bursts

A lookup lets a request pass when the level with this request is within the burst.  Only the
last limit is charged in the same critical section.  For the limits before it the charge
comes later, so that several workers pass on the same level and then charge it one after
another; and a new node is charged without any test, at the level that it would have had
since the time `0`.  When no handler passes on a node that another one holds, and the clock
has gone on far enough for new nodes, no level goes beyond the burst.
-/

namespace MultiversionBalancer.Http

def LimitEvent.OneBurst (burst : ℕ → ℕ) : LimitEvent → Prop
  | .start _ request _ => ∀ limit ∈ request.location.limits, limit.burst = burst limit.zone
  | .step _ => True

/-- The level of a node that has been made for a limit before the last one, with the request
that it has been made for. -/
def limitFirstLevel (rate : ℕ) (now : ℤ) : ℤ :=
  max 0 (1000 - limitDrain rate (limitMs now 0))

namespace LimitSystem

/-- A handler looks up `key` alone: it does not pass on a node that another handler holds,
and a new node for a limit before the last one starts within the burst. -/
def LookAlone (rate burst : ℕ) (now : ℤ) (key : List UInt8) (last : Bool) (z : LimitZone) :
    Prop :=
  (∀ lr ∈ z.nodes, lr.key = key → limitLevel rate now lr ≤ burst → lr.count = 0) ∧
    ((∀ lr ∈ z.nodes, lr.key ≠ key) → last = false → limitFirstLevel rate now ≤ burst)

/-- The worker, the limit and the key of the lookup that an event makes, and whether the
limit is the last one. -/
def lookedUp (s : LimitSystem) : LimitEvent → Option (ℕ × Limit × List UInt8 × Bool)
  | .start _ _ _ => none
  | .step w =>
    match (s.workers w).phase with
    | .looking (limit :: rest) _ _ _ =>
      ((s.workers w).request.key limit.zone).bind fun key =>
        if LimitWorker.skipped key then none else some (w, limit, key, rest.isEmpty)
    | _ => none

instance (rate burst : ℕ) (now : ℤ) (key : List UInt8) (last : Bool) (z : LimitZone) :
    Decidable (LookAlone rate burst now key last z) :=
  inferInstanceAs (Decidable (_ ∧ _))

/-- If the event is a lookup, the handler looks up its key alone. -/
def alone (rate burst : ℕ → ℕ) (s : LimitSystem) (e : LimitEvent) : Bool :=
  (s.lookedUp e).all fun (w, limit, key, last) =>
    LookAlone (rate limit.zone) (burst limit.zone) (s.workers w).now key last
      (s.zones limit.zone)

def aloneRun (rate burst : ℕ → ℕ) (W : ℕ) : LimitSystem → List LimitEvent → Bool
  | _, [] => true
  | s, e :: events =>
    s.alone rate burst e && (s.next rate W e).all fun s' => aloneRun rate burst W s' events

end LimitSystem

/-- The limits that a handler has still to look up. -/
def LimitPhase.rest : LimitPhase → List Limit
  | .looking rest _ _ _ => rest
  | _ => []

namespace LimitWorker

variable {w w' : LimitWorker} {zones zones' : ℕ → LimitZone} {rate : ℕ → ℕ}

/-- A step of a handler touches no zone, or looks up a key, or charges or releases a node
that the handler holds. -/
inductive Stepped (rate : ℕ → ℕ) (w : LimitWorker) (zones : ℕ → LimitZone) :
    LimitWorker → (ℕ → LimitZone) → Prop
  | quiet (phase : LimitPhase) (hrest : phase.rest ⊆ w.phase.rest) :
      Stepped rate w zones { w with phase := phase } zones
  | look (limit : Limit) (rest seen : List Limit) (rc : LimitRc) (cur : Option Limit)
      (key : List UInt8) (hphase : w.phase = .looking (limit :: rest) seen rc cur)
      (hkey : w.request.key limit.zone = some key) (hskip : ¬skipped key) (zone : LimitZone)
      (result : LimitRc × ℤ × Option ℕ)
      (hlook : (zones limit.zone).ngxHttpLimitReqLookup (rate limit.zone) limit.burst w.now
        (w.request.alloc limit.zone) key rest.isEmpty = (zone, result)) :
      Stepped rate w zones (w.afterLookup rate limit rest seen result)
        (Function.update zones limit.zone zone)
  | charge (z : ℕ) (lr : LimitNode) (phase : LimitPhase) (hrest : phase.rest = [])
      (hnode : w.node z = some lr.id) (hlr : lr ∈ (zones z).nodes) :
      Stepped rate w zones { w.clear z lr.id with phase := phase }
        (Function.update zones z ((zones z).modify lr.id fun lr =>
          { lr.charge (rate z) w.now with count := lr.count - 1 }))
  | release (z : ℕ) (lr : LimitNode) (phase : LimitPhase) (hrest : phase.rest = [])
      (hnode : w.node z = some lr.id) (hlr : lr ∈ (zones z).nodes) :
      Stepped rate w zones { w.clear z lr.id with phase := phase }
        (Function.update zones z ((zones z).modify lr.id fun lr =>
          { lr with count := lr.count - 1 }))

theorem stepped (hstep : w.step rate zones = some (w', zones')) :
    Stepped rate w zones w' zones' := by
  rw [step] at hstep
  cases hphase : w.phase with
  | idle outcome => simp [hphase] at hstep
  | looking rest seen rc cur =>
    cases rest with
    | nil =>
      rw [hphase] at hstep
      dsimp only at hstep
      split_ifs at hstep
      · obtain ⟨rfl, rfl⟩ := Prod.mk.inj (Option.some.inj hstep)
        exact .quiet _ (List.nil_subset _)
      · obtain ⟨rfl, rfl⟩ := Prod.mk.inj (Option.some.inj hstep)
        exact .quiet _ (List.nil_subset _)
    | cons limit rest =>
      rw [hphase] at hstep
      have hlook := Option.some.inj hstep
      rw [lookStep] at hlook
      cases hkey : w.request.key limit.zone with
      | none =>
        rw [hkey] at hlook
        obtain ⟨rfl, rfl⟩ := Prod.mk.inj hlook
        exact .quiet _ (List.nil_subset _)
      | some key =>
        rw [hkey] at hlook
        dsimp only at hlook
        split_ifs at hlook with hskip
        · obtain ⟨rfl, rfl⟩ := Prod.mk.inj hlook
          refine .quiet _ ?_
          rw [hphase]
          exact List.subset_cons_self _ _
        · obtain ⟨rfl, rfl⟩ := Prod.mk.inj hlook
          exact .look limit rest seen rc cur key hphase hkey hskip _ _ rfl
  | accounting seen maxDelay excess longest =>
    cases seen with
    | nil =>
      rw [hphase] at hstep
      obtain ⟨rfl, rfl⟩ := Prod.mk.inj (Option.some.inj hstep)
      exact .quiet _ (List.nil_subset _)
    | cons limit seen =>
      rw [hphase] at hstep
      dsimp only at hstep
      rw [accountStep] at hstep
      cases hnode : w.node limit.zone with
      | none =>
        rw [hnode] at hstep
        obtain ⟨rfl, rfl⟩ := Prod.mk.inj (Option.some.inj hstep)
        exact .quiet _ (List.nil_subset _)
      | some id =>
        simp only [hnode, Option.bind_eq_bind, Option.bind_eq_some_iff, Option.some.injEq,
          Prod.mk.injEq] at hstep
        obtain ⟨lr, hget, rfl, rfl⟩ := hstep
        obtain ⟨hlr, rfl⟩ := exists_of_get hget
        refine .charge limit.zone lr _ ?_ hnode hlr
        split_ifs <;> rfl
  | unlocking seen outcome =>
    cases seen with
    | nil =>
      rw [hphase] at hstep
      obtain ⟨rfl, rfl⟩ := Prod.mk.inj (Option.some.inj hstep)
      exact .quiet _ (List.nil_subset _)
    | cons limit seen =>
      rw [hphase] at hstep
      dsimp only at hstep
      rw [unlockStep] at hstep
      cases hnode : w.node limit.zone with
      | none =>
        rw [hnode] at hstep
        obtain ⟨rfl, rfl⟩ := Prod.mk.inj (Option.some.inj hstep)
        exact .quiet _ (List.nil_subset _)
      | some id =>
        simp only [hnode, Option.bind_eq_bind, Option.bind_eq_some_iff, Option.some.injEq,
          Prod.mk.injEq] at hstep
        obtain ⟨lr, hget, rfl, rfl⟩ := hstep
        obtain ⟨hlr, rfl⟩ := exists_of_get hget
        exact .release limit.zone lr _ rfl hnode hlr

end LimitWorker

namespace LimitSystem

variable {rate burst : ℕ → ℕ} {W : ℕ} {s s' : LimitSystem}

/-- No level is beyond the burst, and neither is the level that a handler will charge to the
node it holds. -/
structure Bounded (rate burst : ℕ → ℕ) (W : ℕ) (s : LimitSystem) : Prop where
  level : ∀ z, ∀ lr ∈ (s.zones z).nodes, lr.excess ≤ burst z
  single : ∀ z, ∀ lr ∈ (s.zones z).nodes, lr.count ≤ 1
  ahead : ∀ w < W, ∀ z, ∀ lr ∈ (s.zones z).nodes, (s.workers w).node z = some lr.id →
    limitLevel (rate z) (s.workers w).now lr ≤ burst z
  rest : ∀ w, ∀ limit ∈ (s.workers w).phase.rest, limit.burst = burst limit.zone

theorem Initial.bounded (h : s.Initial) : Bounded rate burst W s where
  level z lr hlr := by simp [h.zones z] at hlr
  single z lr hlr := by simp [h.zones z] at hlr
  ahead w _ z lr hlr := by simp [h.zones z] at hlr
  rest w limit hlimit := by
    obtain ⟨outcome, hidle⟩ := h.idle w
    simp [hidle, LimitPhase.rest] at hlimit

theorem Counted.note_of_node (h : Counted W s) {v z id : ℕ}
    (hnode : (s.workers v).node z = some id) : (s.workers v).pending.count (z, id) = 1 := by
  rw [(h.orderly v).pending, if_pos hnode]

theorem Counted.node_ne_of_zero (h : Counted W s) {z : ℕ} {lr : LimitNode}
    (hlr : lr ∈ (s.zones z).nodes) (hcount : lr.count = 0) {v : ℕ} (hv : v < W) :
    (s.workers v).node z ≠ some lr.id := by
  intro hnode
  have hmem : (z, lr.id) ∈ (s.workers v).pending := by
    rw [← List.count_pos_iff, h.note_of_node hnode]
    exact Nat.one_pos
  have hpos := notes_pos hv hmem
  rw [← h.count z lr hlr, hcount] at hpos
  exact absurd hpos (lt_irrefl 0)

theorem Counted.node_ne_of_single (h : Counted W s) {z : ℕ} {lr : LimitNode}
    (hlr : lr ∈ (s.zones z).nodes) (hcount : lr.count ≤ 1) {w v : ℕ} (hw : w < W) (hv : v < W)
    (hnode : (s.workers w).node z = some lr.id) (hvw : v ≠ w) :
    (s.workers v).node z ≠ some lr.id := by
  intro hnode'
  rw [h.count z lr hlr, notes, ← Finset.add_sum_erase _ _ (Finset.mem_range.mpr hw),
    h.note_of_node hnode] at hcount
  have hle : ((s.workers v).pending.count (z, lr.id) : ℤ) ≤
      ∑ u ∈ (Finset.range W).erase w, ((s.workers u).pending.count (z, lr.id) : ℤ) :=
    Finset.single_le_sum (f := fun u => ((s.workers u).pending.count (z, lr.id) : ℤ))
      (fun u _ => Int.natCast_nonneg _)
      (Finset.mem_erase.mpr ⟨hvw, Finset.mem_range.mpr hv⟩)
  rw [h.note_of_node hnode'] at hle
  omega

/-- A step of the worker `w` that changes the zone `z` keeps the bound when it does so for
the nodes of this zone and those who hold them. -/
theorem Bounded.update (h : Bounded rate burst W s) {w : ℕ} {w' : LimitWorker} {z : ℕ}
    {zone : LimitZone} (hnow : w'.now = (s.workers w).now)
    (hother : ∀ y ≠ z, w'.node y = (s.workers w).node y)
    (hrest : w'.phase.rest ⊆ (s.workers w).phase.rest)
    (hlevel : ∀ lr ∈ zone.nodes, lr.excess ≤ burst z)
    (hsingle : ∀ lr ∈ zone.nodes, lr.count ≤ 1)
    (hself : ∀ lr ∈ zone.nodes, w'.node z = some lr.id →
      limitLevel (rate z) (s.workers w).now lr ≤ burst z)
    (hothers : ∀ v < W, v ≠ w → ∀ lr ∈ zone.nodes, (s.workers v).node z = some lr.id →
      limitLevel (rate z) (s.workers v).now lr ≤ burst z) :
    Bounded rate burst W ⟨Function.update s.zones z zone, Function.update s.workers w w'⟩ where
  level y lr hlr := by
    by_cases hy : y = z
    · subst hy
      simp only [Function.update_self] at hlr
      exact hlevel lr hlr
    · simp only [Function.update_of_ne hy] at hlr
      exact h.level y lr hlr
  single y lr hlr := by
    by_cases hy : y = z
    · subst hy
      simp only [Function.update_self] at hlr
      exact hsingle lr hlr
    · simp only [Function.update_of_ne hy] at hlr
      exact h.single y lr hlr
  ahead v hv y lr hlr hnode := by
    by_cases hy : y = z
    · subst hy
      simp only [Function.update_self] at hlr
      by_cases hvw : v = w
      · subst hvw
        simp only [Function.update_self] at hnode ⊢
        rw [hnow]
        exact hself lr hlr hnode
      · simp only [Function.update_of_ne hvw] at hnode ⊢
        exact hothers v hv hvw lr hlr hnode
    · simp only [Function.update_of_ne hy] at hlr
      by_cases hvw : v = w
      · subst hvw
        simp only [Function.update_self] at hnode ⊢
        rw [hother y hy] at hnode
        rw [hnow]
        exact h.ahead v hv y lr hlr hnode
      · simp only [Function.update_of_ne hvw] at hnode ⊢
        exact h.ahead v hv y lr hlr hnode
  rest v limit hlimit := by
    by_cases hvw : v = w
    · subst hvw
      simp only [Function.update_self] at hlimit
      exact h.rest v limit (hrest hlimit)
    · simp only [Function.update_of_ne hvw] at hlimit
      exact h.rest v limit hlimit

/-- The charge of a handler that holds its node alone. -/
theorem Bounded.charge (h : Bounded rate burst W s) (hc : Counted W s) {w z : ℕ} (hw : w < W)
    {lr : LimitNode} (hnode : (s.workers w).node z = some lr.id) (hlr : lr ∈ (s.zones z).nodes)
    {phase : LimitPhase} (hrest : phase.rest = []) :
    Bounded rate burst W ⟨Function.update s.zones z ((s.zones z).modify lr.id fun lr =>
        { lr.charge (rate z) (s.workers w).now with count := lr.count - 1 }),
      Function.update s.workers w { (s.workers w).clear z lr.id with phase := phase }⟩ := by
  have hsole {v : ℕ} (hv : v < W) (hvw : v ≠ w) : (s.workers v).node z ≠ some lr.id :=
    hc.node_ne_of_single hlr (h.single z lr hlr) hw hv hnode hvw
  refine h.update rfl ?_ ?_ ?_ ?_ ?_ ?_
  · intro y hy
    exact Function.update_of_ne hy _ _
  · simp [hrest]
  · intro lr' hlr'
    obtain ⟨lr₀, hlr₀, rfl⟩ := LimitZone.mem_modify.mp hlr'
    split_ifs with hid
    · rw [(hc.numbered z).eq_of_id hlr₀ hlr hid]
      exact h.ahead w hw z lr hlr hnode
    · exact h.level z lr₀ hlr₀
  · intro lr' hlr'
    obtain ⟨lr₀, hlr₀, rfl⟩ := LimitZone.mem_modify.mp hlr'
    have hsingle := h.single z lr₀ hlr₀
    split_ifs with hid
    · exact (sub_le_self _ Int.one_nonneg).trans hsingle
    · exact hsingle
  · intro lr' _ hnode'
    simp [LimitWorker.clear] at hnode'
  · intro v hv hvw lr' hlr' hnode'
    obtain ⟨lr₀, hlr₀, rfl⟩ := LimitZone.mem_modify.mp hlr'
    split_ifs at hnode' ⊢ with hid
    · rw [(hc.numbered z).eq_of_id hlr₀ hlr hid] at hnode'
      exact absurd hnode' (hsole hv hvw)
    · exact h.ahead v hv z lr₀ hlr₀ hnode'

theorem Bounded.release (h : Bounded rate burst W s) {w z : ℕ} {lr : LimitNode}
    {phase : LimitPhase} (hrest : phase.rest = []) :
    Bounded rate burst W ⟨Function.update s.zones z ((s.zones z).modify lr.id fun lr =>
        { lr with count := lr.count - 1 }),
      Function.update s.workers w { (s.workers w).clear z lr.id with phase := phase }⟩ := by
  refine h.update rfl ?_ ?_ ?_ ?_ ?_ ?_
  · intro y hy
    exact Function.update_of_ne hy _ _
  · simp [hrest]
  · intro lr' hlr'
    obtain ⟨lr₀, hlr₀, rfl⟩ := LimitZone.mem_modify.mp hlr'
    split_ifs
    · exact h.level z lr₀ hlr₀
    · exact h.level z lr₀ hlr₀
  · intro lr' hlr'
    obtain ⟨lr₀, hlr₀, rfl⟩ := LimitZone.mem_modify.mp hlr'
    have hsingle := h.single z lr₀ hlr₀
    split_ifs
    · exact (sub_le_self _ Int.one_nonneg).trans hsingle
    · exact hsingle
  · intro lr' _ hnode'
    simp [LimitWorker.clear] at hnode'
  · intro v hv hvw lr' hlr' hnode'
    obtain ⟨lr₀, hlr₀, rfl⟩ := LimitZone.mem_modify.mp hlr'
    split_ifs at hnode' ⊢
    · exact h.ahead v hv z lr₀ hlr₀ hnode'
    · exact h.ahead v hv z lr₀ hlr₀ hnode'

end LimitSystem

namespace LimitWorker

variable {w : LimitWorker} {rate : ℕ → ℕ} {limit : Limit} {rest seen : List Limit}
  {result : LimitRc × ℤ × Option ℕ}

@[simp] theorem afterLookup_now :
    (w.afterLookup rate limit rest seen result).now = w.now := by
  obtain ⟨rc, excess, node⟩ := result
  cases rc <;> rfl

theorem afterLookup_node_of_ne {y : ℕ} (hy : y ≠ limit.zone) :
    (w.afterLookup rate limit rest seen result).node y = w.node y := by
  obtain ⟨rc, excess, node⟩ := result
  cases rc with
  | again => exact Function.update_of_ne hy _ _
  | _ => rfl

theorem afterLookup_node {id : ℕ} (hnone : w.node limit.zone = none)
    (hid : (w.afterLookup rate limit rest seen result).node limit.zone = some id) :
    result.2.2 = some id := by
  obtain ⟨rc, excess, node⟩ := result
  cases rc with
  | again => simpa [afterLookup] using hid
  | _ =>
    replace hid : w.node limit.zone = some id := hid
    simp [hnone] at hid

theorem afterLookup_rest :
    (w.afterLookup rate limit rest seen result).phase.rest ⊆ rest := by
  obtain ⟨rc, excess, node⟩ := result
  cases rc with
  | again => exact List.Subset.refl _
  | _ => exact List.nil_subset _

end LimitWorker

namespace LimitSystem

variable {rate burst : ℕ → ℕ} {W : ℕ} {s s' : LimitSystem}

theorem Bounded.look (h : Bounded rate burst W s) (hc : Counted W s) {w : ℕ} {limit : Limit}
    {rest seen : List Limit} {rc : LimitRc} {cur : Option Limit} {key : List UInt8}
    (hphase : (s.workers w).phase = .looking (limit :: rest) seen rc cur)
    (halone : LookAlone (rate limit.zone) (burst limit.zone) (s.workers w).now key rest.isEmpty
      (s.zones limit.zone))
    {zone : LimitZone} {result : LimitRc × ℤ × Option ℕ}
    (hlooked : LimitZone.Looked (rate limit.zone) limit.burst (s.workers w).now key rest.isEmpty
      (s.zones limit.zone) zone result) :
    Bounded rate burst W ⟨Function.update s.zones limit.zone zone,
      Function.update s.workers w ((s.workers w).afterLookup rate limit rest seen result)⟩ := by
  obtain ⟨hheld, hnew⟩ := halone
  have hnum := hc.numbered limit.zone
  have hburst : limit.burst = burst limit.zone := by
    refine h.rest w limit ?_
    rw [hphase]
    exact List.mem_cons_self
  rw [hburst] at hlooked
  have hrest : ((s.workers w).afterLookup rate limit rest seen result).phase.rest ⊆
      (s.workers w).phase.rest := by
    rw [hphase]
    exact List.Subset.trans LimitWorker.afterLookup_rest (List.subset_cons_self _ _)
  -- what the nodes of the zone are after the lookup
  have hnodes : ∀ lr' ∈ zone.nodes, lr'.excess ≤ burst limit.zone ∧ lr'.count ≤ 1 ∧
      (result.2.2 = some lr'.id →
        limitLevel (rate limit.zone) (s.workers w).now lr' ≤ burst limit.zone) ∧
      ∀ v < W, (s.workers v).node limit.zone = some lr'.id →
        limitLevel (rate limit.zone) (s.workers v).now lr' ≤ burst limit.zone := by
    have hsame : ∀ lr ∈ (s.zones limit.zone).nodes, lr.excess ≤ burst limit.zone ∧ lr.count ≤ 1 ∧
        ∀ v < W, (s.workers v).node limit.zone = some lr.id →
          limitLevel (rate limit.zone) (s.workers v).now lr ≤ burst limit.zone :=
      fun lr hlr => ⟨h.level _ lr hlr, h.single _ lr hlr, fun v hv => h.ahead v hv _ lr hlr⟩
    intro lr' hlr'
    cases hlooked with
    | busy _ lr hlr hkey hlevel hfresh hperm =>
      obtain ⟨h1, h2, h3⟩ := hsame lr' (hperm.mem_iff.mp hlr')
      exact ⟨h1, h2, by simp, h3⟩
    | charged _ lr hlr hkey hlevel haccount hfresh hperm =>
      have hcount := hheld lr hlr hkey hlevel
      obtain ⟨lr₀, hlr₀, rfl⟩ := LimitZone.mem_modify.mp (hperm.mem_iff.mp hlr')
      split_ifs with hid
      · obtain rfl := hnum.eq_of_id hlr₀ hlr hid
        refine ⟨hlevel, h.single _ lr₀ hlr, by simp, fun v hv hnode => ?_⟩
        exact absurd hnode (hc.node_ne_of_zero hlr hcount hv)
      · obtain ⟨h1, h2, h3⟩ := hsame lr₀ hlr₀
        exact ⟨h1, h2, by simp, h3⟩
    | held _ lr hlr hkey hlevel haccount hfresh hperm =>
      have hcount := hheld lr hlr hkey hlevel
      obtain ⟨lr₀, hlr₀, rfl⟩ := LimitZone.mem_modify.mp (hperm.mem_iff.mp hlr')
      split_ifs with hid
      · obtain rfl := hnum.eq_of_id hlr₀ hlr hid
        refine ⟨h.level _ lr₀ hlr, ?_, fun _ => hlevel, fun v hv hnode => ?_⟩
        · simp [hcount]
        · exact absurd hnode (hc.node_ne_of_zero hlr hcount hv)
      · obtain ⟨h1, h2, h3⟩ := hsame lr₀ hlr₀
        refine ⟨h1, h2, fun hres => ?_, h3⟩
        exact absurd (Option.some.inj hres).symm hid
    | created z₁ hkey hkept =>
      obtain rfl | hlr' := List.mem_cons.mp hlr'
      · refine ⟨Int.natCast_nonneg _, ?_, fun hres => ?_, fun v hv hnode => ?_⟩
        · dsimp only
          split_ifs <;> simp
        · have hne : rest ≠ [] := by
            rintro rfl
            simp at hres
          have hlevel := hnew hkey (by simpa using hne)
          rw [limitFirstLevel] at hlevel
          simpa [limitLevel, hne, sub_eq_add_neg, add_comm] using hlevel
        · -- nobody holds a node that is not yet there
          have hmem : (limit.zone, z₁.fresh) ∈ (s.workers v).pending := by
            rw [← List.count_pos_iff, hc.note_of_node hnode]
            exact Nat.one_pos
          obtain ⟨lr, hlr, hid⟩ := hc.held v hv _ _ hmem
          have hlt := hnum.lt lr hlr
          rw [hid, hkept.fresh] at hlt
          exact absurd hlt (lt_irrefl _)
      · obtain ⟨h1, h2, h3⟩ := hsame lr' (hkept.sub.subset hlr')
        refine ⟨h1, h2, fun hres => ?_, h3⟩
        have hlt := hnum.lt lr' (hkept.sub.subset hlr')
        split_ifs at hres
        have hid := Option.some.inj hres
        omega
    | error _ hkey hkept =>
      obtain ⟨h1, h2, h3⟩ := hsame lr' (hkept.sub.subset hlr')
      exact ⟨h1, h2, by simp, h3⟩
  refine h.update LimitWorker.afterLookup_now (fun y hy => LimitWorker.afterLookup_node_of_ne hy)
    hrest (fun lr hlr => (hnodes lr hlr).1) (fun lr hlr => (hnodes lr hlr).2.1) ?_ ?_
  · intro lr hlr hnode
    exact (hnodes lr hlr).2.2.1
      (LimitWorker.afterLookup_node ((hc.orderly w).notMem_of_looking hphase) hnode)
  · intro v hv _ lr hlr hnode
    exact (hnodes lr hlr).2.2.2 v hv hnode

theorem Bounded.next (h : Bounded rate burst W s) (hc : Counted W s) {e : LimitEvent}
    (hone : e.OneBurst burst) (halone : s.alone rate burst e = true)
    (hnext : s.next rate W e = some s') : Bounded rate burst W s' := by
  obtain ⟨w, request, now, outcome, hw, rfl, hidle, rfl⟩ | ⟨w, w', zones, hw, rfl, hstep, rfl⟩ :=
    next_cases hnext
  · refine ⟨h.level, h.single, ?_, ?_⟩
    · intro v hv z lr hlr hnode
      by_cases hvw : v = w
      · -- a handler that starts holds nothing
        subst hvw
        simp only [Function.update_self] at hnode
        replace hnode : (s.workers v).node z = some lr.id := hnode
        have hholding := (hc.orderly v).holding z (by simp [hnode])
        simp [LimitWorker.holding, hidle] at hholding
      · simp only [Function.update_of_ne hvw] at hnode ⊢
        exact h.ahead v hv z lr hlr hnode
    · intro v limit hlimit
      by_cases hvw : v = w
      · subst hvw
        simp only [Function.update_self, LimitWorker.start] at hlimit
        split_ifs at hlimit
        · simp [LimitPhase.rest] at hlimit
        · exact hone limit hlimit
      · simp only [Function.update_of_ne hvw] at hlimit
        exact h.rest v limit hlimit
  · cases LimitWorker.stepped hstep with
    | quiet phase hrest =>
      have hupdate : Bounded rate burst W ⟨Function.update s.zones 0 (s.zones 0),
          Function.update s.workers w { s.workers w with phase := phase }⟩ := by
        refine h.update rfl (fun _ _ => rfl) hrest (h.level 0) (h.single 0) ?_ ?_
        · exact fun lr hlr hnode => h.ahead w hw 0 lr hlr hnode
        · exact fun v hv _ lr hlr hnode => h.ahead v hv 0 lr hlr hnode
      rw [Function.update_eq_self] at hupdate
      exact hupdate
    | look limit rest seen rc cur key hphase hkey hskip zone result hlook =>
      have hlooked := (hc.numbered limit.zone).looked (rate limit.zone) limit.burst
        (s.workers w).now ((s.workers w).request.alloc limit.zone) key rest.isEmpty
      rw [hlook] at hlooked
      simp only [alone, lookedUp, hphase, hkey, Option.bind_some, if_neg hskip, Option.all_some,
        decide_eq_true_eq] at halone
      exact h.look hc hphase halone hlooked
    | charge z lr phase hrest hnode hlr => exact h.charge hc hw hnode hlr hrest
    | release z lr phase hrest hnode hlr => exact h.release hrest

/-- Where every lookup is alone, no level goes beyond the burst of its zone. -/
theorem burst_holds_alone (rate burst : ℕ → ℕ) (W : ℕ) (s₀ s : LimitSystem)
    (events : List LimitEvent) (hinit : s₀.Initial) (hone : ∀ e ∈ events, e.OneBurst burst)
    (halone : aloneRun rate burst W s₀ events = true) (hrun : s₀.run rate W events = some s) :
    ∀ z, ∀ lr ∈ (s.zones z).nodes, lr.excess ≤ burst z := by
  suffices hall : ∀ s₀ : LimitSystem, Bounded rate burst W s₀ → Counted W s₀ →
      aloneRun rate burst W s₀ events = true → s₀.run rate W events = some s →
      Bounded rate burst W s from
    (hall s₀ hinit.bounded hinit.counted halone hrun).level
  clear hinit halone hrun s₀
  induction events with
  | nil =>
    intro s₀ h _ _ hrun
    obtain rfl : s₀ = s := Option.some.inj hrun
    exact h
  | cons e events ih =>
    intro s₀ h hc halone hrun
    rw [run_cons] at hrun
    obtain ⟨s₁, hnext, hrest⟩ := Option.bind_eq_some_iff.mp hrun
    rw [aloneRun, hnext, Bool.and_eq_true] at halone
    have hone' : ∀ e ∈ events, e.OneBurst burst := fun e he => hone e (List.mem_cons_of_mem _ he)
    exact ih hone' s₁ (h.next hc (hone e List.mem_cons_self) halone.1 hnext) (hc.next hnext)
      halone.2 hrest

/-- The events of two handlers that pass on the same node before one of them charges it. -/
def overlapping : List LimitEvent :=
  [.start 0 (twoLimits 0) 2000, .start 1 (twoLimits 0) 2000, .step 0, .step 1, .step 0, .step 0,
    .step 1, .step 1]

def twoBursts (z : ℕ) : ℕ :=
  if z = 0 then 0 else 1000000

theorem burst_exceeded :
    ¬∀ (rate burst : ℕ → ℕ) (W : ℕ) (s₀ s : LimitSystem) (events : List LimitEvent),
      s₀.Initial → (∀ e ∈ events, e.OneBurst burst) → s₀.run rate W events = some s →
      ∀ z, ∀ lr ∈ (s.zones z).nodes, lr.excess ≤ burst z := by
  intro hall
  have hbad : ((unused.run (fun _ => 1000) 2 overlapping).any fun s =>
      (s.zones 0).nodes.any fun lr => 0 < lr.excess) = true := by decide
  obtain ⟨s, hs, hany⟩ := (Option.any_eq_true _ _).mp hbad
  obtain ⟨lr, hlr, hpos⟩ := List.any_eq_true.mp hany
  have hone : ∀ e ∈ overlapping, e.OneBurst twoBursts := by
    simp [overlapping, LimitEvent.OneBurst, twoLimits, twoBursts]
  have hle : lr.excess ≤ 0 :=
    hall _ twoBursts 2 unused s overlapping unused_initial hone hs 0 lr hlr
  exact absurd hle (not_le.mpr (of_decide_eq_true hpos))

/-- The same handlers, one after the other. -/
theorem burst_holds_alone_two :
    ∃ s, unused.run (fun _ => 1000) 2 [.start 0 (twoLimits 0) 2000, .step 0, .step 0, .step 0,
        .step 0, .start 1 (twoLimits 0) 3000, .step 1, .step 1, .step 1, .step 1] = some s ∧
      ∀ lr ∈ (s.zones 0).nodes, lr.excess ≤ 0 := by
  have hsome : (unused.run (fun _ => 1000) 2 [.start 0 (twoLimits 0) 2000, .step 0, .step 0,
      .step 0, .step 0, .start 1 (twoLimits 0) 3000, .step 1, .step 1, .step 1, .step 1]).isSome =
      true := by decide
  obtain ⟨s, hs⟩ := Option.isSome_iff_exists.mp hsome
  refine ⟨s, hs, burst_holds_alone _ twoBursts 2 unused s _ unused_initial ?_ ?_ hs 0⟩
  · simp [LimitEvent.OneBurst, twoLimits, twoBursts]
  · decide

end LimitSystem

end MultiversionBalancer.Http
