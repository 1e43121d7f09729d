import MultiversionBalancer.Http.LimitReqWorkers

/-!
# Rates

Handlers that run one after another.  What one handler does to a zone is a single change: it
leaves the zone alone, it looks up a key without charging it, or it charges the key once; a
request that is let through charges each of its keys.  The rate of the requests that are let
through follows from this, zone by zone.
-/

namespace MultiversionBalancer.Http

namespace LimitWorker

/-- A worker between two requests. -/
def ready : LimitWorker where
  phase := .idle .declined
  node := fun _ => none
  now := 0
  request := ⟨⟨[], List.nodup_nil, false⟩, false, fun _ => none, fun _ => (true, true)⟩
  pending := []

/-- The handler is run to its end, in at most `fuel` steps. -/
def finish (rate : ℕ → ℕ) : ℕ → LimitWorker → (ℕ → LimitZone) →
    Option (LimitOutcome × (ℕ → LimitZone))
  | 0, _, _ => none
  | fuel + 1, w, zones =>
    match w.phase with
    | .idle outcome => some (outcome, zones)
    | _ => do
      let (w, zones) ← w.step rate zones
      finish rate fuel w zones

end LimitWorker

def ngxHttpLimitReqHandler (rate : ℕ → ℕ) (zones : ℕ → LimitZone) (request : LimitRequest)
    (now : ℕ) : Option (LimitOutcome × (ℕ → LimitZone)) :=
  LimitWorker.finish rate (2 * request.location.limits.length + 3)
    (LimitWorker.ready.start request now) zones

namespace LimitZone

variable {z z' z'' : LimitZone} {rate burst : ℕ} {now : ℤ} {key : List UInt8}

/-- The key is charged with one request that is let through. -/
inductive Passes (rate burst : ℕ) (now : ℤ) (key : List UInt8) (z z' : LimitZone) : Prop
  | found (lr : LimitNode) (hlr : lr ∈ z.nodes) (hkey : lr.key = key)
      (hlevel : limitLevel rate now lr ≤ burst)
      (hperm : z'.nodes.Perm (z.modify lr.id (·.charge rate now)).nodes)
      (hfresh : z'.fresh = z.fresh)
  | created (nodes : List LimitNode) (excess : ℤ) (hkey : ∀ lr ∈ z.nodes, lr.key ≠ key)
      (hsub : nodes.Sublist z.nodes) (hpos : 0 ≤ excess)
      (hexcess : excess ≤ max 0 (1000 - limitDrain rate now))
      (hnodes : z'.nodes = ⟨z.fresh, key, now, excess, 0⟩ :: nodes)
      (hfresh : z'.fresh = z.fresh + 1)

/-- The key is looked up, and nothing is charged. -/
inductive Touches (key : List UInt8) (z z' : LimitZone) : Prop
  | same (hperm : z'.nodes.Perm z.nodes) (hfresh : z'.fresh = z.fresh)
  | created (nodes : List LimitNode) (hkey : ∀ lr ∈ z.nodes, lr.key ≠ key)
      (hsub : nodes.Sublist z.nodes) (hnodes : z'.nodes = ⟨z.fresh, key, 0, 0, 0⟩ :: nodes)
      (hfresh : z'.fresh = z.fresh + 1)
  | gone (hkey : ∀ lr ∈ z.nodes, lr.key ≠ key) (hsub : z'.nodes.Sublist z.nodes)
      (hfresh : z'.fresh = z.fresh)

theorem modify_modify (z : LimitZone) (id : ℕ) (f g : LimitNode → LimitNode)
    (hf : ∀ lr, (f lr).id = lr.id) : (z.modify id f).modify id g = z.modify id (g ∘ f) := by
  simp only [modify, List.map_map, LimitZone.mk.injEq, and_true]
  refine List.map_congr_left fun lr _ => ?_
  by_cases hid : lr.id = id
  · simp [hid, hf]
  · simp [hid]

theorem modify_id (z : LimitZone) (id : ℕ) {f : LimitNode → LimitNode} (hf : ∀ lr, f lr = lr) :
    z.modify id f = z := by
  have hmap : (fun lr : LimitNode => if lr.id = id then f lr else lr) = fun lr => lr := by
    funext lr
    simp [hf]
  rw [modify, hmap, List.map_id']

/-- The new node is the only one that changes. -/
theorem modify_create (hz : z.Numbered) (hkept : Kept z z') (key : List UInt8) (now : ℤ)
    (account : Bool) (f : LimitNode → LimitNode) :
    ((z'.create key now account).modify z.fresh f).nodes =
      f ⟨z.fresh, key, if account then now else 0, 0, if account then 0 else 1⟩ :: z'.nodes := by
  rw [create, modify]
  simp only [List.map_cons, hkept.fresh, if_true, List.cons.injEq, true_and]
  have hmap : z'.nodes.map (fun lr => if lr.id = z.fresh then f lr else lr) =
      z'.nodes.map fun lr => lr := by
    refine List.map_congr_left fun lr hlr => if_neg ?_
    exact (hz.lt lr (hkept.sub.subset hlr)).ne
  rw [hmap, List.map_id']

theorem limitMs_zero {now : ℤ} (h : 0 ≤ now) : limitMs now 0 = now := by
  rw [limitMs, sub_zero, if_neg (by omega), if_neg (by omega)]

theorem Looked.charge {e : ℤ} {id : ℕ}
    (h : Looked rate burst now key false z z' (.again, e, some id)) (hz : z.Numbered)
    (hnow : 0 ≤ now) :
    Passes rate burst now key z
      (z'.modify id fun lr => { lr.charge rate now with count := lr.count - 1 }) := by
  generalize hres : (LimitRc.again, e, some id) = result at h
  cases h with
  | busy => simp at hres
  | charged => simp at hres
  | held _ lr hlr hkey hlevel haccount hfresh hperm =>
    obtain rfl : id = lr.id := by simpa using (Prod.mk.inj (Prod.mk.inj hres).2).2
    refine .found lr hlr hkey hlevel ?_ hfresh
    refine (modify_perm hperm lr.id _).trans ?_
    rw [modify_modify]
    · have hfun : (fun lr : LimitNode => { lr.charge rate now with count := lr.count - 1 }) ∘
          (fun lr : LimitNode => { lr with count := lr.count + 1 }) =
          fun lr => lr.charge rate now := by
        funext lr
        simp [LimitNode.charge, limitLevel]
      rw [hfun]
    · exact fun _ => rfl
  | created z₁ hkey hkept =>
    obtain rfl : id = z.fresh := by simpa using (Prod.mk.inj (Prod.mk.inj hres).2).2
    refine .created z₁.nodes (limitLevel rate now ⟨z.fresh, key, 0, 0, 1⟩) hkey hkept.sub
      (le_max_left _ _) ?_ ?_ (congrArg (· + 1) hkept.fresh)
    · simp [limitLevel, limitMs_zero hnow, sub_eq_add_neg, add_comm]
    · rw [modify_create hz hkept]
      simp only [LimitNode.charge, limitMs_zero hnow, Bool.false_eq_true, if_false,
        List.cons.injEq, LimitNode.mk.injEq, and_true, true_and, sub_self]
      split_ifs with hne
      · rfl
      · exact (not_not.mp hne).symm
  | error => simp at hres

theorem Looked.release {e : ℤ} {id : ℕ}
    (h : Looked rate burst now key false z z' (.again, e, some id)) (hz : z.Numbered) :
    Touches key z (z'.modify id fun lr => { lr with count := lr.count - 1 }) := by
  generalize hres : (LimitRc.again, e, some id) = result at h
  cases h with
  | busy => simp at hres
  | charged => simp at hres
  | held _ lr hlr hkey hlevel haccount hfresh hperm =>
    obtain rfl : id = lr.id := by simpa using (Prod.mk.inj (Prod.mk.inj hres).2).2
    refine .same ?_ hfresh
    refine (modify_perm hperm lr.id _).trans ?_
    rw [modify_modify, modify_id]
    · simp
    · exact fun _ => rfl
  | created z₁ hkey hkept =>
    obtain rfl : id = z.fresh := by simpa using (Prod.mk.inj (Prod.mk.inj hres).2).2
    refine .created z₁.nodes hkey hkept.sub ?_ (congrArg (· + 1) hkept.fresh)
    rw [modify_create hz hkept]
    simp
  | error => simp at hres

theorem Looked.pass {account : Bool} {e : ℤ} {node : Option ℕ}
    (h : Looked rate burst now key account z z' (.ok, e, node)) :
    Passes rate burst now key z z' := by
  generalize hres : (LimitRc.ok, e, node) = result at h
  cases h with
  | busy => simp at hres
  | charged _ lr hlr hkey hlevel haccount hfresh hperm =>
    exact .found lr hlr hkey hlevel hperm hfresh
  | held => simp at hres
  | created z₁ hkey hkept =>
    cases account with
    | false => simp at hres
    | true =>
      refine .created z₁.nodes 0 hkey hkept.sub le_rfl (le_max_left _ _) ?_
        (congrArg (· + 1) hkept.fresh)
      rw [create, hkept.fresh]
      rfl
  | error => simp at hres

theorem Looked.touch {account : Bool} {rc : LimitRc} {e : ℤ} {node : Option ℕ}
    (h : Looked rate burst now key account z z' (rc, e, node)) (hagain : rc ≠ .again)
    (hok : rc ≠ .ok) : Touches key z z' := by
  generalize hres : (rc, e, node) = result at h
  cases h with
  | busy _ lr hlr hkey hlevel hfresh hperm => exact .same hperm hfresh
  | charged => simp [hok] at hres
  | held => simp [hagain] at hres
  | created z₁ hkey hkept => cases account <;> simp [hok, hagain] at hres
  | error _ hkey hkept => exact .gone hkey hkept.sub hkept.fresh

theorem Looked.account_eq_false {account : Bool} {result : LimitRc × ℤ × Option ℕ}
    (h : Looked rate burst now key account z z' result) (hrc : result.1 = .again) :
    account = false := by
  cases h with
  | busy => simp at hrc
  | charged => simp at hrc
  | held _ lr hlr hkey hlevel haccount hfresh hperm => exact haccount
  | created => cases account <;> simp_all
  | error => simp at hrc

theorem Looked.account_eq_true {account : Bool} {result : LimitRc × ℤ × Option ℕ}
    (h : Looked rate burst now key account z z' result) (hrc : result.1 = .ok) :
    account = true := by
  cases h with
  | busy => simp at hrc
  | charged _ lr hlr hkey hlevel haccount hfresh hperm => exact haccount
  | held => simp at hrc
  | created => cases account <;> simp_all
  | error => simp at hrc

end LimitZone

/-- The key of a request in a zone, if it is looked up. -/
def LimitRequest.keyFor (request : LimitRequest) (z : ℕ) : Option (List UInt8) :=
  (request.key z).filter fun key => ¬LimitWorker.skipped key

def LimitRequest.subject (request : LimitRequest) (z : ℕ) : Prop :=
  z ∈ request.location.limits.map Limit.zone ∧ request.keyFor z ≠ none

/-- The request is let through. -/
def LimitOutcome.through : LimitOutcome → Bool
  | .passed => true
  | .delayed _ _ _ => true
  | .delayedDryRun _ _ _ => true
  | _ => false

/-- A request that is handled, with the zones as they are before. -/
structure Handling where
  rate : ℕ → ℕ
  burst : ℕ → ℕ
  request : LimitRequest
  now : ℕ
  zones : ℕ → LimitZone
  numbered : ∀ z, (zones z).Numbered
  oneBurst : ∀ limit ∈ request.location.limits, limit.burst = burst limit.zone

namespace Handling

variable (h : Handling) {w w' : LimitWorker} {zones zones' : ℕ → LimitZone} {z : ℕ}

/-- The handler has not come to the zone. -/
def Untouched (w : LimitWorker) (zones : ℕ → LimitZone) (z : ℕ) : Prop :=
  zones z = h.zones z ∧ w.node z = none

/-- The handler holds a node of the zone. -/
def Held (w : LimitWorker) (zones : ℕ → LimitZone) (z : ℕ) : Prop :=
  ∃ key e id, h.request.keyFor z = some key ∧
    LimitZone.Looked (h.rate z) (h.burst z) h.now key false (h.zones z) (zones z)
      (.again, e, some id) ∧
    w.node z = some id

/-- The key of the request has been charged in the zone. -/
def Passed (w : LimitWorker) (zones : ℕ → LimitZone) (z : ℕ) : Prop :=
  (∃ key, h.request.keyFor z = some key ∧
    LimitZone.Passes (h.rate z) (h.burst z) h.now key (h.zones z) (zones z)) ∧
  w.node z = none

/-- The key of the request has been looked up in the zone and nothing has been charged. -/
def Touched (w : LimitWorker) (zones : ℕ → LimitZone) (z : ℕ) : Prop :=
  (∃ key, h.request.keyFor z = some key ∧ LimitZone.Touches key (h.zones z) (zones z)) ∧
  w.node z = none

/-- How the zones stand in each phase of the handler. -/
def Stands (w : LimitWorker) (zones : ℕ → LimitZone) : LimitPhase → Prop
  | .idle outcome =>
    (outcome.through = true → ∀ z, (¬h.request.subject z ∧ h.Untouched w zones z) ∨
      h.Passed w zones z) ∧
    (outcome.through = false → ∀ z, h.Untouched w zones z ∨ h.Touched w zones z)
  | .looking rest seen rc _ =>
    ((rest ++ seen).map Limit.zone).Nodup ∧ rest ⊆ h.request.location.limits ∧
    ∀ z, (h.Untouched w zones z ∧ (h.request.subject z → z ∈ rest.map Limit.zone)) ∨
      (h.Held w zones z ∧ z ∈ seen.map Limit.zone ∧ rc ≠ .declined)
  | .accounting seen _ _ _ =>
    ∀ z, (¬h.request.subject z ∧ h.Untouched w zones z) ∨
      (h.Held w zones z ∧ z ∈ seen.map Limit.zone) ∨ h.Passed w zones z
  | .unlocking seen outcome =>
    outcome.through = false ∧
    ∀ z, h.Untouched w zones z ∨ (h.Held w zones z ∧ z ∈ seen.map Limit.zone) ∨
      h.Touched w zones z

/-- The handler works on the request, and the zones stand as its phase says. -/
structure Track (w : LimitWorker) (zones : ℕ → LimitZone) : Prop where
  request : w.request = h.request
  now : w.now = h.now
  stands : h.Stands w zones w.phase

variable {h}

/-- A zone stands as before when neither it nor its node has changed. -/
theorem Untouched.congr (hz : h.Untouched w zones z) (hzone : zones' z = zones z)
    (hnode : w'.node z = w.node z) : h.Untouched w' zones' z :=
  ⟨hzone.trans hz.1, hnode.trans hz.2⟩

theorem Held.congr (hz : h.Held w zones z) (hzone : zones' z = zones z)
    (hnode : w'.node z = w.node z) : h.Held w' zones' z := by
  obtain ⟨key, e, id, hkey, hlooked, hid⟩ := hz
  refine ⟨key, e, id, hkey, ?_, hnode.trans hid⟩
  rw [hzone]
  exact hlooked

theorem Passed.congr (hz : h.Passed w zones z) (hzone : zones' z = zones z)
    (hnode : w'.node z = w.node z) : h.Passed w' zones' z := by
  rw [Passed, hzone, hnode]
  exact hz

theorem Touched.congr (hz : h.Touched w zones z) (hzone : zones' z = zones z)
    (hnode : w'.node z = w.node z) : h.Touched w' zones' z := by
  rw [Touched, hzone, hnode]
  exact hz

theorem Track.start : h.Track (LimitWorker.ready.start h.request h.now) h.zones where
  request := rfl
  now := rfl
  stands := by
    rw [LimitWorker.start]
    dsimp only
    split_ifs
    · exact ⟨by simp [LimitOutcome.through], fun _ z => .inl ⟨rfl, rfl⟩⟩
    · refine ⟨?_, List.Subset.refl _, fun z => .inl ⟨⟨rfl, rfl⟩, fun hsubject => hsubject.1⟩⟩
      rw [List.append_nil]
      exact h.request.location.distinct

theorem keyFor_eq_some {request : LimitRequest} {key : List UInt8}
    (hkey : request.key z = some key) (hskip : ¬LimitWorker.skipped key) :
    request.keyFor z = some key := by
  rw [LimitRequest.keyFor, hkey]
  simp [hskip]

theorem keyFor_eq_none {request : LimitRequest} {key : List UInt8}
    (hkey : request.key z = some key) (hskip : LimitWorker.skipped key) :
    request.keyFor z = none := by
  rw [LimitRequest.keyFor, hkey]
  simp [hskip]

theorem clear_node_of_ne {y : ℕ} (hz : z ≠ y) (id : ℕ) : (w.clear y id).node z = w.node z :=
  Function.update_of_ne hz _ _

theorem Held.of_node (hz : h.Held w zones z) {id : ℕ} (hid : w.node z = some id) :
    ∃ key e, h.request.keyFor z = some key ∧
      LimitZone.Looked (h.rate z) (h.burst z) h.now key false (h.zones z) (zones z)
        (.again, e, some id) := by
  obtain ⟨key, e, id', hkey, hlooked, hid'⟩ := hz
  obtain rfl : id = id' := Option.some.inj (hid.symm.trans hid')
  exact ⟨key, e, hkey, hlooked⟩

theorem Held.node_ne (hz : h.Held w zones z) : w.node z ≠ none := by
  obtain ⟨key, e, id, hkey, hlooked, hid⟩ := hz
  simp [hid]

/-- One charge. -/
theorem Track.account (ht : h.Track w zones) {limit : Limit} {seen : List Limit}
    {maxDelay excess : ℤ} {longest : Option Limit}
    (hphase : w.phase = .accounting (limit :: seen) maxDelay excess longest)
    (hstep : w.accountStep h.rate zones limit seen maxDelay excess longest = some (w', zones')) :
    h.Track w' zones' := by
  have hstands := ht.stands
  rw [hphase] at hstands
  rw [LimitWorker.accountStep] at hstep
  cases hnode : w.node limit.zone with
  | none =>
    rw [hnode] at hstep
    obtain ⟨rfl, rfl⟩ := Prod.mk.inj (Option.some.inj hstep)
    refine ⟨ht.request, ht.now, fun z => ?_⟩
    obtain hz | ⟨hheld, hmem⟩ | hz := hstands z
    · exact .inl hz
    · refine .inr (.inl ⟨hheld, ?_⟩)
      rw [List.map_cons, List.mem_cons] at hmem
      refine hmem.resolve_left ?_
      rintro rfl
      exact hheld.node_ne hnode
    · exact .inr (.inr hz)
  | some id =>
    simp only [hnode, Option.bind_eq_bind, Option.bind_eq_some_iff, Option.some.injEq,
      Prod.mk.injEq] at hstep
    obtain ⟨lr, hget, rfl, rfl⟩ := hstep
    have hheld : h.Held w zones limit.zone := by
      obtain ⟨-, hz⟩ | ⟨hheld, -⟩ | hz := hstands limit.zone
      · simp [hz.2] at hnode
      · exact hheld
      · simp [hz.2] at hnode
    obtain ⟨key, e, hkey, hlooked⟩ := hheld.of_node hnode
    generalize hzones' : Function.update zones limit.zone _ = zones'
    -- the charge turns a held node into one that has passed
    have hzones : h.Stands (w.clear limit.zone id) zones'
        (.accounting seen maxDelay excess longest) := by
      intro z
      by_cases hz : z = limit.zone
      · subst hz
        refine .inr (.inr ⟨⟨key, hkey, ?_⟩, Function.update_self _ _ _⟩)
        rw [← hzones', Function.update_self, ht.now]
        exact hlooked.charge (h.numbered _) (Int.natCast_nonneg _)
      · have hzone : zones' z = zones z := by
          rw [← hzones', Function.update_of_ne hz]
        obtain ⟨hsubject, hun⟩ | ⟨hheld', hmem⟩ | hpassed := hstands z
        · exact .inl ⟨hsubject, hun.congr hzone (clear_node_of_ne hz id)⟩
        · refine .inr (.inl ⟨hheld'.congr hzone (clear_node_of_ne hz id), ?_⟩)
          rw [List.map_cons, List.mem_cons] at hmem
          exact hmem.resolve_left hz
        · exact .inr (.inr (hpassed.congr hzone (clear_node_of_ne hz id)))
    refine ⟨ht.request, ht.now, ?_⟩
    dsimp only
    split_ifs
    · exact hzones
    · exact hzones

/-- One release. -/
theorem Track.unlock (ht : h.Track w zones) {limit : Limit} {seen : List Limit}
    {outcome : LimitOutcome} (hphase : w.phase = .unlocking (limit :: seen) outcome)
    (hstep : w.unlockStep zones limit seen outcome = some (w', zones')) :
    h.Track w' zones' := by
  have hstands := ht.stands
  rw [hphase] at hstands
  obtain ⟨hthrough, hstands⟩ := hstands
  rw [LimitWorker.unlockStep] at hstep
  cases hnode : w.node limit.zone with
  | none =>
    rw [hnode] at hstep
    obtain ⟨rfl, rfl⟩ := Prod.mk.inj (Option.some.inj hstep)
    refine ⟨ht.request, ht.now, hthrough, fun z => ?_⟩
    obtain hz | ⟨hheld, hmem⟩ | hz := hstands z
    · exact .inl hz
    · refine .inr (.inl ⟨hheld, ?_⟩)
      rw [List.map_cons, List.mem_cons] at hmem
      refine hmem.resolve_left ?_
      rintro rfl
      exact hheld.node_ne hnode
    · exact .inr (.inr hz)
  | some id =>
    simp only [hnode, Option.bind_eq_bind, Option.bind_eq_some_iff, Option.some.injEq,
      Prod.mk.injEq] at hstep
    obtain ⟨lr, hget, rfl, rfl⟩ := hstep
    have hheld : h.Held w zones limit.zone := by
      obtain hz | ⟨hheld, -⟩ | hz := hstands limit.zone
      · simp [hz.2] at hnode
      · exact hheld
      · simp [hz.2] at hnode
    obtain ⟨key, e, hkey, hlooked⟩ := hheld.of_node hnode
    refine ⟨ht.request, ht.now, hthrough, fun z => ?_⟩
    by_cases hz : z = limit.zone
    · subst hz
      refine .inr (.inr ⟨⟨key, hkey, ?_⟩, Function.update_self _ _ _⟩)
      rw [Function.update_self]
      exact hlooked.release (h.numbered _)
    · have hzone := Function.update_of_ne hz ((zones limit.zone).modify id fun lr =>
        { lr with count := lr.count - 1 }) zones
      obtain hun | ⟨hheld', hmem⟩ | htouched := hstands z
      · exact .inl (hun.congr hzone (clear_node_of_ne hz id))
      · refine .inr (.inl ⟨hheld'.congr hzone (clear_node_of_ne hz id), ?_⟩)
        rw [List.map_cons, List.mem_cons] at hmem
        exact hmem.resolve_left hz
      · exact .inr (.inr (htouched.congr hzone (clear_node_of_ne hz id)))

theorem Track.afterLookup (ht : h.Track w zones) {limit : Limit} {rest seen : List Limit}
    {rc : LimitRc} {key : List UInt8} {zone : LimitZone} {result : LimitRc × ℤ × Option ℕ}
    (hnone : w.node limit.zone = none) (hkey : h.request.keyFor limit.zone = some key)
    (hnodup : ((rest ++ limit :: seen).map Limit.zone).Nodup)
    (hsub : rest ⊆ h.request.location.limits)
    (hothers : ∀ z ≠ limit.zone,
      (h.Untouched w zones z ∧ (h.request.subject z → z ∈ rest.map Limit.zone)) ∨
        (h.Held w zones z ∧ z ∈ seen.map Limit.zone ∧ rc ≠ .declined))
    (hlooked : LimitZone.Looked (h.rate limit.zone) (h.burst limit.zone) h.now key rest.isEmpty
      (h.zones limit.zone) zone result) :
    h.Track (w.afterLookup h.rate limit rest seen result)
      (Function.update zones limit.zone zone) := by
  have hzone (z : ℕ) (hz : z ≠ limit.zone) :
      Function.update zones limit.zone zone z = zones z := Function.update_of_ne hz _ _
  obtain ⟨rc', e, node⟩ := result
  -- a refused lookup
  have hrefused (hagain : rc' ≠ .again) (hok : rc' ≠ .ok) (outcome : LimitOutcome)
      (hthrough : outcome.through = false) :
      h.Stands w (Function.update zones limit.zone zone) (.unlocking seen outcome) := by
    refine ⟨hthrough, fun z => ?_⟩
    by_cases hz : z = limit.zone
    · subst hz
      refine .inr (.inr ⟨⟨key, hkey, ?_⟩, hnone⟩)
      rw [Function.update_self]
      exact hlooked.touch hagain hok
    · obtain ⟨hun, -⟩ | ⟨hheld, hseen, -⟩ := hothers z hz
      · exact .inl (hun.congr (hzone z hz) rfl)
      · exact .inr (.inl ⟨hheld.congr (hzone z hz) rfl, hseen⟩)
  have hrejects : (if w.request.location.dryRun then LimitOutcome.rejectedDryRun
      else .rejected).through = false := by
    split_ifs <;> rfl
  cases rc' with
  | again =>
    refine ⟨ht.request, ht.now, hnodup, hsub, fun z => ?_⟩
    obtain ⟨id, rfl⟩ := Option.ne_none_iff_exists'.mp (hlooked.node_iff.mp rfl)
    by_cases hz : z = limit.zone
    · subst hz
      have hfalse : rest.isEmpty = false := hlooked.account_eq_false rfl
      rw [hfalse] at hlooked
      refine .inr ⟨⟨key, e, id, hkey, ?_, Function.update_self _ _ _⟩, List.mem_cons_self, by simp⟩
      rw [Function.update_self]
      exact hlooked
    · have hnode : Function.update w.node limit.zone (some id) z = w.node z :=
        Function.update_of_ne hz _ _
      obtain ⟨hun, hsubject⟩ | ⟨hheld, hseen, hrc⟩ := hothers z hz
      · exact .inl ⟨hun.congr (hzone z hz) hnode, hsubject⟩
      · exact .inr ⟨hheld.congr (hzone z hz) hnode, List.mem_cons_of_mem _ hseen, by simp⟩
  | ok =>
    have htrue : rest = [] := by
      have hempty : rest.isEmpty = true := hlooked.account_eq_true rfl
      simpa using hempty
    subst htrue
    refine ⟨ht.request, ht.now, fun z => ?_⟩
    by_cases hz : z = limit.zone
    · subst hz
      refine .inr (.inr ⟨⟨key, hkey, ?_⟩, hnone⟩)
      rw [Function.update_self]
      exact hlooked.pass
    · obtain ⟨hun, hsubject⟩ | ⟨hheld, hseen, -⟩ := hothers z hz
      · exact .inl ⟨fun hs => absurd (hsubject hs) (by simp), hun.congr (hzone z hz) rfl⟩
      · exact .inr (.inl ⟨hheld.congr (hzone z hz) rfl, hseen⟩)
  | declined => exact ⟨ht.request, ht.now, hrefused (by simp) (by simp) _ hrejects⟩
  | busy => exact ⟨ht.request, ht.now, hrefused (by simp) (by simp) _ hrejects⟩
  | error => exact ⟨ht.request, ht.now, hrefused (by simp) (by simp) _ hrejects⟩

theorem Track.look (ht : h.Track w zones) {limit : Limit} {rest seen : List Limit} {rc : LimitRc}
    {cur : Option Limit} (hphase : w.phase = .looking (limit :: rest) seen rc cur) :
    h.Track (w.lookStep h.rate zones limit rest seen rc).1
      (w.lookStep h.rate zones limit rest seen rc).2 := by
  have hstands := ht.stands
  rw [hphase] at hstands
  obtain ⟨hnodup, hsub, hstands⟩ := hstands
  have hnodup' : ((rest ++ limit :: seen).map Limit.zone).Nodup :=
    ((List.perm_middle.map Limit.zone).nodup_iff).mpr hnodup
  have hmem : limit ∈ h.request.location.limits := hsub List.mem_cons_self
  have hsub' : rest ⊆ h.request.location.limits := fun x hx => hsub (List.mem_cons_of_mem _ hx)
  have hun : h.Untouched w zones limit.zone := by
    obtain ⟨hz, -⟩ | ⟨-, hseen, -⟩ := hstands limit.zone
    · exact hz
    · rw [List.cons_append, List.map_cons, List.nodup_cons, List.map_append,
        List.mem_append] at hnodup
      exact absurd (.inr hseen) hnodup.1
  -- the zones of the other limits stand as before
  have hothers (z : ℕ) (hz : z ≠ limit.zone) :
      (h.Untouched w zones z ∧ (h.request.subject z → z ∈ rest.map Limit.zone)) ∨
        (h.Held w zones z ∧ z ∈ seen.map Limit.zone ∧ rc ≠ .declined) := by
    obtain ⟨hun, hsubject⟩ | hheld := hstands z
    · refine .inl ⟨hun, fun hs => ?_⟩
      have hin := hsubject hs
      rw [List.map_cons, List.mem_cons] at hin
      exact hin.resolve_left hz
    · exact .inr hheld
  rw [LimitWorker.lookStep]
  cases hkey : w.request.key limit.zone with
  | none =>
    refine ⟨ht.request, ht.now, rfl, fun z => ?_⟩
    obtain ⟨hun, -⟩ | ⟨hheld, hseen, -⟩ := hstands z
    · exact .inl hun
    · exact .inr (.inl ⟨hheld, hseen⟩)
  | some key =>
    rw [ht.request] at hkey
    dsimp only
    split_ifs with hskip
    · refine ⟨ht.request, ht.now, hnodup', hsub', fun z => ?_⟩
      by_cases hz : z = limit.zone
      · subst hz
        exact .inl ⟨hun, fun hs => absurd (keyFor_eq_none hkey hskip) hs.2⟩
      · obtain hz' | ⟨hheld, hseen, hrc⟩ := hothers z hz
        · exact .inl hz'
        · exact .inr ⟨hheld, List.mem_cons_of_mem _ hseen, hrc⟩
    · have hlooked := (h.numbered limit.zone).looked (h.rate limit.zone) limit.burst w.now
        (w.request.alloc limit.zone) key rest.isEmpty
      rw [hun.1]
      generalize (h.zones limit.zone).ngxHttpLimitReqLookup (h.rate limit.zone) limit.burst
        w.now (w.request.alloc limit.zone) key rest.isEmpty = found at hlooked ⊢
      obtain ⟨zone, result⟩ := found
      rw [h.oneBurst limit hmem, ht.now] at hlooked
      exact ht.afterLookup hun.2 (keyFor_eq_some hkey hskip) hnodup' hsub' hothers hlooked

/-- The end of a handler's step leaves the zones as they stand. -/
theorem Track.step (ht : h.Track w zones) (hstep : w.step h.rate zones = some (w', zones')) :
    h.Track w' zones' := by
  have hstands := ht.stands
  rw [LimitWorker.step] at hstep
  cases hphase : w.phase with
  | idle outcome => simp [hphase] at hstep
  | looking rest seen rc cur =>
    cases rest with
    | nil =>
      rw [hphase] at hstep hstands
      obtain ⟨-, -, hstands⟩ := hstands
      dsimp only at hstep
      split_ifs at hstep with hrc
      · obtain ⟨rfl, rfl⟩ := Prod.mk.inj (Option.some.inj hstep)
        refine ⟨ht.request, ht.now, by simp [LimitOutcome.through], fun _ z => ?_⟩
        obtain ⟨hun, -⟩ | ⟨-, -, hne⟩ := hstands z
        · exact .inl hun
        · exact absurd hrc hne
      · obtain ⟨rfl, rfl⟩ := Prod.mk.inj (Option.some.inj hstep)
        refine ⟨ht.request, ht.now, fun z => ?_⟩
        obtain ⟨hun, hsubject⟩ | ⟨hheld, hseen, -⟩ := hstands z
        · exact .inl ⟨fun hs => absurd (hsubject hs) (by simp), hun⟩
        · exact .inr (.inl ⟨hheld, hseen⟩)
    | cons limit rest =>
      rw [hphase] at hstep
      have hlook := ht.look hphase
      rw [Option.some.inj hstep] at hlook
      exact hlook
  | accounting seen maxDelay excess longest =>
    cases seen with
    | nil =>
      rw [hphase] at hstep hstands
      obtain ⟨rfl, rfl⟩ := Prod.mk.inj (Option.some.inj hstep)
      have hthrough : (letThrough w.request.location.dryRun maxDelay excess longest).through =
          true := by
        rw [letThrough]
        split_ifs <;> rfl
      refine ⟨ht.request, ht.now, fun _ z => ?_, fun hfalse => ?_⟩
      · obtain hun | ⟨-, hseen⟩ | hpassed := hstands z
        · exact .inl hun
        · simp at hseen
        · exact .inr hpassed
      · rw [hthrough] at hfalse
        simp at hfalse
    | cons limit seen =>
      rw [hphase] at hstep
      exact ht.account hphase hstep
  | unlocking seen outcome =>
    cases seen with
    | nil =>
      rw [hphase] at hstep hstands
      obtain ⟨hthrough, hstands⟩ := hstands
      obtain ⟨rfl, rfl⟩ := Prod.mk.inj (Option.some.inj hstep)
      refine ⟨ht.request, ht.now, fun htrue => ?_, fun _ z => ?_⟩
      · rw [hthrough] at htrue
        simp at htrue
      · obtain hun | ⟨-, hseen⟩ | htouched := hstands z
        · exact .inl hun
        · simp at hseen
        · exact .inr htouched
    | cons limit seen =>
      rw [hphase] at hstep
      exact ht.unlock hphase hstep

end Handling

/-- A bound on the steps that are left. -/
def LimitPhase.left : LimitPhase → ℕ
  | .idle _ => 1
  | .looking rest seen _ _ => 2 * rest.length + seen.length + 3
  | .accounting seen _ _ _ => seen.length + 2
  | .unlocking seen _ => seen.length + 2

namespace LimitWorker

variable {w w' : LimitWorker} {zones zones' : ℕ → LimitZone} {rate : ℕ → ℕ}

theorem afterLookup_left (limit : Limit) (rest seen : List Limit)
    (result : LimitRc × ℤ × Option ℕ) :
    (w.afterLookup rate limit rest seen result).phase.left ≤
      2 * rest.length + seen.length + 4 := by
  obtain ⟨rc, excess, node⟩ := result
  cases rc with
  | again => simp [afterLookup, LimitPhase.left]; omega
  | ok => simp [afterLookup, startAccount, LimitPhase.left]; omega
  | declined => simp [afterLookup, LimitPhase.left]; omega
  | busy => simp [afterLookup, LimitPhase.left]; omega
  | error => simp [afterLookup, LimitPhase.left]; omega

theorem step_left (hstep : w.step rate zones = some (w', zones')) :
    w'.phase.left < w.phase.left := by
  rw [step] at hstep
  cases hphase : w.phase with
  | idle outcome => simp [hphase] at hstep
  | looking rest seen rc cur =>
    rw [hphase] at hstep
    cases rest with
    | nil =>
      dsimp only at hstep
      split_ifs at hstep
      · obtain ⟨rfl, rfl⟩ := Prod.mk.inj (Option.some.inj hstep)
        simp [LimitPhase.left]
      · obtain ⟨rfl, rfl⟩ := Prod.mk.inj (Option.some.inj hstep)
        simp [LimitPhase.left, startAccount]
    | cons limit rest =>
      have hlook := Option.some.inj hstep
      rw [lookStep] at hlook
      simp only [LimitPhase.left, List.length_cons]
      split at hlook
      · obtain ⟨rfl, rfl⟩ := Prod.mk.inj hlook
        dsimp only
        omega
      · split_ifs at hlook
        · obtain ⟨rfl, rfl⟩ := Prod.mk.inj hlook
          simp
          omega
        · obtain ⟨rfl, rfl⟩ := Prod.mk.inj hlook
          exact Nat.lt_of_le_of_lt (afterLookup_left limit rest seen _) (by omega)
  | accounting seen maxDelay excess longest =>
    rw [hphase] at hstep
    cases seen with
    | nil =>
      obtain ⟨rfl, rfl⟩ := Prod.mk.inj (Option.some.inj hstep)
      simp [LimitPhase.left]
    | cons limit seen =>
      dsimp only at hstep
      rw [accountStep] at hstep
      simp only [LimitPhase.left, List.length_cons]
      split at hstep
      · obtain ⟨rfl, rfl⟩ := Prod.mk.inj (Option.some.inj hstep)
        simp
      · simp only [Option.bind_eq_bind, Option.bind_eq_some_iff, Option.some.injEq,
          Prod.mk.injEq] at hstep
        obtain ⟨lr, -, rfl, -⟩ := hstep
        dsimp only
        split_ifs <;> simp
  | unlocking seen outcome =>
    rw [hphase] at hstep
    cases seen with
    | nil =>
      obtain ⟨rfl, rfl⟩ := Prod.mk.inj (Option.some.inj hstep)
      simp [LimitPhase.left]
    | cons limit seen =>
      dsimp only at hstep
      rw [unlockStep] at hstep
      simp only [LimitPhase.left, List.length_cons]
      split at hstep
      · obtain ⟨rfl, rfl⟩ := Prod.mk.inj (Option.some.inj hstep)
        simp
      · simp only [Option.bind_eq_bind, Option.bind_eq_some_iff, Option.some.injEq,
          Prod.mk.injEq] at hstep
        obtain ⟨lr, -, rfl, -⟩ := hstep
        simp

end LimitWorker

namespace Handling

variable {h : Handling} {w w' : LimitWorker} {zones zones' : ℕ → LimitZone} {z : ℕ}

/-- The node that the handler holds is there. -/
theorem Held.get (hz : h.Held w zones z) {id : ℕ} (hid : w.node z = some id) :
    ∃ lr, (zones z).get id = some lr := by
  obtain ⟨key, e, -, hlooked⟩ := hz.of_node hid
  exact LimitZone.exists_get ((hlooked.shift (h.numbered z)).held id (by simp))

theorem Track.progress (ht : h.Track w zones) (hbusy : ∀ outcome, w.phase ≠ .idle outcome) :
    ∃ r, w.step h.rate zones = some r := by
  have hstands := ht.stands
  rw [LimitWorker.step]
  cases hphase : w.phase with
  | idle outcome => exact absurd hphase (hbusy outcome)
  | looking rest seen rc cur =>
    cases rest with
    | nil =>
      dsimp only
      split_ifs
      · exact ⟨_, rfl⟩
      · exact ⟨_, rfl⟩
    | cons limit rest => exact ⟨_, rfl⟩
  | accounting seen maxDelay excess longest =>
    rw [hphase] at hstands
    cases seen with
    | nil => exact ⟨_, rfl⟩
    | cons limit seen =>
      dsimp only
      rw [LimitWorker.accountStep]
      cases hnode : w.node limit.zone with
      | none => exact ⟨_, rfl⟩
      | some id =>
        obtain ⟨-, hun⟩ | ⟨hheld, -⟩ | hpassed := hstands limit.zone
        · simp [hun.2] at hnode
        · obtain ⟨lr, hlr⟩ := hheld.get hnode
          simp [hlr]
        · simp [hpassed.2] at hnode
  | unlocking seen outcome =>
    rw [hphase] at hstands
    cases seen with
    | nil => exact ⟨_, rfl⟩
    | cons limit seen =>
      dsimp only
      rw [LimitWorker.unlockStep]
      cases hnode : w.node limit.zone with
      | none => exact ⟨_, rfl⟩
      | some id =>
        obtain hun | ⟨hheld, -⟩ | htouched := hstands.2 limit.zone
        · simp [hun.2] at hnode
        · obtain ⟨lr, hlr⟩ := hheld.get hnode
          simp [hlr]
        · simp [htouched.2] at hnode

/-- A handler comes to its end. -/
theorem Track.finish (ht : h.Track w zones) {fuel : ℕ} (hfuel : w.phase.left ≤ fuel) :
    ∃ w' outcome zones', w.finish h.rate fuel zones = some (outcome, zones') ∧
      h.Track w' zones' ∧ w'.phase = .idle outcome := by
  induction fuel generalizing w zones with
  | zero =>
    have hpos : 0 < w.phase.left := by
      cases w.phase <;> simp [LimitPhase.left]
    omega
  | succ fuel ih =>
    by_cases hidle : ∃ outcome, w.phase = .idle outcome
    · obtain ⟨outcome, hphase⟩ := hidle
      refine ⟨w, outcome, zones, ?_, ht, hphase⟩
      rw [LimitWorker.finish, hphase]
    · have hbusy : ∀ outcome, w.phase ≠ .idle outcome := fun o ho => hidle ⟨o, ho⟩
      obtain ⟨⟨w₁, zones₁⟩, hstep⟩ := ht.progress hbusy
      have hleft := LimitWorker.step_left hstep
      obtain ⟨w', outcome, zones', hfinish, ht', hphase⟩ := ih (ht.step hstep) (by omega)
      refine ⟨w', outcome, zones', ?_, ht', hphase⟩
      rw [LimitWorker.finish]
      split
      · rename_i o ho
        exact absurd ho (hbusy o)
      · simp only [hstep, Option.bind_eq_bind, Option.bind_some]
        exact hfinish

end Handling

/-- What a request does to the zones: when it is let through, it charges its key in each zone
it is subject to, and else no key is charged. -/
theorem handler_spec (h : Handling) :
    ∃ outcome zones, ngxHttpLimitReqHandler h.rate h.zones h.request h.now =
        some (outcome, zones) ∧
      (outcome.through = true → ∀ z, (¬h.request.subject z ∧ zones z = h.zones z) ∨
        ∃ key, h.request.keyFor z = some key ∧
          LimitZone.Passes (h.rate z) (h.burst z) h.now key (h.zones z) (zones z)) ∧
      (outcome.through = false → ∀ z, zones z = h.zones z ∨
        ∃ key, h.request.keyFor z = some key ∧ LimitZone.Touches key (h.zones z) (zones z)) := by
  have hleft : (LimitWorker.ready.start h.request h.now).phase.left ≤
      2 * h.request.location.limits.length + 3 := by
    rw [LimitWorker.start]
    dsimp only
    split_ifs <;> simp [LimitPhase.left]
  obtain ⟨w, outcome, zones, hfinish, ht, hphase⟩ :=
    (Handling.Track.start (h := h)).finish hleft
  have hstands := ht.stands
  rw [hphase] at hstands
  refine ⟨outcome, zones, hfinish, fun htrue z => ?_, fun hfalse z => ?_⟩
  · obtain ⟨hsubject, hun⟩ | hpassed := hstands.1 htrue z
    · exact .inl ⟨hsubject, hun.1⟩
    · exact .inr hpassed.1
  · obtain hun | htouched := hstands.2 hfalse z
    · exact .inl hun.1
    · exact .inr htouched.1

end MultiversionBalancer.Http
