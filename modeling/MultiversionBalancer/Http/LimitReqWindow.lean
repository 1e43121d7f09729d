import MultiversionBalancer.Http.LimitReqRate
import Mathlib.Tactic.Linarith

/-!
# Requests in a window of time

Requests that are handled one after another, with a clock that does not go back.  The level
of a key says how many of its requests have been let through; a node that is idle for a
minute and empty is forgotten, and the next request of its key is free again.  So in a window
of time at most one request comes on top of what the burst and the rate allow, and one more
for each time the node of the key has been deleted as idle.
-/

namespace MultiversionBalancer.Http

/-- A request that has been handled, with the zones before and after. -/
structure LimitServed where
  request : LimitRequest
  now : ℕ
  outcome : LimitOutcome
  before : ℕ → LimitZone
  after : ℕ → LimitZone

/-- The requests are handled one after another. -/
def serveLimits (rate : ℕ → ℕ) : (ℕ → LimitZone) → List (LimitRequest × ℕ) →
    Option (List LimitServed)
  | _, [] => some []
  | zones, (request, now) :: arrivals => do
    let (outcome, after) ← ngxHttpLimitReqHandler rate zones request now
    let served ← serveLimits rate after arrivals
    pure (⟨request, now, outcome, zones, after⟩ :: served)

/-- The node may be deleted as idle: a minute has passed and its level is down. -/
def LimitNode.idle (rate : ℕ) (now : ℤ) (lr : LimitNode) : Prop :=
  60000 ≤ |now - lr.last| ∧ lr.excess - limitDrain rate |now - lr.last| ≤ 0

namespace LimitServed

/-- No node has been evicted by force: what is gone was idle. -/
def Unforced (rate : ℕ → ℕ) (x : LimitServed) : Prop :=
  ∀ z, ∀ lr ∈ (x.before z).nodes, (∀ lr' ∈ (x.after z).nodes, lr'.id ≠ lr.id) →
    lr.idle (rate z) x.now

/-- The request has been let through under a limit with the zone `z`, with this key. -/
def admits (z : ℕ) (key : List UInt8) (x : LimitServed) : Bool :=
  x.outcome.through && decide (z ∈ x.request.location.limits.map Limit.zone) &&
    x.request.keyFor z == some key

/-- The node of the key in the zone `z` has been deleted while the request was handled. -/
def expires (z : ℕ) (key : List UInt8) (x : LimitServed) : Bool :=
  (x.before z).nodes.any fun lr => lr.key == key && (x.after z).nodes.all (·.id != lr.id)

/-- The request comes within `T` milliseconds from `t` on. -/
def within (t T : ℕ) (x : LimitServed) : Bool :=
  decide (t ≤ x.now ∧ x.now ≤ t + T)

end LimitServed

/-! ## Arithmetic of levels -/

theorem limitDrain_le (rate : ℕ) {ms : ℤ} (h : 0 ≤ ms) : limitDrain rate ms ≤ rate * ms / 1000 := by
  have hpos : 0 ≤ (rate : ℤ) * ms := Int.mul_nonneg (Int.natCast_nonneg _) h
  rw [limitDrain]
  omega

theorem limitDrain_nonneg (rate : ℕ) (ms : ℤ) : 0 ≤ limitDrain rate ms := by
  rw [limitDrain]
  omega

/-- What drains in two parts of a time does not exceed what drains in all of it. -/
theorem drain_add_le (rate : ℕ) {t a b : ℤ} :
    rate * (a - t) / 1000 + rate * (b - a) / 1000 ≤ (rate * (b - t) / 1000 : ℤ) := by
  have hsum : (rate : ℤ) * (a - t) + rate * (b - a) = rate * (b - t) := by ring
  omega

theorem drain_mono (rate : ℕ) {t a b : ℤ} (h : a ≤ b) :
    (rate * (a - t) / 1000 : ℤ) ≤ rate * (b - t) / 1000 := by
  have hle : (rate : ℤ) * (a - t) ≤ rate * (b - t) :=
    Int.mul_le_mul_of_nonneg_left (by omega) (Int.natCast_nonneg _)
  exact Int.ediv_le_ediv (by omega) hle

theorem limitMs_of_le {now last : ℤ} (h : last ≤ now) : limitMs now last = now - last := by
  rw [limitMs, if_neg (by omega), if_neg (by omega)]

theorem charge_last (rate : ℕ) {now : ℤ} {lr : LimitNode} (h : lr.last ≤ now) :
    (lr.charge rate now).last = now := by
  rw [LimitNode.charge, limitMs_of_le h]
  dsimp only
  split_ifs
  · rfl
  · omega

/-- A charge adds a request, and takes off what has drained. -/
theorem le_charge_excess (rate : ℕ) {now : ℤ} {lr : LimitNode} (h : lr.last ≤ now) :
    lr.excess - rate * (now - lr.last) / 1000 + 1000 ≤ (lr.charge rate now).excess := by
  have hdrain := limitDrain_le rate (sub_nonneg.mpr h)
  have hmax := le_max_right 0 (lr.excess - limitDrain rate (limitMs now lr.last) + 1000)
  rw [limitMs_of_le h] at hmax
  have hcharge : (lr.charge rate now).excess =
      max 0 (lr.excess - limitDrain rate (now - lr.last) + 1000) := by
    rw [LimitNode.charge, limitLevel, limitMs_of_le h]
  omega

/-! ## One zone -/

namespace LimitZone

variable {z z' : LimitZone} {rate burst : ℕ} {now c b : ℤ} {key : List UInt8}

/-- The nodes of a zone have keys and numbers of their own, levels up to `b` and times up to
`c`. -/
structure Sane (b c : ℤ) (z : LimitZone) : Prop where
  numbered : z.Numbered
  keys : (z.nodes.map LimitNode.key).Nodup
  level : ∀ lr ∈ z.nodes, 0 ≤ lr.excess ∧ lr.excess ≤ b
  time : ∀ lr ∈ z.nodes, 0 ≤ lr.last ∧ lr.last ≤ c

theorem Sane.mono (h : z.Sane b c) (hc : c ≤ now) : z.Sane b now where
  numbered := h.numbered
  keys := h.keys
  level := h.level
  time lr hlr := ⟨(h.time lr hlr).1, (h.time lr hlr).2.trans hc⟩

theorem Sane.perm (h : z.Sane b c) (hperm : z'.nodes.Perm z.nodes) (hfresh : z'.fresh = z.fresh) :
    z'.Sane b c where
  numbered := h.numbered.perm hfresh hperm
  keys := ((hperm.map LimitNode.key).nodup_iff).mpr h.keys
  level lr hlr := h.level lr (hperm.mem_iff.mp hlr)
  time lr hlr := h.time lr (hperm.mem_iff.mp hlr)

theorem Sane.sublist (h : z.Sane b c) (hsub : z'.nodes.Sublist z.nodes)
    (hfresh : z'.fresh = z.fresh) : z'.Sane b c where
  numbered := ⟨(hsub.map LimitNode.id).nodup h.numbered.ids, fun lr hlr => by
    rw [hfresh]
    exact h.numbered.lt lr (hsub.subset hlr)⟩
  keys := (hsub.map LimitNode.key).nodup h.keys
  level lr hlr := h.level lr (hsub.subset hlr)
  time lr hlr := h.time lr (hsub.subset hlr)

/-- A node with a new key comes in. -/
theorem Sane.create (h : z.Sane b c) {nodes : List LimitNode} {lr₀ : LimitNode}
    (hsub : nodes.Sublist z.nodes) (hkey : ∀ lr ∈ z.nodes, lr.key ≠ lr₀.key)
    (hid : lr₀.id = z.fresh) (hlevel : 0 ≤ lr₀.excess ∧ lr₀.excess ≤ b)
    (htime : 0 ≤ lr₀.last ∧ lr₀.last ≤ c) (hnodes : z'.nodes = lr₀ :: nodes)
    (hfresh : z'.fresh = z.fresh + 1) : z'.Sane b c where
  numbered := by
    refine ⟨?_, ?_⟩
    · rw [hnodes, List.map_cons, List.nodup_cons]
      refine ⟨?_, (hsub.map LimitNode.id).nodup h.numbered.ids⟩
      intro hmem
      obtain ⟨lr, hlr, heq⟩ := List.mem_map.mp hmem
      have hlt := h.numbered.lt lr (hsub.subset hlr)
      omega
    · intro lr hlr
      rw [hfresh]
      rw [hnodes] at hlr
      obtain rfl | hlr := List.mem_cons.mp hlr
      · omega
      · exact Nat.lt_succ_of_lt (h.numbered.lt lr (hsub.subset hlr))
  keys := by
    rw [hnodes, List.map_cons, List.nodup_cons]
    refine ⟨?_, (hsub.map LimitNode.key).nodup h.keys⟩
    intro hmem
    obtain ⟨lr, hlr, heq⟩ := List.mem_map.mp hmem
    exact hkey lr (hsub.subset hlr) heq
  level lr hlr := by
    rw [hnodes] at hlr
    obtain rfl | hlr := List.mem_cons.mp hlr
    · exact hlevel
    · exact h.level lr (hsub.subset hlr)
  time lr hlr := by
    rw [hnodes] at hlr
    obtain rfl | hlr := List.mem_cons.mp hlr
    · exact htime
    · exact h.time lr (hsub.subset hlr)

theorem Sane.touches (h : z.Sane b c) (hc : 0 ≤ c) (hb : 0 ≤ b) (htouches : Touches key z z') :
    z'.Sane b c := by
  cases htouches with
  | same hperm hfresh => exact h.perm hperm hfresh
  | created nodes hkey hsub hnodes hfresh =>
    exact h.create hsub hkey rfl ⟨le_rfl, hb⟩ ⟨le_rfl, hc⟩ hnodes hfresh
  | gone hkey hsub hfresh => exact h.sublist hsub hfresh

theorem Sane.passes (h : z.Sane b now) (hnow : 0 ≤ now) (hburst : burst ≤ b)
    (hfirst : max 0 (1000 - limitDrain rate now) ≤ b) (hpasses : Passes rate burst now key z z') :
    z'.Sane b now := by
  cases hpasses with
  | found lr hlr hkey hlevel hperm hfresh =>
    refine Sane.perm (z := z.modify lr.id (·.charge rate now)) ⟨?_, ?_, ?_, ?_⟩ hperm hfresh
    · exact h.numbered.modify lr.id fun _ => rfl
    · have hkeys : (z.modify lr.id (·.charge rate now)).nodes.map LimitNode.key =
          z.nodes.map LimitNode.key := by
        rw [modify, List.map_map]
        refine List.map_congr_left fun lr' _ => ?_
        rw [Function.comp]
        split_ifs <;> rfl
      rw [hkeys]
      exact h.keys
    · intro lr' hlr'
      obtain ⟨lr₀, hlr₀, rfl⟩ := mem_modify.mp hlr'
      split_ifs with hid
      · rw [h.numbered.eq_of_id hlr₀ hlr hid]
        exact ⟨le_max_left _ _, hlevel.trans hburst⟩
      · exact h.level lr₀ hlr₀
    · intro lr' hlr'
      obtain ⟨lr₀, hlr₀, rfl⟩ := mem_modify.mp hlr'
      split_ifs
      · rw [charge_last rate (h.time lr₀ hlr₀).2]
        exact ⟨hnow, le_rfl⟩
      · exact h.time lr₀ hlr₀
  | created nodes excess hkey hsub hpos hexcess hnodes hfresh =>
    exact h.create hsub hkey rfl ⟨hpos, hexcess.trans hfirst⟩ ⟨hnow, le_rfl⟩ hnodes hfresh

variable {t m r r' : ℤ}

/-- What `m` requests that have been let through since the time `t`, with `r` deletions of the
node of their key, say about the zone at the time `c`. -/
def Accounts (rate : ℕ) (key : List UInt8) (t c m r : ℤ) (z : LimitZone) : Prop :=
  m = 0 ∨ t ≤ c ∧
    (∀ lr ∈ z.nodes, lr.key = key → 1000 * (m - r) ≤ rate * (c - t) / 1000 ∨
      t ≤ lr.last ∧ 1000 * (m - 1 - r) ≤ lr.excess + rate * (lr.last - t) / 1000) ∧
    ((∀ lr ∈ z.nodes, lr.key ≠ key) → 1000 * (m - r) ≤ rate * (c - t) / 1000)

theorem Accounts.frame (h : Accounts rate key t c m r z) (hsane : z.Sane b c) (hc : c ≤ now)
    (hr : r ≤ r') (hold : ∀ lr ∈ z'.nodes, lr.key = key → lr ∈ z.nodes)
    (hgone : ∀ lr ∈ z.nodes, lr.key = key → (∃ lr' ∈ z'.nodes, lr'.key = key) ∨
      lr.idle rate now ∧ r + 1 ≤ r') :
    Accounts rate key t now m r' z' := by
  obtain hm | ⟨htc, hnodes, habsent⟩ := h
  · exact .inl hm
  have hmono := drain_mono rate (t := t) hc
  refine .inr ⟨htc.trans hc, ?_, ?_⟩
  · intro lr hlr hkey
    obtain hleft | ⟨htime, hleft⟩ := hnodes lr (hold lr hlr hkey) hkey
    · exact .inl (by omega)
    · exact .inr ⟨htime, by omega⟩
  · intro hnone
    by_cases hex : ∃ lr ∈ z.nodes, lr.key = key
    · obtain ⟨lr, hlr, hkey⟩ := hex
      obtain ⟨lr', hlr', hkey'⟩ | ⟨⟨-, hidle⟩, hr'⟩ := hgone lr hlr hkey
      · exact absurd hkey' (hnone lr' hlr')
      · obtain hleft | ⟨-, hleft⟩ := hnodes lr hlr hkey
        · omega
        · -- an idle node has drained all of its level
          have hlast : lr.last ≤ now := (hsane.time lr hlr).2.trans hc
          rw [abs_of_nonneg (sub_nonneg.mpr hlast)] at hidle
          have hdrain := limitDrain_le rate (sub_nonneg.mpr hlast)
          have hadd := drain_add_le rate (t := t) (a := lr.last) (b := now)
          omega
    · have hleft := habsent fun lr hlr hkey => hex ⟨lr, hlr, hkey⟩
      omega

/-- Where the key has no node, a request that is let through makes a new one. -/
theorem Accounts.absent (h : Accounts rate key t c m r z) (hkey : ∀ lr ∈ z.nodes, lr.key ≠ key)
    (hc : c ≤ now) : m = 0 ∨ t ≤ now ∧ 1000 * (m - r) ≤ rate * (now - t) / 1000 := by
  obtain hm | ⟨htc, -, habsent⟩ := h
  · exact .inl hm
  · have hmono := drain_mono rate (t := t) hc
    exact .inr ⟨htc.trans hc, (habsent hkey).trans hmono⟩

/-- An account stays when there are fewer requests or more deletions. -/
theorem Accounts.mono {m' : ℤ} (h : Accounts rate key t now m' r z) (hm : 0 ≤ m) (hmm : m ≤ m')
    (hr : r ≤ r') : Accounts rate key t now m r' z := by
  obtain hm' | ⟨htc, hnodes, habsent⟩ := h
  · exact .inl (by omega)
  refine .inr ⟨htc, ?_, ?_⟩
  · intro lr hlr hkey
    obtain hleft | ⟨htime, hleft⟩ := hnodes lr hlr hkey
    · exact .inl (by omega)
    · exact .inr ⟨htime, by omega⟩
  · intro hnone
    have hleft := habsent hnone
    omega

/-- A lookup that charges nothing. -/
theorem Accounts.touches {key' : List UInt8} (h : Accounts rate key t c m r z)
    (hsane : z.Sane b c) (hc : c ≤ now) (hr : r ≤ r') (htouches : Touches key' z z')
    (hgone : ∀ lr ∈ z.nodes, lr.key = key → (∀ lr' ∈ z'.nodes, lr'.id ≠ lr.id) →
      lr.idle rate now ∧ r + 1 ≤ r') :
    Accounts rate key t now m r' z' := by
  -- a node that is still there has its key
  have hstay (hkeys : ∀ lr' ∈ z'.nodes, ∀ lr ∈ z.nodes, lr'.id = lr.id → lr'.key = lr.key) :
      ∀ lr ∈ z.nodes, lr.key = key → (∃ lr' ∈ z'.nodes, lr'.key = key) ∨
        lr.idle rate now ∧ r + 1 ≤ r' := by
    intro lr hlr hkey
    by_cases hex : ∃ lr' ∈ z'.nodes, lr'.id = lr.id
    · obtain ⟨lr', hlr', hid⟩ := hex
      exact .inl ⟨lr', hlr', (hkeys lr' hlr' lr hlr hid).trans hkey⟩
    · exact .inr (hgone lr hlr hkey fun lr' hlr' hid => hex ⟨lr', hlr', hid⟩)
  cases htouches with
  | same hperm hfresh =>
    refine h.frame hsane hc hr (fun lr hlr _ => hperm.mem_iff.mp hlr) (hstay ?_)
    intro lr' hlr' lr hlr hid
    rw [hsane.numbered.eq_of_id (hperm.mem_iff.mp hlr') hlr hid]
  | created nodes hkey hsub hnodes hfresh =>
    by_cases hkk : key' = key
    · subst hkk
      obtain hm | ⟨htc, hleft⟩ := h.absent hkey hc
      · exact .inl hm
      · exact .inr ⟨htc, fun _ _ _ => .inl (by omega), fun _ => by omega⟩
    · have hin : ∀ lr ∈ z'.nodes, lr.key = key → lr ∈ z.nodes := by
        intro lr hlr hk
        rw [hnodes] at hlr
        obtain rfl | hlr := List.mem_cons.mp hlr
        · exact absurd hk hkk
        · exact hsub.subset hlr
      refine h.frame hsane hc hr hin (hstay ?_)
      intro lr' hlr' lr hlr hid
      rw [hnodes] at hlr'
      obtain rfl | hlr' := List.mem_cons.mp hlr'
      · have hlt := hsane.numbered.lt lr hlr
        simp only at hid
        omega
      · rw [hsane.numbered.eq_of_id (hsub.subset hlr') hlr hid]
  | gone hkey hsub hfresh =>
    refine h.frame hsane hc hr (fun lr hlr _ => hsub.subset hlr) (hstay ?_)
    intro lr' hlr' lr hlr hid
    rw [hsane.numbered.eq_of_id (hsub.subset hlr') hlr hid]

/-- A charge of another key. -/
theorem Accounts.passes_other {key' : List UInt8} (h : Accounts rate key t c m r z)
    (hsane : z.Sane b c) (hc : c ≤ now) (hr : r ≤ r') (hne : key' ≠ key)
    (hpasses : Passes rate burst now key' z z')
    (hgone : ∀ lr ∈ z.nodes, lr.key = key → (∀ lr' ∈ z'.nodes, lr'.id ≠ lr.id) →
      lr.idle rate now ∧ r + 1 ≤ r') :
    Accounts rate key t now m r' z' := by
  cases hpasses with
  | found lr₀ hlr₀ hkey₀ hlevel hperm hfresh =>
    have hid : ∀ lr ∈ z.nodes, lr.key = key → lr.id ≠ lr₀.id := by
      intro lr hlr hkey hid
      rw [hsane.numbered.eq_of_id hlr hlr₀ hid, hkey₀] at hkey
      exact hne hkey
    refine h.frame hsane hc hr ?_ ?_
    · intro lr hlr hkey
      obtain ⟨lr₁, hlr₁, rfl⟩ := mem_modify.mp (hperm.mem_iff.mp hlr)
      split_ifs at hkey ⊢ with heq
      · exact absurd heq (hid lr₁ hlr₁ hkey)
      · exact hlr₁
    · intro lr hlr hkey
      refine .inl ⟨lr, hperm.mem_iff.mpr (mem_modify.mpr ⟨lr, hlr, ?_⟩), hkey⟩
      rw [if_neg (hid lr hlr hkey)]
  | created nodes excess hkey hsub hpos hexcess hnodes hfresh =>
    have hin : ∀ lr ∈ z'.nodes, lr.key = key → lr ∈ z.nodes := by
      intro lr hlr hk
      rw [hnodes] at hlr
      obtain rfl | hlr := List.mem_cons.mp hlr
      · exact absurd hk hne
      · exact hsub.subset hlr
    refine h.frame hsane hc hr hin fun lr hlr hk => ?_
    by_cases hex : ∃ lr' ∈ z'.nodes, lr'.id = lr.id
    · obtain ⟨lr', hlr', hid⟩ := hex
      rw [hnodes] at hlr'
      obtain rfl | hmem := List.mem_cons.mp hlr'
      · have hlt := hsane.numbered.lt lr hlr
        simp only at hid
        omega
      · rw [hsane.numbered.eq_of_id (hsub.subset hmem) hlr hid] at hlr'
        rw [← hnodes] at hlr'
        exact .inl ⟨lr, hlr', hk⟩
    · exact .inr (hgone lr hlr hk fun lr' hlr' hid => hex ⟨lr', hlr', hid⟩)

/-- One more request of the key. -/
theorem Accounts.passes_self (h : Accounts rate key t c m r z) (hsane : z.Sane b c) (hc : c ≤ now)
    (ht : t ≤ now) (hr : 0 ≤ r) (hpasses : Passes rate burst now key z z') :
    Accounts rate key t now (m + 1) r z' ∧
      1000 * (m + 1 - 1 - r) ≤ burst + rate * (now - t) / 1000 := by
  have hdrain : 0 ≤ (rate : ℤ) * (now - t) / 1000 :=
    Int.ediv_nonneg (Int.mul_nonneg (Int.natCast_nonneg _) (by omega)) (by omega)
  cases hpasses with
  | found lr₀ hlr₀ hkey₀ hlevel hperm hfresh =>
    have hlast : lr₀.last ≤ now := (hsane.time lr₀ hlr₀).2.trans hc
    have hcharge := le_charge_excess rate hlast
    have hexcess : 0 ≤ (lr₀.charge rate now).excess := le_max_left _ _
    -- the level after the charge accounts for the request
    have hleft : 1000 * (m + 1 - 1 - r) ≤
        (lr₀.charge rate now).excess + rate * (now - t) / 1000 := by
      obtain hm | ⟨htc, hnodes, -⟩ := h
      · omega
      · have hmono := drain_mono rate (t := t) hc
        obtain hleft | ⟨-, hleft⟩ := hnodes lr₀ hlr₀ hkey₀
        · omega
        · have hadd := drain_add_le rate (t := t) (a := lr₀.last) (b := now)
          omega
    have hburst : (lr₀.charge rate now).excess ≤ burst := hlevel
    refine ⟨.inr ⟨ht, ?_, ?_⟩, by omega⟩
    · intro lr hlr hkey
      obtain ⟨lr₁, hlr₁, rfl⟩ := mem_modify.mp (hperm.mem_iff.mp hlr)
      split_ifs at hkey ⊢ with hid
      · rw [hsane.numbered.eq_of_id hlr₁ hlr₀ hid, charge_last rate hlast]
        exact .inr ⟨ht, hleft⟩
      · have hsame : lr₁ = lr₀ :=
          List.inj_on_of_nodup_map hsane.keys hlr₁ hlr₀ (hkey.trans hkey₀.symm)
        exact absurd (congrArg (·.id) hsame) hid
    · intro hnone
      refine absurd ?_ (hnone (lr₀.charge rate now)
        (hperm.mem_iff.mpr (mem_modify.mpr ⟨lr₀, hlr₀, (if_pos rfl).symm⟩)))
      exact hkey₀
  | created nodes excess hkey hsub hpos hexcess hnodes hfresh =>
    have hleft : 1000 * (m + 1 - 1 - r) ≤ rate * (now - t) / 1000 := by
      obtain hm | ⟨-, hleft⟩ := h.absent hkey hc
      · omega
      · omega
    refine ⟨.inr ⟨ht, ?_, ?_⟩, by omega⟩
    · intro lr hlr hk
      rw [hnodes] at hlr
      obtain rfl | hlr := List.mem_cons.mp hlr
      · have hleft' : 1000 * (m + 1 - 1 - r) ≤ excess + rate * (now - t) / 1000 := by omega
        exact .inr ⟨ht, hleft'⟩
      · exact absurd hk (hkey lr (hsub.subset hlr))
    · intro hnone
      have hmem : ⟨z.fresh, key, now, excess, 0⟩ ∈ z'.nodes := by
        rw [hnodes]
        exact List.mem_cons_self
      exact absurd rfl (hnone _ hmem)

end LimitZone

/-! ## All requests -/

namespace LimitServed

/-- What a request does to each zone. -/
structure Step (rate burst : ℕ → ℕ) (x : LimitServed) : Prop where
  through : x.outcome.through = true → ∀ z, (¬x.request.subject z ∧ x.after z = x.before z) ∨
    ∃ key, x.request.keyFor z = some key ∧
      LimitZone.Passes (rate z) (burst z) x.now key (x.before z) (x.after z)
  other : x.outcome.through = false → ∀ z, x.after z = x.before z ∨
    ∃ key, x.request.keyFor z = some key ∧ LimitZone.Touches key (x.before z) (x.after z)

variable {rate burst : ℕ → ℕ} {x : LimitServed} {c : ℤ} {z : ℕ} {b : ℤ}

theorem Step.sane (h : x.Step rate burst) (hsane : (x.before z).Sane b c) (hc : c ≤ x.now)
    (hb : 0 ≤ b) (hburst : burst z ≤ b)
    (hfirst : max 0 (1000 - limitDrain (rate z) x.now) ≤ b) : (x.after z).Sane b x.now := by
  have hsane' := hsane.mono hc
  cases hthrough : x.outcome.through with
  | true =>
    obtain ⟨-, heq⟩ | ⟨key, -, hpasses⟩ := h.through hthrough z
    · rw [heq]
      exact hsane'
    · exact hsane'.passes (Int.natCast_nonneg _) hburst hfirst hpasses
  | false =>
    obtain heq | ⟨key, -, htouches⟩ := h.other hthrough z
    · rw [heq]
      exact hsane'
    · exact hsane'.touches (Int.natCast_nonneg _) hb htouches

/-- A request within the window keeps the account of a key. -/
theorem Step.accounts (h : x.Step rate burst) {key : List UInt8} {t m r : ℤ}
    (ha : LimitZone.Accounts (rate z) key t c m r (x.before z))
    (hsane : (x.before z).Sane b c) (hc : c ≤ x.now) (ht : t ≤ x.now) (hm : 0 ≤ m) (hr : 0 ≤ r)
    (hunforced : x.Unforced rate) :
    LimitZone.Accounts (rate z) key t x.now (m + if x.admits z key then 1 else 0)
        (r + if x.expires z key then 1 else 0) (x.after z) ∧
      (x.admits z key = true →
        1000 * (m + 1 - 1 - r) ≤ burst z + rate z * (x.now - t) / 1000) := by
  have hr' : r ≤ r + if x.expires z key then 1 else 0 := by split_ifs <;> omega
  have hgone : ∀ lr ∈ (x.before z).nodes, lr.key = key →
      (∀ lr' ∈ (x.after z).nodes, lr'.id ≠ lr.id) →
      lr.idle (rate z) x.now ∧ r + 1 ≤ r + if x.expires z key then 1 else 0 := by
    intro lr hlr hkey hnone
    have hexpires : x.expires z key = true := by
      refine List.any_eq_true.mpr ⟨lr, hlr, ?_⟩
      simpa [hkey] using hnone
    exact ⟨hunforced z lr hlr hnone, by simp [hexpires]⟩
  have hsame : x.after z = x.before z →
      LimitZone.Accounts (rate z) key t x.now m (r + if x.expires z key then 1 else 0)
        (x.after z) := by
    intro heq
    rw [heq]
    exact ha.frame hsane hc hr' (fun lr hlr _ => hlr) fun lr hlr hk => .inl ⟨lr, hlr, hk⟩
  cases hthrough : x.outcome.through with
  | true =>
    obtain ⟨hsubject, heq⟩ | ⟨key', hkey', hpasses⟩ := h.through hthrough z
    · have hadmits : x.admits z key = false := by
        rw [admits, hthrough, Bool.true_and]
        by_contra htrue
        simp only [Bool.not_eq_false, Bool.and_eq_true, decide_eq_true_eq, beq_iff_eq] at htrue
        exact hsubject ⟨htrue.1, by simp [htrue.2]⟩
      simp only [hadmits, Bool.false_eq_true, if_false, add_zero, false_implies, and_true]
      exact hsame heq
    · by_cases hkk : key' = key
      · subst hkk
        obtain ⟨hacc, hbound⟩ := ha.passes_self hsane hc ht hr hpasses
        refine ⟨hacc.mono ?_ ?_ hr', fun _ => hbound⟩
        · split_ifs <;> omega
        · split_ifs <;> omega
      · have hadmits : x.admits z key = false := by
          simp [admits, hkey', hkk]
        simp only [hadmits, Bool.false_eq_true, if_false, add_zero, false_implies, and_true]
        exact ha.passes_other hsane hc hr' hkk hpasses hgone
  | false =>
    have hadmits : x.admits z key = false := by simp [admits, hthrough]
    simp only [hadmits, Bool.false_eq_true, if_false, add_zero, false_implies, and_true]
    obtain heq | ⟨key', -, htouches⟩ := h.other hthrough z
    · exact hsame heq
    · exact ha.touches hsane hc hr' htouches hgone

end LimitServed

/-- The requests are handled in order, each with the zones that the one before has left, and
at a time that is not before. -/
def ServedInOrder (rate burst : ℕ → ℕ) : (ℕ → LimitZone) → ℕ → List LimitServed → Prop
  | _, _, [] => True
  | zones, c, x :: served =>
    x.before = zones ∧ c ≤ x.now ∧ x.Step rate burst ∧
      ServedInOrder rate burst x.after x.now served

variable {rate burst : ℕ → ℕ} {zones : ℕ → LimitZone} {c : ℕ}

theorem first_le_max (rate : ℕ) (now : ℤ) (burst : ℕ) :
    max 0 (1000 - limitDrain rate now) ≤ max (burst : ℤ) 1000 := by
  have hpos := limitDrain_nonneg rate now
  omega

/-- Every request is handled. -/
theorem serveLimits_inOrder {arrivals : List (LimitRequest × ℕ)}
    (hsane : ∀ z, (zones z).Sane (max (burst z) 1000) c)
    (hburst : ∀ a ∈ arrivals, ∀ limit ∈ a.1.location.limits, limit.burst = burst limit.zone)
    (hsorted : (c :: arrivals.map Prod.snd).Pairwise (· ≤ ·)) :
    ∃ served, serveLimits rate zones arrivals = some served ∧
      ServedInOrder rate burst zones c served ∧
      served.map LimitServed.now = arrivals.map Prod.snd := by
  induction arrivals generalizing zones c with
  | nil => exact ⟨[], rfl, trivial, rfl⟩
  | cons a arrivals ih =>
    obtain ⟨request, now⟩ := a
    let h : Handling :=
      { rate, burst, request, now, zones, numbered := fun z => (hsane z).numbered
        oneBurst := hburst (request, now) List.mem_cons_self }
    obtain ⟨outcome, after, hhandler, hthrough, hother⟩ := handler_spec h
    rw [List.map_cons, List.pairwise_cons] at hsorted
    have hc : c ≤ now := hsorted.1 now List.mem_cons_self
    set x : LimitServed := ⟨request, now, outcome, zones, after⟩
    have hstep : x.Step rate burst := ⟨hthrough, hother⟩
    have hsane' : ∀ z, (after z).Sane (max (burst z) 1000) now := by
      intro z
      exact hstep.sane (hsane z) (Int.ofNat_le.mpr hc) (by omega) (le_max_left _ _)
        (first_le_max (rate z) now (burst z))
    obtain ⟨served, hserve, horder, hnow⟩ :=
      ih hsane' (fun a ha => hburst a (List.mem_cons_of_mem _ ha)) hsorted.2
    have hcall : ngxHttpLimitReqHandler rate zones request now = some (outcome, after) := hhandler
    refine ⟨x :: served, ?_, ⟨rfl, hc, hstep, horder⟩, ?_⟩
    · simp [serveLimits, hcall, hserve, x]
    · simp [hnow, x]

/-- The levels stay up to `b` when new nodes start there. -/
theorem ServedInOrder.sane {served : List LimitServed} (h : ServedInOrder rate burst zones c served)
    {z : ℕ} {b : ℤ} (hb : burst z ≤ b)
    (hfirst : ∀ x ∈ served, max 0 (1000 - limitDrain (rate z) x.now) ≤ b)
    (hsane : (zones z).Sane b c) : ∀ x ∈ served, (x.after z).Sane b x.now := by
  induction served generalizing zones c with
  | nil => simp
  | cons x served ih =>
    obtain ⟨rfl, hc, hstep, hrest⟩ := h
    have hafter := hstep.sane hsane (Int.ofNat_le.mpr hc) ((Int.natCast_nonneg _).trans hb) hb
      (hfirst x List.mem_cons_self)
    intro y hy
    obtain rfl | hy := List.mem_cons.mp hy
    · exact hafter
    · exact ih hrest (fun y hy => hfirst y (List.mem_cons_of_mem _ hy)) hafter y hy

theorem ServedInOrder.le_now {served : List LimitServed}
    (h : ServedInOrder rate burst zones c served) : ∀ x ∈ served, c ≤ x.now := by
  induction served generalizing zones c with
  | nil => simp
  | cons x served ih =>
    obtain ⟨rfl, hc, -, hrest⟩ := h
    intro y hy
    obtain rfl | hy := List.mem_cons.mp hy
    · exact hc
    · exact hc.trans (ih hrest y hy)

/-- The requests of a key that are let through in a window, after `m` earlier ones. -/
theorem ServedInOrder.window {served : List LimitServed}
    (h : ServedInOrder rate burst zones c served) (hunforced : ∀ x ∈ served, x.Unforced rate)
    {z : ℕ} (key : List UInt8) (t T : ℕ) {m r : ℕ} (hsane : (zones z).Sane (max (burst z) 1000) c)
    (ha : LimitZone.Accounts (rate z) key t c m r (zones z))
    (hbound : 1000 * ((m : ℤ) - 1 - r) ≤ burst z + rate z * T / 1000) :
    1000 * ((m + served.countP fun x => x.within t T && x.admits z key : ℕ) - 1 -
        (r + served.countP fun x => x.within t T && x.expires z key : ℕ) : ℤ) ≤
      burst z + rate z * T / 1000 := by
  induction served generalizing zones c m r with
  | nil => simpa using hbound
  | cons x served ih =>
    have hlater := h.le_now
    obtain ⟨rfl, hc, hstep, hrest⟩ := h
    have hafter := hstep.sane hsane (Int.ofNat_le.mpr hc) (by omega) (le_max_left _ _)
      (first_le_max (rate z) x.now (burst z))
    have hunforced' : ∀ y ∈ served, y.Unforced rate :=
      fun y hy => hunforced y (List.mem_cons_of_mem _ hy)
    rw [List.countP_cons, List.countP_cons]
    by_cases hbefore : x.now < t
    · -- before the window there is nothing to account for
      have hwithin : x.within t T = false := by
        rw [LimitServed.within, decide_eq_false_iff_not]
        omega
      have hm : m = 0 := by
        obtain hm | ⟨htc, -⟩ := ha
        · exact_mod_cast hm
        · omega
      have hacc : LimitZone.Accounts (rate z) key t x.now m r (x.after z) := .inl (by simp [hm])
      simpa [hwithin] using ih hrest hunforced' hafter hacc hbound
    by_cases hend : t + T < x.now
    · -- after the window nothing counts any more
      have hout : ∀ y ∈ x :: served, y.within t T = false := by
        intro y hy
        have hle : x.now ≤ y.now := by
          obtain rfl | hy := List.mem_cons.mp hy
          · exact le_rfl
          · exact hrest.le_now y hy
        rw [LimitServed.within, decide_eq_false_iff_not]
        omega
      have hzero (p : LimitServed → Bool) :
          served.countP (fun y => y.within t T && p y) = 0 := by
        refine List.countP_eq_zero.mpr fun y hy => ?_
        simp [hout y (List.mem_cons_of_mem _ hy)]
      simpa [hzero, hout x List.mem_cons_self] using hbound
    · have hwithin : x.within t T = true := by
        rw [LimitServed.within, decide_eq_true_iff]
        omega
      have ht : (t : ℤ) ≤ x.now := by omega
      obtain ⟨hacc, hadmit⟩ := hstep.accounts ha hsane (Int.ofNat_le.mpr hc) ht
        (Int.natCast_nonneg _) (Int.natCast_nonneg _) (hunforced x List.mem_cons_self)
      have hdrain : (rate z * (x.now - t) / 1000 : ℤ) ≤ rate z * T / 1000 := by
        have hmono := drain_mono (rate z) (t := t) (a := x.now) (b := t + T) (by omega)
        rwa [add_sub_cancel_left] at hmono
      have hnext := ih (m := m + if x.admits z key then 1 else 0)
        (r := r + if x.expires z key then 1 else 0) hrest hunforced' hafter
        (by push_cast; exact hacc) ?_
      · simp only [hwithin, Bool.true_and]
        push_cast at hnext ⊢
        linarith
      · by_cases hadmits : x.admits z key = true
        · have hb := hadmit hadmits
          simp only [hadmits, if_true]
          split_ifs <;> push_cast <;> omega
        · simp only [hadmits, Bool.false_eq_true, if_false]
          split_ifs <;> push_cast <;> omega

/-- The zones before the first request. -/
def noZones (_ : ℕ) : LimitZone :=
  ⟨[], 0⟩

theorem noZones_sane (b : ℤ) (z : ℕ) : (noZones z).Sane b (0 : ℕ) where
  numbered := ⟨List.nodup_nil, by simp [noZones]⟩
  keys := List.nodup_nil
  level lr hlr := by simp [noZones] at hlr
  time lr hlr := by simp [noZones] at hlr

/-- Requests that are handled one after another: no level is below zero or above the burst,
but for new nodes while the clock is young, and in any window of `T` milliseconds at most
`1 + (burst + rate * T / 1000) / 1000` requests of a key are let through, and one more for
each time that the node of the key has been deleted as idle. -/
theorem requests_in_window (rate burst : ℕ → ℕ) (arrivals : List (LimitRequest × ℕ))
    (hburst : ∀ a ∈ arrivals, ∀ limit ∈ a.1.location.limits, limit.burst = burst limit.zone)
    (hsorted : (arrivals.map Prod.snd).Pairwise (· ≤ ·)) :
    ∃ served, serveLimits rate noZones arrivals = some served ∧
      (∀ x ∈ served, ∀ z, ∀ lr ∈ (x.after z).nodes,
        0 ≤ lr.excess ∧ lr.excess ≤ max (burst z : ℤ) 1000) ∧
      (∀ z, (∀ a ∈ arrivals, 1000 - limitDrain (rate z) a.2 ≤ burst z) →
        ∀ x ∈ served, ∀ lr ∈ (x.after z).nodes, lr.excess ≤ burst z) ∧
      ((∀ x ∈ served, x.Unforced rate) → ∀ z key t T,
        (served.countP fun x => x.within t T && x.admits z key) ≤
          1 + (served.countP fun x => x.within t T && x.expires z key) +
            (burst z + rate z * T / 1000) / 1000) := by
  have hsorted' : (0 :: arrivals.map Prod.snd).Pairwise (· ≤ ·) :=
    List.pairwise_cons.mpr ⟨fun _ _ => Nat.zero_le _, hsorted⟩
  obtain ⟨served, hserve, horder, hnow⟩ :=
    serveLimits_inOrder (fun z => noZones_sane (max (burst z) 1000) z) hburst hsorted'
  refine ⟨served, hserve, ?_, ?_, ?_⟩
  · intro x hx z lr hlr
    exact (horder.sane (le_max_left _ _) (fun y _ => first_le_max (rate z) y.now (burst z))
      (noZones_sane _ z) x hx).level lr hlr
  · intro z hyoung x hx lr hlr
    have hfirst : ∀ y ∈ served, max 0 (1000 - limitDrain (rate z) y.now) ≤ burst z := by
      intro y hy
      have hmem : y.now ∈ arrivals.map Prod.snd := by
        rw [← hnow]
        exact List.mem_map_of_mem hy
      obtain ⟨a, ha, heq⟩ := List.mem_map.mp hmem
      rw [← heq]
      exact max_le (Int.natCast_nonneg _) (hyoung a ha)
    exact ((horder.sane le_rfl hfirst (noZones_sane _ z) x hx).level lr hlr).2
  · intro hunforced z key t T
    have hwindow := horder.window hunforced key t T (m := 0) (r := 0) (noZones_sane _ z)
      (.inl rfl) (by
        have hpos : (0 : ℤ) ≤ rate z * T / 1000 := Int.natCast_nonneg (rate z * T / 1000)
        omega)
    have hcast : (rate z * T / 1000 : ℤ) = (rate z * T / 1000 : ℕ) := by push_cast; rfl
    rw [hcast] at hwindow
    omega

/-- A request with one limit, in the zone `0`, without a burst. -/
def singleLimit (key : List UInt8) : LimitRequest where
  location := ⟨[⟨0, 0, 0⟩], by simp, false⟩
  limited := false
  key := fun _ => some key
  alloc := fun _ => (true, true)

/-- Two requests of one key, a minute apart, and between them one of another key. -/
def minuteApart : List (LimitRequest × ℕ) :=
  [(singleLimit [97], 100000), (singleLimit [98], 160000), (singleLimit [97], 160000)]

theorem requests_in_window_minute :
    ∃ served, serveLimits (fun _ => 16) noZones minuteApart = some served ∧
      ∀ x ∈ served, ∀ lr ∈ (x.after 0).nodes, lr.excess ≤ 0 := by
  obtain ⟨served, hserve, -, hlevel, -⟩ := requests_in_window (fun _ => 16) (fun _ => 0) minuteApart
    (by simp [minuteApart, singleLimit]) (by simp [minuteApart])
  refine ⟨served, hserve, hlevel 0 ?_⟩
  simp [minuteApart, limitDrain]

/-- Zones in which the zone `0` has been through these states. -/
def zoneHistory (states : List LimitZone) : ℕ → LimitZone :=
  states.foldl (fun zones zone => Function.update zones 0 zone) noZones

/-- The states of the zone after each of these requests. -/
def minuteStates : List LimitZone :=
  [⟨[⟨0, [97], 100000, 0, 0⟩], 1⟩, ⟨[⟨1, [98], 160000, 0, 0⟩], 2⟩,
    ⟨[⟨2, [97], 160000, 0, 0⟩, ⟨1, [98], 160000, 0, 0⟩], 3⟩]

/-- The requests, each with the zones before and after it. -/
def minuteServed : List LimitServed :=
  [⟨singleLimit [97], 100000, .passed, noZones, zoneHistory (minuteStates.take 1)⟩,
    ⟨singleLimit [98], 160000, .passed, zoneHistory (minuteStates.take 1),
      zoneHistory (minuteStates.take 2)⟩,
    ⟨singleLimit [97], 160000, .passed, zoneHistory (minuteStates.take 2),
      zoneHistory minuteStates⟩]

theorem minuteApart_served :
    serveLimits (fun _ => 16) noZones minuteApart = some minuteServed := by
  rfl

theorem minuteServed_unforced : ∀ x ∈ minuteServed, x.Unforced fun _ => 16 := by
  intro x hx z lr hlr hnone
  by_cases hz : z = 0
  · subst hz
    simp [minuteServed] at hx
    obtain rfl | rfl | rfl := hx
    · simp [noZones] at hlr
    · simp [zoneHistory, minuteStates] at hlr hnone
      subst hlr
      simp [LimitNode.idle, limitDrain]
    · simp [zoneHistory, minuteStates] at hlr hnone
      simp [hlr] at hnone
  · simp [minuteServed] at hx
    obtain rfl | rfl | rfl := hx <;> simp [zoneHistory, minuteStates, noZones, hz] at hlr

/-- Without the deletions the bound does not hold, whichever way the quotients are read. -/
theorem window_exceeded :
    ¬∀ (rate burst : ℕ → ℕ) (arrivals : List (LimitRequest × ℕ)) (served : List LimitServed),
      (∀ a ∈ arrivals, a.1.location.dryRun = false ∧
        ∀ limit ∈ a.1.location.limits, limit.burst = burst limit.zone) →
      (arrivals.map Prod.snd).Pairwise (· ≤ ·) →
      serveLimits rate noZones arrivals = some served → (∀ x ∈ served, x.Unforced rate) →
      ∀ z key t T, 1000000 * (served.countP fun x => x.within t T && x.admits z key) ≤
        1000000 + 1000 * burst z + rate z * T := by
  intro hall
  have hbound := hall (fun _ => 16) (fun _ => 0) minuteApart minuteServed
    (by simp [minuteApart, singleLimit]) (by simp [minuteApart]) minuteApart_served
    minuteServed_unforced 0 [97] 100000 60000
  have hcount : (minuteServed.countP fun x => x.within 100000 60000 && x.admits 0 [97]) = 2 := by
    decide
  rw [hcount] at hbound
  omega

end MultiversionBalancer.Http
