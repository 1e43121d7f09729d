import MultiversionBalancer.Autoscaler.Deployment
import MultiversionBalancer.Core.MachineFloat
import MultiversionBalancer.Core.RatFloat
import Mathlib.Data.List.Perm.Subperm
import Mathlib.Tactic.Linarith
import Mathlib.Tactic.Ring

/-!
# No scale-out after a scale-in

`calculateScaling` scales in when the load is below nine tenths of the capacity
that remains, and out when it is above nine tenths of the capacity that there
is.  The loss that `getMinDownscaleDelta` predicts is the one that `downscale`
causes, for a heavy server that is shut down and for a light one that becomes
heavy; so the two thresholds do not overlap as long as the sums are exact.  With
sums that are rounded they can.
-/

namespace MultiversionBalancer.Autoscaler

open Lib CFloat RatFloat

/-- The sum of `capacity_h` over the heavy servers and of `capacity_l` over the
light ones. -/
def System.totalCapacity {F : Type} [CFloat F] (sys : System F) : F :=
  sys.light.foldl (fun c l => c + l.capacityL)
    (sys.heavy.foldl (fun c h => c + h.capacityH) (ofInt 0))

def System.NonNegative {F : Type} [CFloat F] (sys : System F) : Prop :=
  ∀ s ∈ sys.heavy ++ sys.light,
    le (ofInt 0) s.capacityH = true ∧ le (ofInt 0) s.capacityL = true

/-- Every server object is listed once. -/
def System.Distinct {F : Type} (sys : System F) : Prop :=
  ((sys.heavy ++ sys.light).map (·.id)).Nodup

/-! ## Server objects -/

section Objects

variable {F : Type}

/-- The identities of the listed servers. -/
def System.ids (sys : System F) : List ℕ :=
  (sys.heavy ++ sys.light).map (·.id)

/-- The servers are listed once, and the next object is a new one. -/
structure System.Numbered (sys : System F) : Prop where
  distinct : sys.Distinct
  fresh : ∀ a ∈ sys.ids, a < sys.fresh

theorem System.Numbered.of_sublist {sys sys' : System F} (h : sys.Numbered)
    (hheavy : sys'.heavy.Sublist sys.heavy) (hlight : sys'.light.Sublist sys.light)
    (hfresh : sys'.fresh = sys.fresh) : sys'.Numbered := by
  have hsub : sys'.ids.Sublist sys.ids := (hheavy.append hlight).map _
  refine ⟨h.distinct.sublist hsub, ?_⟩
  intro a ha
  rw [hfresh]
  exact h.fresh a (hsub.subset ha)

/-- A new object, after some servers have left. -/
theorem System.Numbered.add {sys sys' : System F} (h : sys.Numbered)
    {new : ServerDescription F} {rest : List (ServerDescription F)}
    (hperm : (sys'.heavy ++ sys'.light).Perm (new :: rest))
    (hrest : rest.Sublist (sys.heavy ++ sys.light)) (hnew : new.id = sys.fresh)
    (hfresh : sys'.fresh = sys.fresh + 1) : sys'.Numbered := by
  have hsub : (rest.map (·.id)).Sublist sys.ids := hrest.map _
  have hids : sys'.ids.Perm (sys.fresh :: rest.map (·.id)) := by
    rw [← hnew]
    exact hperm.map _
  constructor
  · refine hids.nodup_iff.mpr (List.nodup_cons.mpr ⟨?_, h.distinct.sublist hsub⟩)
    intro hmem
    exact Nat.lt_irrefl _ (h.fresh _ (hsub.subset hmem))
  · intro a ha
    rw [hfresh]
    rcases List.mem_cons.mp (hids.mem_iff.mp ha) with rfl | ha
    · exact Nat.lt_succ_self _
    · exact Nat.lt_succ_of_lt (h.fresh a (hsub.subset ha))

theorem System.Numbered.add_heavy {sys : System F} (h : sys.Numbered)
    {new : ServerDescription F} {light : List (ServerDescription F)}
    (hnew : new.id = sys.fresh) (hlight : light.Sublist sys.light) :
    { sys with
      heavy := sys.heavy ++ [new]
      light := light
      fresh := sys.fresh + 1 }.Numbered := by
  refine h.add ?_ ((List.Sublist.refl _).append hlight) hnew rfl
  dsimp only
  rw [List.append_assoc]
  exact List.perm_middle

theorem System.Numbered.add_light {sys : System F} (h : sys.Numbered)
    {new : ServerDescription F} {heavy : List (ServerDescription F)}
    (hnew : new.id = sys.fresh) (hheavy : heavy.Sublist sys.heavy) :
    { sys with
      heavy := heavy
      light := sys.light ++ [new]
      fresh := sys.fresh + 1 }.Numbered := by
  refine h.add ?_ (hheavy.append (List.Sublist.refl _)) hnew rfl
  dsimp only
  rw [← List.append_assoc]
  exact List.perm_append_singleton _ _

theorem removeServer_ok {s : ServerDescription F}
    {l l' : List (ServerDescription F)} (h : removeServer s l = .ok l') :
    (∃ t ∈ l, t.id = s.id) ∧ l' = l.eraseP (·.id = s.id) := by
  unfold removeServer at h
  split at h
  · next hany =>
      refine ⟨?_, (Except.ok.inj h).symm⟩
      simpa using hany
  · cases h

theorem System.Numbered.updateCapacities {sys : System F} (h : sys.Numbered)
    (servers : List (ServerReport F)) : (sys.updateCapacities servers).Numbered := by
  have hids : (sys.updateCapacities servers).ids = sys.ids := by
    simp [System.ids, System.updateCapacities, Function.comp_def]
  constructor
  · unfold System.Distinct
    rw [← System.ids, hids]
    exact h.distinct
  · rw [hids]
    exact h.fresh

variable [CFloat F]

theorem upscale_numbered {st st' : State F} (h : st.system.Numbered) {port : ℤ}
    {server : Option (ServerDescription F)} {posts : List Post}
    (hact : st.upscale port server = .ok (st', posts)) : st'.system.Numbered := by
  unfold State.upscale at hact
  rcases server with _ | s
  · rcases hheavy : st.system.heavy with _ | ⟨first, rest⟩
    · simp [hheavy] at hact
    · simp only [hheavy] at hact
      obtain ⟨data, -, hact⟩ := Except.bind_eq_ok.mp hact
      obtain ⟨rfl, -⟩ := Prod.mk.inj (Except.ok.inj hact)
      rw [← hheavy]
      refine h.add_heavy ?_ (List.Sublist.refl _)
      rfl
  · obtain ⟨heavy, hremove, hact⟩ := Except.bind_eq_ok.mp hact
    obtain ⟨data, -, hact⟩ := Except.bind_eq_ok.mp hact
    obtain ⟨rfl, -⟩ := Prod.mk.inj (Except.ok.inj hact)
    obtain ⟨-, rfl⟩ := removeServer_ok hremove
    refine h.add_light ?_ List.eraseP_sublist
    rfl

theorem downscale_numbered {st st' : State F} (h : st.system.Numbered) {port : ℤ}
    {server : Option (ServerDescription F)} {posts : List Post}
    (hact : st.downscale port server = .ok (st', posts)) :
    st'.system.Numbered := by
  unfold State.downscale at hact
  rcases server with _ | s
  · cases hact
  · dsimp only at hact
    split at hact
    · obtain ⟨heavy, hremove, hact⟩ := Except.bind_eq_ok.mp hact
      obtain ⟨data, -, hact⟩ := Except.bind_eq_ok.mp hact
      obtain ⟨config, -, hact⟩ := Except.bind_eq_ok.mp hact
      obtain ⟨rfl, -⟩ := Prod.mk.inj (Except.ok.inj hact)
      obtain ⟨-, rfl⟩ := removeServer_ok hremove
      exact h.of_sublist List.eraseP_sublist (List.Sublist.refl _) rfl
    · obtain ⟨light, hremove, hact⟩ := Except.bind_eq_ok.mp hact
      obtain ⟨data, -, hact⟩ := Except.bind_eq_ok.mp hact
      obtain ⟨config, -, hact⟩ := Except.bind_eq_ok.mp hact
      obtain ⟨rfl, -⟩ := Prod.mk.inj (Except.ok.inj hact)
      obtain ⟨-, rfl⟩ := removeServer_ok hremove
      refine h.add_heavy ?_ List.eraseP_sublist
      rfl

theorem processEntries_numbered {st st' : State F} (h : st.system.Numbered)
    {entries : List (MonitorEntry F)}
    {last last' : Option (Wish F × ScaleDecision)}
    (hproc : st.processEntries entries last = .ok (st', last')) :
    st'.system.Numbered := by
  induction entries generalizing st last with
  | nil =>
      obtain ⟨rfl, -⟩ := Prod.mk.inj (Except.ok.inj hproc)
      exact h
  | cons entry entries ih =>
      obtain ⟨⟨st₁, last₁⟩, hentry, hproc⟩ := Except.bind_eq_ok.mp hproc
      refine ih ?_ hproc
      obtain ⟨⟨sys, wish⟩, hwish, hentry⟩ := Except.bind_eq_ok.mp hentry
      obtain ⟨⟨config, decision⟩, -, hentry⟩ := Except.bind_eq_ok.mp hentry
      obtain ⟨rfl, -⟩ := Prod.mk.inj (Except.ok.inj hentry)
      unfold System.calculateScaling at hwish
      dsimp only at hwish
      split at hwish
      · cases hwish
      · split at hwish
        · cases hwish
        · next servers hservers =>
            have hrecorded : { st.system with
                loadHistory := (recordLoad entry.concRequests
                  st.system.loadHistory).1 }.Numbered := ⟨h.distinct, h.fresh⟩
            obtain ⟨rfl, -⟩ := Prod.mk.inj (Except.ok.inj hwish)
            exact hrecorded.updateCapacities servers

/-- No run of the scaling program lists a server twice. -/
theorem run_numbered {st st' : State F} (h : st.system.Numbered)
    {rounds : List (Round F)} (hrun : st.run rounds = .ok st') :
    st'.system.Numbered := by
  induction rounds generalizing st with
  | nil =>
      obtain rfl := Except.ok.inj hrun
      exact h
  | cons round rounds ih =>
      obtain ⟨⟨st₁, posts⟩, hiter, hrun⟩ := Except.bind_eq_ok.mp hrun
      refine ih ?_ hrun
      obtain ⟨⟨st₂, last⟩, hproc, hiter⟩ := Except.bind_eq_ok.mp hiter
      have hnumbered := processEntries_numbered h hproc
      rcases last with _ | ⟨wish, decision⟩
      · obtain ⟨rfl, -⟩ := Prod.mk.inj (Except.ok.inj hiter)
        exact hnumbered
      · cases haction : chooseAction wish decision with
        | keep =>
            simp only [haction, State.perform] at hiter
            obtain ⟨rfl, -⟩ := Prod.mk.inj (Except.ok.inj hiter)
            exact hnumbered
        | upscale server =>
            simp only [haction, State.perform] at hiter
            exact upscale_numbered hnumbered hiter
        | downscale server =>
            simp only [haction, State.perform] at hiter
            exact downscale_numbered hnumbered hiter

theorem initialState_numbered (pt max : ℤ) (ip : Text) (port : ℤ) :
    (initialState pt max ip port : State F).system.Numbered where
  distinct := List.pairwise_singleton _ 0
  fresh := by
    intro a ha
    rw [List.mem_singleton.mp ha]
    exact Nat.zero_lt_one

end Objects

/-! ## The predicted loss -/

section Search

variable {F : Type} [CFloat F]

/-- The running minimum is the loss of a server that has been seen. -/
theorem foldl_minDelta_delta (delta : ServerDescription F → F)
    {m : MinDelta F} {seen hs : List (ServerDescription F)}
    (hm : ∀ s, m.server = some s → s ∈ seen ∧ m.delta = some (delta s))
    {s : ServerDescription F}
    (h : (hs.foldl (MinDelta.step delta) m).server = some s) :
    s ∈ seen ++ hs ∧ (hs.foldl (MinDelta.step delta) m).delta = some (delta s) := by
  induction hs generalizing m seen with
  | nil => simpa using hm s h
  | cons u hs ih =>
      rw [List.append_cons]
      refine ih ?_ h
      intro t ht
      unfold MinDelta.step at ht ⊢
      split at ht
      · next hless =>
          obtain rfl := Option.some.inj ht
          simp [hless]
      · next hless =>
          rw [if_neg hless]
          obtain ⟨hmem, hdelta⟩ := hm t ht
          exact ⟨List.mem_append_left _ hmem, hdelta⟩

theorem System.getMinDownscaleDelta_target {sys : System F}
    {s : ServerDescription F} (hs : sys.getMinDownscaleDelta.server = some s) :
    s ∈ sys.light ∧ sys.getMinDownscaleDelta.value = s.capacityDelta ∨
      sys.light = [] ∧ s ∈ sys.heavy ∧
        sys.getMinDownscaleDelta.value = s.capacityH := by
  have hstart : ∀ (delta : ServerDescription F → F) (t : ServerDescription F),
      (⟨none, none⟩ : MinDelta F).server = some t →
        t ∈ [] ∧ (⟨none, none⟩ : MinDelta F).delta = some (delta t) :=
    fun _ _ => nofun
  unfold System.getMinDownscaleDelta MinDelta.value at *
  split at hs
  · next hlight =>
      obtain ⟨hmem, hdelta⟩ := foldl_minDelta_delta _ (hstart _) hs
      rw [if_pos hlight, hdelta]
      exact .inl ⟨by simpa using hmem, rfl⟩
  · next hlight =>
      rw [if_neg hlight]
      split at hs
      · next hheavy =>
          obtain ⟨hmem, hdelta⟩ := foldl_minDelta_delta _ (hstart _) hs
          rw [if_pos hheavy, hdelta]
          exact .inr ⟨List.eq_nil_of_length_eq_zero (by omega),
            by simpa using hmem, rfl⟩
      · cases hs

/-- What a wish for a scale-in says about the predicted load. -/
theorem System.wish_downscale {max : ℤ} {predict capacity : F} {sys : System F}
    (h : (sys.wish max predict capacity).downscale = true) :
    (eq predict (ofInt 0) = true ∨
        lt predict (lit (9 / 10) *
          (capacity - sys.getMinDownscaleDelta.value)) = true) ∧
      (sys.wish max predict capacity).server =
        sys.getMinDownscaleDelta.server := by
  unfold System.wish at h ⊢
  dsimp only at h ⊢
  split at h
  · cases h
  · next hout =>
      rw [if_neg hout]
      split at h
      · next hin =>
          rw [if_pos hin]
          exact ⟨hin.1, rfl⟩
      · cases h

theorem System.wish_not_upscale {max : ℤ} {predict capacity : F}
    {sys : System F}
    (h : lt (lit (9 / 10) * capacity) predict = false) :
    (sys.wish max predict capacity).upscale = false := by
  unfold System.wish
  dsimp only
  rw [if_neg (by simp [h])]
  split <;> rfl

end Search

/-! ## The loss that a scale-in causes -/

/-- The sums of numbers. -/
theorem foldl_capacity (f : ServerDescription RatFloat → RatFloat)
    (g : ServerDescription RatFloat → ℚ) {l : List (ServerDescription RatFloat)}
    (hfg : ∀ s ∈ l, f s = ofRat (g s)) (c : ℚ) :
    l.foldl (fun c s => c + f s) (ofRat c) = ofRat (c + (l.map g).sum) := by
  induction l generalizing c with
  | nil => simp
  | cons s l ih =>
      rw [List.foldl_cons, hfg s List.mem_cons_self, ofRat_add,
        ih fun t ht => hfg t (List.mem_cons_of_mem s ht), List.map_cons,
        List.sum_cons, add_assoc]

/-- The number that a capacity stands for. -/
def capacityRat (x : RatFloat) : ℚ := x.val.getD 0

theorem capacityRat_eq {x : RatFloat} (hx : le (ofInt 0) x = true) :
    x = ofRat (capacityRat x) ∧ 0 ≤ capacityRat x := by
  obtain ⟨p, q, hp, rfl, hle⟩ := exists_of_le hx
  obtain rfl : p = 0 := (ofRat_inj.mp hp).symm
  exact ⟨rfl, hle⟩

/-- The total capacity as a number. -/
def System.capacitySum (sys : System RatFloat) : ℚ :=
  (sys.heavy.map fun s => capacityRat s.capacityH).sum +
    (sys.light.map fun s => capacityRat s.capacityL).sum

theorem System.NonNegative.totalCapacity_eq {sys : System RatFloat}
    (h : sys.NonNegative) : sys.totalCapacity = ofRat sys.capacitySum := by
  have hheavy := foldl_capacity (fun s => s.capacityH)
    (fun s => capacityRat s.capacityH)
    (fun s hs => (capacityRat_eq (h s (List.mem_append_left _ hs)).1).1) 0
  have hlight := foldl_capacity (fun s => s.capacityL)
    (fun s => capacityRat s.capacityL)
    (fun s hs => (capacityRat_eq (h s (List.mem_append_right _ hs)).2).1)
    (0 + (sys.heavy.map fun s => capacityRat s.capacityH).sum)
  unfold System.totalCapacity System.capacitySum
  rw [ofInt_eq, Int.cast_zero, hheavy, hlight, zero_add]

theorem System.NonNegative.capacitySum_nonneg {sys : System RatFloat}
    (h : sys.NonNegative) : 0 ≤ sys.capacitySum := by
  refine add_nonneg (List.sum_nonneg ?_) (List.sum_nonneg ?_)
  · intro x hx
    obtain ⟨s, hs, rfl⟩ := List.mem_map.mp hx
    exact (capacityRat_eq (h s (List.mem_append_left _ hs)).1).2
  · intro x hx
    obtain ⟨s, hs, rfl⟩ := List.mem_map.mp hx
    exact (capacityRat_eq (h s (List.mem_append_right _ hs)).2).2

theorem sum_eraseP {s : ServerDescription RatFloat}
    {l : List (ServerDescription RatFloat)}
    (hdistinct : (l.map (·.id)).Nodup) (hs : s ∈ l)
    (f : ServerDescription RatFloat → ℚ) :
    ((l.eraseP (·.id = s.id)).map f).sum = (l.map f).sum - f s := by
  induction l with
  | nil => cases hs
  | cons t l ih =>
      rw [List.map_cons] at hdistinct
      obtain ⟨hfirst, hrest⟩ := List.nodup_cons.mp hdistinct
      by_cases hid : t.id = s.id
      · rcases List.mem_cons.mp hs with rfl | hs
        · simp
        · rw [hid] at hfirst
          exact absurd (List.mem_map_of_mem hs) hfirst
      · have hne : s ≠ t := by
          rintro rfl
          exact hid rfl
        have hrest := ih hrest (List.mem_of_ne_of_mem hne hs)
        rw [List.eraseP_cons_of_neg (by simpa using hid), List.map_cons,
          List.map_cons, List.sum_cons, List.sum_cons, hrest]
        ring

theorem System.Distinct.parts {sys : System RatFloat} (h : sys.Distinct) :
    (sys.heavy.map (·.id)).Nodup ∧ (sys.light.map (·.id)).Nodup ∧
      ∀ s ∈ sys.heavy, ∀ t ∈ sys.light, s.id ≠ t.id := by
  unfold System.Distinct at h
  rw [List.map_append, List.nodup_append] at h
  obtain ⟨hheavy, hlight, hapart⟩ := h
  refine ⟨hheavy, hlight, ?_⟩
  intro s hs t ht
  exact hapart s.id (List.mem_map_of_mem hs) t.id (List.mem_map_of_mem ht)

theorem capacity_of_shutdown {sys : System RatFloat}
    {s : ServerDescription RatFloat} {heavy : List (ServerDescription RatFloat)}
    (hdistinct : sys.Distinct) (hnonneg : sys.NonNegative)
    (hs : sys.getMinDownscaleDelta.server = some s)
    (h : removeServer s sys.heavy = .ok heavy) :
    { sys with heavy := heavy }.NonNegative ∧
      sys.getMinDownscaleDelta.value =
        ofRat (sys.capacitySum -
          { sys with heavy := heavy }.capacitySum) := by
  obtain ⟨hheavy, -, hapart⟩ := hdistinct.parts
  obtain ⟨⟨t, ht, hid⟩, rfl⟩ := removeServer_ok h
  rcases System.getMinDownscaleDelta_target hs with
    ⟨hlight, -⟩ | ⟨-, hmem, hvalue⟩
  · exact absurd hid (hapart t ht s hlight)
  · constructor
    · intro u hu
      refine hnonneg u ?_
      rcases List.mem_append.mp hu with hu | hu
      · exact List.mem_append_left _ (List.mem_of_mem_eraseP hu)
      · exact List.mem_append_right _ hu
    · have hcap := capacityRat_eq (hnonneg s (List.mem_append_left _ hmem)).1
      rw [hvalue, hcap.1, System.capacitySum, System.capacitySum,
        sum_eraseP hheavy hmem]
      congr 1
      ring

/-- A light server becomes heavy. -/
theorem capacity_of_weaken {sys : System RatFloat}
    {s new : ServerDescription RatFloat}
    {light : List (ServerDescription RatFloat)}
    (hdistinct : sys.Distinct) (hnonneg : sys.NonNegative)
    (hs : sys.getMinDownscaleDelta.server = some s) (hclass : s.isHeavy = false)
    (hnewH : new.capacityH = s.capacityH) (hnewL : new.capacityL = ofInt 0)
    (fresh : ℕ) (h : removeServer s sys.light = .ok light) :
    { sys with
        heavy := sys.heavy ++ [new]
        light := light
        fresh := fresh }.NonNegative ∧
      sys.getMinDownscaleDelta.value =
        ofRat (sys.capacitySum -
          { sys with
            heavy := sys.heavy ++ [new]
            light := light
            fresh := fresh }.capacitySum) := by
  obtain ⟨-, hlight, -⟩ := hdistinct.parts
  obtain ⟨⟨t, ht, hid⟩, rfl⟩ := removeServer_ok h
  rcases System.getMinDownscaleDelta_target hs with
    ⟨hmem, hvalue⟩ | ⟨hnil, -, -⟩
  · obtain ⟨hH, hL⟩ := hnonneg s (List.mem_append_right _ hmem)
    constructor
    · intro u hu
      rcases List.mem_append.mp hu with hu | hu
      · rcases List.mem_append.mp hu with hu | hu
        · exact hnonneg u (List.mem_append_left _ hu)
        · rw [List.mem_singleton.mp hu, hnewH, hnewL]
          exact ⟨hH, ofRat_le.mpr (le_refl _)⟩
      · exact hnonneg u (List.mem_append_right _ (List.mem_of_mem_eraseP hu))
    · have hdelta : s.capacityDelta =
          ofRat (capacityRat s.capacityL - capacityRat s.capacityH) := by
        unfold ServerDescription.capacityDelta
        rw [hclass, if_neg Bool.false_ne_true, (capacityRat_eq hH).1,
          (capacityRat_eq hL).1]
        rfl
      rw [hvalue, hdelta, System.capacitySum, System.capacitySum,
        sum_eraseP hlight hmem, List.map_append, List.sum_append, List.map_cons,
        List.map_nil, List.sum_singleton, hnewH]
      congr 1
      ring
  · rw [hnil] at ht
    cases ht

/-- The state after a scale-in: the capacity that is lost is the predicted
one. -/
theorem downscale_capacity {st st' : State RatFloat} {port : ℤ}
    {server : Option (ServerDescription RatFloat)} {posts : List Post}
    (hdistinct : st.system.Distinct) (hnonneg : st.system.NonNegative)
    (hserver : server = st.system.getMinDownscaleDelta.server)
    (h : st.downscale port server = .ok (st', posts)) :
    st'.system.NonNegative ∧
      st.system.getMinDownscaleDelta.value =
        ofRat (st.system.capacitySum - st'.system.capacitySum) := by
  unfold State.downscale at h
  rcases server with _ | s
  · cases h
  · dsimp only at h
    split at h
    · obtain ⟨heavy, hremove, h⟩ := Except.bind_eq_ok.mp h
      obtain ⟨data, -, h⟩ := Except.bind_eq_ok.mp h
      obtain ⟨config, -, h⟩ := Except.bind_eq_ok.mp h
      obtain ⟨rfl, -⟩ := Prod.mk.inj (Except.ok.inj h)
      exact capacity_of_shutdown hdistinct hnonneg hserver.symm hremove
    · next hclass =>
        obtain ⟨light, hremove, h⟩ := Except.bind_eq_ok.mp h
        obtain ⟨data, -, h⟩ := Except.bind_eq_ok.mp h
        obtain ⟨config, -, h⟩ := Except.bind_eq_ok.mp h
        obtain ⟨rfl, -⟩ := Prod.mk.inj (Except.ok.inj h)
        refine capacity_of_weaken hdistinct hnonneg hserver.symm
          (by simpa using hclass) ?_ ?_ _ hremove
        · rfl
        · rfl

/-- After a scale-in that `calculateScaling` asked for, the same predicted load
does not ask for a scale-out. -/
theorem no_scale_out_after_scale_in {sys sys' : System RatFloat}
    {entry : MonitorEntry RatFloat} {c : Configuration} {wish : Wish RatFloat}
    (hwish : sys.calculateScaling entry c = .ok (sys', wish))
    (hdistinct : sys'.Distinct) (hnonneg : sys'.NonNegative)
    (htotal : entry.totalCapacity = sys'.totalCapacity)
    (hdown : wish.downscale = true) (config : Configuration) (port : ℤ)
    {st' : State RatFloat} {posts : List Post}
    (hact : { system := sys', config := config : State RatFloat }.downscale port
      wish.server = .ok (st', posts)) :
    (st'.system.wish c.maxReplicas
      (recordLoad entry.concRequests sys.loadHistory).2
      st'.system.totalCapacity).upscale = false := by
  have hasked : wish = sys'.wish c.maxReplicas
      (recordLoad entry.concRequests sys.loadHistory).2 entry.totalCapacity := by
    unfold System.calculateScaling at hwish
    dsimp only at hwish
    split at hwish
    · cases hwish
    · split at hwish
      · cases hwish
      · obtain ⟨rfl, rfl⟩ := Prod.mk.inj (Except.ok.inj hwish)
        rfl
  rw [hasked] at hdown hact
  obtain ⟨hload, hserver⟩ := System.wish_downscale hdown
  obtain ⟨hnonneg', hloss⟩ := downscale_capacity hdistinct hnonneg hserver hact
  dsimp only at hloss
  refine System.wish_not_upscale ?_
  rw [hnonneg'.totalCapacity_eq, lit_eq, ofRat_mul]
  have hleft := hnonneg'.capacitySum_nonneg
  rcases hload with hzero | hbelow
  · obtain ⟨q, hpredict, hq⟩ := exists_of_eq hzero
    obtain rfl : q = 0 := (ofRat_inj.mp hq).symm
    rw [hpredict, ofRat_lt_false]
    linarith
  · rw [htotal, hnonneg.totalCapacity_eq, hloss, ofRat_sub, lit_eq,
      ofRat_mul] at hbelow
    obtain ⟨p, q, hpredict, hq, hlt⟩ := exists_of_lt hbelow
    rw [hpredict, ofRat_lt_false]
    have hq := ofRat_inj.mp hq
    linarith

/-- A heavy and a light server, with the capacities of the entry below. -/
def heavyLightSystem : System RatFloat where
  heavy := [⟨0, [], 8000, ofInt 10, ofInt 0, true⟩]
  light := [⟨1, [], 8001, ofInt 10, ofInt 30, false⟩]
  loadHistory := []
  fresh := 2

/-- A load that the heavy server can take alone. -/
def heavyLightEntry : MonitorEntry RatFloat where
  concRequests := ofInt 5
  totalCapacity := ofInt 40
  servers := some [⟨[], 8000, ofInt 10⟩, ⟨[], 8001, ofInt 30⟩]

theorem no_scale_out_after_light :
    ∃ (sys' : System RatFloat) (wish : Wish RatFloat) (st' : State RatFloat)
      (posts : List Post),
      heavyLightSystem.calculateScaling heavyLightEntry (.new 100 2) =
        .ok (sys', wish) ∧
      { system := sys', config := .new 100 2 : State RatFloat }.downscale 8002
        wish.server = .ok (st', posts) ∧
      (st'.system.wish 2
        (recordLoad heavyLightEntry.concRequests heavyLightSystem.loadHistory).2
        st'.system.totalCapacity).upscale = false := by
  obtain ⟨⟨sys', wish⟩, hwish, hany⟩ := @Except.exists_ok_of_any _ _
    (heavyLightSystem.calculateScaling heavyLightEntry (.new 100 2))
    (fun res : System RatFloat × Wish RatFloat =>
      decide ((res.1.heavy ++ res.1.light).map (·.id)).Nodup &&
        (res.1.heavy ++ res.1.light).all (fun s =>
          le (ofInt 0) s.capacityH && le (ofInt 0) s.capacityL) &&
        decide (heavyLightEntry.totalCapacity = res.1.totalCapacity) &&
        res.2.downscale &&
        (({ system := res.1, config := .new 100 2 : State RatFloat }.downscale
          8002 res.2.server).toOption.any fun _ => true))
    (by decide +kernel)
  simp only [Bool.and_eq_true, decide_eq_true_eq, List.all_eq_true] at hany
  obtain ⟨⟨⟨⟨hdistinct, hnonneg⟩, htotal⟩, hdown⟩, hact⟩ := hany
  obtain ⟨⟨st', posts⟩, hact, -⟩ := Except.exists_ok_of_any hact
  exact ⟨sys', wish, st', posts, hwish, hact, no_scale_out_after_scale_in hwish
    hdistinct hnonneg htotal hdown (.new 100 2) 8002 hact⟩

/-- Four heavy servers, with rounded capacities and loads of type `double`. -/
def roundedSystem : System MachineFloat where
  heavy :=
    [⟨0, [], 8000, lit (176 / 100), ofInt 0, true⟩,
      ⟨1, [], 8001, lit (288 / 100), ofInt 0, true⟩,
      ⟨2, [], 8002, lit (984 / 100), ofInt 0, true⟩,
      ⟨3, [], 8003, lit (228 / 100), ofInt 0, true⟩]
  light := []
  loadHistory := [lit 13]
  fresh := 4

/-- A load of 14, which makes the predicted one 13.5. -/
def roundedEntry : MonitorEntry MachineFloat where
  concRequests := lit 14
  totalCapacity := lit (1676 / 100)
  servers := some
    [⟨[], 8000, lit (176 / 100)⟩, ⟨[], 8001, lit (288 / 100)⟩, ⟨[], 8002, lit (984 / 100)⟩,
      ⟨[], 8003, lit (228 / 100)⟩]

/-- Rounding separates the two thresholds: the capacity before the scale-in less the loss is
above 15, and the sum of the three capacities that remain is below. -/
theorem not_no_scale_out_rounded :
    ∃ (sys' : System MachineFloat) (wish : Wish MachineFloat) (st' : State MachineFloat)
      (posts : List Post),
      roundedSystem.calculateScaling roundedEntry (.new 100 4) = .ok (sys', wish) ∧
      sys'.Distinct ∧ sys'.NonNegative ∧ roundedEntry.totalCapacity = sys'.totalCapacity ∧
      wish.downscale = true ∧
      { system := sys', config := .new 100 4 : State MachineFloat }.downscale 8004
        wish.server = .ok (st', posts) ∧
      (st'.system.wish 4
        (recordLoad roundedEntry.concRequests roundedSystem.loadHistory).2
        st'.system.totalCapacity).upscale = true := by
  obtain ⟨⟨sys', wish⟩, hwish, hany⟩ := @Except.exists_ok_of_any _ _
    (roundedSystem.calculateScaling roundedEntry (.new 100 4))
    (fun res : System MachineFloat × Wish MachineFloat =>
      decide ((res.1.heavy ++ res.1.light).map (·.id)).Nodup &&
        (res.1.heavy ++ res.1.light).all (fun s =>
          le (ofInt 0) s.capacityH && le (ofInt 0) s.capacityL) &&
        decide (roundedEntry.totalCapacity = res.1.totalCapacity) &&
        res.2.downscale &&
        (({ system := res.1, config := .new 100 4 : State MachineFloat }.downscale
          8004 res.2.server).toOption.any fun act =>
            (act.1.system.wish 4
              (recordLoad roundedEntry.concRequests roundedSystem.loadHistory).2
              act.1.system.totalCapacity).upscale))
    (by decide +kernel)
  simp only [Bool.and_eq_true, decide_eq_true_eq, List.all_eq_true] at hany
  obtain ⟨⟨⟨⟨hdistinct, hnonneg⟩, htotal⟩, hdown⟩, hact⟩ := hany
  obtain ⟨⟨st', posts⟩, hact, hup⟩ := Except.exists_ok_of_any hact
  exact ⟨sys', wish, st', posts, hwish, hdistinct, hnonneg, htotal, hdown, hact, hup⟩

end MultiversionBalancer.Autoscaler
