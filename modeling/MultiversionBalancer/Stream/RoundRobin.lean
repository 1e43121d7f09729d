import MultiversionBalancer.Lib.Smooth
import Mathlib.Data.Finset.Max
import Mathlib.Data.Fintype.Lattice
import Mathlib.Algebra.BigOperators.Fin
import Mathlib.Tactic.NormNum

/-!
# Round robin of the stream module

`ngx_stream_upstream_get_peer` chooses by smooth weighted round robin.  When all peers
are eligible and none has failed, it is the selection of `Lib.Smooth` as long as the
levels of that selection are values of `ngx_int_t`.  Weights go up to the greatest value
of that type, so a total weight that fits is not enough: a level can be greater than the
total weight, but not greater than its product with a harmonic number.
-/

namespace MultiversionBalancer.Stream

open Lib

/-- The value of `ngx_int_t`, a type of 64 bits, that an operation leaves. -/
def ngxInt (x : ℤ) : ℤ :=
  x.bmod (2 ^ 64)

/-- The fields of `ngx_stream_upstream_rr_peer_t` that the selection uses. -/
structure RrPeer where
  weight : ℤ
  effectiveWeight : ℤ
  currentWeight : ℤ
  conns : ℕ
  maxConns : ℕ
  fails : ℕ
  maxFails : ℕ
  checked : ℤ
  failTimeout : ℤ
  down : Bool

/-- The tests of the loop of `ngx_stream_upstream_get_peer`. -/
def RrPeer.skipped (now : ℤ) (peer : RrPeer) : Bool :=
  peer.down ||
    (peer.maxFails != 0 && decide (peer.maxFails ≤ peer.fails) &&
      decide (now - peer.checked ≤ peer.failTimeout)) ||
    (peer.maxConns != 0 && decide (peer.maxConns ≤ peer.conns))

def RrPeer.raise (peer : RrPeer) : RrPeer :=
  { peer with
    currentWeight := ngxInt (peer.currentWeight + peer.effectiveWeight)
    effectiveWeight :=
      if peer.effectiveWeight < peer.weight then ngxInt (peer.effectiveWeight + 1)
      else peer.effectiveWeight }

/-- The best peer behind the peer `i`, which has this `current_weight`. -/
def better (i : ℕ) (level : ℤ) : Option (ℕ × ℤ) → ℕ × ℤ
  | none => (i, level)
  | some b => if b.2 < level then (i, level) else b

/-- The loop of `ngx_stream_upstream_get_peer` from the peer `i` on: the peers, the best
one with its `current_weight`, and `total`. -/
def scanPeers (now : ℤ) (tried : ℕ → Bool) :
    ℕ → List RrPeer → Option (ℕ × ℤ) → ℤ → List RrPeer × Option (ℕ × ℤ) × ℤ
  | _, [], best, total => ([], best, total)
  | i, peer :: peers, best, total =>
      if tried i || peer.skipped now then
        let r := scanPeers now tried (i + 1) peers best total
        (peer :: r.1, r.2)
      else
        let raised := peer.raise
        let best := better i raised.currentWeight best
        let r := scanPeers now tried (i + 1) peers (some best)
          (ngxInt (total + peer.effectiveWeight))
        (raised :: r.1, r.2)

/-- What happens to the chosen peer. -/
def RrPeer.choose (now total : ℤ) (peer : RrPeer) : RrPeer :=
  { peer with
    currentWeight := ngxInt (peer.currentWeight - total)
    checked := if peer.failTimeout < now - peer.checked then now else peer.checked }

/-- `ngx_stream_upstream_get_peer`: the chosen peer, the peers and `tried`. -/
def ngxStreamUpstreamGetPeer (now : ℤ) (tried : ℕ → Bool) (peers : List RrPeer) :
    Option (ℕ × List RrPeer × (ℕ → Bool)) :=
  let r := scanPeers now tried 0 peers none 0
  r.2.1.map fun best =>
    (best.1, r.1.modify best.1 (RrPeer.choose now r.2.2), Function.update tried best.1 true)

/-- A selection for a session: the time, and the connections that each peer has then. -/
structure Turn where
  now : ℤ
  conns : ℕ → ℕ

def Turn.peers (turn : Turn) (peers : List RrPeer) : List RrPeer :=
  peers.mapIdx fun i peer => { peer with conns := turn.conns i }

/-- The selections of sessions that have tried nothing: the chosen peers and the peers
behind the last turn. -/
def select : List Turn → List RrPeer → Option (List ℕ × List RrPeer)
  | [], peers => some ([], peers)
  | turn :: turns, peers =>
      (ngxStreamUpstreamGetPeer turn.now (fun _ => false) (turn.peers peers)).bind fun r =>
        (select turns r.2.1).map fun s => (r.1 :: s.1, s.2)

/-! ## The range of `ngx_int_t` -/

theorem ngxInt_eq_self {x : ℤ} (hlow : -2 ^ 63 ≤ x) (hhigh : x < 2 ^ 63) : ngxInt x = x := by
  rw [ngxInt]
  apply Int.bmod_eq_of_le <;> omega

@[simp] theorem ngxInt_ngxInt (x : ℤ) : ngxInt (ngxInt x) = ngxInt x :=
  Int.bmod_bmod

@[simp] theorem ngxInt_ngxInt_add (x y : ℤ) : ngxInt (ngxInt x + y) = ngxInt (x + y) :=
  Int.bmod_add_bmod

/-! ## The best peer -/

/-- `b` is the first place of the greatest level, with that level. -/
structure Best (levels : List ℤ) (b : ℕ × ℤ) : Prop where
  level : levels[b.1]? = some b.2
  greatest : ∀ x ∈ levels, x ≤ b.2
  first : ∀ j < b.1, ∀ x, levels[j]? = some x → x < b.2

theorem Best.singleton (x : ℤ) : Best [x] (0, x) := by
  refine ⟨rfl, ?_, fun j hj => absurd hj (Nat.not_lt_zero j)⟩
  intro y hy
  rw [List.mem_singleton.mp hy]

/-- The comparison of the loop with the next peer. -/
theorem Best.snoc {levels : List ℤ} {b : ℕ × ℤ} (h : Best levels b) (x : ℤ) :
    Best (levels ++ [x]) (if b.2 < x then (levels.length, x) else b) := by
  have hb : b.1 < levels.length := (List.getElem?_eq_some_iff.mp h.level).1
  by_cases hx : b.2 < x
  · rw [if_pos hx]
    refine ⟨List.getElem?_concat_length, ?_, ?_⟩
    · intro y hy
      rcases List.mem_append.mp hy with hy | hy
      · exact (h.greatest y hy).trans hx.le
      · rw [List.mem_singleton.mp hy]
    · intro j hj y hy
      rw [List.getElem?_append_left hj] at hy
      exact (h.greatest y (List.mem_of_getElem? hy)).trans_lt hx
  · rw [if_neg hx]
    refine ⟨?_, ?_, ?_⟩
    · rw [List.getElem?_append_left hb]
      exact h.level
    · intro y hy
      rcases List.mem_append.mp hy with hy | hy
      · exact h.greatest y hy
      · rw [List.mem_singleton.mp hy]
        exact not_lt.mp hx
    · intro j hj y hy
      rw [List.getElem?_append_left (hj.trans hb)] at hy
      exact h.first j hj y hy

/-- The best peer of those the loop has passed. -/
def BestSoFar (levels : List ℤ) : Option (ℕ × ℤ) → Prop
  | none => levels = []
  | some b => Best levels b

theorem scanPeers_spec {now : ℤ} {peers : List RrPeer}
    (heligible : ∀ p ∈ peers, p.skipped now = false) (levels : List ℤ) {best : Option (ℕ × ℤ)}
    (hbest : BestSoFar levels best) {total : ℤ} (htotal : ngxInt total = total) :
    ∃ best', scanPeers now (fun _ => false) levels.length peers best total =
        (peers.map RrPeer.raise, best', ngxInt (total + (peers.map RrPeer.effectiveWeight).sum)) ∧
      BestSoFar (levels ++ peers.map fun p => p.raise.currentWeight) best' := by
  induction peers generalizing levels best total with
  | nil =>
      refine ⟨best, ?_, ?_⟩
      · rw [scanPeers, List.map_nil, List.map_nil, List.sum_nil, add_zero, htotal]
      · rwa [List.map_nil, List.append_nil]
  | cons p peers ih =>
      have hskip : (false || p.skipped now) = false := by
        rw [heligible p List.mem_cons_self]
        rfl
      have hrest : ∀ q ∈ peers, q.skipped now = false := fun q hq =>
        heligible q (List.mem_cons_of_mem p hq)
      have hnext : BestSoFar (levels ++ [p.raise.currentWeight])
          (some (better levels.length p.raise.currentWeight best)) := by
        cases best with
        | none =>
            have hnil : levels = [] := hbest
            rw [hnil]
            exact Best.singleton _
        | some b => exact Best.snoc hbest _
      obtain ⟨best', hscan, hbest'⟩ := ih hrest _ hnext (ngxInt_ngxInt (total + p.effectiveWeight))
      rw [List.length_append, List.length_singleton] at hscan
      refine ⟨best', ?_, ?_⟩
      · rw [scanPeers, hskip]
        simp only [Bool.false_eq_true, if_false]
        rw [hscan, List.map_cons, List.map_cons, List.sum_cons, ngxInt_ngxInt_add, add_assoc]
      · rwa [List.append_assoc] at hbest'

theorem getPeer_spec {now : ℤ} {peers : List RrPeer} (hne : peers ≠ [])
    (heligible : ∀ p ∈ peers, p.skipped now = false) :
    ∃ b tried, Best (peers.map fun p => p.raise.currentWeight) b ∧
      ngxStreamUpstreamGetPeer now (fun _ => false) peers =
        some (b.1, (peers.map RrPeer.raise).modify b.1
          (RrPeer.choose now (ngxInt (peers.map RrPeer.effectiveWeight).sum)), tried) := by
  have hzero : ngxInt 0 = 0 := rfl
  obtain ⟨best, hscan, hbest⟩ := scanPeers_spec heligible [] (show BestSoFar [] none from rfl) hzero
  rw [List.nil_append] at hbest
  cases best with
  | none => exact absurd (List.map_eq_nil_iff.mp hbest) hne
  | some b =>
      refine ⟨b, Function.update (fun _ => false) b.1 true, hbest, ?_⟩
      rw [ngxStreamUpstreamGetPeer]
      rw [List.length_nil] at hscan
      simp only [hscan, Option.map_some, zero_add]

/-! ## Turns -/

noncomputable def firstGreatest {n : ℕ} [NeZero n] (l : Fin n → ℤ) : Fin n :=
  (Finset.univ.filter fun i => ∀ j, l j ≤ l i).min' (by
    obtain ⟨i, hi⟩ := Finite.exists_max l
    exact ⟨i, Finset.mem_filter.mpr ⟨Finset.mem_univ i, hi⟩⟩)

theorem le_firstGreatest {n : ℕ} [NeZero n] (l : Fin n → ℤ) (i : Fin n) :
    l i ≤ l (firstGreatest l) :=
  (Finset.mem_filter.mp (Finset.min'_mem (Finset.univ.filter fun i => ∀ j, l j ≤ l i) _)).2 i

theorem Best.eq_firstGreatest {n : ℕ} [NeZero n] {levels : List ℤ} {b : ℕ × ℤ}
    (h : Best levels b) {l : Fin n → ℤ} (hl : levels = List.ofFn l) :
    b.1 = firstGreatest l := by
  have hlevel := h.level
  rw [hl, List.getElem?_ofFn] at hlevel
  obtain ⟨hb, hlevel⟩ : ∃ hb : b.1 < n, l ⟨b.1, hb⟩ = b.2 := by
    by_cases hb : b.1 < n
    · rw [dif_pos hb] at hlevel
      exact ⟨hb, Option.some.inj hlevel⟩
    · rw [dif_neg hb] at hlevel
      exact absurd hlevel nofun
  have hmem (i : Fin n) : l i ≤ l ⟨b.1, hb⟩ := by
    rw [hlevel]
    refine h.greatest _ ?_
    rw [hl]
    exact List.mem_ofFn.mpr ⟨i, rfl⟩
  have hle : firstGreatest l ≤ ⟨b.1, hb⟩ :=
    Finset.min'_le _ _ (Finset.mem_filter.mpr ⟨Finset.mem_univ _, hmem⟩)
  refine Nat.le_antisymm ?_ hle
  by_contra hlt
  have hless := h.first (firstGreatest l) (Nat.lt_of_not_le hlt) (l (firstGreatest l)) (by
    rw [hl, List.getElem?_ofFn, dif_pos (firstGreatest l).isLt])
  rw [← hlevel] at hless
  exact absurd (le_firstGreatest l ⟨b.1, hb⟩) (not_le.mpr hless)

/-- A peer without failures that has not been chosen yet. -/
structure RrPeer.Fresh (p : RrPeer) : Prop where
  positive : 0 < p.weight
  effective : p.effectiveWeight = p.weight
  current : p.currentWeight = 0
  fails : p.fails = 0
  up : p.down = false

/-- The total weight and the levels of a round are values of `ngx_int_t`. -/
structure Fits {n : ℕ} [NeZero n] (w l : Fin n → ℤ) : Prop where
  total : ngxInt (∑ i, w i) = ∑ i, w i
  raised : ∀ i, ngxInt (Smooth.raised w l i) = Smooth.raised w l i
  advance : ∀ i, ngxInt (Smooth.advance w firstGreatest l i) = Smooth.advance w firstGreatest l i

theorem fits_levels {n : ℕ} [NeZero n] {w : Fin n → ℤ} (hw : ∀ i, 0 < w i)
    (hbound : ((∑ i, w i : ℤ) : ℚ) * harmonic n < 2 ^ 63) (t : ℕ) :
    Fits w (Smooth.levels w firstGreatest t) := by
  have hpos : 0 < ∑ i, w i :=
    Finset.sum_pos (fun i _ => hw i) ⟨0, Finset.mem_univ _⟩
  have hraised (s : ℕ) (i : Fin n) :
      Smooth.raised w (Smooth.levels w firstGreatest s) i < 2 ^ 63 := by
    have hle := Smooth.raised_le hw le_firstGreatest s i
    rw [Fintype.card_fin] at hle
    exact_mod_cast hle.trans_lt hbound
  have htotal : ∑ i, w i < 2 ^ 63 := by
    have hone : harmonic 1 ≤ harmonic n := Smooth.harmonic_mono (NeZero.one_le)
    have hharmonic : (1 : ℚ) ≤ harmonic n := by
      simpa [harmonic_succ] using hone
    have hle : ((∑ i, w i : ℤ) : ℚ) ≤ ((∑ i, w i : ℤ) : ℚ) * harmonic n :=
      le_mul_of_one_le_right (Int.cast_nonneg hpos.le) hharmonic
    exact_mod_cast hle.trans_lt hbound
  have hgrown (s : ℕ) (i : Fin n) :
      Smooth.levels w firstGreatest s i < Smooth.raised w (Smooth.levels w firstGreatest s) i :=
    lt_add_of_pos_right _ (hw i)
  have hlow (s : ℕ) (i : Fin n) : -∑ j, w j < Smooth.levels w firstGreatest s i :=
    Smooth.levels_gt hw le_firstGreatest s i
  refine ⟨ngxInt_eq_self (by omega) htotal, ?_, ?_⟩
  · intro i
    have hgt := hlow t i
    have hgrows := hgrown t i
    exact ngxInt_eq_self (by omega) (hraised t i)
  · intro i
    have hgt := hlow (t + 1) i
    have hlt := (hgrown (t + 1) i).trans (hraised (t + 1) i)
    exact ngxInt_eq_self (by simp only [Smooth.levels] at hgt; omega) hlt

/-- At a turn all peers can take a connection. -/
def Turn.Room (turn : Turn) (peers : List RrPeer) : Prop :=
  ∀ i p, peers[i]? = some p → p.maxConns = 0 ∨ turn.conns i < p.maxConns

/-- The peers behind some turns: `start` are those before the first one. -/
structure Keeps (start peers : List RrPeer) (l : Fin start.length → ℤ) : Prop where
  length : peers.length = start.length
  peer : ∀ (i : Fin start.length) p, peers[(i : ℕ)]? = some p →
    p.weight = (start.get i).weight ∧ p.effectiveWeight = (start.get i).weight ∧
      p.currentWeight = l i ∧ p.fails = 0 ∧ p.down = false ∧
      p.maxConns = (start.get i).maxConns

def weights (peers : List RrPeer) (i : Fin peers.length) : ℤ :=
  (peers.get i).weight

theorem Turn.getElem?_peers (turn : Turn) (peers : List RrPeer) (i : ℕ) :
    (turn.peers peers)[i]? = peers[i]?.map fun p => { p with conns := turn.conns i } := by
  rw [Turn.peers, List.getElem?_mapIdx]

section Turns

variable {start peers : List RrPeer} {l : Fin start.length → ℤ}

theorem Keeps.map_eq_ofFn (h : Keeps start peers l) {f : RrPeer → ℤ}
    {g : Fin start.length → ℤ}
    (hf : ∀ (i : Fin start.length) p, peers[(i : ℕ)]? = some p → f p = g i) :
    peers.map f = List.ofFn g := by
  apply List.ext_getElem?
  intro i
  rw [List.getElem?_map, List.getElem?_ofFn]
  by_cases hi : i < start.length
  · have hi' : i < peers.length := by rwa [h.length]
    rw [dif_pos hi, List.getElem?_eq_getElem hi', Option.map_some]
    exact congrArg some (hf ⟨i, hi⟩ _ (List.getElem?_eq_getElem hi'))
  · have hi' : peers.length ≤ i := by
      rw [h.length]
      exact not_lt.mp hi
    rw [dif_neg hi, List.getElem?_eq_none hi']
    rfl

/-- The connections do not matter. -/
theorem Keeps.atTurn (h : Keeps start peers l) (turn : Turn) :
    Keeps start (turn.peers peers) l := by
  refine ⟨?_, ?_⟩
  · rw [Turn.peers, List.length_mapIdx, h.length]
  · intro i p hp
    rw [Turn.getElem?_peers] at hp
    obtain ⟨q, hq, rfl⟩ := Option.map_eq_some_iff.mp hp
    exact h.peer i q hq

theorem Turn.Room.not_skipped {turn : Turn} (hroom : turn.Room start) (h : Keeps start peers l) :
    ∀ p ∈ turn.peers peers, p.skipped turn.now = false := by
  intro p hp
  obtain ⟨i, hi⟩ := List.mem_iff_getElem?.mp hp
  obtain ⟨hlt, -⟩ := List.getElem?_eq_some_iff.mp hi
  rw [(h.atTurn turn).length] at hlt
  rw [Turn.getElem?_peers] at hi
  obtain ⟨q, hq, rfl⟩ := Option.map_eq_some_iff.mp hi
  obtain ⟨-, -, -, hfails, hdown, hmax⟩ := h.peer ⟨i, hlt⟩ q hq
  have hconns : (q.maxConns != 0 && decide (q.maxConns ≤ turn.conns i)) = false := by
    rw [hmax]
    rcases hroom i _ (List.getElem?_eq_getElem hlt) with hzero | hless
    · rw [List.get_eq_getElem, hzero]
      rfl
    · rw [List.get_eq_getElem, decide_eq_false (Nat.not_le_of_lt hless), Bool.and_false]
  have hfailed : (q.maxFails != 0 && decide (q.maxFails ≤ q.fails)) = false := by
    rw [hfails]
    by_cases hzero : q.maxFails = 0
    · rw [hzero]
      rfl
    · rw [decide_eq_false (by omega), Bool.and_false]
  rw [RrPeer.skipped]
  simp only [hdown, hfailed, hconns, Bool.false_or, Bool.false_and]

/-- One selection. -/
theorem Keeps.turn (h : Keeps start peers l) [NeZero start.length] {turn : Turn}
    (hroom : turn.Room start) (hfits : Fits (weights start) l) :
    ∃ peers' tried, ngxStreamUpstreamGetPeer turn.now (fun _ => false) (turn.peers peers) =
        some ((firstGreatest (Smooth.raised (weights start) l) : ℕ), peers', tried) ∧
      Keeps start peers' (Smooth.advance (weights start) firstGreatest l) := by
  have h' := h.atTurn turn
  have hne : turn.peers peers ≠ [] := fun hnil => by
    have hlength := h'.length
    rw [hnil] at hlength
    exact NeZero.ne start.length hlength.symm
  obtain ⟨b, tried, hbest, hget⟩ := getPeer_spec hne (hroom.not_skipped h)
  have hraised : ((turn.peers peers).map fun p => p.raise.currentWeight) =
      List.ofFn (Smooth.raised (weights start) l) := by
    refine h'.map_eq_ofFn fun i p hp => ?_
    obtain ⟨-, heffective, hcurrent, -⟩ := h'.peer i p hp
    have hgrown : p.raise.currentWeight = ngxInt (Smooth.raised (weights start) l i) := by
      rw [RrPeer.raise, heffective, hcurrent]
      rfl
    rw [hgrown, hfits.raised]
  have htotal : ((turn.peers peers).map RrPeer.effectiveWeight).sum = ∑ i, weights start i := by
    rw [h'.map_eq_ofFn (g := weights start) fun i p hp => (h'.peer i p hp).2.1, List.sum_ofFn]
  have hb := hbest.eq_firstGreatest hraised
  rw [hb, htotal, hfits.total] at hget
  refine ⟨_, tried, hget, ?_, ?_⟩
  · rw [List.length_modify, List.length_map, h'.length]
  · intro i p hp
    rw [List.getElem?_modify, List.getElem?_map] at hp
    obtain ⟨r, hr, hp⟩ := Option.map_eq_some_iff.mp hp
    obtain ⟨q, hq, rfl⟩ := Option.map_eq_some_iff.mp hr
    obtain ⟨hweight, heffective, hcurrent, hfails, hdown, hmax⟩ := h'.peer i q hq
    have heffective' : ¬q.effectiveWeight < q.weight := by
      rw [heffective, hweight]
      exact lt_irrefl _
    have hlevel : ngxInt (q.currentWeight + q.effectiveWeight) =
        Smooth.raised (weights start) l i := by
      rw [hcurrent, heffective]
      exact hfits.raised i
    by_cases hi : (firstGreatest (Smooth.raised (weights start) l) : ℕ) = i
    · rw [if_pos hi] at hp
      subst hp
      refine ⟨hweight, ?_, ?_, hfails, hdown, hmax⟩
      · simp only [RrPeer.choose, RrPeer.raise, if_neg heffective']
        exact heffective
      · have hpaid := hfits.advance i
        rw [Smooth.advance, if_pos (Fin.ext hi.symm)] at hpaid
        simp only [RrPeer.choose, RrPeer.raise]
        rw [hlevel, hpaid, Smooth.advance, if_pos (Fin.ext hi.symm)]
    · rw [if_neg hi] at hp
      subst hp
      refine ⟨hweight, ?_, ?_, hfails, hdown, hmax⟩
      · simp only [RrPeer.raise, if_neg heffective']
        exact heffective
      · simp only [RrPeer.raise]
        rw [hlevel, Smooth.advance, if_neg fun heq => hi (congrArg Fin.val heq).symm, sub_zero]

theorem Keeps.select [NeZero start.length] {turns : List Turn}
    (hroom : ∀ turn ∈ turns, turn.Room start)
    (hfits : ∀ t, Fits (weights start) (Smooth.levels (weights start) firstGreatest t))
    {t : ℕ} {peers : List RrPeer}
    (h : Keeps start peers (Smooth.levels (weights start) firstGreatest t)) :
    ∃ peers', Stream.select turns peers =
        some ((List.range turns.length).map fun k =>
          (Smooth.chosen (weights start) firstGreatest (t + k)).val, peers') ∧
      Keeps start peers' (Smooth.levels (weights start) firstGreatest (t + turns.length)) := by
  induction turns generalizing t peers with
  | nil => exact ⟨peers, rfl, h⟩
  | cons turn turns ih =>
      obtain ⟨peers₁, tried, hget, h₁⟩ := h.turn (hroom turn List.mem_cons_self) (hfits t)
      obtain ⟨peers', hselect, h'⟩ := ih (t := t + 1)
        (fun turn' hturn => hroom turn' (List.mem_cons_of_mem turn hturn)) h₁
      have hshift : t + (turns.length + 1) = t + 1 + turns.length := by omega
      refine ⟨peers', ?_, ?_⟩
      · rw [Stream.select, hget, Option.bind_some, hselect, Option.map_some, List.length_cons,
          List.range_succ_eq_map, List.map_cons, List.map_map]
        refine congrArg some (Prod.ext ?_ rfl)
        refine congrArg₂ List.cons rfl (List.map_congr_left fun k _ => ?_)
        rw [Function.comp_apply, Nat.succ_eq_add_one, Nat.add_right_comm t 1 k, Nat.add_assoc]
      · rw [List.length_cons, hshift]
        exact h'

theorem keeps_start (hfresh : ∀ p ∈ start, p.Fresh) : Keeps start start fun _ => 0 := by
  refine ⟨rfl, ?_⟩
  intro i p hp
  have hget : p = start.get i := by
    rw [List.getElem?_eq_getElem i.isLt] at hp
    exact (Option.some.inj hp).symm
  have hf := hfresh p (List.mem_of_getElem? hp)
  subst hget
  exact ⟨rfl, hf.effective, hf.current, hf.fails, hf.up, rfl⟩

end Turns

/-- The selections among eligible peers without failures: the levels, the shares of the
peers and the period.  The bound is on the weights alone; it keeps every level in the
range of `ngx_int_t`. -/
theorem select_proportional (peers : List RrPeer) (hfresh : ∀ p ∈ peers, p.Fresh)
    (hbound : ((peers.map RrPeer.weight).sum : ℚ) * harmonic peers.length < 2 ^ 63)
    (turns : List Turn) (hroom : ∀ turn ∈ turns, turn.Room peers) :
    peers = [] ∨ ∃ chosen peers', select turns peers = some (chosen, peers') ∧
      (peers'.map RrPeer.currentWeight).sum = 0 ∧
      (∀ p ∈ peers', -(peers.map RrPeer.weight).sum < p.currentWeight) ∧
      (turns.length = (peers.map RrPeer.weight).sum →
        (∀ i p, peers[i]? = some p → (chosen.count i : ℤ) = p.weight) ∧
        ∀ p ∈ peers', p.currentWeight = 0) ∧
      ∀ t k : ℕ, t = (peers.map RrPeer.weight).sum → k + t < turns.length →
        chosen[k + t]? = chosen[k]? := by
  by_cases hnil : peers = []
  · exact .inl hnil
  right
  have : NeZero peers.length := ⟨fun hzero => hnil (List.length_eq_zero_iff.mp hzero)⟩
  have hw (i : Fin peers.length) : 0 < weights peers i := (hfresh _ (List.get_mem peers i)).positive
  have hsum : (peers.map RrPeer.weight).sum = ∑ i, weights peers i := by
    rw [← List.sum_ofFn]
    congr 1
    exact (keeps_start hfresh).map_eq_ofFn fun i p hp => ((keeps_start hfresh).peer i p hp).1
  have hfits (t : ℕ) : Fits (weights peers) (Smooth.levels (weights peers) firstGreatest t) :=
    fits_levels hw (by rwa [← hsum]) t
  obtain ⟨peers', hselect, hkeeps⟩ := Keeps.select hroom hfits (t := 0) (keeps_start hfresh)
  rw [Nat.zero_add] at hkeeps
  simp only [Nat.zero_add] at hselect
  have hlevel (p : RrPeer) (hp : p ∈ peers') : ∃ i,
      p.currentWeight = Smooth.levels (weights peers) firstGreatest turns.length i := by
    obtain ⟨i, hi⟩ := List.mem_iff_getElem?.mp hp
    have hlt : i < peers.length := by
      rw [← hkeeps.length]
      exact (List.getElem?_eq_some_iff.mp hi).1
    exact ⟨⟨i, hlt⟩, (hkeeps.peer ⟨i, hlt⟩ p hi).2.2.1⟩
  refine ⟨_, peers', hselect, ?_, ?_, ?_, ?_⟩
  · rw [hkeeps.map_eq_ofFn fun i p hp => (hkeeps.peer i p hp).2.2.1, List.sum_ofFn]
    exact Smooth.sum_levels _
  · intro p hp
    obtain ⟨i, hi⟩ := hlevel p hp
    rw [hi, hsum]
    exact Smooth.levels_gt hw le_firstGreatest _ i
  · intro hround
    rw [hsum] at hround
    refine ⟨?_, ?_⟩
    · intro i p hp
      obtain ⟨hlt, hget⟩ := List.getElem?_eq_some_iff.mp hp
      have hcount := Smooth.count_period hw le_firstGreatest hround ⟨i, hlt⟩
      rw [Smooth.count, ← List.count_map_of_injective _ _ Fin.val_injective, List.map_map] at hcount
      refine hcount.trans ?_
      exact congrArg RrPeer.weight hget
    · intro p hp
      obtain ⟨i, hi⟩ := hlevel p hp
      rw [hi, Smooth.levels_period hw le_firstGreatest hround]
  · intro t k ht hlt
    have hk : k < turns.length := by omega
    rw [List.getElem?_map, List.getElem?_map, List.getElem?_range hlt, List.getElem?_range hk,
      Option.map_some, Option.map_some,
      Smooth.chosen_add_period hw le_firstGreatest (ht.trans hsum)]

/-- A peer that has not been used yet. -/
def newPeer (weight : ℤ) : RrPeer where
  weight := weight
  effectiveWeight := weight
  currentWeight := 0
  conns := 0
  maxConns := 0
  fails := 0
  maxFails := 1
  checked := 0
  failTimeout := 10
  down := false

/-- Three turns for two peers, the first of which gets two of them. -/
theorem select_proportional_two_one :
    ∃ chosen peers', select (List.replicate 3 ⟨0, fun _ => 0⟩) [newPeer 2, newPeer 1] =
        some (chosen, peers') ∧ chosen.count 0 = 2 := by
  have hfresh : ∀ p ∈ [newPeer 2, newPeer 1], p.Fresh := by
    intro p hp
    rcases List.mem_pair.mp hp with rfl | rfl
    · exact ⟨by decide, rfl, rfl, rfl, rfl⟩
    · exact ⟨by decide, rfl, rfl, rfl, rfl⟩
  have hroom : ∀ turn ∈ List.replicate 3 (⟨0, fun _ => 0⟩ : Turn),
      turn.Room [newPeer 2, newPeer 1] := by
    intro turn _ i p hp
    rcases List.mem_pair.mp (List.mem_of_getElem? hp) with rfl | rfl
    · exact .inl rfl
    · exact .inl rfl
  have hbound : (([newPeer 2, newPeer 1].map RrPeer.weight).sum : ℚ) * harmonic 2 < 2 ^ 63 := by
    have hweights : ([newPeer 2, newPeer 1].map RrPeer.weight).sum = 3 := rfl
    rw [hweights, harmonic_succ, harmonic_succ, harmonic_zero]
    norm_num
  rcases select_proportional _ hfresh hbound _ hroom with
    hnil | ⟨chosen, peers', hrun, -, -, hround, -⟩
  · exact absurd hnil nofun
  · have hshare : (chosen.count 0 : ℤ) = 2 := (hround (by decide)).1 0 (newPeer 2) rfl
    exact ⟨chosen, peers', hrun, by omega⟩

/-- Three peers whose weights are in the ratio 5 : 1 : 1 and sum to the greatest value of
`ngx_int_t`. -/
def heavyPeers : List RrPeer :=
  [newPeer (5 * 1317624576693539401), newPeer 1317624576693539401, newPeer 1317624576693539401]

/-- In the sixth turn the level of the first peer would be nine sevenths of the total weight
and wraps. -/
theorem not_select_proportional_wrap :
    (heavyPeers.map RrPeer.weight).sum = 2 ^ 63 - 1 ∧ (∀ p ∈ heavyPeers, p.Fresh) ∧
      (∀ turn ∈ List.replicate 7 (⟨0, fun _ => 0⟩ : Turn), turn.Room heavyPeers) ∧
      ∃ chosen peers', select (List.replicate 7 ⟨0, fun _ => 0⟩) heavyPeers =
          some (chosen, peers') ∧
        chosen = [0, 0, 1, 0, 2, 1, 2] ∧ (peers'.map RrPeer.currentWeight).sum ≠ 0 ∧
        ∃ p ∈ peers', ¬-(heavyPeers.map RrPeer.weight).sum < p.currentWeight := by
  have hpeers {p : RrPeer} (hp : p ∈ heavyPeers) :
      p = newPeer (5 * 1317624576693539401) ∨ p = newPeer 1317624576693539401 := by
    simpa [heavyPeers] using hp
  refine ⟨by decide, ?_, ?_, ?_⟩
  · intro p hp
    rcases hpeers hp with rfl | rfl
    · exact ⟨by decide, rfl, rfl, rfl, rfl⟩
    · exact ⟨by decide, rfl, rfl, rfl, rfl⟩
  · intro turn _ i p hp
    rcases hpeers (List.mem_of_getElem? hp) with rfl | rfl
    · exact .inl rfl
    · exact .inl rfl
  · exact ⟨_, _, rfl, by decide, by decide, by decide⟩

end MultiversionBalancer.Stream
