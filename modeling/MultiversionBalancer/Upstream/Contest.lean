import MultiversionBalancer.Upstream.Dispatch
import MultiversionBalancer.Lib.Contest

/-!
# The selection loop as two contests

An examination gives every eligible peer a `Score`: the summary of its old
requests and its load.  When the peers have versions of their own, no
examination disturbs another, and the loop is a contest among the heavy peers
and one among the light ones.  The heavy contest has an override: a heavy peer
whose old requests average below the target, or that has none, displaces a
leader whose old requests average at least the target, whatever their loads.
-/

namespace MultiversionBalancer

open Lib CFloat

variable {F : Type} [CFloat F]

/-! ## Scores -/

/-- What an examination finds out about a peer. -/
structure Score (F : Type) where
  old : OldRequests
  load : F

/-- The score of a peer whose version cannot be examined. -/
def unscored : Score F where
  old := (customServerInit 0 : VersionedServer F).queue.oldRequests
  load := ofInt 0

/-- The score of a peer in the given versions. -/
def score (tp : NgxTime) (pt : ℤ) (vs : Versions F) (p : Peer) : Score F :=
  match p.version with
  | none => unscored
  | some a =>
      match examineVersion tp pt (vs a) with
      | .error _ => unscored
      | .ok (v, load) => { old := v.queue.oldRequests, load := load }

theorem score_eq {tp : NgxTime} {pt : ℤ} {vs : Versions F} {p : Peer} {a : ℕ}
    {v : VersionedServer F} {load : F} (ha : p.version = some a)
    (h : examineVersion tp pt (vs a) = .ok (v, load)) :
    score tp pt vs p = { old := v.queue.oldRequests, load := load } := by
  unfold score
  rw [ha]
  dsimp only
  rw [h]

namespace Score

/-- The load is smaller. -/
def less (x y : Score F) : Bool :=
  lt x.load y.load

/-- The old requests average at least the target. -/
def late (pt : ℤ) (x : Score F) : Bool :=
  decide (pt ≤ avgOldest F x.old)

/-- The old requests average below the target, or there are none. -/
def early (pt : ℤ) (x : Score F) : Bool :=
  decide (avgOldest F x.old < pt)

/-- The old requests average at least one and a half times the target, as the
choice between the candidates computes it. -/
def stale (pt : ℤ) (x : Score F) : Bool :=
  let oldest : ℤ :=
    cast (narrow (ofInt x.old.timeSum : F) / ofInt (Max.max 1 x.old.reqCount))
  le (lit (3 / 2) * ofInt pt : F) (ofInt oldest)

/-- A heavy candidate that loses the choice to a light one. -/
def overloaded (pt : ℤ) (x : Score F) : Bool :=
  x.stale pt || le (ofInt pt) x.load

end Score

section Beaten

variable (sc : Peer → Score F) (pt : ℤ)

/-- A heavy leader is displaced by a smaller load, and a late one by every
early peer. -/
def heavyBeaten : Peer → Peer → Bool :=
  overridden (fun x y => (sc x).less (sc y)) (fun x => (sc x).late pt)
    fun x => (sc x).early pt

/-- A light leader is displaced by a smaller load. -/
def lightBeaten : Peer → Peer → Bool :=
  overridden (fun x y => (sc x).less (sc y)) (fun _ => false) fun _ => false

/-- The heavy peers of a list. -/
def heavies (l : List Peer) : List Peer :=
  l.filter fun p => p.heavy.isSome

/-- The light peers of a list. -/
def lights (l : List Peer) : List Peer :=
  l.filter fun p => !p.heavy.isSome

/-- The choice among the eligible peers. -/
def choose (l : List Peer) : Option Peer :=
  match leader (heavyBeaten sc pt) (heavies l),
      leader (lightBeaten sc) (lights l) with
  | none, light => light
  | heavy, none => heavy
  | some h, some l => if (sc h).overloaded pt then some l else some h

end Beaten

/-- At most one light peer comes before the first heavy one. -/
def LightsPaired (l : List Peer) : Prop :=
  (l.takeWhile fun p => !p.heavy.isSome).length ≤ 1

instance (l : List Peer) : Decidable (LightsPaired l) :=
  inferInstanceAs (Decidable (_ ≤ _))

/-! ## One comparison -/

section Step

variable {sc : Peer → Score F} {pt : ℤ} {vs : Versions F} {c : Candidates F}
  {i : ℕ} {p : Peer} {load : F}

/-- A peer with its score in the versions. -/
def ScoredIn (sc : Peer → Score F) (vs : Versions F) (p : Peer) : Prop :=
  ∃ a, p.version = some a ∧ (vs a).queue.oldRequests = (sc p).old

/-- Candidates whose loads and summaries are those of their scores. -/
structure Candidates.Scored (sc : Peer → Score F) (vs : Versions F)
    (c : Candidates F) : Prop where
  heavy : ∀ n, c.heavy = some n →
    ScoredIn sc vs n.2 ∧ c.heavyLoad = (sc n.2).load
  light : ∀ n, c.light = some n → c.lightLoad = (sc n.2).load

/-- The pairs of positions and peers compare as their peers. -/
def onPeers (beaten : Peer → Peer → Bool) (h x : ℕ × Peer) : Bool :=
  beaten h.2 x.2

theorem considerPeer_heavy (hc : c.Scored sc vs) (hclass : p.Versioned)
    (hp : p.heavy.isSome = true) (hscore : ScoredIn sc vs p)
    (hload : load = (sc p).load) :
    ∃ c', considerPeer pt vs c i p load = .ok c' ∧
      c'.heavy = contend (onPeers (heavyBeaten sc pt)) c.heavy (i, p) ∧
      c'.light = c.light ∧ c'.Scored sc vs := by
  have hl : p.light.isSome = false := by rw [hclass.light_isSome, hp]; rfl
  cases hheavy : c.heavy with
  | none =>
      refine ⟨{ c with heavy := some (i, p), heavyLoad := load },
        by simp [considerPeer, hheavy, hp], rfl, rfl, ?_, hc.light⟩
      intro n hn
      obtain rfl := Option.some.inj hn
      exact ⟨hscore, hload⟩
  | some h =>
      obtain ⟨⟨b, hb, hold⟩, hhload⟩ := hc.heavy h hheavy
      obtain ⟨a, ha, hpold⟩ := hscore
      have hrun : considerPeer pt vs c i p load =
          .ok (contest pt (sc h.2).old (sc p).old c i p load) := by
        rw [considerPeer_repeat hclass (by simp [hp, hheavy]), hheavy]
        simp only [Versions.deref, hb, ha]
        rw [← hold, ← hpold]
        rfl
      have hbeaten : (p.heavy.isSome && (lt load c.heavyLoad ||
          (decide (pt ≤ avgOldest F (sc h.2).old) &&
            decide (avgOldest F (sc p).old < pt)))) =
          onPeers (heavyBeaten sc pt) h (i, p) := by
        rw [hp, Bool.true_and, hload, hhload]
        rfl
      refine ⟨_, hrun, ?_⟩
      unfold contest contend
      dsimp only
      rw [hbeaten, hl, Bool.false_and, if_neg Bool.false_ne_true]
      split
      · refine ⟨rfl, rfl, ?_, hc.light⟩
        intro n hn
        obtain rfl := Option.some.inj hn
        exact ⟨⟨a, ha, hpold⟩, hload⟩
      · exact ⟨hheavy, rfl, hc.heavy, hc.light⟩

theorem considerPeer_light (hc : c.Scored sc vs) (hclass : p.Versioned)
    (hp : p.heavy.isSome = false) (hscore : ScoredIn sc vs p)
    (hload : load = (sc p).load)
    (hpaired : c.light.isSome = true → c.heavy.isSome = true) :
    ∃ c', considerPeer pt vs c i p load = .ok c' ∧ c'.heavy = c.heavy ∧
      c'.light = contend (onPeers (lightBeaten sc)) c.light (i, p) ∧
      c'.Scored sc vs := by
  have hl : p.light.isSome = true := by rw [hclass.light_isSome, hp]; rfl
  cases hlight : c.light with
  | none =>
      refine ⟨{ c with light := some (i, p), lightLoad := load },
        by simp [considerPeer, hlight, hp, hl], rfl, rfl, hc.heavy, ?_⟩
      intro n hn
      obtain rfl := Option.some.inj hn
      exact hload
  | some l =>
      obtain ⟨h, hheavy⟩ := Option.isSome_iff_exists.mp
        (hpaired (by rw [hlight]; rfl))
      obtain ⟨⟨b, hb, hold⟩, -⟩ := hc.heavy h hheavy
      obtain ⟨a, ha, hpold⟩ := hscore
      have hrun : considerPeer pt vs c i p load =
          .ok (contest pt (sc h.2).old (sc p).old c i p load) := by
        rw [considerPeer_repeat hclass (by simp [hp, hlight]), hheavy]
        simp only [Versions.deref, hb, ha]
        rw [← hold, ← hpold]
        rfl
      have hbeaten : (p.light.isSome && lt load c.lightLoad) =
          onPeers (lightBeaten sc) l (i, p) := by
        rw [hl, Bool.true_and, hload, hc.light l hlight]
        simp [onPeers, lightBeaten, overridden, Score.less]
      refine ⟨_, hrun, ?_⟩
      unfold contest contend
      dsimp only
      rw [hp, Bool.false_and, if_neg Bool.false_ne_true, hbeaten]
      split
      · refine ⟨rfl, rfl, hc.heavy, ?_⟩
        intro n hn
        obtain rfl := Option.some.inj hn
        exact hload
      · exact ⟨rfl, hlight, hc.heavy, hc.light⟩

end Step

end MultiversionBalancer
