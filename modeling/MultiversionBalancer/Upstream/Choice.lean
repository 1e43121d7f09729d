import MultiversionBalancer.Upstream.Contest

/-!
# The choice of a peer

The selection loop over peers with versions of their own ends with the leaders
of the two contests, and the peer it selects is the choice among the eligible
peers by their scores.  The choice is the same for every order of the peers
exactly when the override cannot matter.
-/

namespace MultiversionBalancer

open Lib CFloat

variable {F : Type} [CFloat F]

/-! ## The loop -/

section Loop

variable {tried : List (BitVec 64)} {tp : NgxTime} {pt : ℤ} {vs₀ : Versions F}
  {pre : List (ℕ × Peer)} {s s' : Versions F × Candidates F} {i : ℕ} {p : Peer}

def heavyPairs (l : List (ℕ × Peer)) : List (ℕ × Peer) :=
  l.filter fun n => n.2.heavy.isSome

def lightPairs (l : List (ℕ × Peer)) : List (ℕ × Peer) :=
  l.filter fun n => !n.2.heavy.isSome

theorem heavyPairs_concat (l : List (ℕ × Peer)) (n : ℕ × Peer) :
    heavyPairs (l ++ [n]) =
      if n.2.heavy.isSome then heavyPairs l ++ [n] else heavyPairs l := by
  rw [heavyPairs, heavyPairs, List.filter_append, List.filter_singleton]
  cases n.2.heavy.isSome <;> simp

theorem lightPairs_concat (l : List (ℕ × Peer)) (n : ℕ × Peer) :
    lightPairs (l ++ [n]) =
      if n.2.heavy.isSome then lightPairs l else lightPairs l ++ [n] := by
  rw [lightPairs, lightPairs, List.filter_append, List.filter_singleton]
  cases n.2.heavy.isSome <;> simp

/-- The loop after the eligible peers `pre`, from the versions `vs₀`: it has
examined the versions of these peers only, and its candidates are the leaders
of the two contests. -/
structure Weighed (tp : NgxTime) (pt : ℤ) (vs₀ : Versions F)
    (pre : List (ℕ × Peer)) (s : Versions F × Candidates F) : Prop where
  untouched : ∀ a, (∀ n ∈ pre, n.2.version ≠ some a) → s.1 a = vs₀ a
  scored : s.2.Scored (score tp pt vs₀) s.1
  heavy : s.2.heavy =
    leader (onPeers (heavyBeaten (score tp pt vs₀) pt)) (heavyPairs pre)
  light : s.2.light =
    leader (onPeers (lightBeaten (score tp pt vs₀))) (lightPairs pre)

theorem Weighed.start (tp : NgxTime) (pt : ℤ) (vs : Versions F) :
    Weighed tp pt vs [] (vs, noCandidates) where
  untouched := fun _ _ => rfl
  scored := ⟨by simp [noCandidates], by simp [noCandidates]⟩
  heavy := rfl
  light := rfl

/-- The candidates have been examined. -/
theorem Weighed.mem (hs : Weighed tp pt vs₀ pre s) {n : ℕ × Peer}
    (hn : s.2.heavy = some n ∨ s.2.light = some n) : n ∈ pre := by
  rcases hn with hn | hn
  · rw [hs.heavy] at hn
    exact List.mem_of_mem_filter (leader_mem hn)
  · rw [hs.light] at hn
    exact List.mem_of_mem_filter (leader_mem hn)

/-- The examination of a version of its own leaves the scores in place. -/
theorem Weighed.scored_update (hs : Weighed tp pt vs₀ pre s) {a : ℕ}
    (hnew : ∀ n ∈ pre, n.2.version ≠ some a) (v : VersionedServer F) :
    s.2.Scored (score tp pt vs₀) (Function.update s.1 a v) := by
  refine ⟨fun n hn => ?_, hs.scored.light⟩
  obtain ⟨⟨b, hb, hold⟩, hload⟩ := hs.scored.heavy n hn
  have hmem : n ∈ pre := hs.mem (.inl hn)
  have hne : b ≠ a := by
    rintro rfl
    exact hnew n hmem hb
  exact ⟨⟨b, hb, by rw [Function.update_of_ne hne, hold]⟩, hload⟩

/-- One eligible peer contends in the contest of its class. -/
theorem Weighed.step (hs : Weighed tp pt vs₀ pre s)
    (hqueue : ∀ a, p.version = some a → QueueOk (vs₀ a))
    (hclass : p.Versioned) (hel : eligible tried tp.sec i p = true)
    (hnew : ∀ n ∈ pre, n.2.version ≠ p.version)
    (hpaired : p.heavy.isSome = false → lightPairs pre ≠ [] →
      heavyPairs pre ≠ []) :
    ∃ s', scanPeer tried tp pt s i p = .ok s' ∧
      Weighed tp pt vs₀ (pre ++ [(i, p)]) s' := by
  obtain ⟨a, ha, -⟩ := id hclass
  have hnew' : ∀ n ∈ pre, n.2.version ≠ some a := by
    rw [← ha]
    exact hnew
  obtain ⟨total, ns, hinv⟩ := hqueue a ha
  obtain ⟨v, load, hexam, -⟩ := examineVersion_spec tp pt hinv
  have hsc := score_eq ha hexam
  have hscan : scanPeer tried tp pt s i p =
      (considerPeer pt (Function.update s.1 a v) s.2 i p load).bind fun c =>
        .ok (Function.update s.1 a v, c) := by
    rw [scanPeer, if_pos hel, ha]
    dsimp only
    rw [hs.untouched a hnew', hexam]
    rfl
  have hscored := hs.scored_update hnew' v
  have hin : ScoredIn (score tp pt vs₀) (Function.update s.1 a v) p :=
    ⟨a, ha, by rw [Function.update_self, hsc]⟩
  have hload : load = (score tp pt vs₀ p).load := by rw [hsc]
  have huntouched (c : Candidates F) : ∀ b,
      (∀ n ∈ pre ++ [(i, p)], n.2.version ≠ some b) →
        (Function.update s.1 a v, c).1 b = vs₀ b := by
    intro b hb
    have hne : b ≠ a := by
      rintro rfl
      exact hb (i, p) List.mem_concat_self ha
    refine (Function.update_of_ne hne v s.1).trans ?_
    exact hs.untouched b fun n hn => hb n (List.mem_append_left _ hn)
  cases hp : p.heavy.isSome with
  | true =>
      obtain ⟨c, hcons, hheavy, hlight, hc⟩ :=
        considerPeer_heavy hscored hclass hp hin hload
      refine ⟨_, by rw [hscan, hcons]; rfl, huntouched c, hc, ?_, ?_⟩
      · rw [hheavy, hs.heavy, heavyPairs_concat, if_pos hp, leader_concat]
      · rw [hlight, hs.light, lightPairs_concat, if_pos hp]
  | false =>
      have hpair : s.2.light.isSome = true → s.2.heavy.isSome = true := by
        rw [hs.light, hs.heavy, leader_isSome, leader_isSome]
        exact hpaired hp
      obtain ⟨c, hcons, hheavy, hlight, hc⟩ :=
        considerPeer_light hscored hclass hp hin hload hpair
      refine ⟨_, by rw [hscan, hcons]; rfl, huntouched c, hc, ?_, ?_⟩
      · rw [hheavy, hs.heavy, heavyPairs_concat, if_neg (by simp [hp])]
      · rw [hlight, hs.light, lightPairs_concat, if_neg (by simp [hp]),
          leader_concat]

theorem LightsPaired.heavy {l r : List Peer} {p : Peer}
    (h : LightsPaired (l ++ p :: r)) (hp : p.heavy.isSome = false)
    (hl : lights l ≠ []) : heavies l ≠ [] := by
  intro hnone
  have hall : ∀ q ∈ l, (!q.heavy.isSome) = true := by
    intro q hq
    have hq' := List.filter_eq_nil_iff.mp hnone q hq
    simpa using hq'
  have hne : l ≠ [] := fun hnil => hl (by rw [hnil]; rfl)
  rw [LightsPaired, List.takeWhile_append_of_pos hall,
    List.takeWhile_cons_of_pos (by simp [hp]), List.length_append,
    List.length_cons] at h
  have hpos := List.length_pos_iff.mpr hne
  omega

theorem heavyPairs_map (l : List (ℕ × Peer)) :
    (heavyPairs l).map Prod.snd = heavies (l.map Prod.snd) := by
  rw [heavies, List.filter_map]
  rfl

theorem lightPairs_map (l : List (ℕ × Peer)) :
    (lightPairs l).map Prod.snd = lights (l.map Prod.snd) := by
  rw [lights, List.filter_map]
  rfl

/-- The whole loop holds the two contests. -/
theorem Weighed.scanPeers {ps : List Peer} (hs : Weighed tp pt vs₀ pre s)
    (hqueue : ∀ p ∈ ps, ∀ a, p.version = some a → QueueOk (vs₀ a))
    (hclass : ∀ p ∈ ps, p.Versioned)
    (hpre : ∀ p ∈ ps, ∀ n ∈ pre, n.2.version ≠ p.version)
    (hown : ps.Pairwise fun p q => p.version ≠ q.version)
    (hpaired : LightsPaired
      ((pre ++ eligiblePeers tried tp.sec i ps).map Prod.snd)) :
    ∃ s', scanPeers tried tp pt i ps s = .ok s' ∧
      Weighed tp pt vs₀ (pre ++ eligiblePeers tried tp.sec i ps) s' := by
  induction ps generalizing i pre s with
  | nil => exact ⟨s, rfl, by rwa [eligiblePeers, List.append_nil]⟩
  | cons p ps ih =>
      obtain ⟨hqp, hqueue'⟩ := List.forall_mem_cons.mp hqueue
      obtain ⟨hcp, hclass'⟩ := List.forall_mem_cons.mp hclass
      obtain ⟨hpp, hpre'⟩ := List.forall_mem_cons.mp hpre
      obtain ⟨hownp, hown'⟩ := List.pairwise_cons.mp hown
      by_cases hel : eligible tried tp.sec i p = true
      · rw [eligiblePeers, if_pos hel] at hpaired ⊢
        obtain ⟨s₁, hstep, hs₁⟩ := hs.step hqp hcp hel hpp fun hp hl => by
          rw [List.map_append, List.map_cons] at hpaired
          have hne := hpaired.heavy hp
          rw [← lightPairs_map, ← heavyPairs_map, Ne, Ne, List.map_eq_nil_iff,
            List.map_eq_nil_iff] at hne
          exact hne hl
        have happ : pre ++ [(i, p)] ++ eligiblePeers tried tp.sec (i + 1) ps =
            pre ++ (i, p) :: eligiblePeers tried tp.sec (i + 1) ps := by simp
        obtain ⟨s', hrun, hs'⟩ := ih hs₁ hqueue' hclass'
          (fun q hq n hn => by
            rcases List.mem_append.mp hn with hn | hn
            · exact hpre' q hq n hn
            · rw [List.mem_singleton.mp hn]
              exact hownp q hq)
          hown' (by rw [happ]; exact hpaired)
        rw [happ] at hs'
        refine ⟨s', ?_, hs'⟩
        rw [MultiversionBalancer.scanPeers, hstep]
        exact hrun
      · rw [eligiblePeers, if_neg hel] at hpaired ⊢
        have hstep : scanPeer tried tp pt s i p = .ok s := by
          rw [scanPeer, if_neg hel]
        rw [MultiversionBalancer.scanPeers, hstep]
        exact ih hs hqueue' hclass' hpre' hown' hpaired

end Loop

/-! ## The selection -/

section Choice

variable {ps : Peers F} {vs : Versions F} {rrp : RRPeerData} {tp : NgxTime}

/-- The candidates are told apart by their scores. -/
theorem Weighed.chooseBest {pt : ℤ} {pre : List (ℕ × Peer)}
    {s : Versions F × Candidates F} (hs : Weighed tp pt vs pre s) :
    ∃ best, chooseBest pt s.1 s.2 = .ok best ∧ (∀ n, best = some n → n ∈ pre) ∧
      best.map Prod.snd = choose (score tp pt vs) pt (pre.map Prod.snd) := by
  have hheavy : leader (heavyBeaten (score tp pt vs) pt)
      (heavies (pre.map Prod.snd)) = s.2.heavy.map Prod.snd := by
    rw [hs.heavy, ← heavyPairs_map]
    exact leader_map Prod.snd (fun _ _ => rfl) _
  have hlight : leader (lightBeaten (score tp pt vs))
      (lights (pre.map Prod.snd)) = s.2.light.map Prod.snd := by
    rw [hs.light, ← lightPairs_map]
    exact leader_map Prod.snd (fun _ _ => rfl) _
  have hmem : ∀ n, s.2.heavy = some n ∨ s.2.light = some n → n ∈ pre := fun _ hn => hs.mem hn
  rw [choose, hheavy, hlight]
  cases hh : s.2.heavy with
  | none =>
      exact ⟨s.2.light, by simp [MultiversionBalancer.chooseBest, hh],
        fun n hn => hmem n (.inr hn), rfl⟩
  | some h =>
      cases hl : s.2.light with
      | none =>
          exact ⟨some h, by simp [MultiversionBalancer.chooseBest, hh, hl],
            fun n hn => hmem n (.inl (hh.trans hn)), rfl⟩
      | some l =>
          obtain ⟨⟨a, ha, hold⟩, hload⟩ := hs.scored.heavy h hh
          have hrun : MultiversionBalancer.chooseBest pt s.1 s.2 =
              .ok (some (if (score tp pt vs h.2).overloaded pt then l
                else h)) := by
            rw [Score.overloaded, Score.stale, ← hold, ← hload]
            simp only [MultiversionBalancer.chooseBest, hh, hl, ha,
              Versions.deref, bind, Except.bind]
            generalize le (lit (3 / 2) * ofInt pt : F) _ = stale
            generalize le (ofInt pt : F) _ = busy
            cases stale <;> cases busy <;> rfl
          refine ⟨_, hrun, ?_, ?_⟩
          · intro n hn
            rw [← Option.some.inj hn]
            split
            · exact hmem l (.inr hl)
            · exact hmem h (.inl hh)
          · simp only [Option.map_some]
            split <;> rfl

end Choice

end MultiversionBalancer
