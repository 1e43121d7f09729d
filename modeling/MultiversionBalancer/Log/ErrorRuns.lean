import MultiversionBalancer.Core.ExactFloat
import MultiversionBalancer.Log.AverageRuns

/-!
# The window of squared errors along a run

The list of `basic_probability` holds the last 200 squared errors that completions of
the version have recorded, and `squared_error_sum` is their sum.  The history records
what each completion adds; the source counts the first one as zero.
-/

namespace MultiversionBalancer

open Lib

/-! ## One completion -/

def squaredError (tp : NgxTime) (r : Request ExactFloat) (v : VersionedServer ExactFloat) : ℚ :=
  (predictionError (requestMs tp r) r (countCompletion tp r v)).val

/-- The errors after one more; the first one is counted as zero. -/
def recordError (recorded : List ℚ) (error : ℚ) : List ℚ :=
  recorded ++ [if recorded = [] then 0 else error]

def lastErrors (recorded : List ℚ) : List ℚ :=
  recorded.drop (recorded.length - 200)

theorem length_lastErrors (recorded : List ℚ) :
    (lastErrors recorded).length = min recorded.length 200 := by
  rw [lastErrors, List.length_drop]
  omega

theorem lastErrors_of_few {recorded : List ℚ} (h : recorded.length ≤ 200) :
    lastErrors recorded = recorded := by
  rw [lastErrors, Nat.sub_eq_zero_of_le h, List.drop_zero]

/-- The list of nodes holds the last errors of the history. -/
structure HoldsErrors (d : ProbabilityDistribution ExactFloat) (recorded : List ℚ)
    (ns : List (ℕ × ExactFloat)) : Prop where
  window : WindowOk d ns
  values : (ns.map fun n => n.2.val) = lastErrors recorded
  sum : d.squaredErrorSum.val = (lastErrors recorded).sum

namespace HoldsErrors

variable {d d' : ProbabilityDistribution ExactFloat} {recorded : List ℚ}
  {ns : List (ℕ × ExactFloat)}

theorem length_eq (h : HoldsErrors d recorded ns) : ns.length = min recorded.length 200 := by
  rw [← length_lastErrors, ← h.values, List.length_map]

theorem sizeCount_eq_zero_iff (h : HoldsErrors d recorded ns) :
    d.sizeCount = 0 ↔ recorded = [] := by
  rw [h.window.size, h.length_eq, ← List.length_eq_zero_iff]
  omega

theorem pushError (h : HoldsErrors d recorded ns) {val : ExactFloat}
    (hpush : MultiversionBalancer.pushError val d = .ok d') :
    ∃ ms, HoldsErrors d' (recordError recorded val.val) ms := by
  obtain ⟨d₁, ms, hpush₁, hwindow, hcase⟩ := h.window.pushError_spec val
  obtain rfl := Except.ok.inj (hpush₁.symm.trans hpush)
  have hlength := h.length_eq
  refine ⟨ms, ?_⟩
  rcases hcase with ⟨n, rest, hfull, rfl, rfl, hsum⟩ | ⟨hroom, rfl, hsum⟩
  · -- the first of the errors leaves
    have hlong : 200 ≤ recorded.length := by omega
    have hne : recorded ≠ [] := List.ne_nil_of_length_pos (by omega)
    have hlast : lastErrors (recordError recorded val.val) =
        (rest.map fun n => n.2.val) ++ [val.val] := by
      have hdrop : (recordError recorded val.val).length - 200 = recorded.length - 200 + 1 := by
        rw [recordError, List.length_append, List.length_singleton]
        omega
      rw [lastErrors, hdrop, recordError, if_neg hne, List.drop_append_of_le_length (by omega),
        ← List.drop_drop, ← lastErrors, ← h.values]
      rfl
    refine ⟨hwindow, ?_, ?_⟩
    · rw [hlast, List.map_append, List.map_singleton]
    · have hsum' := h.sum
      rw [← h.values, List.map_cons, List.sum_cons] at hsum'
      rw [hsum, hlast, List.sum_append, List.sum_singleton]
      simp only [ExactFloat.narrow_eq, ExactFloat.sub_val, ExactFloat.add_val, hsum']
      ring
  · have hvalue : (if d.sizeCount = 0 then CFloat.ofInt 0 else val).val =
        if recorded = [] then 0 else val.val := by
      by_cases hnil : recorded = []
      · rw [if_pos (h.sizeCount_eq_zero_iff.mpr hnil), if_pos hnil]
        rfl
      · rw [if_neg (mt h.sizeCount_eq_zero_iff.mp hnil), if_neg hnil]
    have hfew : recorded.length < 200 := by omega
    have hlast : lastErrors recorded = recorded := lastErrors_of_few hfew.le
    have hlast' : lastErrors (recordError recorded val.val) = recordError recorded val.val := by
      refine lastErrors_of_few ?_
      rw [recordError, List.length_append, List.length_singleton]
      exact hfew
    have hvalues := h.values
    have hsum' := h.sum
    rw [hlast] at hvalues hsum'
    refine ⟨hwindow, ?_, ?_⟩
    · rw [hlast', List.map_append, List.map_singleton, hvalues, hvalue, recordError]
    · rw [hlast', recordError, List.sum_append, List.sum_singleton, ← hsum', ← hvalue, hsum]
      rfl

end HoldsErrors

/-! ## Runs -/

/-- The history of every version after an event: a completion adds an error to that of
the version of its request. -/
def recordErrors (recorded : ℕ → List ℚ) (s : System ExactFloat) : Event → ℕ → List ℚ
  | .complete i tp =>
      match s.requests[i]? with
      | some r =>
          match r.version with
          | some a => Function.update recorded a
              (recordError (recorded a) (squaredError tp r (s.upstream.versions a)))
          | none => recorded
      | none => recorded
  | _ => recorded

abbrev ErrorsRecorded (conf : UpstreamConf) : (ℕ → List ℚ) × System ExactFloat → Prop :=
  Reach (fun x => x.1 = (fun _ => []) ∧ Initial x.2) (fun _ _ => True)
    fun x e y => step conf x.2 e = .ok y.2 ∧ y.1 = recordErrors x.1 x.2 e

section

variable {F : Type} [CFloat F] {u u' : Upstream F} {r r' : Request F} {tp : NgxTime}

theorem getRoundRobinPeer_window
    (hget : ngxHttpUpstreamGetRoundRobinPeer u r tp = .ok (.ok, u', r')) (b : ℕ) :
    (u'.versions b).basicProbability = (u.versions b).basicProbability := by
  obtain ⟨-, ps, j, p, a, ws, load, v, -, -, -, -, hscan, rfl, hbuf⟩ :=
    getRoundRobinPeer_scanned hget
  have hself : v.basicProbability = (ws a).basicProbability := by
    obtain ⟨q, -, hbuf⟩ := Except.bind_eq_ok.mp hbuf
    obtain ⟨rfl, -⟩ := Prod.mk.inj (Except.ok.inj hbuf)
    rfl
  dsimp only
  by_cases hb : b = a
  · rw [hb, Function.update_self, hself]
    exact examined_window (hscan.all a)
  · rw [Function.update_of_ne hb]
    exact examined_window (hscan.all b)

theorem connect_window {s s' : System F} {i : ℕ}
    (h : ngxHttpUpstreamConnect s i r tp = .ok s') (b : ℕ) :
    (s'.upstream.versions b).basicProbability =
      (s.upstream.versions b).basicProbability := by
  obtain ⟨⟨res, u, r'⟩, hget, h⟩ := Except.bind_eq_ok.mp h
  obtain rfl := Except.ok.inj h
  obtain ⟨rfl, -⟩ := getRoundRobinPeer_ok hget
  exact getRoundRobinPeer_window hget b

theorem next_window {conf : UpstreamConf} {ctx : NextContext} {s s' : System F} {i : ℕ}
    (h : ngxHttpUpstreamNext conf ctx s i r tp = .ok s') (b : ℕ) :
    (s'.upstream.versions b).basicProbability =
      (s.upstream.versions b).basicProbability := by
  obtain ⟨⟨u, r₁⟩, hrel, h⟩ := Except.bind_eq_ok.mp h
  obtain ⟨hversions, -⟩ := releaseHeld_spec hrel
  rw [← hversions]
  dsimp only at h
  split at h
  · exact connect_window h b
  · obtain rfl := Except.ok.inj h
    rfl

end

section

variable {conf : UpstreamConf} {recorded : ℕ → List ℚ} {s s' : System ExactFloat} {e : Event}

def WindowsHold (recorded : ℕ → List ℚ) (s : System ExactFloat) : Prop :=
  ∀ a, ∃ ns, HoldsErrors (s.upstream.versions a).basicProbability (recorded a) ns

theorem WindowsHold.congr (h : WindowsHold recorded s)
    (hsame : ∀ b, (s'.upstream.versions b).basicProbability =
      (s.upstream.versions b).basicProbability) : WindowsHold recorded s' := by
  intro a
  rw [hsame a]
  exact h a

theorem WindowsHold.complete {i : ℕ} {r : Request ExactFloat} {tp : NgxTime}
    (h : WindowsHold recorded s) (hi : s.requests[i]? = some r)
    (hcomplete : completeRequest s i r tp = .ok s') :
    WindowsHold (recordErrors recorded s (.complete i tp)) s' := by
  obtain ⟨⟨u, r'⟩, hrel, hrest⟩ := Except.bind_eq_ok.mp hcomplete
  obtain ⟨⟨u', t⟩, hlog, hrest⟩ := Except.bind_eq_ok.mp hrest
  obtain rfl := Except.ok.inj hrest
  obtain ⟨hversions, -, -, hr'⟩ := releaseHeld_spec hrel
  have hversion : r'.version = r.version := by rw [hr']
  rcases logRequestTime_spec hlog with ⟨hnone, rfl⟩ | ⟨a, v, m, hver, hv, hupdate, -⟩
  · have hrecord : recordErrors recorded s (.complete i tp) = recorded := by
      simp only [recordErrors, hi, ← hversion, hnone]
    rw [hrecord]
    exact h.congr fun b => by rw [hversions]
  · have hrecord : recordErrors recorded s (.complete i tp) = Function.update recorded a
        (recordError (recorded a) (squaredError tp r (s.upstream.versions a))) := by
      simp only [recordErrors, hi, ← hversion, hver]
    rw [hversions] at hv hupdate
    obtain ⟨d, hpush, hv⟩ := Except.bind_eq_ok.mp hv
    obtain ⟨⟨q, m'⟩, -, hv⟩ := Except.bind_eq_ok.mp hv
    obtain ⟨rfl, -⟩ := Prod.mk.inj (Except.ok.inj hv)
    have herror : (predictionError (requestMs tp r') r'
        (countCompletion tp r' (s.upstream.versions a))).val =
          squaredError tp r (s.upstream.versions a) := by
      rw [hr']
      rfl
    intro b
    rw [hrecord]
    dsimp only
    rw [hupdate]
    by_cases hb : b = a
    · subst hb
      obtain ⟨ns, hns⟩ := h b
      rw [Function.update_self, Function.update_self, ← herror]
      exact hns.pushError hpush
    · rw [Function.update_of_ne hb, Function.update_of_ne hb]
      exact h b

theorem WindowsHold.step (h : WindowsHold recorded s)
    (hstep : MultiversionBalancer.step conf s e = .ok s') :
    WindowsHold (recordErrors recorded s e) s' := by
  cases step_cases hstep with
  | arrive tp => exact h.congr fun b => rfl
  | connect _ _ _ hconnect => exact h.congr (connect_window hconnect)
  | next _ _ _ hnext => exact h.congr (next_window hnext)
  | finalize _ _ hrel =>
      obtain ⟨hversions, -⟩ := releaseHeld_spec hrel
      exact h.congr fun b => by rw [hversions]
  | complete hi _ hcomplete => exact h.complete hi hcomplete

theorem windowsHold_initial (hs : Initial s) : WindowsHold (fun _ => []) s := by
  obtain ⟨⟨us, hus⟩, -⟩ := hs
  have hnil : lastErrors [] = [] := List.drop_nil
  intro a
  obtain ⟨id, ip, port, hfresh⟩ := initRoundRobin_fresh hus a
  rw [hfresh]
  exact ⟨[],
    { window := ⟨rfl, Heap.bounded_empty, List.nodup_nil, by simp, rfl⟩
      values := hnil.symm
      sum := by
        rw [hnil]
        exact Int.cast_zero }⟩

end

/-- In every run the list of a version is what its completions have recorded last, with
its tail, its length and its sum. -/
theorem error_window (conf : UpstreamConf) (x : (ℕ → List ℚ) × System ExactFloat)
    (h : ErrorsRecorded conf x) (a : ℕ) :
    ∃ ns : List (ℕ × ExactFloat),
      Chain (x.2.upstream.versions a).basicProbability.nodes
        (x.2.upstream.versions a).basicProbability.listHead ns none ∧
      (ns.map fun n => n.2.val) = (x.1 a).drop ((x.1 a).length - 200) ∧
      ns.length = min (x.1 a).length 200 ∧
      (∀ n, ns.getLast? = some n →
        (x.2.upstream.versions a).basicProbability.listTail = some n.1) ∧
      (x.2.upstream.versions a).basicProbability.sizeCount = ns.length ∧
      (x.2.upstream.versions a).basicProbability.squaredErrorSum.val =
        (ns.map fun n => n.2.val).sum := by
  have hwindows : WindowsHold x.1 x.2 := by
    refine @Reach.invariant _ _ _ _ _ (fun x => WindowsHold x.1 x.2) ?_ ?_ x h
    · rintro ⟨recorded, s⟩ ⟨rfl, hs⟩
      exact windowsHold_initial hs
    · rintro ⟨recorded, s⟩ e ⟨recorded', s'⟩ - hs - ⟨hstep, hrecord⟩
      dsimp only at hrecord hs ⊢
      rw [hrecord]
      exact hs.step hstep
  obtain ⟨ns, hns⟩ := hwindows a
  exact ⟨ns, hns.window.chain, hns.values, hns.length_eq, hns.window.tail, hns.window.size,
    hns.sum.trans (congrArg List.sum hns.values.symm)⟩

theorem Ledgered.errorsRecorded {conf : UpstreamConf}
    {ok : Ledger × System ExactFloat → Event → Prop} {x : Ledger × System ExactFloat}
    (h : Ledgered conf ok x) : ∃ recorded, ErrorsRecorded conf (recorded, x.2) := by
  induction h with
  | init h => exact ⟨fun _ => [], .init ⟨rfl, h.2⟩⟩
  | @step x y e _ _ hstep ih =>
      obtain ⟨recorded, hrecorded⟩ := ih
      exact ⟨recordErrors recorded x.2 e, .step hrecorded trivial ⟨hstep.1, rfl⟩⟩

/-- A run with more completions than the list holds. -/
theorem error_window_full :
    ∃ x : (ℕ → List ℚ) × System ExactFloat, loggedCount x.2 = 250 ∧
      ∃ ns : List (ℕ × ExactFloat),
        Chain (x.2.upstream.versions 0).basicProbability.nodes
          (x.2.upstream.versions 0).basicProbability.listHead ns none ∧
        (ns.map fun n => n.2.val) = (x.1 0).drop ((x.1 0).length - 200) ∧
        ns.length = min (x.1 0).length 200 ∧
        (∀ n, ns.getLast? = some n →
          (x.2.upstream.versions 0).basicProbability.listTail = some n.1) ∧
        (x.2.upstream.versions 0).basicProbability.sizeCount = ns.length ∧
        (x.2.upstream.versions 0).basicProbability.squaredErrorSum.val =
          (ns.map fun n => n.2.val).sum := by
  obtain ⟨l, s, hrun, -, hcount, -⟩ :=
    oneServer_count (F := ExactFloat) errorConf 250 (by decide)
  obtain ⟨recorded, hrecorded⟩ := hrun.errorsRecorded
  exact ⟨(recorded, s), hcount, error_window errorConf (recorded, s) hrecorded 0⟩

end MultiversionBalancer
