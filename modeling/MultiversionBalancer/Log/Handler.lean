import MultiversionBalancer.Log.Format
import MultiversionBalancer.Upstream.System

/-!
# The log handler

`ngx_http_log_handler` runs once per request, in the log phase.  It visits the
`access_log` targets of the location in order, skips those that a filter or a
full disk suppresses, and evaluates the operations of the others' formats: into
the buffer of the target's file, or into a line allocated for it.

The completion of a request is a side effect of one of these operations, so
the handler completes a request as often as it evaluates `$request_time`.
-/

namespace MultiversionBalancer

open Lib

/-- `ngx_http_log_buf_t`: the bytes from `start` to `pos`, and
`last - start`. -/
structure LogBuffer where
  content : Text
  size : ℕ

/-- `(size_t) (buffer->last - buffer->pos)`. -/
def LogBuffer.room (b : LogBuffer) : ℕ :=
  (((b.size : ℤ) - b.content.length) % 2 ^ 64).toNat

/-- What decides whether a target is written. -/
inductive LogFilter where
  /-- There is no `if=` parameter. -/
  | absent
  /-- The evaluation of the parameter failed. -/
  | failed
  /-- The value of the parameter. -/
  | value (val : Text)
  deriving DecidableEq

/-- `ngx_http_log_t`.  A file is named by a number, so that targets on the same
file share its buffer; a target with variables in its name has none.  A syslog
target is given by the length of its tag. -/
structure LogTarget where
  filter : LogFilter
  diskFullTime : ℕ
  errorLogTime : ℕ
  syslogTag : Option ℕ
  file : Option ℕ
  format : List LogOp

inductive WriteResult where
  | written (n : ℕ)
  | failed (noSpace : Bool)

/-- What the handler gets from outside: the values of the variables at each
target, whether the line of a target can be allocated, the results of writes,
and the length of the host name. -/
structure LogEnv where
  values : ℕ → LogVariables
  pnalloc : ℕ → ℕ → Bool
  write : ℕ → Text → WriteResult
  hostname : ℕ

/-- The state of the log module: its targets, and the buffers of files. -/
structure LogState where
  logs : List LogTarget
  buffers : ℕ → Option LogBuffer

/-- Whether a target is written, skipped, or ends the handler. -/
inductive LogDecision where
  | write
  | skip
  | fail
  deriving DecidableEq

/-- The two tests at the head of the loop over the targets. -/
def LogTarget.decision (tp : NgxTime) (log : LogTarget) : LogDecision :=
  match log.filter with
  | .failed => .fail
  | .value val =>
      if val = [] ∨ val = ['0'] then .skip
      else if tp.sec = log.diskFullTime then .skip
      else .write
  | .absent => if tp.sec = log.diskFullTime then .skip else .write

/-- `ngx_http_log_write`: a full disk is remembered, and so is the time of the
last report of an error. -/
def ngxHttpLogWrite (env : LogEnv) (tp : NgxTime) (l : ℕ) (buf : Text)
    (log : LogTarget) : LogTarget :=
  let report (log : LogTarget) : LogTarget :=
    if (59 : ℤ) < tp.sec - log.errorLogTime then
      { log with errorLogTime := tp.sec }
    else log
  match env.write l buf with
  | .written n => if n = buf.length then log else report log
  | .failed noSpace =>
      report (if noSpace then { log with diskFullTime := tp.sec } else log)

variable {F : Type} [CFloat F]

/-- The second pass over the operations of a format. -/
def runOps (tp : NgxTime) (f : LogFields) (r : Request F)
    (vars : LogVariables) :
    List LogOp → Upstream F → Except Fault (Upstream F × Text)
  | [], u => .ok (u, [])
  | op :: ops, u => do
      let (u, text) ← op.run tp f r vars u
      let (u, rest) ← runOps tp f r vars ops u
      pure (u, text ++ rest)

/-- `alloc_line`: the operations run into a line of their own, which goes to
syslog or to the file.  The balancer is missing from the result when the
allocation fails. -/
def allocLine (env : LogEnv) (tp : NgxTime) (f : LogFields) (r : Request F)
    (l len : ℕ) (vars : LogVariables) (log : LogTarget) (u : Upstream F) :
    Except Fault (LogTarget × Option (Upstream F)) :=
  if env.pnalloc l len then do
    let (u, line) ← runOps tp f r vars log.format u
    match log.syslogTag with
    | some _ => pure (log, some u)
    | none => pure (ngxHttpLogWrite env tp l (line ++ ['\n']) log, some u)
  else .ok (log, none)

/-- A buffer without room for a line is written out first; the flag says
whether the line fits then. -/
def flushBuffer (env : LogEnv) (tp : NgxTime) (l len : ℕ) (b : LogBuffer)
    (log : LogTarget) : LogTarget × LogBuffer × Bool :=
  if b.room < len then
    let b' := { b with content := [] }
    (ngxHttpLogWrite env tp l b.content log, b', len ≤ b'.room)
  else (log, b, true)

/-- The body of the loop for a target that is written. -/
def writeTarget (env : LogEnv) (tp : NgxTime) (f : LogFields) (r : Request F)
    (l : ℕ) (log : LogTarget) (buffers : ℕ → Option LogBuffer)
    (u : Upstream F) :
    Except Fault
      ((ℕ → Option LogBuffer) × LogTarget × Option (Upstream F)) :=
  let (len, vars) := reserveAll log.format (env.values l)
  match log.syslogTag with
  | some tag => do
      -- the length of the message parts PRI and HEADER
      let len := len + "<255>Jan 01 00:00:00 ".length + env.hostname + 1 +
        tag + 2
      let res ← allocLine env tp f r l len vars log u
      pure (buffers, res)
  | none =>
      let len := len + 1
      match log.file.bind fun file => (buffers file).map (file, ·) with
      | none => do
          let res ← allocLine env tp f r l len vars log u
          pure (buffers, res)
      | some (file, b) =>
          match flushBuffer env tp l len b log with
          | (log', b, true) => do
              let (u, line) ← runOps tp f r vars log.format u
              let b := { b with content := b.content ++ line ++ ['\n'] }
              pure (Function.update buffers file (some b), log', some u)
          | (log', b, false) => do
              let res ← allocLine env tp f r l len vars log' u
              pure (Function.update buffers file (some b), res)

/-- The loop over the targets from the `l`-th on.  The flag is `false` when the
handler returns `NGX_ERROR`. -/
def logTargets (env : LogEnv) (tp : NgxTime) (f : LogFields) (r : Request F) :
    ℕ → List LogTarget → (ℕ → Option LogBuffer) → Upstream F →
      Except Fault (Bool × LogState × Upstream F)
  | _, [], buffers, u => .ok (true, { logs := [], buffers := buffers }, u)
  | l, log :: logs, buffers, u =>
      match log.decision tp with
      | .fail => .ok (false, { logs := log :: logs, buffers := buffers }, u)
      | .skip => do
          let (ok, st, u) ← logTargets env tp f r (l + 1) logs buffers u
          pure (ok, { st with logs := log :: st.logs }, u)
      | .write => do
          match ← writeTarget env tp f r l log buffers u with
          | (buffers, log, none) =>
              pure (false, { logs := log :: logs, buffers := buffers }, u)
          | (buffers, log, some u) =>
              let (ok, st, u) ← logTargets env tp f r (l + 1) logs buffers u
              pure (ok, { st with logs := log :: st.logs }, u)

/-- `ngx_http_log_handler`; `off` is `lcf->off`. -/
def ngxHttpLogHandler (env : LogEnv) (tp : NgxTime) (off : Bool)
    (f : LogFields) (r : Request F) (st : LogState) (u : Upstream F) :
    Except Fault (Bool × LogState × Upstream F) :=
  if off then .ok (true, st, u)
  else logTargets env tp f r 0 st.logs st.buffers u

/-! ## Completions by the handler -/

/-- The completion update, made `k` times. -/
def completeTimes (tp : NgxTime) (r : Request F) :
    ℕ → Upstream F → Except Fault (Upstream F)
  | 0, u => .ok u
  | k + 1, u => do
      let (u, _) ← ngxHttpLogRequestTime tp u r
      completeTimes tp r k u

/-- How often the targets evaluate `$request_time`, given their filters and
the times of a full disk. -/
def evaluations (tp : NgxTime) : List LogTarget → ℕ
  | [] => 0
  | log :: logs =>
      match log.decision tp with
      | .fail => 0
      | .skip => evaluations tp logs
      | .write => log.format.count .requestTime + evaluations tp logs

theorem completeTimes_add (tp : NgxTime) (r : Request F) (m n : ℕ)
    (u : Upstream F) :
    completeTimes tp r (m + n) u =
      completeTimes tp r m u >>= completeTimes tp r n := by
  induction m generalizing u with
  | zero =>
      rw [Nat.zero_add]
      rfl
  | succ m ih =>
      rw [Nat.succ_add]
      simp only [completeTimes, bind_assoc, ih]

/-- The other operations leave the balancer alone. -/
theorem LogOp.run_of_ne_requestTime (tp : NgxTime) (f : LogFields)
    (r : Request F) (vars : LogVariables) (u : Upstream F) {op : LogOp}
    (hop : op ≠ .requestTime) :
    ∃ t, op.run tp f r vars u = .ok (u, t) := by
  cases op with
  | requestTime => exact absurd rfl hop
  | _ => exact ⟨_, rfl⟩

theorem runOps_cons_upstream (tp : NgxTime) (f : LogFields) (r : Request F)
    (vars : LogVariables) (op : LogOp) (ops : List LogOp) (u : Upstream F) :
    (runOps tp f r vars (op :: ops) u).map Prod.fst =
      op.run tp f r vars u >>= fun res =>
        (runOps tp f r vars ops res.1).map Prod.fst := by
  rw [runOps]
  cases op.run tp f r vars u with
  | error e => rfl
  | ok res =>
      simp only [bind, Except.bind]
      cases runOps tp f r vars ops res.1 with
      | error e => rfl
      | ok res' => rfl

/-- A format completes the request once per `$request_time`. -/
theorem runOps_upstream (tp : NgxTime) (f : LogFields) (r : Request F)
    (vars : LogVariables) (ops : List LogOp) (u : Upstream F) :
    (runOps tp f r vars ops u).map Prod.fst =
      completeTimes tp r (ops.count .requestTime) u := by
  induction ops generalizing u with
  | nil => rfl
  | cons op ops ih =>
      simp only [runOps_cons_upstream, ih]
      by_cases hop : op = .requestTime
      · subst hop
        rw [List.count_cons_self]
        rfl
      · obtain ⟨t, ht⟩ := op.run_of_ne_requestTime tp f r vars u hop
        rw [ht, List.count_cons_of_ne hop]
        rfl

theorem allocLine_upstream (env : LogEnv) (tp : NgxTime) (f : LogFields)
    (r : Request F) (l len : ℕ) (vars : LogVariables) (log : LogTarget)
    (u : Upstream F) :
    (allocLine env tp f r l len vars log u).map Prod.snd =
      if env.pnalloc l len then
        (completeTimes tp r (log.format.count .requestTime) u).map some
      else .ok none := by
  unfold allocLine
  split
  · rw [← runOps_upstream tp f r vars]
    cases runOps tp f r vars log.format u with
    | error e => rfl
    | ok res =>
        simp only [bind, Except.bind]
        cases log.syslogTag with
        | none => rfl
        | some tag => rfl
  · rfl

theorem ngxHttpLogWrite_format (env : LogEnv) (tp : NgxTime) (l : ℕ)
    (buf : Text) (log : LogTarget) :
    (ngxHttpLogWrite env tp l buf log).format = log.format := by
  unfold ngxHttpLogWrite
  dsimp only
  split
  · split
    · rfl
    · split
      · rfl
      · rfl
  · split
    · split
      · rfl
      · rfl
    · split
      · rfl
      · rfl

theorem flushBuffer_format (env : LogEnv) (tp : NgxTime) (l len : ℕ)
    (b : LogBuffer) (log : LogTarget) :
    (flushBuffer env tp l len b log).1.format = log.format := by
  unfold flushBuffer
  split
  · exact ngxHttpLogWrite_format env tp l b.content log
  · rfl

/-- The outcome of a target for the balancer: its completions, unless its line
cannot be allocated. -/
def TargetOutcome (env : LogEnv) (tp : NgxTime) (r : Request F)
    (log : LogTarget) (u : Upstream F)
    (outcome : Except Fault (Option (Upstream F))) : Prop :=
  ∃ allocated : Bool,
    ((∀ l len, env.pnalloc l len = true) → allocated = true) ∧
    outcome =
      if allocated then
        (completeTimes tp r (log.format.count .requestTime) u).map some
      else .ok none

theorem allocLine_outcome {β : Type} (env : LogEnv) (tp : NgxTime)
    (f : LogFields) (r : Request F) (l len : ℕ) (vars : LogVariables)
    (log : LogTarget) (u : Upstream F) (b : β) :
    TargetOutcome env tp r log u
      ((allocLine env tp f r l len vars log u >>= fun res =>
        pure (b, res)).map fun res => res.2.2) := by
  refine ⟨env.pnalloc l len, fun h => h l len, ?_⟩
  rw [Except.map_bind_pair _ _ Prod.snd]
  exact allocLine_upstream env tp f r l len vars log u

/-- A written target completes the request once per `$request_time` of its
format. -/
theorem writeTarget_outcome (env : LogEnv) (tp : NgxTime) (f : LogFields)
    (r : Request F) (l : ℕ) (log : LogTarget)
    (buffers : ℕ → Option LogBuffer) (u : Upstream F) :
    TargetOutcome env tp r log u
      ((writeTarget env tp f r l log buffers u).map fun res => res.2.2) := by
  unfold writeTarget
  dsimp only
  split
  · exact allocLine_outcome env tp f r l _ _ log u buffers
  · split
    · exact allocLine_outcome env tp f r l _ _ log u buffers
    · next file b hbuffer =>
        have hformat := flushBuffer_format env tp l
          ((reserveAll log.format (env.values l)).1 + 1) b log
        split
        · refine ⟨true, fun _ => rfl, ?_⟩
          rw [if_pos rfl, ← runOps_upstream tp f r]
          cases runOps tp f r _ log.format u with
          | error e => rfl
          | ok res => rfl
        · next log' b' hflush =>
            rw [hflush] at hformat
            unfold TargetOutcome
            rw [← hformat]
            exact allocLine_outcome env tp f r l _ _ log' u _

/-- The outcome of a loop over targets: the completions of the targets up to
the first one whose line cannot be allocated. -/
def LoopOutcome (env : LogEnv) (tp : NgxTime) (r : Request F)
    (logs : List LogTarget) (u : Upstream F)
    (outcome : Except Fault (Bool × LogState × Upstream F)) : Prop :=
  ∃ written, written <+: logs ∧
    ((∀ l len, env.pnalloc l len = true) → written = logs) ∧
    (∀ st' u', outcome = .ok (true, st', u') → written = logs) ∧
    outcome.map (fun res => res.2.2) =
      completeTimes tp r (evaluations tp written) u

/-- One more target in front of a loop, which takes the balancer from `u` to
`u'`. -/
theorem LoopOutcome.cons {env : LogEnv} {tp : NgxTime} {r : Request F}
    {logs : List LogTarget} {u u' : Upstream F}
    {outcome : Except Fault (Bool × LogState × Upstream F)}
    (h : LoopOutcome env tp r logs u' outcome) {log : LogTarget}
    (log' : LogTarget)
    (hlog : ∀ written, completeTimes tp r (evaluations tp (log :: written)) u =
      completeTimes tp r (evaluations tp written) u') :
    LoopOutcome env tp r (log :: logs) u
      (outcome >>= fun res =>
        pure (res.1, { res.2.1 with logs := log' :: res.2.1.logs }, res.2.2)) := by
  obtain ⟨written, hprefix, halloc, hok, hmap⟩ := h
  refine ⟨log :: written, List.cons_prefix_cons.mpr ⟨rfl, hprefix⟩,
    fun hall => congrArg (log :: ·) (halloc hall), ?_, ?_⟩
  · intro st' v hres
    obtain ⟨⟨ok, st, w⟩, hrest, hres⟩ := Except.bind_eq_ok.mp hres
    obtain ⟨rfl, -⟩ := Prod.mk.inj (Except.ok.inj hres)
    rw [hok st w hrest]
  · rw [hlog, ← hmap]
    cases outcome with
    | error e => rfl
    | ok res => rfl

/-- The loop over the targets completes the request once per evaluation. -/
theorem logTargets_outcome (env : LogEnv) (tp : NgxTime) (f : LogFields)
    (r : Request F) (l : ℕ) (logs : List LogTarget)
    (buffers : ℕ → Option LogBuffer) (u : Upstream F) :
    LoopOutcome env tp r logs u (logTargets env tp f r l logs buffers u) := by
  induction logs generalizing l buffers u with
  | nil => exact ⟨[], List.prefix_rfl, fun _ => rfl, fun _ _ _ => rfl, rfl⟩
  | cons log logs ih =>
      rw [logTargets]
      cases hdecision : log.decision tp with
      | fail =>
          refine ⟨log :: logs, List.prefix_rfl, fun _ => rfl,
            fun _ _ _ => rfl, ?_⟩
          rw [evaluations, hdecision]
          rfl
      | skip =>
          refine (ih (l + 1) buffers u).cons log fun written => ?_
          rw [evaluations, hdecision]
      | write =>
          dsimp only
          obtain ⟨allocated, halloc, hwrite⟩ :=
            writeTarget_outcome env tp f r l log buffers u
          cases allocated with
          | false =>
              -- the handler returns, and no later target is written
              obtain ⟨⟨buffers', log', u'⟩, hres, hnone⟩ :
                  ∃ res, writeTarget env tp f r l log buffers u = .ok res ∧
                    res.2.2 = none := Except.map_eq_ok.mp hwrite
              obtain rfl : u' = none := hnone
              rw [hres]
              refine ⟨[], List.nil_prefix, fun hall => ?_, fun _ _ hok => ?_, rfl⟩
              · cases halloc hall
              · cases hok
          | true =>
              rw [if_pos rfl] at hwrite
              rcases Except.cases_of_map_eq hwrite with
                ⟨e, hres, hcomplete⟩ |
                ⟨⟨buffers', log', u''⟩, u', hres, hcomplete, hsome⟩
              · refine ⟨log :: logs, List.prefix_rfl, fun _ => rfl,
                  fun _ _ _ => rfl, ?_⟩
                rw [evaluations, hdecision]
                dsimp only
                rw [completeTimes_add, hres, hcomplete]
                rfl
              · obtain rfl : u'' = some u' := hsome
                rw [hres]
                refine (ih (l + 1) buffers' u').cons log' fun written => ?_
                rw [evaluations, hdecision]
                dsimp only
                rw [completeTimes_add, hcomplete]
                rfl

/-- What the handler leaves of the balancer, in terms of completions. -/
theorem handler_upstream (env : LogEnv) (tp : NgxTime) (f : LogFields)
    (r : Request F) (st : LogState) (u : Upstream F) :
    ∃ written, written <+: st.logs ∧
      ((∀ l len, env.pnalloc l len = true) → written = st.logs) ∧
      (∀ st' u', ngxHttpLogHandler env tp false f r st u =
        .ok (true, st', u') → written = st.logs) ∧
      ∀ u', (∃ ok st', ngxHttpLogHandler env tp false f r st u =
          .ok (ok, st', u')) ↔
        completeTimes tp r (evaluations tp written) u = .ok u' := by
  obtain ⟨written, hprefix, halloc, hok, hmap⟩ :=
    logTargets_outcome env tp f r 0 st.logs st.buffers u
  refine ⟨written, hprefix, halloc, hok, fun u' => ?_⟩
  rw [← hmap, Except.map_eq_ok]
  constructor
  · rintro ⟨ok, st', h⟩
    exact ⟨(ok, st', u'), h, rfl⟩
  · rintro ⟨⟨ok, st', v⟩, h, rfl⟩
    exact ⟨ok, st', h⟩

/-- Every completion takes one from the active requests of the version. -/
theorem completeTimes_activeReq {tp : NgxTime} {r : Request F} {a k : ℕ}
    {u u' : Upstream F} (hver : r.version = some a)
    (h : completeTimes tp r k u = .ok u') :
    (u'.versions a).activeReq = (u.versions a).activeReq - k := by
  induction k generalizing u with
  | zero =>
      obtain rfl := Except.ok.inj h
      simp
  | succ k ih =>
      obtain ⟨⟨u₁, t⟩, hlog, h⟩ := Except.bind_eq_ok.mp h
      rcases logRequestTime_spec hlog with ⟨hnone, -⟩ |
        ⟨b, v, m, hb, hcomplete, hversions, -⟩
      · rw [hver] at hnone
        cases hnone
      · obtain rfl : a = b := Option.some.inj (hver.symm.trans hb)
        have hactive := (completeVersion_ok hcomplete).1
        rw [ih h, hversions, Function.update_self, hactive]
        push_cast
        omega

/-- One run of the handler leaves the balancer as one completion update does
exactly if the targets that are written evaluate `$request_time` once: when
every line can be allocated, and whenever the handler returns `NGX_OK`. -/
theorem handler_completes_once_iff (env : LogEnv) (tp : NgxTime) (off : Bool)
    (f : LogFields) (r : Request F) (st : LogState) {a : ℕ}
    (hver : r.version = some a) {u u₁ : Upstream F} {t : Text}
    (hone : ngxHttpLogRequestTime tp u r = .ok (u₁, t)) :
    ((∀ l len, env.pnalloc l len = true) →
      ((∃ ok st', ngxHttpLogHandler env tp off f r st u = .ok (ok, st', u₁)) ↔
        off = false ∧ evaluations tp st.logs = 1)) ∧
    ∀ st' u', ngxHttpLogHandler env tp off f r st u = .ok (true, st', u') →
      (u' = u₁ ↔ off = false ∧ evaluations tp st.logs = 1) := by
  have honce : completeTimes tp r 1 u = .ok u₁ := by
    simp [completeTimes, hone, bind, Except.bind]
  have hactive := completeTimes_activeReq hver honce
  cases off with
  | true =>
      have hne : u ≠ u₁ := by
        rintro rfl
        omega
      simp [ngxHttpLogHandler, hne]
  | false =>
      obtain ⟨written, -, halloc, hok, hiff⟩ :=
        handler_upstream env tp f r st u
      have hexact : (∃ ok st',
          ngxHttpLogHandler env tp false f r st u = .ok (ok, st', u₁)) ↔
          evaluations tp written = 1 := by
        rw [hiff u₁]
        constructor
        · intro h
          have hk := completeTimes_activeReq hver h
          omega
        · intro h
          rw [h]
          exact honce
      refine ⟨fun hall => ?_, fun st' u' h => ?_⟩
      · rw [hexact, halloc hall]
        simp
      · rw [hok st' u' h] at hexact
        rw [← hexact]
        simp [h, eq_comm]

/-- An environment without variables, in which every allocation and every
write succeeds. -/
def quietEnv : LogEnv where
  values _ := fun _ => none
  pnalloc _ _ := true
  write _ buf := .written buf.length
  hostname := 0

/-- An unbuffered target whose format is `$request_time`. -/
def timeTarget : LogTarget where
  filter := .absent
  diskFullTime := 0
  errorLogTime := 0
  syslogTag := none
  file := some 0
  format := [.requestTime]

/-- One target completes a request on the heavy server once. -/
theorem handler_completes_once_single :
    ∃ (s : System RatFloat) (r : Request RatFloat) (u : Upstream RatFloat)
      (t : Text),
      run errorConf heavyLight [.arrive (NgxTime.ofSec 1),
        .connect 0 (NgxTime.ofSec 1)] = .ok s ∧
      s.requests[0]? = some r ∧ r.version = some 0 ∧
      ngxHttpLogRequestTime (NgxTime.ofSec 2) s.upstream r = .ok (u, t) ∧
      ∃ ok st', ngxHttpLogHandler quietEnv (NgxTime.ofSec 2) false noFields r
        { logs := [timeTarget], buffers := fun _ => none } s.upstream =
          .ok (ok, st', u) := by
  obtain ⟨s, r, u, -, t, -, hrun, hr, hver, -, hlog, -⟩ :=
    heavyLight_dispatched
  refine ⟨s, r, u, t, hrun, hr, hver, hlog, ?_⟩
  exact ((handler_completes_once_iff quietEnv _ _ _ _ _ hver hlog).1
    fun _ _ => rfl).mpr (by decide)

/-- Two targets complete a request on the heavy server twice: its version,
which had one active request, is left with minus one. -/
theorem handler_completes_twice :
    ∃ (s : System RatFloat) (r : Request RatFloat) (u₁ u₂ : Upstream RatFloat)
      (t : Text) (ok : Bool) (st : LogState),
      run errorConf heavyLight [.arrive (NgxTime.ofSec 1),
        .connect 0 (NgxTime.ofSec 1)] = .ok s ∧
      s.requests[0]? = some r ∧ r.version = some 0 ∧
      ngxHttpLogRequestTime (NgxTime.ofSec 2) s.upstream r = .ok (u₁, t) ∧
      (u₁.versions 0).activeReq = 0 ∧
      ngxHttpLogHandler quietEnv (NgxTime.ofSec 2) false noFields r
        { logs := [timeTarget, timeTarget], buffers := fun _ => none }
        s.upstream = .ok (ok, st, u₂) ∧
      (u₂.versions 0).activeReq = -1 ∧ u₂ ≠ u₁ := by
  obtain ⟨s, r, u₁, u₂, t, _, hrun, hr, hver, hactive, hone, htwo⟩ :=
    heavyLight_dispatched
  have honce : completeTimes (NgxTime.ofSec 2) r 1 s.upstream = .ok u₁ := by
    simp [completeTimes, hone, bind, Except.bind]
  have htwice : completeTimes (NgxTime.ofSec 2) r 2 s.upstream = .ok u₂ := by
    simp [completeTimes, hone, htwo, bind, Except.bind]
  have hactive₁ := completeTimes_activeReq hver honce
  have hactive₂ := completeTimes_activeReq hver htwice
  rw [hactive] at hactive₁ hactive₂
  obtain ⟨written, -, halloc, -, hiff⟩ := handler_upstream quietEnv
    (NgxTime.ofSec 2) noFields r
    { logs := [timeTarget, timeTarget], buffers := fun _ => none } s.upstream
  obtain rfl := halloc fun _ _ => rfl
  obtain ⟨ok, st, hhandler⟩ := (hiff u₂).mpr htwice
  refine ⟨s, r, u₁, u₂, t, ok, st, hrun, hr, hver, hone, hactive₁, hhandler,
    hactive₂, ?_⟩
  rintro rfl
  omega

end MultiversionBalancer
