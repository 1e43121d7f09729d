import MultiversionBalancer.Lib.Processes

/-!
# Mutexes in shared memory

The mutex of `ngx_shmtx.c` where there are atomic operations and POSIX semaphores: a word with
the process that holds it, and a semaphore with the number of processes that wait for it.  Any
process may come between two atomic operations of another one, and a process may end anywhere,
after which the master calls `ngx_shmtx_force_unlock` for it.  A mutex excludes in every such
run; while no process ends, no process is left asleep on a free mutex.  `sem_wait` returns with an
error only when it is interrupted, and is then called again; `sem_post` does not fail.
-/

namespace MultiversionBalancer.Core

open Lib

/-- What the processes share: `lock` and `wait` of `ngx_shmtx_sh_t`, and the value of the
semaphore. -/
structure NgxShmtx where
  lock : ℕ
  wait : UInt64
  sem : ℕ
  deriving DecidableEq

/-- Where a process is in the code of the mutex.  `tests` is how often `ngx_shmtx_lock` will
test the word again before it turns to the semaphore; `held` tells whether the mutex was held by
the process that ended. -/
inductive ShmtxProcess where
  | idle
  | tryRead
  | trySet
  | lockRead (tests : ℕ)
  | lockSet (tests : ℕ)
  | waitAdd
  | waitRead
  | waitSet
  | waitSub
  | asleep
  | holding
  | unlockSet
  | wakeRead
  | wakeSet (wait : UInt64)
  | post
  | dead (held : Bool)
  | forceSet (held : Bool)
  deriving DecidableEq

/-- A call of one of the functions, the next step of the call under way, or the end of the
process. -/
inductive ShmtxEvent where
  | trylock
  | lock
  | unlock
  | forceUnlock
  | step
  | die
  deriving DecidableEq

namespace ShmtxProcess

def holds : ShmtxProcess → Bool
  | .waitSub | .holding | .unlockSet => true
  | .dead held | .forceSet held => held
  | _ => false

/-- The process is counted in `wait`, or has been and not been woken. -/
def waits : ShmtxProcess → Bool
  | .waitRead | .waitSet | .waitSub | .asleep => true
  | _ => false

/-- The process is about to add to the semaphore. -/
def posts : ShmtxProcess → Bool
  | .post => true
  | _ => false

/-- The process is about to test the word, or to look for a process to wake. -/
def alert : ShmtxProcess → Bool
  | .tryRead | .trySet | .lockRead _ | .lockSet _ | .waitAdd | .waitRead | .waitSet | .wakeRead
  | .wakeSet _ | .post => true
  | _ => false

theorem alert_of_posts {l : ShmtxProcess} (h : l.posts = true) : l.alert = true := by
  cases l with
  | post => rfl
  | _ => cases h

/-- Where `ngx_shmtx_lock` goes when it has not got the mutex. -/
def retry : ℕ → ShmtxProcess
  | 0 => .waitAdd
  | tests + 1 => .lockRead tests

/-- `ngx_atomic_cmp_set` of a free word to the id of the process. -/
def acquire (own : ℕ) (m : NgxShmtx) (got lost : ShmtxProcess) :
    Option (NgxShmtx × ShmtxProcess) :=
  if m.lock = 0 then some ({ m with lock := own }, got) else some (m, lost)

/-- `ngx_atomic_cmp_set` of the word from the id of the process to `0`. -/
def release (own : ℕ) (m : NgxShmtx) : Option (NgxShmtx × ShmtxProcess) :=
  if m.lock = own then some ({ m with lock := 0 }, .wakeRead) else some (m, .idle)

/-- `ngx_atomic_cmp_set` of the number of waiting processes that has been read. -/
def claim (m : NgxShmtx) (wait : UInt64) : Option (NgxShmtx × ShmtxProcess) :=
  if m.wait = wait then some ({ m with wait := wait - 1 }, .post) else some (m, .wakeRead)

/-- `sem_wait`, which goes on when the semaphore is positive. -/
def semWait (spins : ℕ) (m : NgxShmtx) : Option (NgxShmtx × ShmtxProcess) :=
  if 0 < m.sem then some ({ m with sem := m.sem - 1 }, .lockRead spins) else none

/-- One step of a process whose id is `own`; there is none when the event cannot happen.  A
process that finds the word free tests it once, and then `spins` times more where there are
several processors. -/
def step (own spins : ℕ) (m : NgxShmtx) :
    ShmtxProcess → ShmtxEvent → Option (NgxShmtx × ShmtxProcess)
  | .dead held, .forceUnlock => some (m, .forceSet held)
  | .dead _, _ => none
  | .forceSet _, .step => release own m
  | .forceSet _, _ => none
  | l, .die => some (m, .dead l.holds)
  | .idle, .trylock => some (m, .tryRead)
  | .idle, .lock => some (m, .lockRead spins)
  | .holding, .unlock => some (m, .unlockSet)
  | .tryRead, .step => some (m, if m.lock = 0 then .trySet else .idle)
  | .trySet, .step => acquire own m .holding .idle
  | .lockRead tests, .step => some (m, if m.lock = 0 then .lockSet tests else retry tests)
  | .lockSet tests, .step => acquire own m .holding (retry tests)
  | .waitAdd, .step => some ({ m with wait := m.wait + 1 }, .waitRead)
  | .waitRead, .step => some (m, if m.lock = 0 then .waitSet else .asleep)
  | .waitSet, .step => acquire own m .waitSub .asleep
  | .waitSub, .step => some ({ m with wait := m.wait + (-1) }, .holding)
  | .asleep, .step => semWait spins m
  | .unlockSet, .step => release own m
  | .wakeRead, .step => some (m, if m.wait.toInt64 ≤ 0 then .idle else .wakeSet m.wait)
  | .wakeSet wait, .step => claim m wait
  | .post, .step => some ({ m with sem := m.sem + 1 }, .idle)
  | _, _ => none

/-- A process that is about to claim a waiting one has read that there is one. -/
def Consistent : ShmtxProcess → Prop
  | .wakeSet wait => ¬ wait.toInt64 ≤ 0
  | _ => True

/-- What a step does to the mutex, and what becomes of the process. -/
inductive Effect (own : ℕ) (m : NgxShmtx) (l : ShmtxProcess) (e : ShmtxEvent) :
    NgxShmtx → ShmtxProcess → Prop
  | stay {l' : ShmtxProcess} (hholds : l'.holds = l.holds) (hwaits : l'.waits = l.waits)
      (hposts : l'.posts = l.posts)
      (halert : m.lock = 0 → l.alert = true → l'.alert = true ∨ m.wait.toInt64 ≤ 0)
      (hasleep : m.lock = 0 → l' ≠ .asleep) : Effect own m l e m l'
  | die (he : e = .die) : Effect own m l e m (.dead l.holds)
  | take {l' : ShmtxProcess} (hfree : m.lock = 0) (hholds : l.holds = false)
      (hholds' : l'.holds = true) (hwaits : l'.waits = l.waits) (hposts : l'.posts = l.posts) :
      Effect own m l e { m with lock := own } l'
  | drop (hown : m.lock = own) (hholds : l.holds = true) (hwaits : l.waits = false)
      (hposts : l.posts = false) : Effect own m l e { m with lock := 0 } .wakeRead
  | enter (hl : l = .waitAdd) : Effect own m l e { m with wait := m.wait + 1 } .waitRead
  | leave (hl : l = .waitSub) : Effect own m l e { m with wait := m.wait + (-1) } .holding
  | wake (tests : ℕ) (hl : l = .asleep) (hsem : 0 < m.sem) :
      Effect own m l e { m with sem := m.sem - 1 } (.lockRead tests)
  | claim (hwait : ¬ m.wait.toInt64 ≤ 0) (hl : l = .wakeSet m.wait) :
      Effect own m l e { m with wait := m.wait - 1 } .post
  | post (hl : l = .post) : Effect own m l e { m with sem := m.sem + 1 } .idle

variable {own spins : ℕ} {m m' : NgxShmtx} {l l' : ShmtxProcess} {e : ShmtxEvent}

/-- A process that goes on to test the word. -/
theorem Effect.awake (hholds : l'.holds = l.holds) (hwaits : l'.waits = l.waits)
    (hposts : l'.posts = l.posts) (halert : l'.alert = true) : Effect own m l e m l' := by
  refine .stay hholds hwaits hposts (fun _ _ => .inl halert) fun _ hasleep => ?_
  rw [hasleep] at halert
  cases halert

theorem Effect.locked (hlock : m.lock ≠ 0) (hholds : l'.holds = l.holds)
    (hwaits : l'.waits = l.waits) (hposts : l'.posts = l.posts) : Effect own m l e m l' :=
  .stay hholds hwaits hposts (fun hfree => absurd hfree hlock) fun hfree => absurd hfree hlock

theorem Effect.retry (tests : ℕ) (hholds : l.holds = false) (hwaits : l.waits = false)
    (hposts : l.posts = false) : Effect own m l e m (ShmtxProcess.retry tests) := by
  cases tests with
  | zero => exact .awake hholds.symm hwaits.symm hposts.symm rfl
  | succ tests => exact .awake hholds.symm hwaits.symm hposts.symm rfl

theorem acquire_cases {got lost : ShmtxProcess} (h : acquire own m got lost = some (m', l')) :
    (m.lock = 0 ∧ m' = { m with lock := own } ∧ l' = got) ∨ (m.lock ≠ 0 ∧ m' = m ∧ l' = lost) := by
  unfold acquire at h
  split_ifs at h with hlock
  · exact .inl ⟨hlock, (Prod.ext_iff.mp (Option.some.inj h)).imp Eq.symm Eq.symm⟩
  · exact .inr ⟨hlock, (Prod.ext_iff.mp (Option.some.inj h)).imp Eq.symm Eq.symm⟩

theorem release_cases (h : release own m = some (m', l')) :
    (m.lock = own ∧ m' = { m with lock := 0 } ∧ l' = .wakeRead) ∨
      (m.lock ≠ own ∧ m' = m ∧ l' = .idle) := by
  unfold release at h
  split_ifs at h with hlock
  · exact .inl ⟨hlock, (Prod.ext_iff.mp (Option.some.inj h)).imp Eq.symm Eq.symm⟩
  · exact .inr ⟨hlock, (Prod.ext_iff.mp (Option.some.inj h)).imp Eq.symm Eq.symm⟩

theorem consistent_retry (tests : ℕ) : (retry tests).Consistent := by
  cases tests with
  | zero => trivial
  | succ tests => trivial

theorem step_effect (hown : l.holds = true ↔ m.lock = own)
    (hl : l.Consistent) (h : l.step own spins m e = some (m', l')) :
    Effect own m l e m' l' ∧ l'.Consistent := by
  cases e with
  | die => cases l <;> cases h <;> exact ⟨.die rfl, trivial⟩
  | trylock | lock | unlock | forceUnlock =>
      cases l
      all_goals cases h
      exact ⟨.stay rfl rfl rfl (fun _ h => by cases h) (fun _ h => by cases h), trivial⟩
  | step =>
      cases l with
      | idle | holding | dead held => cases h
      | tryRead =>
          obtain ⟨rfl, rfl⟩ := Prod.ext_iff.mp (Option.some.inj h)
          split_ifs with hlock
          · exact ⟨.awake rfl rfl rfl rfl, trivial⟩
          · exact ⟨.locked hlock rfl rfl rfl, trivial⟩
      | trySet =>
          obtain ⟨hlock, rfl, rfl⟩ | ⟨hlock, rfl, rfl⟩ := acquire_cases h
          · exact ⟨.take hlock rfl rfl rfl rfl, trivial⟩
          · exact ⟨.locked hlock rfl rfl rfl, trivial⟩
      | lockRead tests =>
          obtain ⟨rfl, rfl⟩ := Prod.ext_iff.mp (Option.some.inj h)
          split_ifs with hlock
          · exact ⟨.awake rfl rfl rfl rfl, trivial⟩
          · exact ⟨.retry tests rfl rfl rfl, consistent_retry tests⟩
      | lockSet tests =>
          obtain ⟨hlock, rfl, rfl⟩ | ⟨hlock, rfl, rfl⟩ := acquire_cases h
          · exact ⟨.take hlock rfl rfl rfl rfl, trivial⟩
          · exact ⟨.retry tests rfl rfl rfl, consistent_retry tests⟩
      | waitAdd =>
          obtain ⟨rfl, rfl⟩ := Prod.ext_iff.mp (Option.some.inj h)
          exact ⟨.enter rfl, trivial⟩
      | waitRead =>
          obtain ⟨rfl, rfl⟩ := Prod.ext_iff.mp (Option.some.inj h)
          split_ifs with hlock
          · exact ⟨.awake rfl rfl rfl rfl, trivial⟩
          · exact ⟨.locked hlock rfl rfl rfl, trivial⟩
      | waitSet =>
          obtain ⟨hlock, rfl, rfl⟩ | ⟨hlock, rfl, rfl⟩ := acquire_cases h
          · exact ⟨.take hlock rfl rfl rfl rfl, trivial⟩
          · exact ⟨.locked hlock rfl rfl rfl, trivial⟩
      | waitSub =>
          obtain ⟨rfl, rfl⟩ := Prod.ext_iff.mp (Option.some.inj h)
          exact ⟨.leave rfl, trivial⟩
      | asleep =>
          replace h : semWait spins m = some (m', l') := h
          unfold semWait at h
          split_ifs at h with hsem
          obtain ⟨rfl, rfl⟩ := Prod.ext_iff.mp (Option.some.inj h)
          exact ⟨.wake spins rfl hsem, trivial⟩
      | unlockSet =>
          obtain ⟨hlock, rfl, rfl⟩ | ⟨hlock, -⟩ := release_cases h
          · exact ⟨.drop hlock rfl rfl rfl, trivial⟩
          · exact absurd (hown.mp rfl) hlock
      | forceSet held =>
          obtain ⟨hlock, rfl, rfl⟩ | ⟨hlock, rfl, rfl⟩ := release_cases h
          · exact ⟨.drop hlock (hown.mpr hlock) rfl rfl, trivial⟩
          · have hheld : held = false := by
              rw [← Bool.not_eq_true]
              exact fun hheld => hlock (hown.mp hheld)
            exact ⟨.stay hheld.symm rfl rfl (fun _ h => by cases h) (fun _ h => by cases h),
              trivial⟩
      | wakeRead =>
          obtain ⟨rfl, rfl⟩ := Prod.ext_iff.mp (Option.some.inj h)
          split_ifs with hwait
          · exact ⟨.stay rfl rfl rfl (fun _ _ => .inr hwait) (fun _ h => by cases h), trivial⟩
          · exact ⟨.awake rfl rfl rfl rfl, hwait⟩
      | wakeSet wait =>
          replace h : claim m wait = some (m', l') := h
          unfold claim at h
          split_ifs at h with hsame
          · obtain ⟨rfl, rfl⟩ := Prod.ext_iff.mp (Option.some.inj h)
            obtain rfl := hsame
            exact ⟨.claim hl rfl, trivial⟩
          · obtain ⟨rfl, rfl⟩ := Prod.ext_iff.mp (Option.some.inj h)
            exact ⟨.awake rfl rfl rfl rfl, trivial⟩
      | post =>
          obtain ⟨rfl, rfl⟩ := Prod.ext_iff.mp (Option.some.inj h)
          exact ⟨.post rfl, trivial⟩

end ShmtxProcess

/-! ## All of the processes -/

section Processes

variable {P : Type} [DecidableEq P] {pid : P → ℕ} {spins : ℕ}

def shmtxStep (pid : P → ℕ) (spins : ℕ) (p : P) (e : ShmtxEvent) (m : NgxShmtx)
    (l : ShmtxProcess) : Option (NgxShmtx × ShmtxProcess) :=
  l.step (pid p) spins m e

/-- The processes around a mutex after any sequence of allowed events, from a free mutex. -/
def ShmtxReaches (pid : P → ℕ) (spins : ℕ) (ok : ShmtxEvent → Prop)
    (c : Processes P NgxShmtx ShmtxProcess) : Prop :=
  Processes.Reaches (shmtxStep pid spins) (fun _ e => ok e) ⟨0, 0, 0⟩ .idle c

/-- The word tells which process has the mutex. -/
structure ShmtxInv (pid : P → ℕ) (c : Processes P NgxShmtx ShmtxProcess) : Prop where
  owner : ∀ p, (c.loc p).holds = true ↔ c.shared.lock = pid p
  owned : c.shared.lock = 0 ∨ ∃ p, c.shared.lock = pid p
  consistent : ∀ p, (c.loc p).Consistent

variable {c : Processes P NgxShmtx ShmtxProcess}

theorem ShmtxInv.step (hpid : Function.Injective pid) (hpos : ∀ p, pid p ≠ 0)
    (hc : ShmtxInv pid c) {p : P} {e : ShmtxEvent} {m' : NgxShmtx} {l' : ShmtxProcess}
    (h : (c.loc p).step (pid p) spins c.shared e = some (m', l')) :
    ShmtxInv pid (c.move p m' l') := by
  obtain ⟨heffect, hl'⟩ := ShmtxProcess.step_effect (hc.owner p) (hc.consistent p) h
  -- It is enough to know what becomes of the word and of the process.
  have hmove (howned : m'.lock = 0 ∨ ∃ q, m'.lock = pid q)
      (hself : l'.holds = true ↔ m'.lock = pid p)
      (hrest : ∀ q, q ≠ p → ((c.loc q).holds = true ↔ m'.lock = pid q)) :
      ShmtxInv pid (c.move p m' l') := by
    refine ⟨fun q => ?_, howned, Processes.forall_move hc.consistent p m' hl'⟩
    by_cases hq : q = p
    · rw [hq, Processes.move_loc, Function.update_self]
      exact hself
    · rw [Processes.move_loc, Function.update_of_ne hq]
      exact hrest q hq
  have hother {q : P} (hq : q ≠ p) : pid p ≠ pid q := fun heq => hq (hpid heq).symm
  have hkeep (hlock : m'.lock = c.shared.lock) (hholds : l'.holds = (c.loc p).holds) :
      ShmtxInv pid (c.move p m' l') := by
    refine hmove ?_ ?_ fun q _ => ?_
    · rw [hlock]
      exact hc.owned
    · rw [hlock, hholds]
      exact hc.owner p
    · rw [hlock]
      exact hc.owner q
  cases heffect with
  | stay hholds _ _ _ _ => exact hkeep rfl hholds
  | die _ => exact hkeep rfl rfl
  | take hfree _ hholds' _ _ =>
      refine hmove (.inr ⟨p, rfl⟩) (iff_of_true hholds' rfl) fun q hq => ?_
      rw [hc.owner q, hfree]
      exact iff_of_false (hpos q).symm (hother hq)
  | drop hown _ _ _ =>
      refine hmove (.inl rfl) (iff_of_false (by decide) (hpos p).symm) fun q hq => ?_
      rw [hc.owner q, hown]
      exact iff_of_false (hother hq) (hpos q).symm
  | enter hl | leave hl | wake _ hl _ | claim _ hl | post hl => exact hkeep rfl (by rw [hl]; rfl)

theorem ShmtxReaches.inv (hpid : Function.Injective pid) (hpos : ∀ p, pid p ≠ 0)
    {ok : ShmtxEvent → Prop} (h : ShmtxReaches pid spins ok c) : ShmtxInv pid c := by
  refine Processes.Reaches.invariant ⟨fun p => ?_, .inl rfl, fun _ => trivial⟩
    (fun c p e m' l' _ hc _ hstep => hc.step hpid hpos hstep) h
  exact iff_of_false Bool.false_ne_true (hpos p).symm

/-- At most one process has the mutex, whatever processes end and are unlocked by the master,
and the word is its id; the word is `0` when nobody has the mutex. -/
theorem ShmtxReaches.one_holder (hpid : Function.Injective pid) (hpos : ∀ p, pid p ≠ 0)
    (h : ShmtxReaches pid spins (fun _ => True) c) :
    (∀ p q, (c.loc p).holds = true → (c.loc q).holds = true → p = q) ∧
      (∀ p, (c.loc p).holds = true → c.shared.lock = pid p) ∧
      ((∀ p, (c.loc p).holds = false) → c.shared.lock = 0) := by
  have hinv := h.inv hpid hpos
  refine ⟨fun p q hp hq => ?_, fun p hp => (hinv.owner p).mp hp, fun hnone => ?_⟩
  · exact hpid (((hinv.owner p).mp hp).symm.trans ((hinv.owner q).mp hq))
  · refine hinv.owned.resolve_right fun ⟨p, hp⟩ => ?_
    exact absurd ((hinv.owner p).mpr hp) (by rw [hnone p]; exact Bool.false_ne_true)

/-- A process ends inside the mutex, and the master unlocks it before another one gets in. -/
theorem ShmtxReaches.one_holder_after_forceUnlock :
    ∃ c : Processes (Fin 2) NgxShmtx ShmtxProcess,
      ShmtxReaches (fun p => p.val + 1) 0 (fun _ => True) c ∧ (c.loc 1).holds = true ∧
        ∀ q, (c.loc q).holds = true → 1 = q := by
  have hrun : (([(0, .lock), (0, .step), (0, .step), (0, .die), (0, .forceUnlock), (0, .step),
      (1, .trylock), (1, .step), (1, .step)].foldlM
        (Processes.next (shmtxStep (fun p => p.val + 1) 0)) ⟨⟨0, 0, 0⟩, fun _ => .idle⟩ :
          Option (Processes (Fin 2) NgxShmtx ShmtxProcess)).map fun c => (c.loc 1).holds) =
      some true := by decide
  obtain ⟨c, hc, hholds⟩ := Option.map_eq_some_iff.mp hrun
  have hreach : ShmtxReaches (fun p => p.val + 1) 0 (fun _ => True) c :=
    .of_foldlM _ (fun _ _ => trivial) hc
  have hpid : Function.Injective fun p : Fin 2 => p.val + 1 := fun p q h =>
    Fin.ext (Nat.succ_injective h)
  exact ⟨c, hreach, hholds, fun q =>
    (hreach.one_holder hpid fun p => Nat.succ_ne_zero _).1 1 q hholds⟩

/-! ## No wake-up is lost -/

variable [Fintype P]

/-- The semaphore and the processes that wait for it are accounted for by `wait`, and a process
is up and about whenever another one is asleep on a free mutex. -/
structure WakeInv (c : Processes P NgxShmtx ShmtxProcess) : Prop where
  count : c.shared.wait.toInt64.toInt + Processes.count ShmtxProcess.posts c.loc + c.shared.sem =
    Processes.count ShmtxProcess.waits c.loc
  bound : Processes.count ShmtxProcess.posts c.loc + c.shared.sem ≤ Fintype.card P
  awake : c.shared.lock = 0 → c.shared.sem = 0 → (∃ p, c.loc p = .asleep) →
    ∃ p, (c.loc p).alert = true

/-- A change of `wait` by one does not wrap. -/
theorem toInt_add_one {w d : UInt64} {n : ℕ} (hn : n < 2 ^ 62) (hw : w.toInt64.toInt.natAbs ≤ n)
    (hd : d.toInt64.toInt.natAbs ≤ 1) :
    (w + d).toInt64.toInt = w.toInt64.toInt + d.toInt64.toInt := by
  rw [UInt64.toInt64_add, Int64.toInt_add]
  exact Int.bmod_eq_of_le (by omega) (by omega)

theorem WakeInv.step (hcard : Fintype.card P < 2 ^ 62)
    (hpos : ∀ p, pid p ≠ 0) (hlock : ShmtxInv pid c) (hc : WakeInv c) {p : P} {e : ShmtxEvent}
    (he : e ≠ .die) {m' : NgxShmtx} {l' : ShmtxProcess}
    (h : (c.loc p).step (pid p) spins c.shared e = some (m', l')) :
    WakeInv (c.move p m' l') := by
  obtain ⟨heffect, -⟩ := ShmtxProcess.step_effect (hlock.owner p) (hlock.consistent p) h
  have hwaits := Processes.count_update ShmtxProcess.waits c.loc p l'
  have hposts := Processes.count_update ShmtxProcess.posts c.loc p l'
  have hwaiting := Processes.count_le_card ShmtxProcess.waits c.loc
  have hcount := hc.count
  have hbound := hc.bound
  have hone : (1 : UInt64).toInt64.toInt = 1 := by decide
  have hminus : (-1 : UInt64).toInt64.toInt = -1 := by decide
  have hself (halert : l'.alert = true) : ∃ q, ((c.move p m' l').loc q).alert = true :=
    ⟨p, by rwa [Processes.move_loc, Function.update_self]⟩
  have hheld (hholds : (c.loc p).holds = true) : c.shared.lock ≠ 0 := by
    rw [(hlock.owner p).mp hholds]
    exact hpos p
  have hmove (hcount' : m'.wait.toInt64.toInt +
        Processes.count ShmtxProcess.posts (Function.update c.loc p l') + m'.sem =
          Processes.count ShmtxProcess.waits (Function.update c.loc p l'))
      (hbound' : Processes.count ShmtxProcess.posts (Function.update c.loc p l') + m'.sem ≤
        Fintype.card P)
      (hawake' : m'.lock = 0 → m'.sem = 0 → (∃ q, (c.move p m' l').loc q = .asleep) →
        ∃ q, ((c.move p m' l').loc q).alert = true) : WakeInv (c.move p m' l') :=
    ⟨hcount', hbound', hawake'⟩
  cases heffect with
  | stay hholds hsame hsame' halert hasleep =>
      rw [hsame] at hwaits
      rw [hsame'] at hposts
      refine hmove (by omega) (by omega) fun hfree hsem ⟨r, hr⟩ => ?_
      have hrp : r ≠ p := by
        rintro rfl
        rw [Processes.move_loc, Function.update_self] at hr
        exact hasleep hfree hr
      rw [Processes.move_loc, Function.update_of_ne hrp] at hr
      obtain ⟨q, hq⟩ := hc.awake hfree hsem ⟨r, hr⟩
      by_cases hqp : q = p
      · rw [hqp] at hq
        rcases halert hfree hq with hl' | hwait
        · exact hself hl'
        · -- Who is up and finds nobody to wake leaves it to those that are about to post.
          rw [Int64.le_iff_toInt_le, Int64.toInt_zero] at hwait
          have hsleeper : 0 < Processes.count ShmtxProcess.waits c.loc :=
            Processes.count_pos.mpr ⟨r, by rw [hr]; rfl⟩
          obtain ⟨o, ho⟩ := Processes.count_pos.mp
            (show 0 < Processes.count ShmtxProcess.posts (Function.update c.loc p l') by omega)
          exact ⟨o, ShmtxProcess.alert_of_posts ho⟩
      · exact ⟨q, by rwa [Processes.move_loc, Function.update_of_ne hqp]⟩
  | die hdie => exact absurd hdie he
  | take hfree hholds hholds' hsame hsame' =>
      rw [hsame] at hwaits
      rw [hsame'] at hposts
      exact hmove (by dsimp only; omega) (by dsimp only; omega) fun hfree' =>
        absurd hfree' (hpos p)
  | drop hown hholds hw hp =>
      rw [hw] at hwaits
      rw [hp] at hposts
      simp only [ShmtxProcess.waits, ShmtxProcess.posts, Bool.toNat_false] at hwaits hposts
      exact hmove (by dsimp only; omega) (by dsimp only; omega) fun _ _ _ => hself rfl
  | enter hl =>
      rw [hl] at hwaits hposts
      have hnext := toInt_add_one hcard (w := c.shared.wait) (d := 1) (by omega) (by decide)
      simp only [ShmtxProcess.waits, ShmtxProcess.posts, Bool.toNat_false, Bool.toNat_true]
        at hwaits hposts
      exact hmove (by dsimp only; omega) (by dsimp only; omega) fun _ _ _ => hself rfl
  | leave hl =>
      have hnext := toInt_add_one hcard (w := c.shared.wait) (d := -1) (by omega) (by decide)
      rw [hl] at hwaits hposts hheld
      simp only [ShmtxProcess.waits, ShmtxProcess.posts, Bool.toNat_false, Bool.toNat_true]
        at hwaits hposts
      exact hmove (by dsimp only; omega) (by dsimp only; omega) fun hfree =>
        absurd hfree (hheld rfl)
  | wake tests hl hsem =>
      rw [hl] at hwaits hposts
      simp only [ShmtxProcess.waits, ShmtxProcess.posts, Bool.toNat_false, Bool.toNat_true]
        at hwaits hposts
      exact hmove (by dsimp only; omega) (by dsimp only; omega) fun _ _ _ => hself rfl
  | claim hwait hl =>
      rw [hl] at hwaits hposts
      have hnext := toInt_add_one hcard (w := c.shared.wait) (d := -1) (by omega) (by decide)
      rw [← UInt64.sub_eq_add_neg] at hnext
      rw [Int64.le_iff_toInt_le, Int64.toInt_zero] at hwait
      simp only [ShmtxProcess.waits, ShmtxProcess.posts, Bool.toNat_false, Bool.toNat_true]
        at hwaits hposts
      exact hmove (by dsimp only; omega) (by dsimp only; omega) fun _ _ _ => hself rfl
  | post hl =>
      rw [hl] at hwaits hposts
      simp only [ShmtxProcess.waits, ShmtxProcess.posts, Bool.toNat_false, Bool.toNat_true]
        at hwaits hposts
      exact hmove (by dsimp only; omega) (by dsimp only; omega) fun _ hsem =>
        absurd hsem (Nat.succ_ne_zero _)

theorem ShmtxReaches.wake (hcard : Fintype.card P < 2 ^ 62) (hpid : Function.Injective pid)
    (hpos : ∀ p, pid p ≠ 0) (h : ShmtxReaches pid spins (fun e => e ≠ .die) c) : WakeInv c := by
  have hposts : Processes.count ShmtxProcess.posts (fun _ : P => .idle) = 0 :=
    Processes.count_const rfl
  have hwaits : Processes.count ShmtxProcess.waits (fun _ : P => .idle) = 0 :=
    Processes.count_const rfl
  refine Processes.Reaches.invariant ⟨?_, ?_, fun _ _ ⟨q, hq⟩ => by cases hq⟩
    (fun c p e m' l' hreach hc he hstep =>
      hc.step hcard hpos (ShmtxReaches.inv hpid hpos hreach) he hstep) h
  · dsimp only
    rw [hposts, hwaits]
    rfl
  · dsimp only
    rw [hposts]
    exact Nat.zero_le _

/-- While no process ends, no process is left asleep: either somebody has the mutex, or the
semaphore lets a process through, or a process is about to test the word or to wake somebody. -/
theorem ShmtxReaches.no_lost_wakeup (hcard : Fintype.card P < 2 ^ 62)
    (hpid : Function.Injective pid) (hpos : ∀ p, pid p ≠ 0)
    (h : ShmtxReaches pid spins (fun e => e ≠ .die) c) {p : P} (hp : c.loc p = .asleep) :
    (∃ q, (c.loc q).holds = true) ∨ 0 < c.shared.sem ∨ ∃ q, (c.loc q).alert = true := by
  have hinv := h.inv hpid hpos
  have hwake := h.wake hcard hpid hpos
  by_cases hfree : c.shared.lock = 0
  · by_cases hsem : c.shared.sem = 0
    · exact .inr (.inr (hwake.awake hfree hsem ⟨p, hp⟩))
    · exact .inr (.inl (Nat.pos_of_ne_zero hsem))
  · obtain ⟨q, hq⟩ := hinv.owned.resolve_left hfree
    exact .inl ⟨q, (hinv.owner q).mpr hq⟩

omit [Fintype P] in
/-- A process falls asleep while another one has the mutex, which then leaves it. -/
theorem ShmtxReaches.no_lost_wakeup_two : ∃ c : Processes (Fin 2) NgxShmtx ShmtxProcess,
    ShmtxReaches (fun p => p.val + 1) 0 (fun e => e ≠ .die) c ∧ c.loc 1 = .asleep ∧
      ((∃ q, (c.loc q).holds = true) ∨ 0 < c.shared.sem ∨ ∃ q, (c.loc q).alert = true) := by
  have hrun : (([(0, .lock), (0, .step), (0, .step), (1, .lock), (1, .step), (1, .step),
      (1, .step), (0, .unlock), (0, .step), (0, .step)].foldlM
        (Processes.next (shmtxStep (fun p => p.val + 1) 0)) ⟨⟨0, 0, 0⟩, fun _ => .idle⟩ :
          Option (Processes (Fin 2) NgxShmtx ShmtxProcess)).map fun c => c.loc 1) =
      some .asleep := by decide
  obtain ⟨c, hc, hasleep⟩ := Option.map_eq_some_iff.mp hrun
  have hreach : ShmtxReaches (fun p => p.val + 1) 0 (fun e => e ≠ .die) c :=
    .of_foldlM _ (by simp) hc
  have hpid : Function.Injective fun p : Fin 2 => p.val + 1 := fun p q h =>
    Fin.ext (Nat.succ_injective h)
  exact ⟨c, hreach, hasleep,
    hreach.no_lost_wakeup (by decide) hpid (fun p => Nat.succ_ne_zero _) hasleep⟩

end Processes

end MultiversionBalancer.Core
