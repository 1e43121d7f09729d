import MultiversionBalancer.Lib.Processes

/-!
# Locks of readers and writers

The lock of `ngx_rwlock.c` is one word: the number of its readers, or `-1` while a writer holds
it.  A process reads the word and then changes it by an atomic operation, and the other
processes may do anything in between.  Pauses and `ngx_sched_yield` change nothing, so a
process that waits goes back to reading the word.
-/

namespace MultiversionBalancer.Core

open Lib

def ngxRwlockWlocked : UInt64 := -1

inductive RwHold where
  | write
  | read
  deriving DecidableEq

inductive RwProcess where
  | idle
  | wlockRead
  | wlockSet
  | rlockRead
  | rlockSet (readers : UInt64)
  | holding (hold : RwHold)
  | unlockRead (hold : RwHold)
  | unlockSet (hold : RwHold)
  | unlockAdd (hold : RwHold)
  | downgradeRead (hold : RwHold)
  | downgradeStore (hold : RwHold)
  deriving DecidableEq

/-- A call of one of the functions, or the next step of the call under way. -/
inductive RwEvent where
  | wlock
  | rlock
  | unlock
  | downgrade
  | step
  deriving DecidableEq

/-- `ngx_atomic_cmp_set`: the word, and whether it has been set. -/
def ngxAtomicCmpSet (lock old set : UInt64) : UInt64 × Bool :=
  if lock = old then (set, true) else (lock, false)

namespace RwProcess

def hold : RwProcess → Option RwHold
  | .holding h | .unlockRead h | .unlockSet h | .unlockAdd h | .downgradeRead h
  | .downgradeStore h => some h
  | _ => none

/-- One step of `ngx_rwlock_wlock`, `ngx_rwlock_rlock`, `ngx_rwlock_unlock` or
`ngx_rwlock_downgrade`; there is none when the event cannot happen. -/
def step (lock : UInt64) : RwProcess → RwEvent → Option (UInt64 × RwProcess)
  | .idle, .wlock => some (lock, .wlockRead)
  | .idle, .rlock => some (lock, .rlockRead)
  | .holding h, .unlock => some (lock, .unlockRead h)
  | .holding h, .downgrade => some (lock, .downgradeRead h)
  | .wlockRead, .step => some (lock, if lock = 0 then .wlockSet else .wlockRead)
  | .wlockSet, .step =>
    let (lock, set) := ngxAtomicCmpSet lock 0 ngxRwlockWlocked
    some (lock, if set then .holding .write else .wlockRead)
  | .rlockRead, .step =>
    some (lock, if lock = ngxRwlockWlocked then .rlockRead else .rlockSet lock)
  | .rlockSet readers, .step =>
    let (lock, set) := ngxAtomicCmpSet lock readers (readers + 1)
    some (lock, if set then .holding .read else .rlockRead)
  | .unlockRead h, .step =>
    some (lock, if lock = ngxRwlockWlocked then .unlockSet h else .unlockAdd h)
  | .unlockSet _, .step => some ((ngxAtomicCmpSet lock ngxRwlockWlocked 0).1, .idle)
  | .unlockAdd _, .step => some (lock + (-1), .idle)
  | .downgradeRead h, .step =>
    some (lock, if lock = ngxRwlockWlocked then .downgradeStore h else .holding h)
  | .downgradeStore _, .step => some (1, .holding .read)
  | _, _ => none

/-- What a process has read of the lock still holds when it comes to rely on it. -/
def Consistent : RwProcess → Prop
  | .rlockSet readers => readers ≠ ngxRwlockWlocked
  | .unlockSet h | .downgradeStore h => h = .write
  | .unlockAdd h => h = .read
  | _ => True

/-- What a step does to the lock and to the way the process holds it. -/
inductive Effect (lock : UInt64) : Option RwHold → UInt64 → Option RwHold → Prop
  | none (h : Option RwHold) : Effect lock h lock h
  | wlock (hfree : lock = 0) : Effect lock .none ngxRwlockWlocked (some .write)
  | rlock (hfree : lock ≠ ngxRwlockWlocked) : Effect lock .none (lock + 1) (some .read)
  | wunlock : Effect lock (some .write) 0 .none
  | runlock : Effect lock (some .read) (lock + (-1)) .none
  | downgrade : Effect lock (some .write) 1 (some .read)

theorem step_effect {lock lock' : UInt64} {l l' : RwProcess} {e : RwEvent}
    (hlock : ∀ h, l.hold = some h → (lock = ngxRwlockWlocked ↔ h = .write))
    (hl : l.Consistent) (h : l.step lock e = some (lock', l')) :
    Effect lock l.hold lock' l'.hold ∧ l'.Consistent := by
  cases l with
  | idle =>
      cases e with
      | wlock | rlock =>
          obtain ⟨rfl, rfl⟩ := Prod.ext_iff.mp (Option.some.inj h)
          exact ⟨.none _, trivial⟩
      | unlock | downgrade | step => cases h
  | wlockRead =>
      cases e with
      | step =>
          obtain ⟨rfl, rfl⟩ := Prod.ext_iff.mp (Option.some.inj h)
          dsimp only
          split_ifs
          · exact ⟨.none _, trivial⟩
          · exact ⟨.none _, trivial⟩
      | wlock | rlock | unlock | downgrade => cases h
  | wlockSet =>
      cases e with
      | step =>
          by_cases hfree : lock = 0
          · simp only [step, ngxAtomicCmpSet, if_pos hfree] at h
            obtain ⟨rfl, rfl⟩ := Prod.ext_iff.mp (Option.some.inj h)
            exact ⟨.wlock hfree, trivial⟩
          · simp only [step, ngxAtomicCmpSet, if_neg hfree] at h
            obtain ⟨rfl, rfl⟩ := Prod.ext_iff.mp (Option.some.inj h)
            exact ⟨.none _, trivial⟩
      | wlock | rlock | unlock | downgrade => cases h
  | rlockRead =>
      cases e with
      | step =>
          obtain ⟨rfl, rfl⟩ := Prod.ext_iff.mp (Option.some.inj h)
          dsimp only
          split_ifs with hfree
          · exact ⟨.none _, trivial⟩
          · exact ⟨.none _, hfree⟩
      | wlock | rlock | unlock | downgrade => cases h
  | rlockSet readers =>
      cases e with
      | step =>
          by_cases hsame : lock = readers
          · simp only [step, ngxAtomicCmpSet, if_pos hsame] at h
            obtain ⟨rfl, rfl⟩ := Prod.ext_iff.mp (Option.some.inj h)
            obtain rfl := hsame
            exact ⟨.rlock hl, trivial⟩
          · simp only [step, ngxAtomicCmpSet, if_neg hsame] at h
            obtain ⟨rfl, rfl⟩ := Prod.ext_iff.mp (Option.some.inj h)
            exact ⟨.none _, trivial⟩
      | wlock | rlock | unlock | downgrade => cases h
  | holding hold =>
      cases e with
      | unlock | downgrade =>
          obtain ⟨rfl, rfl⟩ := Prod.ext_iff.mp (Option.some.inj h)
          exact ⟨.none _, trivial⟩
      | wlock | rlock | step => cases h
  | unlockRead hold =>
      cases e with
      | step =>
          obtain ⟨rfl, rfl⟩ := Prod.ext_iff.mp (Option.some.inj h)
          have hwrite := hlock hold rfl
          dsimp only
          split_ifs with hheld
          · exact ⟨.none _, hwrite.mp hheld⟩
          · refine ⟨.none _, ?_⟩
            cases hold with
            | write => exact absurd (hwrite.mpr rfl) hheld
            | read => rfl
      | wlock | rlock | unlock | downgrade => cases h
  | unlockSet hold =>
      cases e with
      | step =>
          obtain ⟨rfl, rfl⟩ := Prod.ext_iff.mp (Option.some.inj h)
          obtain rfl : hold = .write := hl
          have hheld : lock = ngxRwlockWlocked := (hlock .write rfl).mpr rfl
          rw [ngxAtomicCmpSet, if_pos hheld]
          exact ⟨.wunlock, trivial⟩
      | wlock | rlock | unlock | downgrade => cases h
  | unlockAdd hold =>
      cases e with
      | step =>
          obtain ⟨rfl, rfl⟩ := Prod.ext_iff.mp (Option.some.inj h)
          obtain rfl : hold = .read := hl
          exact ⟨.runlock, trivial⟩
      | wlock | rlock | unlock | downgrade => cases h
  | downgradeRead hold =>
      cases e with
      | step =>
          obtain ⟨rfl, rfl⟩ := Prod.ext_iff.mp (Option.some.inj h)
          dsimp only
          split_ifs with hheld
          · exact ⟨.none _, (hlock hold rfl).mp hheld⟩
          · exact ⟨.none _, trivial⟩
      | wlock | rlock | unlock | downgrade => cases h
  | downgradeStore hold =>
      cases e with
      | step =>
          obtain ⟨rfl, rfl⟩ := Prod.ext_iff.mp (Option.some.inj h)
          obtain rfl : hold = .write := hl
          exact ⟨.downgrade, trivial⟩
      | wlock | rlock | unlock | downgrade => cases h

/-- The process holds the lock as a writer. -/
def writes (l : RwProcess) : Bool := l.hold = some .write

/-- The process holds the lock as a reader. -/
def reads (l : RwProcess) : Bool := l.hold = some .read

end RwProcess

/-! ## All of the processes -/

section Processes

variable {P : Type}

/-- A step of one of the processes that share a lock. -/
def rwStep (_ : P) (e : RwEvent) (lock : UInt64) (l : RwProcess) :
    Option (UInt64 × RwProcess) :=
  l.step lock e

/-- The processes around a lock after any sequence of their steps, from a free lock. -/
def RwReaches [DecidableEq P] (c : Processes P UInt64 RwProcess) : Prop :=
  Processes.Reaches rwStep (fun _ _ => True) 0 .idle c

variable [Fintype P]

/-- The lock tells how it is held: by its readers, or by one writer alone. -/
structure RwInv (c : Processes P UInt64 RwProcess) : Prop where
  held : (Processes.count RwProcess.writes c.loc = 0 ∧
      c.shared.toNat = Processes.count RwProcess.reads c.loc) ∨
    (Processes.count RwProcess.writes c.loc = 1 ∧
      Processes.count RwProcess.reads c.loc = 0 ∧ c.shared = ngxRwlockWlocked)
  consistent : ∀ p, (c.loc p).Consistent

namespace RwInv

variable {c : Processes P UInt64 RwProcess}

theorem hold_iff (hcard : Fintype.card P < 2 ^ 64 - 1) (hc : RwInv c) (p : P) (h : RwHold)
    (hp : (c.loc p).hold = some h) : c.shared = ngxRwlockWlocked ↔ h = .write := by
  have hreaders := Processes.count_le_card RwProcess.reads c.loc
  rcases hc.held with ⟨hwrites, hreads⟩ | ⟨-, hreads, hlock⟩
  · cases h with
    | write =>
        have hpos : 0 < Processes.count RwProcess.writes c.loc :=
          Processes.count_pos.mpr ⟨p, by simp [RwProcess.writes, hp]⟩
        omega
    | read =>
        refine iff_of_false (fun hlock => ?_) (by decide)
        rw [hlock] at hreads
        have hmax : ngxRwlockWlocked.toNat = 2 ^ 64 - 1 := by decide
        omega
  · refine iff_of_true hlock ?_
    cases h with
    | write => rfl
    | read =>
        have hpos : 0 < Processes.count RwProcess.reads c.loc :=
          Processes.count_pos.mpr ⟨p, by simp [RwProcess.reads, hp]⟩
        omega

/-- A step keeps the lock telling how it is held. -/
theorem step [DecidableEq P] (hcard : Fintype.card P < 2 ^ 64 - 1) (hc : RwInv c) {p : P}
    {e : RwEvent} {lock' : UInt64} {l' : RwProcess}
    (h : (c.loc p).step c.shared e = some (lock', l')) : RwInv (c.move p lock' l') := by
  obtain ⟨heffect, hl'⟩ :=
    RwProcess.step_effect (hc.hold_iff hcard p) (hc.consistent p) h
  refine ⟨?_, Processes.forall_move hc.consistent p lock' hl'⟩
  have hw := Processes.count_update RwProcess.writes c.loc p l'
  have hr := Processes.count_update RwProcess.reads c.loc p l'
  have hreaders := Processes.count_le_card RwProcess.reads (Function.update c.loc p l')
  have hmax : ngxRwlockWlocked.toNat = 2 ^ 64 - 1 := by decide
  have hmax' (lock : UInt64) : lock = ngxRwlockWlocked ↔ lock.toNat = 2 ^ 64 - 1 := by
    rw [← hmax, UInt64.toNat_inj]
  have hheld := hc.held
  simp only [Processes.move_loc, Processes.move_shared, hmax', RwProcess.writes,
    RwProcess.reads] at hw hr hheld hreaders ⊢
  generalize (c.loc p).hold = hold, l'.hold = hold' at heffect hw hr
  cases heffect with
  | none _ => omega
  | wlock hfree =>
      have hzero : c.shared.toNat = 0 := by
        rw [hfree]
        rfl
      simp at hw hr
      omega
  | rlock hfree =>
      rw [Ne, hmax'] at hfree
      have hnext := UInt64.toNat_add c.shared 1
      have hone : (1 : UInt64).toNat = 1 := rfl
      simp at hw hr
      omega
  | wunlock =>
      have hzero : (0 : UInt64).toNat = 0 := rfl
      simp at hw hr
      omega
  | runlock =>
      have hprev := UInt64.toNat_add c.shared (-1)
      have hminus : (-1 : UInt64).toNat = 2 ^ 64 - 1 := by decide
      simp at hw hr
      omega
  | downgrade =>
      have hone : (1 : UInt64).toNat = 1 := rfl
      simp at hw hr
      omega

end RwInv

section Reached

variable [DecidableEq P] {c : Processes P UInt64 RwProcess}

theorem RwReaches.inv (hcard : Fintype.card P < 2 ^ 64 - 1) (h : RwReaches c) : RwInv c := by
  refine Processes.Reaches.invariant ⟨.inl ⟨?_, ?_⟩, fun _ => trivial⟩
    (fun c p e lock' l' _ hc _ hstep => hc.step hcard hstep) h
  · exact Processes.count_const rfl
  · exact (Processes.count_const rfl).symm

/-- A writer is alone: nobody else holds the lock, for reading or for writing.  The word is
`-1` exactly while there is a writer, and the number of the readers otherwise, so a lock that
nobody holds is free. -/
theorem RwReaches.writer_alone (hcard : Fintype.card P < 2 ^ 64 - 1) (h : RwReaches c) :
    (∀ p q, (c.loc p).hold = some .write → (c.loc q).hold ≠ none → q = p) ∧
      (c.shared = ngxRwlockWlocked ↔ ∃ p, (c.loc p).hold = some .write) ∧
      ((∀ p, (c.loc p).hold ≠ some .write) →
        c.shared.toNat = Processes.count RwProcess.reads c.loc) := by
  have hinv := h.inv hcard
  have hwriter : 0 < Processes.count RwProcess.writes c.loc ↔
      ∃ p, (c.loc p).hold = some .write := by
    simp only [Processes.count_pos, RwProcess.writes, decide_eq_true_eq]
  refine ⟨fun p q hp hq => ?_, ⟨fun hlock => ?_, fun ⟨p, hp⟩ => ?_⟩, fun hnone => ?_⟩
  · obtain ⟨mode, hmode⟩ := Option.ne_none_iff_exists'.mp hq
    have hlock := (hinv.hold_iff hcard p .write hp).mpr rfl
    obtain rfl := (hinv.hold_iff hcard q mode hmode).mp hlock
    have hone : Processes.count RwProcess.writes c.loc ≤ 1 := by
      rcases hinv.held with ⟨hwrites, -⟩ | ⟨hwrites, -⟩
      · omega
      · omega
    exact Processes.eq_of_count_le_one hone (decide_eq_true hmode) (decide_eq_true hp)
  · rw [← hwriter]
    rcases hinv.held with ⟨-, hreads⟩ | ⟨hwrites, -⟩
    · have hreaders := Processes.count_le_card RwProcess.reads c.loc
      have hmax : ngxRwlockWlocked.toNat = 2 ^ 64 - 1 := by decide
      rw [hlock] at hreads
      omega
    · omega
  · exact (hinv.hold_iff hcard p .write hp).mpr rfl
  · rcases hinv.held with ⟨-, hreads⟩ | ⟨hwrites, -⟩
    · exact hreads
    · obtain ⟨p, hp⟩ := hwriter.mp (by omega)
      exact absurd hp (hnone p)

end Reached

/-- One process takes the lock for writing while another one waits for it to read. -/
theorem RwReaches.writer_alone_two : ∃ c : Processes (Fin 2) UInt64 RwProcess, RwReaches c ∧
    (c.loc 0).hold = some .write ∧ ∀ q, (c.loc q).hold ≠ none → q = 0 := by
  have hrun : (([(0, .wlock), (1, .rlock), (1, .step), (0, .step), (0, .step), (1, .step)].foldlM
      (Processes.next rwStep) ⟨0, fun _ => .idle⟩ :
        Option (Processes (Fin 2) UInt64 RwProcess)).map fun c => (c.loc 0).hold) =
      some (some .write) := by decide
  obtain ⟨c, hc, hwrite⟩ := Option.map_eq_some_iff.mp hrun
  have hreach : RwReaches c := .of_foldlM _ (fun _ _ => trivial) hc
  exact ⟨c, hreach, hwrite, fun q => (hreach.writer_alone (by decide)).1 0 q hwrite⟩

end Processes

end MultiversionBalancer.Core
