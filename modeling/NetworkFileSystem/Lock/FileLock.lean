import NetworkFileSystem.Base.Text
import NetworkFileSystem.Base.Transition
import Mathlib.Data.Fintype.Card

/-!
# The per-file readers, writer and deleter lock

`lock.c:6–96`, `lock.h:12–19`. Each acquire or release is modelled as its one
mutex-protected pass: an acquire either takes the lock or goes to sleep in
`pthread_cond_wait`, a release changes the counters and says whom it wakes.
The thread system lets every thread alternate acquires and releases of any mode;
a sleeping thread may also wake for no reason, and a woken thread re-checks its
loop condition like a newcomer. Diagnostics and the `sleep` calls are left out.
-/

namespace NetworkFileSystem.Lock

open Base

/-- `lock.h:12–19`, without the mutex and condition variable that the steps stand for. -/
structure LockStruct where
  readers : Int
  isWriting : Int
  isDeleting : Int
  pathToFile : Text
  deriving DecidableEq

/-- `lock.c:6–13`. -/
def initLock (pathToFile : Text) : LockStruct := ⟨0, 0, 0, pathToFile⟩

/-- One pass of the loop at `lock.c:24–31`: `none` is the call of `pthread_cond_wait`. -/
def acquireReadLock (l : LockStruct) : Option LockStruct :=
  if l.isWriting ≠ 0 ∨ l.isDeleting ≠ 0 then none
  else some { l with readers := l.readers + 1 }

/-- One pass of the loop at `lock.c:52–62`. -/
def acquireWriteLock (l : LockStruct) : Option LockStruct :=
  if l.isWriting ≠ 0 ∨ l.isDeleting ≠ 0 ∨ l.readers > 0 then none
  else some { l with isWriting := 1 }

/-- One pass of the loop at `lock.c:77–86`. -/
def acquireDeleteLock (l : LockStruct) : Option LockStruct :=
  if l.isWriting ≠ 0 ∨ l.isDeleting ≠ 0 ∨ l.readers > 0 then none
  else some { l with isDeleting := 1 }

/-- The condition-variable call a release makes before it leaves its mutex. -/
inductive Wake where
  | none
  | signal
  | broadcast
  deriving DecidableEq

/-- `lock.c:36–47`: only the last reader signals. -/
def releaseReadLock (l : LockStruct) : LockStruct × Wake :=
  ({ l with readers := l.readers - 1 }, if l.readers - 1 = 0 then .signal else .none)

/-- `lock.c:67–72`. -/
def releaseWriteLock (l : LockStruct) : LockStruct × Wake :=
  ({ l with isWriting := 0 }, .signal)

/-- `lock.c:91–96`. -/
def releaseDeleteLock (l : LockStruct) : LockStruct × Wake :=
  ({ l with isDeleting := 0 }, .broadcast)

/-- The three ways of holding the lock. -/
inductive Mode where
  | read
  | write
  | delete
  deriving DecidableEq

/-- The acquire function of a mode. -/
def acquire : Mode → LockStruct → Option LockStruct
  | .read => acquireReadLock
  | .write => acquireWriteLock
  | .delete => acquireDeleteLock

/-- The release function of a mode. -/
def release : Mode → LockStruct → LockStruct × Wake
  | .read => releaseReadLock
  | .write => releaseWriteLock
  | .delete => releaseDeleteLock

/-- Where a thread stands with respect to the lock. -/
inductive Phase where
  | idle
  | asleep (m : Mode)
  | woken (m : Mode)
  | holding (m : Mode)
  deriving DecidableEq

/-- One lock shared by the threads `T`. -/
structure Sys (T : Type) where
  lock : LockStruct
  phase : T → Phase

/-- The threads a condition-variable call may wake: no one, at least one sleeper
if there is any, or all of them. -/
def Wakes {T : Type} (phase : T → Phase) (chosen : T → Prop) : Wake → Prop
  | .none => ∀ t, ¬ chosen t
  | .signal => (∃ t m, phase t = .asleep m) → ∃ t m, phase t = .asleep m ∧ chosen t
  | .broadcast => ∀ t m, phase t = .asleep m → chosen t

open Classical in
/-- Move the chosen sleepers to their re-check. -/
noncomputable def wakeUp {T : Type} (phase : T → Phase) (chosen : T → Prop) (t : T) : Phase :=
  match phase t with
  | .asleep m => if chosen t then .woken m else .asleep m
  | p => p

/-- A thread about to run its acquire loop in mode `m`: a newcomer or a woken waiter. -/
def Trying {T : Type} (s : Sys T) (t : T) (m : Mode) : Prop :=
  s.phase t = .idle ∨ s.phase t = .woken m

/-- One mutex-protected section of one thread, or a wakeup. -/
inductive Step {T : Type} [DecidableEq T] : Sys T → Sys T → Prop where
  | acquire {s : Sys T} {t : T} {m : Mode} {l : LockStruct} :
      Trying s t m → acquire m s.lock = some l →
      Step s ⟨l, Function.update s.phase t (.holding m)⟩
  | sleep {s : Sys T} {t : T} {m : Mode} :
      Trying s t m → Lock.acquire m s.lock = none →
      Step s ⟨s.lock, Function.update s.phase t (.asleep m)⟩
  | spurious {s : Sys T} {t : T} {m : Mode} :
      s.phase t = .asleep m → Step s ⟨s.lock, Function.update s.phase t (.woken m)⟩
  | release {s : Sys T} {t : T} {m : Mode} {l : LockStruct} {w : Wake} {chosen : T → Prop} :
      s.phase t = .holding m → release m s.lock = (l, w) →
      Wakes (Function.update s.phase t .idle) chosen w →
      Step s ⟨l, wakeUp (Function.update s.phase t .idle) chosen⟩

/-- A freshly initialised lock that no thread has touched. -/
def Initial {T : Type} (s : Sys T) : Prop :=
  (∃ path, s.lock = initLock path) ∧ ∀ t, s.phase t = .idle

end NetworkFileSystem.Lock
