import Mathlib.Data.Finset.Basic
import Mathlib.Data.Finset.Insert
import Tconcurrent.Interleaving

/-! `semaphore::scope_lock` and who owns it.

Request `i` is the `i`-th call of `acquire` or `get_scope_lock`.  The shared state
that its user gets lives as long as a future or a continuation refers to it, or the
packaged task of `and_then` does, which the shared state of `pop` owns.  A
`scope_lock` that is destroyed comes back into `push`, whose mutex is not recursive:
a thread that holds it then waits for itself. -/
namespace Tconcurrent.ScopeLock
open Interleaving

inductive Kind where
  | acquire
  | getScopeLock
  deriving DecidableEq

/-- What the shared state of a request holds. -/
inductive Outcome where
  | canceled
  /-- The value of `acquire`. -/
  | acquired
  | lock
  /-- A `scope_lock` that was moved from. -/
  | moved
  deriving DecidableEq

inductive LockCall where
  /-- User code; `push` runs some of it under its mutex. -/
  | user (inside : Bool)
  /-- `and_then` on what `pop` has returned. -/
  | andThen (i : ℕ)
  /-- The return statement of `acquire` or `get_scope_lock`. -/
  | returnFuture (i : ℕ)
  /-- The end of a `push` that has resolved a waiter: its packaged task is destroyed. -/
  | endPush (i : ℕ)
  /-- The thread waits for a mutex that it holds. -/
  | stuck
  deriving DecidableEq

inductive Choice where
  | return
  | acquire
  | getScopeLock
  | release
  | count
  | requestCancel (i : ℕ)
  /-- A future is copied, or captured by a continuation. -/
  | copyFuture (i : ℕ)
  | dropFuture (i : ℕ)
  /-- The lock is moved out of a future that is ready. -/
  | takeLock (i : ℕ)
  /-- A `scope_lock` that is not moved from is destroyed or assigned to. -/
  | destroyLock (i : ℕ)
  deriving DecidableEq

structure State where
  /-- The thread that holds `concurrent_queue::_mutex` while it calls continuations,
  and the waiter that it has resolved. -/
  locked : Option ℕ := none
  resolving : Option ℕ := none
  /-- `_waiters`, the front first, and the size of `_queue`. -/
  waiters : List ℕ := []
  queue : ℕ
  next : ℕ := 0
  kind : ℕ → Kind := fun _ => .acquire
  /-- Whether what `pop` returned is ready, and whether `and_then` waits on it. -/
  popped : ℕ → Bool := fun _ => false
  registered : ℕ → Bool := fun _ => false
  canceled : ℕ → Bool := fun _ => false
  result : ℕ → Option Outcome := fun _ => none
  /-- The futures and continuations that refer to a request's state. -/
  refs : ℕ → ℕ := fun _ => 0
  /-- The requests whose future was returned, and the locks that were taken out. -/
  returned : Finset ℕ := ∅
  locks : Finset ℕ := ∅
  deadlocked : Bool := false

abbrev LockStep := State × List LockCall

/-- The closure that `and_then` was given: a cancelled request gets nothing. -/
def packagedTask (i : ℕ) (s : State) : State :=
  let outcome :=
    if s.canceled i then Outcome.canceled
    else
      match s.kind i with
      | .acquire => .acquired
      | .getScopeLock => .lock
  { s with result := Function.update s.result i (some outcome) }

/-- The mutex is free, held by another thread, or held by this one. -/
def lockMutex (thread : ℕ) (s : State) (f : State → LockStep) : Option LockStep :=
  match s.locked with
  | none => some (f s)
  | some owner =>
    if owner = thread then some ({ s with deadlocked := true }, [.stuck]) else none

/-- `concurrent_queue::push`: the promise of the first waiter is set under the
mutex.  Its continuation is the packaged task, if that is registered. -/
def push (thread : ℕ) (s : State) : Option LockStep :=
  lockMutex thread s fun s =>
    match s.waiters with
    | [] => ({ s with queue := s.queue + 1 }, [])
    | i :: waiters =>
      let s := { s with waiters, popped := Function.update s.popped i true }
      if s.registered i then
        ({ packagedTask i s with locked := some thread, resolving := some i },
          [.user true, .endPush i])
      else (s, [])

/-- `concurrent_queue::pop`. -/
def pop (thread : ℕ) (kind : Kind) (s : State) : Option LockStep :=
  lockMutex thread s fun s =>
    let i := s.next
    let s := { s with next := i + 1, kind := Function.update s.kind i kind }
    if s.queue ≠ 0 then
      ({ s with queue := s.queue - 1, popped := Function.update s.popped i true },
        [.andThen i, .returnFuture i])
    else ({ s with waiters := s.waiters ++ [i] }, [.andThen i, .returnFuture i])

/-- `concurrent_queue::size`. -/
def size (thread : ℕ) (s : State) : Option LockStep := lockMutex thread s fun s => (s, [])

/-- `future_base::and_then`: the closure is registered, or called at once. -/
def andThen (i : ℕ) (s : State) : State :=
  let s := { s with refs := Function.update s.refs i 1 }
  if s.popped i then packagedTask i s
  else { s with registered := Function.update s.registered i true }

/-- The last reference to a request's state goes, and with it the lock inside. -/
def destroys (s : State) (i : ℕ) : Bool := s.refs i = 1 ∧ s.result i = some .lock ∧ s.resolving ≠ some i

/-- The packaged task refers to the state of its request until `push` has returned. -/
def endPush (thread i : ℕ) (s : State) : Option LockStep :=
  if s.refs i = 0 ∧ s.result i = some .lock then
    (push thread { s with result := Function.update s.result i (some .moved) }).map
      fun (s, calls) => (s, calls ++ [.endPush i])
  else some ({ s with locked := none, resolving := none }, [])

def dropFuture (thread i : ℕ) (s : State) : Option LockStep :=
  let dropped := { s with refs := Function.update s.refs i (s.refs i - 1) }
  if destroys s i then
    push thread { dropped with result := Function.update s.result i (some .moved) }
  else some (dropped, [])

/-- Whether the user has a future of the request. -/
def owns (s : State) (i : ℕ) : Bool := i ∈ s.returned ∧ s.refs i ≠ 0

/-- What user code does, and that it goes on. -/
def user (thread : ℕ) (inside : Bool) (s : State) : Choice → Option LockStep
  | .return => some (s, [])
  | .acquire => goesOn (pop thread .acquire s)
  | .getScopeLock => goesOn (pop thread .getScopeLock s)
  | .release => goesOn (push thread s)
  | .count => goesOn (size thread s)
  | .requestCancel i =>
    if owns s i ∧ s.result i = none then
      goesOn (some ({ s with canceled := Function.update s.canceled i true }, []))
    else none
  | .copyFuture i =>
    if owns s i then
      goesOn (some ({ s with refs := Function.update s.refs i (s.refs i + 1) }, []))
    else none
  | .dropFuture i => if owns s i then goesOn (dropFuture thread i s) else none
  | .takeLock i =>
    if owns s i ∧ s.result i = some .lock then
      goesOn (some ({ s with
        result := Function.update s.result i (some .moved)
        locks := insert i s.locks }, []))
    else none
  | .destroyLock i =>
    if i ∈ s.locks then goesOn (push thread { s with locks := s.locks.erase i }) else none
where
  goesOn (step : Option LockStep) : Option LockStep :=
    step.map fun (s, calls) => (s, calls ++ [.user inside])

/-- One step of a thread. -/
def exec : Machine State LockCall Choice
  | thread, choice, s, .user inside => user thread inside s choice
  | _, _, s, .andThen i => some (andThen i s, [])
  | _, _, s, .returnFuture i => some ({ s with returned := insert i s.returned }, [])
  | thread, _, s, .endPush i => endPush thread i s
  | _, _, _, .stuck => none

/-- `semaphore::semaphore(n)` and any number of threads that use it. -/
def start (n threads : ℕ) : Config State LockCall :=
  ⟨{ queue := n }, List.replicate threads [.user false]⟩

end Tconcurrent.ScopeLock
