import Mathlib.Data.Finset.Card
import Tconcurrent.Future
import Tconcurrent.Interleaving

/-! `semaphore`: permits in a `concurrent_queue`, handed out by `pop` and `and_then`.

Request `i` is the `i`-th call of `acquire` or `get_scope_lock`.  The future that
`pop` returns and the one that `and_then` returns share the token `i`, which
carries no callback: a request that is cancelled stays in the queue of waiters,
and only the closure of `and_then` looks at the token. -/
namespace Tconcurrent.Semaphore
open Interleaving

/-- The shared states of request `i`: what `pop` returns, and what the user gets. -/
inductive SemaphoreState where
  | popped (i : ℕ)
  | result (i : ℕ)
  deriving DecidableEq

inductive Kind where
  | acquire
  | getScopeLock
  deriving DecidableEq

inductive SemaphoreCall where
  /-- The code that uses the semaphore. -/
  | user
  /-- `concurrent_queue::pop`. -/
  | pop (kind : Kind)
  /-- `future_base::and_then` on what `pop` has returned. -/
  | andThen (i : ℕ)
  /-- The return statement of `acquire` or `get_scope_lock`. -/
  | returnFuture (i : ℕ)
  /-- The packaged task of `and_then`. -/
  | packagedTask (i : ℕ)
  /-- The end of `push` after it has set the promise of a waiter. -/
  | endPush
  deriving DecidableEq

abbrev SemaphoreHeap := Heap SemaphoreState ℕ SemaphoreCall
abbrev SemaphoreAction := Call SemaphoreState ℕ SemaphoreCall

/-- What the user does next. -/
inductive Choice where
  | return
  | acquire
  | getScopeLock
  | release
  /-- A `scope_lock` that is not moved from is destroyed or assigned to. -/
  | destroyLock (i : ℕ)
  | requestCancel (i : ℕ)
  deriving DecidableEq

structure State where
  heap : SemaphoreHeap := {}
  /-- `concurrent_queue::_mutex` is held by a `push` that calls continuations. -/
  locked : Bool := false
  /-- `_waiters`, the front first, and the size of `_queue`. -/
  waiters : List ℕ := []
  queue : ℕ
  /-- The number of requests so far, and what each of them asks for. -/
  next : ℕ := 0
  kind : ℕ → Kind := fun _ => .acquire
  /-- The requests whose future the user has. -/
  futures : List ℕ := []
  /-- The live `scope_lock`s and the destroyed ones, named after their requests. -/
  locks : Finset ℕ := ∅
  destroyed : Finset ℕ := ∅
  /-- How often the user has called `release`. -/
  releases : ℕ := 0

abbrev SemaphoreStep := State × List SemaphoreAction

/-- `semaphore::count`. -/
def count (s : State) : ℕ := s.queue

/-- `concurrent_queue::push`: the promise of the first waiter is set under the
mutex, which is not recursive. -/
def push (s : State) : Option SemaphoreStep :=
  if s.locked then none
  else
    match s.waiters with
    | i :: waiters =>
      some ({ s with locked := true, waiters },
        [.finish (.popped i) (.value (.plain 0)), .client .endPush])
    | [] => some ({ s with queue := s.queue + 1 }, [])

/-- `concurrent_queue::pop`: a ready future, or that of a promise that waits.
Either has a token of its own. -/
def pop (kind : Kind) (s : State) : Option SemaphoreStep :=
  if s.locked then none
  else
    let i := s.next
    let s := { s with next := i + 1, kind := Function.update s.kind i kind }
    if s.queue ≠ 0 then
      some ({ s with
          queue := s.queue - 1
          heap := s.heap.setState (.popped i) { r := some (.value (.plain 0)) } },
        [.client (.andThen i)])
    else
      some ({ s with
          waiters := s.waiters ++ [i]
          heap := s.heap.setState (.popped i) { cancelationToken := some i } },
        [.client (.andThen i)])

/-- `future_base::then_impl`: the new state shares the token. -/
def andThen (i : ℕ) (s : State) : SemaphoreStep :=
  ({ s with heap := s.heap.setState (.result i) { cancelationToken := some i } },
    [.thenRun (.popped i) (.client (.packagedTask i)), .client (.returnFuture i)])

/-- `do_and_then_callback`: a value is dropped when the token is cancelled, else
the closure of `acquire` or `get_scope_lock` is called. -/
def packagedTask (i : ℕ) (s : State) : SemaphoreStep :=
  match (s.heap.states (.popped i)).r with
  | some (.value _) =>
    if (s.heap.tokens i).isCancelRequested then
      (s, [.finish (.result i) (.exception .operationCanceled)])
    else
      match s.kind i with
      | .acquire => (s, [.finish (.result i) (.value (.plain 0))])
      | .getScopeLock =>
        ({ s with locks := insert i s.locks }, [.finish (.result i) (.value (.plain i))])
  | some (.exception e) => (s, [.finish (.result i) (.exception e)])
  | none => (s, [])

/-- What the user can do: it has the futures that were returned to it, and the
locks in those that are ready. -/
def user (s : State) : Choice → Option SemaphoreStep
  | .return => some (s, [])
  | .acquire => some (s, [.client (.pop .acquire), .client .user])
  | .getScopeLock => some (s, [.client (.pop .getScopeLock), .client .user])
  | .release =>
    (push s).map fun (s, calls) =>
      ({ s with releases := s.releases + 1 }, calls ++ [.client .user])
  | .destroyLock i =>
    if i ∈ s.locks ∧ s.heap.Ready (.result i) then
      (push s).map fun (s, calls) =>
        ({ s with locks := s.locks.erase i, destroyed := insert i s.destroyed },
          calls ++ [.client .user])
    else none
  | .requestCancel i =>
    if i ∈ s.futures then some (s, [.requestCancel (.result i), .client .user]) else none

def clientExec (choice : Choice) (s : State) : SemaphoreCall → Option SemaphoreStep
  | .user => user s choice
  | .pop kind => pop kind s
  | .andThen i => some (andThen i s)
  | .returnFuture i => some ({ s with futures := s.futures ++ [i] }, [])
  | .packagedTask i => some (packagedTask i s)
  | .endPush => some ({ s with locked := false }, [])

/-- Where the library calls continuations that the user has registered. -/
def userCode : SemaphoreAction → List SemaphoreAction
  | .finish (.result _) _ => [.client .user]
  | _ => []

/-- One atomic step of a thread. -/
def exec : Machine State SemaphoreAction Choice
  | _, choice, s, .client k => clientExec choice s k
  | _, _, s, call =>
    let (heap, calls) := s.heap.exec call
    some ({ s with heap }, calls ++ userCode call)

/-- `semaphore::semaphore(N)` and any number of threads that use it. -/
def start (n threads : ℕ) : Config State SemaphoreAction where
  state := { queue := n }
  threads := List.replicate threads [.client .user]

end Tconcurrent.Semaphore
