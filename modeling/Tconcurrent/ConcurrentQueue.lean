import Mathlib.Data.List.Basic
import Mathlib.Logic.Function.Basic
import Tconcurrent.Builtins
import Tconcurrent.Future

/-! `concurrent_queue`: values that wait for a `pop`, and promises that wait for a `push`.

Each call is one section under `_mutex`.  The `k`-th call of `pop` makes the
future `k`; a future made of a promise is resolved by a `push`, or broken when
the queue gives up the last promise of it. -/
namespace Tconcurrent.ConcurrentQueue
open Builtins

variable {α : Type}

/-- The queue, and the shared states of the futures it has returned. -/
structure State (α : Type) where
  waiters : List ℕ := []
  queue : List α := []
  /-- How often `pop` was called. -/
  pops : ℕ := 0
  results : ℕ → Option (Except Exc α) := fun _ => none
  /-- `_promise_count`. -/
  promises : ℕ → ℕ := fun _ => 0
  /-- The futures on which cancelation was requested before they were resolved. -/
  cancelRequested : ℕ → Bool := fun _ => false
  /-- The futures that were dropped. -/
  dropped : ℕ → Bool := fun _ => false
  assertFailed : Bool := false

instance : Asserting (State α) := ⟨fun s => { s with assertFailed := true }⟩

namespace State

/-- `shared_base::finish`. -/
def finish (s : State α) (k : ℕ) (r : Except Exc α) : State α :=
  { check s ((s.results k).isNone = true) with results := Function.update s.results k (some r) }

/-- The default constructor of `promise`. -/
def makePromise (s : State α) (k : ℕ) : State α :=
  { s with promises := Function.update s.promises k 1 }

/-- A `promise` is copied. -/
def copyPromise (s : State α) (k : ℕ) : State α :=
  { s with promises := Function.update s.promises k (s.promises k + 1) }

/-- A `promise` is destroyed. -/
def dropPromise (s : State α) (k : ℕ) : State α :=
  let s := { s with promises := Function.update s.promises k (s.promises k - 1) }
  if s.promises k = 0 ∧ (s.results k).isNone = true then s.finish k (.error .brokenPromise) else s

end State

/-- `concurrent_queue::push`. -/
def push (v : α) (s : State α) : State α :=
  match s.waiters with
  | k :: waiters =>
    { ((check s (s.queue.isEmpty = true)).finish k (.ok v)).dropPromise k with waiters }
  | [] => { s with queue := s.queue ++ [v] }

/-- `concurrent_queue::pop`. -/
def pop (s : State α) : State α :=
  let k := s.pops
  match s.queue with
  | v :: queue =>
    { check s (s.waiters.isEmpty = true) with
      queue
      pops := k + 1
      results := Function.update s.results k (some (.ok v)) }
  | [] =>
    { ((s.makePromise k).copyPromise k).dropPromise k with
      waiters := s.waiters ++ [k]
      pops := k + 1 }

/-- `concurrent_queue::size`. -/
def size (s : State α) : ℕ := s.queue.length

/-- The destructor of the queue destroys the promises that wait. -/
def destroy (s : State α) : State α :=
  { s.waiters.foldl State.dropPromise s with waiters := [], queue := [] }

/-- `future_base::request_cancel`: the token of a pending future carries no callback. -/
def requestCancel (k : ℕ) (s : State α) : State α :=
  if (s.results k).isNone = true then
    { s with cancelRequested := Function.update s.cancelRequested k true }
  else s

inductive Op (α : Type) where
  | push (v : α)
  | pop
  | requestCancel (k : ℕ)
  | drop (k : ℕ)

def step (s : State α) : Op α → State α
  | .push v => push v s
  | .pop => pop s
  | .requestCancel k => requestCancel k s
  | .drop k => { s with dropped := Function.update s.dropped k true }

/-- A new queue, and the calls made on it. -/
def run (ops : List (Op α)) : State α := ops.foldl step {}

end Tconcurrent.ConcurrentQueue
