import Mathlib.Logic.Function.Basic
import Tconcurrent.Interleaving

/-! One stackful coroutine on a single-threaded executor.

Await `k` is the await of the future or sender `k`, which is consumed by it.  The
thread is either in the coroutine or outside, and what `run_coroutine` does after the
coroutine has switched back is part of the step that switches.  User code runs in the
coroutine, in tasks of the executor, in the cancelers of what is awaited, in `submit`
of an awaited sender, in dispatched work and in the signals of the receiver. -/
namespace Tconcurrent.StackfulCoroutine
open Interleaving

inductive Phase where
  /-- `submit` has not been called. -/
  | unsubmitted
  /-- The coroutine's own code runs; `abort_coroutine` may be on its way through it. -/
  | running
  /-- The coroutine has switched to `run_coroutine`, to execute work there. -/
  | dispatched
  /-- It has switched out, and `run_coroutine` is submitting the awaited sender. -/
  | submitting (k : ℕ)
  | suspended (k : ℕ)
  /-- The receiver is being signalled. -/
  | signalling
  /-- The coroutine's function has returned, and the control block is deleted. -/
  | deleted
  deriving DecidableEq

/-- What the receiver gets. -/
inductive Signal where
  | value
  | error
  | done
  deriving DecidableEq

/-- How an await or a yield ends in the coroutine. -/
inductive Outcome where
  | result
  | operationCanceled
  | abortCoroutine
  deriving DecidableEq

/-- How the body ends. -/
inductive Ending where
  | returned
  | threw
  | aborted
  deriving DecidableEq

inductive CoroutineCall where
  /-- The loop of the executor. -/
  | executor
  /-- User code outside of the coroutine. -/
  | user
  /-- The coroutine's own code. -/
  | body
  /-- The end of the coroutine's function. -/
  | exitCoroutine
  /-- Dispatched work is done. -/
  | resumeWork
  /-- The end of `run_coroutine` after a sender was submitted. -/
  | submitted
  /-- The end of a canceler, after the cancelation of what is awaited. -/
  | cancelAwait (k : ℕ)
  /-- An assertion has failed, or a coroutine that is not suspended was resumed. -/
  | crashed
  deriving DecidableEq

/-- What the executor, user code or the coroutine does next. -/
inductive Choice where
  | return
  | task
  | continuation (k : ℕ)
  /-- `run_resumable_sender::submit`, perhaps from inside another coroutine. -/
  | submit (nested : Bool)
  | resolve (k : ℕ)
  | requestCancel
  | awaitFuture (k : ℕ)
  | awaitSender (k : ℕ)
  | yield (k : ℕ)
  | dispatch
  | finish (ending : Ending)
  deriving DecidableEq

structure State where
  phase : Phase := .unsubmitted
  /-- Whether `abort_coroutine` was thrown into the coroutine. -/
  unwinding : Bool := false
  /-- `lazy::cancelation_token`: `_canceled`, and the await whose canceler is `_cancel`. -/
  canceled : Bool := false
  canceler : Option ℕ := none
  /-- Which awaitables are senders, and which were awaited. -/
  isSender : ℕ → Bool
  used : ℕ → Bool := fun _ => false
  /-- The ready futures and the senders that have signalled. -/
  resolved : ℕ → Bool := fun _ => false
  /-- Whether the continuation of an await is registered. -/
  registered : ℕ → Bool := fun _ => false
  aborted : ℕ → Bool := fun _ => false
  /-- The continuations that were posted and have not run yet. -/
  queue : List ℕ := []
  /-- `previous_coroutine` is set. -/
  previous : Bool := false
  /-- How often each await was resumed, and how each has ended: whether cancelation
  was requested then, and what it returned or threw. -/
  resumed : ℕ → ℕ := fun _ => 0
  history : List (Bool × Outcome) := []
  ended : Option Ending := none
  signals : List Signal := []
  /-- `run_coroutine` was called on a coroutine that is not suspended. -/
  badResume : Bool := false
  /-- Something wrote to the coroutine after it was gone, or an assertion failed. -/
  dangling : Bool := false
  assertFailed : Bool := false

abbrev CoroutineStep := State × List CoroutineCall

/-- A canceler is set: the first half of `lazy::cancelation_token::set_canceler`. -/
def setCanceler (k : ℕ) (s : State) : State :=
  { s with canceler := some k, assertFailed := s.assertFailed || s.canceler.isSome }

/-- The end of an await: the scope canceler is gone, then the flag of the await and
the token are looked at. -/
def awaitReturns (k : ℕ) (s : State) : State :=
  let s := { s with canceler := none }
  if s.aborted k then
    { s with history := s.history ++ [(s.canceled, .abortCoroutine)], unwinding := true }
  else if s.canceled then
    { s with history := s.history ++ [(s.canceled, .operationCanceled)] }
  else { s with history := s.history ++ [(s.canceled, .result)] }

/-- `run_coroutine`, up to the code of the coroutine. -/
def runCoroutine (s : State) : CoroutineStep :=
  match s.phase with
  | .suspended k | .submitting k =>
    if s.previous then ({ s with assertFailed := true }, [.crashed])
    else
      let s := { s with phase := .running, resumed := Function.update s.resumed k (s.resumed k + 1) }
      (awaitReturns k s, [.body])
  | _ => ({ s with badResume := true }, [.crashed])

/-- `request_cancel` on the token: a canceler cancels what is awaited first. -/
def requestCancel (s : State) : CoroutineStep :=
  if s.canceled then (s, [])
  else
    match s.canceler with
    | none => ({ s with canceled := true }, [])
    | some k => ({ s with canceled := true }, [.user, .cancelAwait k])

/-- The rest of the canceler. -/
def cancelAwait (k : ℕ) (s : State) : CoroutineStep :=
  runCoroutine { s with aborted := Function.update s.aborted k true }

/-- A posted continuation: an await that was aborted is not touched.  The result is
written to the coroutine's stack. -/
def continuation (k : ℕ) (s : State) : CoroutineStep :=
  if s.aborted k then (s, [])
  else if s.phase = .suspended k ∨ s.phase = .submitting k then runCoroutine s
  else runCoroutine { s with dangling := true }

/-- What is awaited gets ready or signals.  Its continuation is posted, if it is
registered already. -/
def resolve (k : ℕ) (s : State) : Option State :=
  if s.resolved k ∨ (s.isSender k ∧ ¬ s.registered k) then none
  else
    let s := { s with resolved := Function.update s.resolved k true }
    some (if s.registered k then { s with queue := s.queue ++ [k] } else s)

/-- `run_coroutine` after the switch, with the `coroutine_exit_post_setup` of an
await: the continuation is registered, or the sender submitted. -/
def switchedBack (k : ℕ) (s : State) : CoroutineStep :=
  let s := { s with registered := Function.update s.registered k true }
  if s.isSender k then ({ s with phase := .submitting k }, [.user, .submitted])
  else
    let s := { s with phase := .suspended k, previous := false }
    (if s.resolved k then { s with queue := s.queue ++ [k] } else s, [])

/-- `await` on what is not ready: a cancelled token calls the canceler at once. -/
def suspend (k : ℕ) (s : State) : CoroutineStep :=
  let s := setCanceler k { s with used := Function.update s.used k true }
  if s.canceled then (s, [.user, .cancelAwait k]) else switchedBack k s

/-- The signals of `run_resumable_sender::submit`. -/
def signalOf : Ending → Signal
  | .returned => .value
  | .threw => .error
  | .aborted => .done

def finishBody (ending : Ending) (s : State) : CoroutineStep :=
  ({ s with
      phase := .signalling
      ended := some ending
      signals := s.signals ++ [signalOf ending] },
    [.user, .exitCoroutine])

/-- The coroutine's own code.  The exception of an await may be caught; only
`abort_coroutine` goes through. -/
def body (s : State) : Choice → Option CoroutineStep
  | .resolve k => (resolve k s).map fun s => (s, [.body])
  | .requestCancel =>
    let (s, calls) := requestCancel s
    some (s, calls ++ [.body])
  | .awaitFuture k =>
    if s.unwinding ∨ s.used k ∨ s.isSender k then none
    else if s.resolved k then
      some (awaitReturns k { s with used := Function.update s.used k true }, [.body])
    else some (suspend k s)
  | .awaitSender k =>
    if s.unwinding ∨ s.used k ∨ ¬ s.isSender k then none else some (suspend k s)
  | .yield k =>
    if s.unwinding ∨ s.used k ∨ s.isSender k ∨ s.resolved k then none
    else if s.canceled then
      some ({ s with history := s.history ++ [(s.canceled, .operationCanceled)] }, [.body])
    else some (suspend k { s with resolved := Function.update s.resolved k true })
  | .dispatch =>
    if s.unwinding then none else some ({ s with phase := .dispatched }, [.user, .resumeWork])
  | .finish ending =>
    if s.unwinding ↔ ending = .aborted then some (finishBody ending s) else none
  | _ => none

/-- `run_coroutine` returns after `submit`, and writes to the control block. -/
def submitted (s : State) : State :=
  match s.phase with
  | .submitting k => { s with phase := .suspended k, previous := false }
  | _ => { s with dangling := true }

/-- User code outside of the coroutine. -/
def user (s : State) : Choice → Option CoroutineStep
  | .return => some (s, [])
  | .submit nested =>
    if s.phase = .unsubmitted then
      some ({ s with phase := .running, previous := nested }, [.body, .user])
    else none
  | .resolve k => (resolve k s).map fun s => (s, [.user])
  | .requestCancel =>
    let (s, calls) := requestCancel s
    some (s, calls ++ [.user])
  | _ => none

def executor (s : State) : Choice → Option CoroutineStep
  | .task => some (s, [.user, .executor])
  | .continuation k =>
    if k ∈ s.queue then
      let (s, calls) := continuation k { s with queue := s.queue.erase k }
      some (s, calls ++ [.executor])
    else none
  | _ => none

/-- One step of the thread. -/
def exec : Machine State CoroutineCall Choice
  | _, choice, s, .executor => executor s choice
  | _, choice, s, .user => user s choice
  | _, choice, s, .body => body s choice
  | _, _, s, .exitCoroutine => some ({ s with phase := .deleted, previous := false }, [])
  | _, _, s, .resumeWork => some ({ s with phase := .running }, [.body])
  | _, _, s, .submitted => some (submitted s, [])
  | _, _, s, .cancelAwait k => some (cancelAwait k s)
  | _, _, _, .crashed => none

/-- A program on an executor, whose awaitables `isSender` tells apart. -/
def start (isSender : ℕ → Bool) : Config State CoroutineCall :=
  ⟨{ isSender }, [[.executor]]⟩

end Tconcurrent.StackfulCoroutine
