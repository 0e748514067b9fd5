import Mathlib.Logic.Function.Basic
import Tconcurrent.Interleaving

/-! One stackless coroutine, and the canceler that destroys it.

All code runs on the single thread of the executor.  The frame of `coro_runner::run` is
the outermost one; while it awaits a `cotask` there are more frames, each awaited by the
one before, and `destroy` destroys them all.  Await `k` is the await of the future, the
sender or the yield `k`.  What the receiver does when it is signalled does not throw.
Requests come from outside of catch blocks: in one `assert_no_cancel_in_catch` would end
the program. -/
namespace Tconcurrent.StacklessCoroutine
open Interleaving

inductive Phase where
  /-- `submit` has not been called. -/
  | unsubmitted
  /-- The innermost frame runs.  The others are suspended. -/
  | running
  /-- All frames are suspended, and `await_suspend` of the awaiter runs. -/
  | suspending (k : ℕ)
  | suspended (k : ℕ)
  /-- The outermost frame runs `set_value` or `set_error` of the receiver. -/
  | signalling
  /-- `destroy` runs the destructors of the awaiters. -/
  | destroying
  /-- `set_done` of the receiver runs. -/
  | reporting
  /-- The frames are freed. -/
  | ended
  deriving DecidableEq

/-- What the receiver gets. -/
inductive Signal where
  | value
  | error
  | done
  deriving DecidableEq

/-- How the code of a frame ends. -/
inductive Ending where
  | returned
  | threw
  deriving DecidableEq

inductive CoroutineCall where
  /-- The loop of the executor. -/
  | executor
  /-- User code outside of the coroutine. -/
  | user
  /-- The code of the innermost frame. -/
  | body
  /-- `await_suspend`, and the way back to whoever has resumed the coroutine. -/
  | suspending (k : ℕ)
  | signalling
  | destroying
  | reporting
  /-- The end of `submit`, after the first `resume`. -/
  | resumed
  /-- What is done to a frame that is not suspended, or to a freed one, is undefined. -/
  | crashed
  deriving DecidableEq

/-- What the executor, user code or the coroutine does next. -/
inductive Choice where
  | return
  | throw
  | task
  | continuation (k : ℕ)
  | submit
  /-- A sender signals, or a future gets ready. -/
  | resolve (k : ℕ)
  | requestCancel
  /-- The receiver resets its token. -/
  | reset
  /-- A `cotask` is awaited. -/
  | call
  /-- A `yield` awaits something ready without an early return. -/
  | await (k : ℕ) (earlyReturn : Bool)
  | finish (ending : Ending)
  deriving DecidableEq

structure State where
  phase : Phase := .unsubmitted
  /-- The frames, and how many of them `await_suspend` of a `cotask` has started since
  the coroutine was resumed. -/
  frames : ℕ := 0
  starts : ℕ := 0
  /-- Whether the outermost frame has awaited its awaitable, and whether the coroutine
  has been suspended. -/
  awaited : Bool := false
  wasSuspended : Bool := false
  /-- Whether `coroutine_holder::coro` and `keep_alive` are set. -/
  coro : Bool := false
  keepAlive : Bool := false
  /-- The token of the receiver: `_canceled`, and whether the holder's canceler is set. -/
  canceled : Bool := false
  canceler : Bool := false
  /-- Whether the receiver has reset its token. -/
  tokenReset : Bool := false
  /-- Which awaitables are senders, and which were awaited. -/
  isSender : ℕ → Bool
  used : ℕ → Bool := fun _ => false
  /-- The ready futures, and the senders that have signalled. -/
  resolved : ℕ → Bool := fun _ => false
  /-- The awaits that have a continuation, and the awaiters that were destroyed. -/
  registered : ℕ → Bool := fun _ => false
  dead : ℕ → Bool := fun _ => false
  /-- The continuations that were posted and have not run yet. -/
  queue : List ℕ := []
  signals : List Signal := []
  /-- `done`, `destroy` or `resume` was called on a frame that is not suspended. -/
  badDone : Bool := false
  badDestroy : Bool := false
  badResume : Bool := false
  /-- Something else has used a frame that is gone, or an assertion has failed. -/
  dangling : Bool := false
  assertFailed : Bool := false

abbrev CoroutineStep := State × List CoroutineCall

/-- `coroutine_holder::cancel`.  A frame whose code has ended is gone at once, so `done`
returns false. -/
def cancel (s : State) : CoroutineStep :=
  if s.coro then
    match s.phase with
    | .suspending k | .suspended k =>
      ({ s with phase := .destroying, frames := 0, dead := Function.update s.dead k true },
        [.destroying])
    | .running =>
      -- the outermost frame runs itself, or awaits the one that runs
      if s.frames ≤ 1 then ({ s with badDone := true }, [.crashed])
      else ({ s with badDestroy := true }, [.crashed])
    | _ => ({ s with badDone := true }, [.crashed])
  else (s, [])

/-- `cancelation_token::request_cancel`. -/
def requestCancel (s : State) : CoroutineStep :=
  if s.canceled then (s, [])
  else if s.canceler then cancel { s with canceled := true }
  else ({ s with canceled := true }, [])

/-- `cancelation_token::set_canceler`. -/
def setCanceler (s : State) : CoroutineStep :=
  let s := { s with canceler := true, assertFailed := s.assertFailed || s.canceler }
  if s.canceled then cancel s else (s, [])

/-- What is awaited signals or gets ready.  The receiver of a destroyed awaiter does not
post anything. -/
def resolve (k : ℕ) (s : State) : Option State :=
  if s.resolved k ∨ (s.isSender k ∧ ¬ s.registered k) then none
  else
    let s := { s with resolved := Function.update s.resolved k true }
    some (if s.registered k ∧ ¬ (s.isSender k ∧ s.dead k) then { s with queue := s.queue ++ [k] }
      else s)

/-- `await_ready` and the beginning of `await_suspend`. -/
def await (k : ℕ) (earlyReturn : Bool) (s : State) : CoroutineStep :=
  let s := { s with awaited := true, used := Function.update s.used k true }
  if earlyReturn ∧ ¬ s.isSender k ∧ s.resolved k then (s, [.body])
  else
    let s := { s with phase := .suspending k, registered := Function.update s.registered k true }
    (if s.resolved k then { s with queue := s.queue ++ [k] } else s, [.suspending k])

/-- The code of a frame ends.  The frame that awaits it goes on, in `await_suspend` or in
the continuation of the task; the outermost one signals the receiver. -/
def finish (ending : Ending) (s : State) : CoroutineStep :=
  if 1 < s.frames then ({ s with frames := s.frames - 1, starts := s.starts - 1 }, [.body])
  else
    let signal := match ending with
      | .returned => Signal.value
      | .threw => Signal.error
    ({ s with phase := .signalling, signals := s.signals ++ [signal] }, [.signalling])

/-- The coroutine's code.  Code of the user runs in the inner frames only. -/
def body (s : State) : Choice → Option CoroutineStep
  | .resolve k => if s.frames ≤ 1 then none else (resolve k s).map fun s => (s, [.body])
  | .requestCancel =>
    if s.frames ≤ 1 then none
    else
      let (s, calls) := requestCancel s
      some (s, calls ++ [.body])
  | .call =>
    if s.frames ≤ 1 ∧ s.awaited then none
    else some ({ s with frames := s.frames + 1, starts := s.starts + 1, awaited := true }, [.body])
  | .await k earlyReturn =>
    if (s.frames ≤ 1 ∧ s.awaited) ∨ s.used k then none else some (await k earlyReturn s)
  | .finish ending => if s.frames ≤ 1 ∧ ¬ s.awaited then none else some (finish ending s)
  | _ => none

/-- The code of `await_suspend`.  A sender's `submit` may throw, and the frame goes on. -/
def suspending (k : ℕ) (s : State) : Choice → Option CoroutineStep
  | .resolve j => (resolve j s).map fun s => (s, [.suspending k])
  | .requestCancel =>
    let (s, calls) := requestCancel s
    some (s, calls ++ [.suspending k])
  | .return =>
    if s.phase = .suspending k then
      some ({ s with phase := .suspended k, starts := 0, wasSuspended := true }, [])
    -- `await_suspend` of a `cotask` asks the frame that it has started whether it is done
    else if s.starts = 0 then some (s, [])
    else some ({ s with dangling := true }, [.crashed])
  | .throw =>
    if ¬ s.isSender k then none
    else if s.phase = .suspending k then
      some ({ s with phase := .running, dead := Function.update s.dead k true }, [.body])
    else some ({ s with dangling := true }, [.crashed])
  | _ => none

/-- The receiver is signalled, then the outermost frame ends. -/
def signalling (s : State) : Choice → Option CoroutineStep
  | .resolve k => (resolve k s).map fun s => (s, [.signalling])
  | .requestCancel =>
    let (s, calls) := requestCancel s
    some (s, calls ++ [.signalling])
  | .reset => some ({ s with canceler := false, tokenReset := true }, [.signalling])
  | .return => some ({ s with phase := .ended, frames := 0, keepAlive := false }, [])
  | _ => none

/-- The destructors of the awaiters, which cancel what is awaited. -/
def destroying (s : State) : Choice → Option CoroutineStep
  | .resolve k => (resolve k s).map fun s => (s, [.destroying])
  | .requestCancel =>
    let (s, calls) := requestCancel s
    some (s, calls ++ [.destroying])
  | .return =>
    some ({ s with phase := .reporting, coro := false, signals := s.signals ++ [.done] },
      [.reporting])
  | _ => none

/-- `set_done` of the receiver, then the end of `cancel`. -/
def reporting (s : State) : Choice → Option CoroutineStep
  | .resolve k => (resolve k s).map fun s => (s, [.reporting])
  | .requestCancel =>
    let (s, calls) := requestCancel s
    some (s, calls ++ [.reporting])
  | .reset => some ({ s with canceler := false, tokenReset := true }, [.reporting])
  | .return => some ({ s with phase := .ended, keepAlive := false }, [])
  | _ => none

/-- The end of `submit`: the coroutine may have died right away. -/
def resumed (s : State) : CoroutineStep :=
  if s.keepAlive then setCanceler s else (s, [])

/-- User code outside of the coroutine. -/
def user (s : State) : Choice → Option CoroutineStep
  | .return => some (s, [])
  | .submit =>
    if s.phase = .unsubmitted then
      some ({ s with phase := .running, frames := 1, coro := true, keepAlive := true },
        [.body, .resumed, .user])
    else none
  | .resolve k => (resolve k s).map fun s => (s, [.user])
  | .requestCancel =>
    let (s, calls) := requestCancel s
    some (s, calls ++ [.user])
  | _ => none

/-- A continuation: an awaiter that was destroyed is not touched. -/
def continuation (k : ℕ) (s : State) : CoroutineStep :=
  if s.dead k then (s, [])
  else if s.phase = .suspended k then
    ({ s with phase := .running, dead := Function.update s.dead k true }, [.body])
  else ({ s with badResume := true }, [.crashed])

def executor (s : State) : Choice → Option CoroutineStep
  | .task => some (s, [.user, .executor])
  | .continuation k =>
    if k ∈ s.queue then
      let (s, calls) := continuation k { s with queue := s.queue.erase k }
      some (s, calls ++ [.executor])
    else none
  | _ => none

/-- One step of the thread. -/
def exec : Machine State CoroutineCall Choice
  | _, choice, s, .executor => executor s choice
  | _, choice, s, .user => user s choice
  | _, choice, s, .body => body s choice
  | _, choice, s, .suspending k => suspending k s choice
  | _, choice, s, .signalling => signalling s choice
  | _, choice, s, .destroying => destroying s choice
  | _, choice, s, .reporting => reporting s choice
  | _, _, s, .resumed => some (resumed s)
  | _, _, _, .crashed => none

/-- A program on an executor, whose awaitables `isSender` tells apart. -/
def start (isSender : ℕ → Bool) : Config State CoroutineCall :=
  ⟨{ isSender }, [[.executor]]⟩

end Tconcurrent.StacklessCoroutine
