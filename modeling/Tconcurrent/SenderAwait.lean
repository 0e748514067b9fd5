import Mathlib.Logic.Function.Basic
import Tconcurrent.Interleaving

/-! How the outcome of a sender gets back into the stackful coroutine that awaits it.

The coroutine runs on the one thread of its executor, and any number of other threads
signal what it awaits.  Await `k` is the await of the sender or the future `k`, which is
consumed by it.  No cancelation is requested, so an await finds its `aborted` flag and
its token as they were. -/
namespace Tconcurrent.SenderAwait
open Interleaving

variable {α ε : Type}

/-- What an `std::exception_ptr` holds. -/
inductive Exception (ε : Type) where
  | operationCanceled
  | other (e : ε)
  deriving DecidableEq

/-- What a sender signals, and what a ready future holds. -/
inductive Signal (α ε : Type) where
  | value (v : α)
  | error (e : Exception ε)
  | done
  deriving DecidableEq

/-- What an await or the coroutine's function returns or throws. -/
inductive Outcome (α ε : Type) where
  | returned (v : α)
  | threw (e : Exception ε)
  deriving DecidableEq

/-- `set_value`, `set_error` and `set_done` of `await_receiver`, and `get` of a future. -/
def Signal.outcome : Signal α ε → Outcome α ε
  | .value v => .returned v
  | .error e => .threw e
  | .done => .threw .operationCanceled

inductive Phase where
  /-- `submit` of the coroutine has not been called. -/
  | unsubmitted
  /-- The coroutine's own code runs. -/
  | running
  /-- The coroutine has switched to `run_coroutine`, to execute work there. -/
  | dispatched
  /-- It has switched out, and `run_coroutine` is submitting the awaited sender. -/
  | submitting (k : ℕ)
  | suspended (k : ℕ)
  /-- The receiver is being signalled. -/
  | signalling
  /-- The coroutine's function has returned, and the control block is deleted. -/
  | deleted
  deriving DecidableEq

/-- Who has called `run_coroutine`, and gets what it throws. -/
inductive Resumer where
  /-- `async_then_receiver::set_value` of `connect`, which has a catch block. -/
  | connect
  /-- Other code that has called `run_resumable_sender::submit`. -/
  | submitter
  /-- What the receiver of a sender has posted to the executor. -/
  | posted
  /-- The packaged task that `then` has registered on a future. -/
  | packagedTask
  deriving DecidableEq

inductive AwaitCall where
  /-- The loop of the executor. -/
  | executor
  /-- User code outside of the coroutine, on the thread of the executor. -/
  | user
  /-- The coroutine's own code. -/
  | body
  /-- `submit` of an awaited sender, and the end of `run_coroutine`. -/
  | submitting (k : ℕ)
  /-- Dispatched work is done. -/
  | resumeWork
  /-- The end of the coroutine's function. -/
  | exitCoroutine
  /-- Code on another thread. -/
  | outside
  /-- An assertion has failed, or a coroutine that is not suspended was resumed. -/
  | crashed
  deriving DecidableEq

/-- What the executor, user code, a sender or the coroutine does next. -/
inductive Choice (α ε : Type) where
  | return
  | throw (e : Exception ε)
  | task
  /-- The first of the posted continuations. -/
  | continuation
  /-- `run_resumable_sender::submit`, perhaps in a `connect` or inside another coroutine. -/
  | submit (connected nested : Bool)
  /-- A sender signals, or a future gets ready. -/
  | signal (k : ℕ) (signal : Signal α ε)
  /-- `yield` awaits a ready future without an early return. -/
  | await (k : ℕ) (earlyReturn : Bool)
  | dispatch
  | finish (ending : Outcome α ε)
  deriving DecidableEq

structure State (α ε : Type) where
  phase : Phase := .unsubmitted
  /-- Which awaitables are senders, and which were awaited. -/
  isSender : ℕ → Bool
  used : ℕ → Bool := fun _ => false
  /-- The futures that have a continuation, and the senders whose `submit` was called. -/
  registered : ℕ → Bool := fun _ => false
  /-- What each sender has signalled, and what each ready future holds. -/
  sent : ℕ → Option (Signal α ε) := fun _ => none
  /-- What `submit` of a sender has thrown. -/
  threw : ℕ → Option (Exception ε) := fun _ => none
  /-- The continuations that were posted and have not run yet. -/
  queue : List (ℕ × Outcome α ε) := []
  /-- `previous_coroutine` is set. -/
  previous : Bool := false
  resumer : Resumer := .submitter
  /-- How often each await was resumed, and how each has ended. -/
  resumed : ℕ → ℕ := fun _ => 0
  history : List (ℕ × Outcome α ε) := []
  /-- How the coroutine's function has ended, and what its receiver got. -/
  ended : Option (Outcome α ε) := none
  signals : List (Signal α ε) := []
  /-- What was thrown out of a task, into the error handler of the executor. -/
  uncaught : List (Exception ε) := []
  /-- What a packaged task has caught: the future of that `then` was dropped. -/
  swallowed : List (Exception ε) := []
  /-- `run_coroutine` was called on a coroutine that is not suspended in that await. -/
  badResume : Bool := false
  assertFailed : Bool := false

abbrev AwaitStep (α ε : Type) := State α ε × List AwaitCall

/-- A continuation writes the result of the await and calls `run_coroutine`, which
switches to the end of the await. -/
def runCoroutine (k : ℕ) (outcome : Outcome α ε) (s : State α ε) : AwaitStep α ε :=
  if s.previous then ({ s with assertFailed := true }, [.crashed])
  else if s.phase = .suspended k ∨ s.phase = .submitting k then
    ({ s with
        phase := .running
        resumer := if s.isSender k then .posted else .packagedTask
        resumed := Function.update s.resumed k (s.resumed k + 1)
        history := s.history ++ [(k, outcome)] }, [.body])
  else ({ s with badResume := true }, [.crashed])

/-- `await_receiver_base::_set`, or a future that gets ready.  A sender signals once, after
its `submit` was called, and not when that has thrown. -/
def signal (k : ℕ) (signal : Signal α ε) (s : State α ε) : Option (State α ε) :=
  if (s.sent k).isSome ∨ (s.threw k).isSome ∨ (s.isSender k ∧ ¬ s.registered k) then none
  else
    let s := { s with sent := Function.update s.sent k (some signal) }
    some (if s.registered k then { s with queue := s.queue ++ [(k, signal.outcome)] } else s)

/-- `await` on what is not ready, then `run_coroutine` after the switch with the
`coroutine_exit_post_setup` of the await. -/
def suspend (k : ℕ) (s : State α ε) : AwaitStep α ε :=
  let s := { s with registered := Function.update s.registered k true }
  if s.isSender k then ({ s with phase := .submitting k }, [.submitting k])
  else
    let s := { s with phase := .suspended k, previous := false }
    match s.sent k with
    | some signal => ({ s with queue := s.queue ++ [(k, signal.outcome)] }, [])
    | none => (s, [])

/-- `coroutine_control::await`. -/
def await (k : ℕ) (earlyReturn : Bool) (s : State α ε) : AwaitStep α ε :=
  let s := { s with used := Function.update s.used k true }
  match earlyReturn && !s.isSender k, s.sent k with
  | true, some signal => ({ s with history := s.history ++ [(k, signal.outcome)] }, [.body])
  | _, _ => suspend k s

/-- An exception leaves `run_coroutine`, and goes to whoever has called it. -/
def escape (e : Exception ε) (s : State α ε) : AwaitStep α ε :=
  match s.resumer with
  | .connect => ({ s with signals := s.signals ++ [.error e] }, [.user])
  | .submitter => (s, [])
  | .posted => ({ s with uncaught := s.uncaught ++ [e] }, [])
  | .packagedTask => ({ s with swallowed := s.swallowed ++ [e] }, [])

/-- The code of `submit`, then the end of `run_coroutine`.  Its scope exit runs for an
exception too. -/
def submitting (k : ℕ) (s : State α ε) : Choice α ε → Option (AwaitStep α ε)
  | .signal j sent => (signal j sent s).map fun s => (s, [.submitting k])
  | .return => some ({ s with phase := .suspended k, previous := false }, [])
  | .throw e =>
    if (s.sent k).isSome then none
    else
      let s := { s with threw := Function.update s.threw k (some e) }
      some (escape e { s with phase := .suspended k, previous := false })
  | _ => none

/-- What `run_resumable_sender` signals when the function has returned or thrown. -/
def signalOf : Outcome α ε → Signal α ε
  | .returned v => .value v
  | .threw e => .error e

def finishBody (ending : Outcome α ε) (s : State α ε) : AwaitStep α ε :=
  ({ s with
      phase := .signalling
      ended := some ending
      signals := s.signals ++ [signalOf ending] },
    [.user, .exitCoroutine])

/-- The coroutine's own code.  It may catch what an await throws. -/
def body (s : State α ε) : Choice α ε → Option (AwaitStep α ε)
  | .signal k sent => (signal k sent s).map fun s => (s, [.body])
  | .await k earlyReturn => if s.used k then none else some (await k earlyReturn s)
  | .dispatch => some ({ s with phase := .dispatched }, [.user, .resumeWork])
  | .finish ending => some (finishBody ending s)
  | _ => none

/-- User code outside of the coroutine. -/
def user (s : State α ε) : Choice α ε → Option (AwaitStep α ε)
  | .return => some (s, [])
  | .submit connected nested =>
    if s.phase = .unsubmitted then
      let resumer := if connected then .connect else .submitter
      some ({ s with phase := .running, previous := nested, resumer }, [.body, .user])
    else none
  | .signal k sent => (signal k sent s).map fun s => (s, [.user])
  | _ => none

def executor (s : State α ε) : Choice α ε → Option (AwaitStep α ε)
  | .task => some (s, [.user, .executor])
  | .continuation =>
    match s.queue with
    | (k, outcome) :: rest =>
      let (s, calls) := runCoroutine k outcome { s with queue := rest }
      some (s, calls ++ [.executor])
    | [] => none
  | _ => none

/-- Code on another thread. -/
def outside (s : State α ε) : Choice α ε → Option (AwaitStep α ε)
  | .signal k sent => (signal k sent s).map fun s => (s, [.outside])
  | _ => none

/-- One step of a thread. -/
def exec : Machine (State α ε) AwaitCall (Choice α ε)
  | _, choice, s, .executor => executor s choice
  | _, choice, s, .user => user s choice
  | _, choice, s, .body => body s choice
  | _, choice, s, .submitting k => submitting k s choice
  | _, _, s, .resumeWork => some ({ s with phase := .running }, [.body])
  | _, _, s, .exitCoroutine => some ({ s with phase := .deleted, previous := false }, [])
  | _, choice, s, .outside => outside s choice
  | _, _, _, .crashed => none

/-- The thread of the executor and `threads` others; `isSender` tells the awaitables apart. -/
def start (isSender : ℕ → Bool) (threads : ℕ) : Config (State α ε) AwaitCall :=
  ⟨{ isSender }, [.executor] :: List.replicate threads [.outside]⟩

end Tconcurrent.SenderAwait
