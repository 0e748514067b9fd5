import Mathlib.Logic.Function.Basic
import Tconcurrent.Builtins
import Tconcurrent.Future
import Tconcurrent.Interleaving

/-! `periodic_task`: a state, and a chain of futures for every call of the callback.

Each section under `_mutex` and each resolution of a future is one action.  The
mutex is recursive and all continuations run on the synchronous executor: what
`stop` resolves or finds resolved runs its continuations inside `stop`.
Chain `k` is what `_future` is after it was assigned `k` times. -/
namespace Tconcurrent.PeriodicTask
open Interleaving Builtins

/-- `periodic_task::State`. -/
inductive TaskState where
  | stopped
  | running
  | stopping
  deriving DecidableEq

/-- `periodic_task::StartOption`. -/
inductive StartOption where
  | noOption
  | startImmediately
  deriving DecidableEq

/-- What a `future<void>` is resolved with. -/
inductive VoidResult where
  | value
  | exception (e : Exc)
  deriving DecidableEq

/-- How far a chain is. -/
inductive Phase where
  | unset
  /-- The timer of `async_wait` has not fired. -/
  | armed
  /-- The package of an immediate start waits in the executor. -/
  | posted
  /-- The timer has fired, and the closure of `and_then` has not been called. -/
  | fired
  /-- `do_call` is inside the callback. -/
  | calling
  /-- The future that the callback has returned is not resolved. -/
  | returned
  /-- It is resolved, and the continuation of `do_call` has not taken the mutex. -/
  | resolved (r : VoidResult)
  /-- `do_call` is done, or was not called, and the future of the chain is not resolved. -/
  | ending
  | over
  deriving DecidableEq

/-- A chain is alive from its start until `do_call` is done with it. -/
def Phase.alive : Phase → Bool
  | .armed | .posted | .fired | .calling | .returned | .resolved _ => true
  | .unset | .ending | .over => false

structure Chain where
  phase : Phase := .unset
  /-- The flag of the token that all the futures of the chain share. -/
  isCancelRequested : Bool := false
  deriving DecidableEq

/-- How far the continuation of a `stop` is. -/
inductive Stage where
  | waiting
  | ran
  /-- The future that `stop` has returned is resolved. -/
  | ready
  deriving DecidableEq

/-- A call of `stop`. -/
structure Stop where
  chain : ℕ
  /-- The continuation only swallows exceptions: the task was stopping already. -/
  quiet : Bool
  /-- The number of starts before the call. -/
  starts : ℕ
  stage : Stage := .waiting
  deriving DecidableEq

structure State where
  state : TaskState := .stopped
  /-- Whether `_callback` is set. -/
  callback : Bool := false
  /-- How often `_future` was assigned, and the chains it was assigned. -/
  count : ℕ := 0
  chains : ℕ → Chain := fun _ => {}
  /-- How often `start` has changed the state. -/
  starts : ℕ := 0
  stops : List Stop := []
  assertFailed : Bool := false

instance : Asserting State := ⟨fun s => { s with assertFailed := true }⟩

namespace State

def setPhase (s : State) (k : ℕ) (phase : Phase) : State :=
  { s with chains := Function.update s.chains k { s.chains k with phase } }

/-- Cancelation is requested on the token of `_future`. -/
def flag (s : State) : State :=
  { s with
    chains := Function.update s.chains s.count
      { s.chains s.count with isCancelRequested := true } }

/-- An assignment to `_future`. -/
def newChain (s : State) (phase : Phase) : State :=
  { s with
    count := s.count + 1
    chains := Function.update s.chains (s.count + 1) { phase } }

end State

/-- `periodic_task::reschedule`. -/
def reschedule (s : State) : State :=
  let s := check s (s.state ≠ .stopped)
  if s.state = .stopping then s else s.newChain .armed

/-- `periodic_task::start`. -/
def start (opt : StartOption) (s : State) : Except String State :=
  if s.callback = false then
    .error "callback must be set before the task is started"
  else
    match s.state with
    | .stopping => .error "can't start a periodic task that is not fully stopped"
    | .running => .ok s
    | .stopped =>
      let s := { s with state := .running, starts := s.starts + 1 }
      match opt with
      | .noOption => .ok (reschedule s)
      | .startImmediately => .ok (s.newChain .posted)

/-- The continuation that `do_call` registers on the future of the callback. -/
def continueCall (k : ℕ) (r : VoidResult) (s : State) : State :=
  let s := s.setPhase k .ending
  match r with
  | .value => reschedule s
  | .exception .operationCanceled => s
  | .exception _ => { s with state := .stopped }

/-- The continuation that `stop` registers on `_future`. -/
def runStop (quiet : Bool) (s : State) : State :=
  if quiet then s
  else { check s (s.state ≠ .running) with state := .stopped }

/-- `_future.request_cancel()`: an armed timer is cancelled, and a future that
the callback has returned may give its answer at once.  Both resolve `_future`. -/
def requestCancel (answer : Option VoidResult) (s : State) : State :=
  match (s.chains s.count).phase, answer with
  | .over, _ => s
  | .armed, _ => s.flag.setPhase s.count .over
  | .returned, some r => (continueCall s.count r s.flag).setPhase s.count .over
  | _, _ => s.flag

/-- `_future.then(get_synchronous_executor(), ..)` in `stop`. -/
def thenStop (quiet : Bool) (s : State) : State :=
  let stop : Stop := { chain := s.count, quiet, starts := s.starts }
  if (s.chains s.count).phase = .over then
    { runStop quiet s with stops := s.stops ++ [{ stop with stage := .ready }] }
  else { s with stops := s.stops ++ [stop] }

/-- `periodic_task::stop`. -/
def stop (answer : Option VoidResult) (s : State) : State :=
  match s.state with
  | .stopped =>
    { s with stops := s.stops ++ [{ chain := s.count, quiet := true, starts := s.starts,
                                    stage := .ready }] }
  | .stopping => thenStop true s
  | .running =>
    thenStop false (requestCancel answer { check s (s.count ≠ 0) with state := .stopping })

inductive Action where
  | setCallback
  | start (opt : StartOption)
  /-- The answer is that of the future of the callback to a cancelation. -/
  | stop (answer : Option VoidResult)
  /-- The timer of `async_wait` fires. -/
  | fire (k : ℕ)
  /-- The closure of `and_then` is called. -/
  | andThen (k : ℕ)
  /-- The executor takes the package of an immediate start. -/
  | runPackage (k : ℕ)
  /-- The callback throws. -/
  | throwException (k : ℕ)
  /-- The callback returns a future, which is resolved already or not. -/
  | returnFuture (k : ℕ) (resolved : Option VoidResult)
  /-- The future that the callback has returned is resolved. -/
  | resolveCallback (k : ℕ) (r : VoidResult)
  | continueCall (k : ℕ)
  /-- The future of the chain is resolved. -/
  | resolve (k : ℕ)
  /-- The continuation of the `m`-th `stop` is called. -/
  | runStop (m : ℕ)
  /-- The future that the `m`-th `stop` has returned is resolved. -/
  | resolveStop (m : ℕ)
  deriving DecidableEq

/-- `do_and_then_callback`, and `do_call` up to the callback. -/
def andThen (k : ℕ) (s : State) : State :=
  if (s.chains k).isCancelRequested then s.setPhase k .ending else s.setPhase k .calling

/-- `do_call` after the callback has returned. -/
def returnFuture (k : ℕ) (resolved : Option VoidResult) (s : State) : State :=
  match resolved with
  | some r => continueCall k r s
  | none => s.setPhase k .returned

/-- One atomic step, if it is possible. -/
def step (a : Action) (s : State) : Option State :=
  let phase (k : ℕ) := (s.chains k).phase
  match a with
  | .setCallback => some { s with callback := true }
  | .start opt =>
    match start opt s with
    | .ok s => some s
    | .error _ => some s
  | .stop answer => some (stop answer s)
  | .fire k => if phase k = .armed then some (s.setPhase k .fired) else none
  | .andThen k => if phase k = .fired then some (andThen k s) else none
  | .runPackage k => if phase k = .posted then some (s.setPhase k .calling) else none
  | .throwException k =>
    if phase k = .calling then some { s.setPhase k .ending with state := .stopped } else none
  | .returnFuture k resolved =>
    if phase k = .calling then some (returnFuture k resolved s) else none
  | .resolveCallback k r =>
    if phase k = .returned then some (s.setPhase k (.resolved r)) else none
  | .continueCall k =>
    match phase k with
    | .resolved r => some (continueCall k r s)
    | _ => none
  | .resolve k => if phase k = .ending then some (s.setPhase k .over) else none
  | .runStop m =>
    match s.stops[m]? with
    | some stop =>
      if stop.stage = .waiting ∧ phase stop.chain = .over then
        some { runStop stop.quiet s with stops := s.stops.set m { stop with stage := .ran } }
      else none
    | none => none
  | .resolveStop m =>
    match s.stops[m]? with
    | some stop =>
      if stop.stage = .ran then
        some { s with stops := s.stops.set m { stop with stage := .ready } }
      else none
    | none => none

/-- Every thread does whatever is possible, again and again. -/
def exec : Machine State Unit Action := ofActions step

/-- A new `periodic_task` and any number of threads. -/
def initial (threads : ℕ) : Config State Unit where
  state := {}
  threads := List.replicate threads [()]

end Tconcurrent.PeriodicTask
