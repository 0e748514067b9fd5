import Mathlib.Logic.Function.Basic
import Tconcurrent.Interleaving

/-! `async_wait` on Emscripten, and the timers of JavaScript.

All code runs on the one thread of the event loop.  Wait `w` is the `w`th call of
`async_wait`, and handle `h` is what the `h`th call of `setTimeout` returns.  The token of
a wait's promise holds its canceler and nothing else. -/
namespace Tconcurrent.AsyncWaitEmscripten
open Interleaving

/-- What the promise is resolved with. -/
inductive Outcome where
  | value
  | operationCanceled
  deriving DecidableEq

/-- `async_wait_data`. -/
structure Wait where
  fired : Bool := false
  /-- Whether `callback` is set. -/
  callback : Bool := false
  timeoutId : ℕ := 0
  /-- Whether the canceler is on the token of `prom`. -/
  canceler : Bool := false
  /-- What `prom` was resolved with. -/
  results : List Outcome := []
  deriving DecidableEq

/-- A timer calls `tc_async_wait_do_call` with its wait. -/
structure Timer where
  wait : ℕ := 0
  armed : Bool := false
  deriving DecidableEq

structure State where
  waits : ℕ → Wait := fun _ => {}
  /-- How often `async_wait` was called. -/
  made : ℕ := 0
  timers : ℕ → Timer := fun _ => {}
  /-- How often `setTimeout` was called. -/
  handles : ℕ := 0
  /-- `Module.tconcurrent_await_id`, which nothing sets. -/
  awaitId : Option ℕ := none
  /-- `Module.tconcurrent_last_timeout_id`. -/
  lastTimeoutId : ℕ := 0
  /-- `Module.tconcurrent_timeouts`. -/
  timeouts : ℕ → Option ℕ := fun _ => none
  /-- The waits that were cancelled, and the timers that this has cleared. -/
  cleared : List (ℕ × ℕ) := []

inductive WaitCall where
  /-- The event loop of JavaScript. -/
  | loop
  | user
  /-- The canceler of a wait, after it has resolved the promise. -/
  | canceler (w : ℕ)
  deriving DecidableEq

inductive Choice where
  | return
  | task
  | timeout (h : ℕ)
  | asyncWait
  | requestCancel (w : ℕ)
  deriving DecidableEq

def setWait (w : ℕ) (wait : Wait) (s : State) : State :=
  { s with waits := Function.update s.waits w wait }

def setTimer (h : ℕ) (timer : Timer) (s : State) : State :=
  { s with timers := Function.update s.timers h timer }

/-- The first `EM_ASM`. -/
def initModule (s : State) : State :=
  if s.awaitId.isNone then { s with lastTimeoutId := 1, timeouts := fun _ => none } else s

/-- The last `EM_ASM_`: the next id, and the timer that is stored under it. -/
def setTimeout (w : ℕ) (s : State) : State × ℕ :=
  let id := s.lastTimeoutId
  let h := s.handles
  (setTimer h ⟨w, true⟩ { s with
    lastTimeoutId := id + 1, handles := h + 1
    timeouts := Function.update s.timeouts id (some h) }, id)

/-- `async_wait`. -/
def asyncWait (s : State) : State :=
  let s := initModule s
  let w := s.made
  let (s, id) := setTimeout w { s with made := w + 1 }
  setWait w { callback := true, canceler := true, timeoutId := id } s

/-- `fired` is set, the canceler is popped and the promise is resolved. -/
def resolve (w : ℕ) (outcome : Outcome) (s : State) : State :=
  let wait := s.waits w
  setWait w { wait with fired := true, canceler := false, results := wait.results ++ [outcome] } s

/-- The canceler.  The continuations of the future run before it goes on. -/
def cancel (w : ℕ) (s : State) : State × List WaitCall :=
  if (s.waits w).fired then (s, [])
  else (resolve w .operationCanceled s, [.user, .canceler w])

/-- The rest of the canceler: the callback is dropped and the timer under the id cleared. -/
def clear (w : ℕ) (s : State) : State :=
  let s := setWait w { s.waits w with callback := false } s
  let id := (s.waits w).timeoutId
  match s.timeouts id with
  | some h =>
    let s := setTimer h { s.timers h with armed := false } s
    { s with timeouts := Function.update s.timeouts id none, cleared := s.cleared ++ [(w, h)] }
  | none => s

/-- `tc_async_wait_do_call`: the callback is moved out of the data and called. -/
def doCall (w : ℕ) (s : State) : State × List WaitCall :=
  let wait := s.waits w
  let s := setWait w { wait with callback := false } s
  if wait.callback then
    if wait.fired then (s, [])
    else (resolve w .value s, [.user])
  else (s, [])

def exec : Machine State WaitCall Choice
  | _, .task, s, .loop => some (s, [.user, .loop])
  | _, .timeout h, s, .loop =>
    if (s.timers h).armed then
      let (s, calls) := doCall (s.timers h).wait (setTimer h { s.timers h with armed := false } s)
      some (s, calls ++ [.loop])
    else none
  | _, .return, s, .user => some (s, [])
  | _, .asyncWait, s, .user => some (asyncWait s, [.user])
  | _, .requestCancel w, s, .user =>
    -- the future is ready, and has no token, once its wait is resolved
    if w < s.made then
      let (s, calls) := if (s.waits w).canceler then cancel w s else (s, [])
      some (s, calls ++ [.user])
    else none
  | _, _, s, .canceler w => some (clear w s, [])
  | _, _, _, _ => none

def start : Config State WaitCall := ⟨{}, [[.loop]]⟩

/-- `async_wait` is called only when no wait is outstanding, and no canceler has still to
clear its timer. -/
def WaitsAlone (s : State) (_ : WaitCall) (choice : Choice) : Prop :=
  choice = .asyncWait → ∀ w < s.made, (s.waits w).callback = false

end Tconcurrent.AsyncWaitEmscripten
