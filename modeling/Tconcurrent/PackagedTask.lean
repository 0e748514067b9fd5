import Mathlib.Logic.Function.Basic
import Tconcurrent.Builtins
import Tconcurrent.Future
import Tconcurrent.Interleaving

/-! `package_cancelable`: a function that is run once or cancelled.

The copies of the task share one state, and its token carries the canceler of the
task until the task is called or cancelled.  User code runs inside the function,
in the destructor of the function and in the continuations of the future. -/
namespace Tconcurrent.PackagedTask
open Interleaving Builtins

variable {α : Type}

inductive TaskCall where
  /-- User code. -/
  | user
  /-- The function returns or throws. -/
  | functionReturn
  /-- The end of `operator()`. -/
  | clearFunction
  /-- The end of the canceler: the exception, then the destructor of `pp`. -/
  | cancelFinish
  | dropLock
  deriving DecidableEq

/-- What user code does next; the function is given its outcome. -/
inductive Choice (α : Type) where
  | return
  | call
  | copy
  | destroy
  | requestCancel
  | finish (r : Except Exc α)

/-- What came first: a call of a copy, a request on the future, or the end of the last copy. -/
inductive First where
  | called
  | cancelled
  | dropped
  deriving DecidableEq

/-- `detail::shared`, its token, and the copies of the task. -/
structure State (α : Type) where
  /-- `_done`. -/
  isDone : Bool := false
  /-- Whether `_f` is set. -/
  function : Bool := true
  /-- `_r` and `_promise_count`. -/
  result : Option (Except Exc α) := none
  promiseCount : ℕ := 1
  /-- The token; its only callback is the canceler of the task. -/
  token : CancelationToken Unit := { doCancels := [()] }
  copies : ℕ := 1
  /-- How often the function was entered, and what it has returned or thrown. -/
  runs : ℕ := 0
  returned : Option (Except Exc α) := none
  first : Option First := none
  /-- Whether cancelation was requested while the function was running. -/
  requestedInside : Bool := false
  assertFailed : Bool := false

abbrev TaskStep (α : Type) := State α × List TaskCall

instance : Asserting (State α) := ⟨fun s => { s with assertFailed := true }⟩

namespace State

/-- The function has been entered and has not returned. -/
def running (s : State α) : Prop := s.first = some .called ∧ s.returned = none

instance (s : State α) : Decidable s.running :=
  inferInstanceAs (Decidable (_ ∧ (s.returned = none)))

/-- What comes first is recorded when it happens, whatever it does. -/
def happens (s : State α) (event : First) : State α := { s with first := s.first.or (some event) }

end State

/-- `shared_base::finish`: the continuations of the future are user code. -/
def finish (r : Except Exc α) (s : State α) : TaskStep α :=
  ({ check s (s.result.isNone = true) with result := some r }, [.user])

/-- `shared_base::decrement_promise`. -/
def decrementPromise (s : State α) : TaskStep α :=
  let s := { check s (0 < s.promiseCount) with promiseCount := s.promiseCount - 1 }
  if s.promiseCount = 0 ∧ s.result.isNone = true then
    finish (.error .brokenPromise) s
  else (s, [])

/-- A copy of the task: the copy constructor of `promise_ptr`. -/
def copy (s : State α) : State α :=
  let s := check s (s.promiseCount ≠ 0)
  { s with copies := s.copies + 1, promiseCount := s.promiseCount + 1 }

/-- The destructor of a copy. -/
def destroy (s : State α) : TaskStep α :=
  let s := { s with copies := s.copies - 1 }
  decrementPromise (if s.copies = 0 then s.happens .dropped else s)

/-- `shared::operator()` up to the function. -/
def call (s : State α) : TaskStep α :=
  let s := s.happens .called
  if s.isDone then (s, [])
  else
    ({ s with
        isDone := true
        token := s.token.popCancelationCallback.1
        runs := s.runs + 1 },
      [.user, .functionReturn])

/-- The function returns or throws: the future is resolved, then `_f` is cleared. -/
def functionReturn (r : Except Exc α) (s : State α) : TaskStep α :=
  let (s, calls) := finish r { s with returned := some r }
  (s, calls ++ [.clearFunction])

/-- `packaged_task_canceler::operator()` up to the exception.  The destructor of
the function is user code. -/
def canceler (s : State α) : TaskStep α :=
  if s.promiseCount = 0 then (check s (s.isDone = true), [])
  else
    let s := { s with promiseCount := s.promiseCount + 1 }
    if s.isDone then decrementPromise s
    else
      ({ s with
          isDone := true
          token := s.token.popCancelationCallback.1
          function := false },
        [.user, .cancelFinish])

/-- `request_cancel` on the future: a resolved state has no token any more. -/
def requestCancel (s : State α) : TaskStep α :=
  let s := s.happens .cancelled
  if s.result.isNone = true then
    let (token, callbacks) := s.token.requestCancel
    let s := { s with token, requestedInside := s.requestedInside || decide s.running }
    if callbacks = [] then (s, []) else canceler s
  else (s, [])

/-- What user code can do: it calls, copies and destroys the copies that exist. -/
def user (s : State α) : Choice α → Option (TaskStep α)
  | .return => some (s, [])
  | .call =>
    if s.copies = 0 then none
    else
      let (s, calls) := call s
      some (s, calls ++ [.user])
  | .copy => if s.copies = 0 then none else some (copy s, [.user])
  | .destroy =>
    if s.copies = 0 then none
    else
      let (s, calls) := destroy s
      some (s, calls ++ [.user])
  | .requestCancel =>
    let (s, calls) := requestCancel s
    some (s, calls ++ [.user])
  | .finish _ => none

/-- One step of the thread. -/
def exec : Machine (State α) TaskCall (Choice α)
  | _, choice, s, .user => user s choice
  | _, .finish r, s, .functionReturn => some (functionReturn r s)
  | _, _, _, .functionReturn => none
  | _, _, s, .clearFunction => some ({ s with function := false }, [.user])
  | _, _, s, .cancelFinish =>
    let (s, calls) := finish (.error .operationCanceled) s
    some (s, calls ++ [.dropLock])
  | _, _, s, .dropLock => some (decrementPromise s)

/-- A task made on a fresh token, and a program that has it and its future. -/
def start : Config (State α) TaskCall := ⟨{}, [[.user]]⟩

end Tconcurrent.PackagedTask
