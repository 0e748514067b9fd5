import Tconcurrent.Recursion

/-! Expressions of futures on one thread, and `request_cancel`.

A future is kept with all that was done to it without another token: what it waits for at
first, the continuations that are still to run, and the future that `unwrap` waits for.  The
cancelation token of these is one stack of callbacks.  Continuations run on the synchronous
executor.  A callback names what it cancels: what the future waits for at first, or the inner
future of an `unwrap`.

A future may be set inside a catch block of the library, and so run its continuations there.  The
program is terminated when a suspended coroutine is canceled in such a block. -/
namespace Tconcurrent.SynchronousCancel
open Recursion

inductive Exc where
  | operationCanceled
  | user (e : ℕ)
  deriving DecidableEq

/-- What a future is ready with, as far as a function of the user can tell. -/
inductive Datum where
  | value (v : ℕ)
  | exception (e : Exc)
  | future
  | all (results : List Datum)
  /-- `index` is `size_t(-1)` if there were no futures. -/
  | any (index : Option ℕ) (results : List (Option Datum))

mutual

inductive Expr where
  | ready (d : Datum)
  | async (f : Ret)
  | asyncWait
  /-- The handle of the future is kept, or dropped when there is a continuation. -/
  | asyncResumable (body : List Datum → Rest) (kept stackful : Bool)
  | then (e : Expr) (f : Datum → Ret)
  | andThen (e : Expr) (f : Datum → Ret)
  | unwrap (e : Expr)
  | whenAll (es : List Expr)
  | whenAny (es : List Expr) (autoCancel : Bool)

/-- How a function of the user ends. -/
inductive Ret where
  | value (v : ℕ)
  | throws (e : Exc)
  | future (e : Expr)
  /-- It returns the value that it was given. -/
  | arg

/-- What a coroutine does next. -/
inductive Rest where
  | await (e : Expr)
  | return (r : Ret)

end

/-- A coroutine goes on with the results that it has awaited so far. -/
abbrev Body := List Datum → Rest

/-- `to_void`. -/
def Expr.toVoid (e : Expr) : Expr := .andThen e fun _ => .value 0

/-- A continuation. -/
inductive Stage where
  | then (f : Datum → Ret)
  | andThen (f : Datum → Ret)
  | unwrap

inductive Callback where
  | source
  | inner
  deriving DecidableEq

/-- `cancelation_token`. -/
structure Token where
  isCancelRequested : Bool := false
  /-- `_do_cancels`, the back first. -/
  doCancels : List Callback := []
  /-- Whether a `scope_canceler` has popped a callback that it had not pushed. -/
  broken : Bool := false
  deriving DecidableEq

mutual

structure Future where
  token : Token := {}
  source : Source
  /-- Whether the user has a handle of the coroutine's future, which keeps its state alive. -/
  held : Bool := true
  /-- Which engine runs the coroutine. -/
  stackful : Bool := true
  stages : List Stage := []
  waiting : Waiting
  /-- Whether it got ready inside a catch block. -/
  inCatch : Bool := false

/-- What a future waits for at first. -/
inductive Source where
  /-- Nothing, or what has fired. -/
  | none
  | async (f : Ret)
  | asyncWait
  | unstarted (body : Body)
  | awaiting (awaited : Future) (body : Body) (results : List Datum)
  /-- A coroutine that has ended, and the same once `shared_receiver_priv` is destroyed. -/
  | ended
  | destroyed
  | whenAll (futures : List Future) (count : ℕ)
  | whenAny (futures : List Future) (autoCancel triggered : Bool)

inductive Waiting where
  | source
  | inner (fut : Future)
  | ready (v : Value)

inductive Value where
  | datum (d : Datum)
  | future (fut : Future)

end

def Value.view : Value → Datum
  | .datum d => d
  | .future _ => .future

def Future.result (fut : Future) : Option Value :=
  match fut.waiting with
  | .ready v => some v
  | _ => none

def Future.isReady (fut : Future) : Bool := fut.result.isSome

def canceled : Value := .datum (.exception .operationCanceled)

def Source.futures : Source → List Future
  | .whenAll futures _ | .whenAny futures _ _ => futures
  | _ => []

def Source.setFutures (futures : List Future) : Source → Source
  | .whenAll _ count => .whenAll futures count
  | .whenAny _ autoCancel triggered => .whenAny futures autoCancel triggered
  | source => source

/-- It is set from the catch block of `packaged_task` or of a coroutine. -/
def Value.isException : Value → Bool
  | .datum (.exception _) => true
  | _ => false

/-- What the user's code, perhaps in a catch clause, or the executor does. -/
inductive Event where
  | fire
  | drop (inCatch : Bool)
  | requestCancel (inCatch : Bool)
  deriving DecidableEq

/-- Where it does it. -/
inductive Selector where
  | inner
  | value
  | awaited
  | future (j : ℕ)
  deriving DecidableEq

/-- The functions that call each other.  They know whether an exception is being handled, except
for those that nothing calls in a catch block (`run`, `event`), and `start`, which makes no
suspended coroutine. -/
inductive Op where
  | start (e : Expr)
  | requestCancel (inCatch : Bool) (fut : Future)
  /-- The callback on top is called. -/
  | callTop (inCatch : Bool) (fut : Future)
  /-- The shared state that the continuations wait for is set. -/
  | set (inCatch : Bool) (v : Value) (fut : Future)
  /-- The rest of the cancelers of `when_all` and `when_any`. -/
  | cancelFutures (inCatch : Bool) (js : List ℕ) (fut : Future)
  | run (body : Body) (results : List Datum) (fut : Future)
  | event (path : List Selector) (event : Event) (fut : Future)

abbrev FutureCode := Code Op Future

variable {α : Type}

def call (op : Op) : FutureCode Future := Code.call op

/-- A function of the user is called. -/
def apply (r : Ret) (v : Value) : FutureCode Value :=
  match r with
  | .value x => return .datum (.value x)
  | .throws e => return .datum (.exception e)
  | .future e => do return .future (← call (.start e))
  | .arg => return v

namespace Future

variable (fut : Future) (inCatch : Bool)

def setStack (doCancels : List Callback) : Future :=
  { fut with token := { fut.token with doCancels } }

/-- `pop_cancelation_callback`. -/
def pop : FutureCode Future :=
  let fut := fut.setStack fut.token.doCancels.tail
  if fut.token.isCancelRequested && !fut.token.doCancels.isEmpty then call (.callTop inCatch fut)
  else return fut

/-- The continuation that `unwrap` has attached to the inner future, if that is ready. -/
def unwrapInner : FutureCode Future :=
  match fut.waiting with
  | .inner inner =>
    match inner.result with
    | some v => do
      let fut ← fut.pop inCatch
      call (.set inCatch v fut)
    | none => return fut
  | _ => return fut

/-- The continuation that `unwrap` attaches first, given a future. -/
def unwrapOuter (inner : Future) : FutureCode Future := do
  let fut := fut.setStack (.inner :: fut.token.doCancels)
  let inner ←
    if fut.token.isCancelRequested then call (.requestCancel inCatch inner) else pure inner
  unwrapInner { fut with waiting := .inner inner } inCatch

/-- What the next continuation sets.  `packaged_task` sets an exception while it handles it. -/
def runStage (v : Value) : Stage → FutureCode Future
  | .then f => do
    let v ← apply (f v.view) v
    call (.set (inCatch || v.isException) v fut)
  | .andThen f =>
    match v.view with
    | .exception e => call (.set true (.datum (.exception e)) fut)
    | _ => do
      let v ← if fut.token.isCancelRequested then pure canceled else apply (f v.view) v
      call (.set (inCatch || v.isException) v fut)
  | .unwrap =>
    match v with
    | .datum d => call (.set inCatch (.datum d) fut)
    | .future inner => fut.unwrapOuter inCatch inner

def set (v : Value) : FutureCode Future :=
  match fut.stages with
  | [] => return { fut with waiting := .ready v, inCatch }
  | stage :: stages => runStage { fut with stages } inCatch v stage

/-- `then`, `and_then` or `unwrap`. -/
def attach (stage : Stage) : FutureCode Future :=
  let attached := { fut with stages := fut.stages ++ [stage] }
  match fut.result with
  | some v => call (.set false v attached)
  | none => return attached

/-- `~scope_canceler` of `shared_receiver_priv`. -/
def destroy : FutureCode Future :=
  pop { fut with
    source := .destroyed
    token := { fut.token with
      broken := fut.token.broken || decide (fut.token.doCancels.head? ≠ some .source) } } inCatch

/-- A coroutine sets its future, perhaps while it handles the exception that ended it, and ends.
The state lives on only if it is held, or if it is the future itself. -/
def finish (caught : Bool) (v : Value) : FutureCode Future := do
  let after ← call (.set (inCatch || caught) v { fut with source := .ended })
  if fut.stages.isEmpty || fut.held then return after else after.destroy inCatch

def views (futures : List Future) : List (Option Datum) :=
  futures.map fun future => future.result.map Value.view

/-- `when_all_callback::operator()` and `when_any_callback::operator()`. -/
def callback (j : ℕ) : FutureCode Future :=
  match fut.source with
  | .whenAll futures count => do
    let fut := { fut with source := .whenAll futures (count + 1) }
    if count + 1 = futures.length then
      call (.set inCatch (.datum (.all ((views futures).map fun d => d.getD .future))) fut)
    else return fut
  | .whenAny futures autoCancel triggered =>
    if triggered then return fut
    else do
      let fut := { fut with source := .whenAny futures autoCancel true }
      let others := (List.range futures.length).filter (· ≠ j)
      let fut ← if autoCancel then call (.cancelFutures inCatch others fut) else pure fut
      call (.set inCatch (.datum (.any (some j) (views fut.source.futures))) fut)
  | _ => return fut

/-- The `j`th future of `when_all` or `when_any` is now `future`. -/
def change (j : ℕ) (future : Future) : FutureCode Future :=
  let fut := { fut with source := fut.source.setFutures (fut.source.futures.set j future) }
  if future.isReady then fut.callback future.inCatch j else return fut

def cancelFutures : List ℕ → FutureCode Future
  | [] => return fut
  | j :: js =>
    match fut.source.futures[j]? with
    | some future =>
      if future.isReady then call (.cancelFutures inCatch js fut)
      else do
        let future ← call (.requestCancel inCatch future)
        let fut ← fut.change j future
        call (.cancelFutures inCatch js fut)
    | none => call (.cancelFutures inCatch js fut)

/-- The cancelers of the primitives.  A coroutine is not resumed in a catch block, and one that is
aborted with its stack unwound sets its future while it handles `abort_coroutine`, which its body
must never catch. -/
def cancelSource : FutureCode Future :=
  match fut.source with
  | .async _ | .asyncWait => do
    let fut ← pop { fut with source := .none } inCatch
    call (.set inCatch canceled fut)
  | .unstarted _ => fut.finish inCatch false canceled
  | .awaiting awaited _ _ =>
    -- `assert_not_in_catch`
    if inCatch then .stop
    else do
      let _ ← call (.requestCancel inCatch awaited)
      fut.finish inCatch fut.stackful canceled
  | .whenAll futures _ | .whenAny futures _ _ =>
    call (.cancelFutures inCatch (List.range futures.length) fut)
  | .none | .ended | .destroyed => return fut

def callTop : FutureCode Future :=
  match fut.token.doCancels, fut.waiting with
  | .source :: _, _ => fut.cancelSource inCatch
  | .inner :: _, .inner inner =>
    if inner.isReady then return fut
    else do
      let inner ← call (.requestCancel inCatch inner)
      unwrapInner { fut with waiting := .inner inner } inner.inCatch
  | _, _ => return fut

/-- A ready future has no token. -/
def requestCancel : FutureCode Future :=
  if fut.isReady then return fut
  else call (.callTop inCatch { fut with token := { fut.token with isCancelRequested := true } })

/-- A coroutine does not wait for what is ready. -/
def run (body : Body) (results : List Datum) : FutureCode Future :=
  match body results with
  | .return r => do
    let v ← apply r (.datum (.value 0))
    fut.finish false v.isException v
  | .await e => do
    let awaited ← call (.start e)
    match awaited.result with
    | some v => call (.run body (results ++ [v.view]) fut)
    | none => return { fut with source := .awaiting awaited body results }

/-- The executor runs what was posted, or the timer fires. -/
def fire : FutureCode Future :=
  match fut.source with
  | .async f => do
    let fut ← pop { fut with source := .none } false
    let v ← apply f (.datum (.value 0))
    call (.set v.isException v fut)
  | .asyncWait => do
    let fut ← pop { fut with source := .none } false
    call (.set false (.datum (.value 0)) fut)
  | .unstarted body => call (.run body [] fut)
  | .awaiting awaited body results =>
    match awaited.result with
    | some v => call (.run body (results ++ [v.view]) fut)
    | none => .fail
  | _ => .fail

def drop : FutureCode Future :=
  let dropped := { fut with held := false }
  match fut.held, fut.source with
  | true, .ended => dropped.destroy inCatch
  | true, _ => return dropped
  | false, _ => .fail

def event : List Selector → Event → FutureCode Future
  | [], .fire => fut.fire
  | [], .drop inCatch => fut.drop inCatch
  | [], .requestCancel inCatch => fut.requestCancel inCatch
  | .inner :: path, event =>
    match fut.waiting with
    | .inner inner => do
      let inner ← call (.event path event inner)
      unwrapInner { fut with waiting := .inner inner } inner.inCatch
    | _ => .fail
  | .value :: path, event =>
    match fut.waiting with
    | .ready (.future inner) => do
      let inner ← call (.event path event inner)
      return { fut with waiting := .ready (.future inner) }
    | _ => .fail
  | .awaited :: path, event =>
    match fut.source with
    | .awaiting awaited body results => do
      let awaited ← call (.event path event awaited)
      return { fut with source := .awaiting awaited body results }
    | _ => .fail
  | .future j :: path, event =>
    match fut.source.futures[j]? with
    | some future => do
      let after ← call (.event path event future)
      if future.isReady then
        return { fut with source := fut.source.setFutures (fut.source.futures.set j after) }
      else fut.change j after
    | none => .fail

end Future

/-- A primitive pushes its canceler on the token of its own future. -/
def waitFor (source : Source) : Future :=
  { token := { doCancels := [.source] }, source, waiting := .source }

def start : Expr → FutureCode Future
  | .ready d => return { source := .none, waiting := .ready (.datum d) }
  | .async f => return waitFor (.async f)
  | .asyncWait => return waitFor .asyncWait
  | .asyncResumable body kept stackful =>
    return { waitFor (.unstarted body) with held := kept, stackful }
  | .then e f => do
    let fut ← call (.start e)
    fut.attach (.then f)
  | .andThen e f => do
    let fut ← call (.start e)
    fut.attach (.andThen f)
  | .unwrap e => do
    let fut ← call (.start e)
    fut.attach .unwrap
  | .whenAll es => do
    let futures ← Code.callAll (es.map .start)
    -- the callbacks of those that are ready are called at once
    let count := futures.countP (·.isReady)
    let fut := waitFor (.whenAll futures count)
    if futures.isEmpty then return { source := .none, waiting := .ready (.datum (.all [])) }
    else if count = futures.length then
      call (.set false (.datum (.all ((Future.views futures).map fun d => d.getD .future))) fut)
    else return fut
  | .whenAny es autoCancel => do
    let futures ← Code.callAll (es.map .start)
    let fut := waitFor (.whenAny futures autoCancel false)
    if futures.isEmpty then return { source := .none, waiting := .ready (.datum (.any none [])) }
    else
      match futures.findIdx? (·.isReady) with
      | some j => fut.callback false j
      | none => return fut

def body : Op → FutureCode Future
  | .start e => start e
  | .requestCancel inCatch fut => fut.requestCancel inCatch
  | .callTop inCatch fut => fut.callTop inCatch
  | .set inCatch v fut => fut.set inCatch v
  | .cancelFutures inCatch js fut => fut.cancelFutures inCatch js
  | .run body results fut => fut.run body results
  | .event path event fut => fut.event path event

end Tconcurrent.SynchronousCancel
